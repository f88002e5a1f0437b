import RhypeDb.Engine.Compare

/-! Query literals, and the stored values they are coerced to by a field's declared type. Texts
are their UTF-8 bytes and floats their bits, as in values; the base64, RFC 3339 and JSON texts
are read and written by libraries, which stand as parameters. -/

namespace RhypeDb.Query

open ByteOrder Engine

inductive Literal
  | string (s : Bytes)
  | int (i : Int64)
  | float (bits : UInt64)
  | bool (b : Bool)
  | json (text : Bytes)
  | null
  deriving DecidableEq, Repr

inductive QueryError
  | engine (e : EngineError)
  | type (message : String)
  | literal (lit : Literal) (st : ScalarType)
  | invalidArgument (message : String)
  | resourceLimitExceeded (message : String)
  | permissionDenied (message : String)
  deriving DecidableEq

/-- The library functions: `bytes_from_base64`, `datetime_millis_from_rfc3339`, the JSON text of a
scalar literal, and the equality of two JSON texts as JSON values. -/
structure Codecs where
  bytesFromBase64 : Bytes → Except String Bytes
  datetimeMillis : Bytes → Except String Int64
  jsonOf : Literal → Bytes
  jsonEq : Bytes → Bytes → Bool

def fieldScalarType (schema : Schema) (typeName field : String) : Option ScalarType :=
  (schema.getType typeName).bind fun t => (t.getField field).bind fun f =>
    match f.fieldType with
    | .scalar st => some st
    | _ => none

variable (codecs : Codecs)

def untypedValue : Literal → Value
  | .string s => .string s
  | .int i => if 0 ≤ i ∧ i ≤ 4294967295 then .u32 i.toUInt64.toUInt32 else .i64 i
  | .float bits => .f32 (f32OfF64 bits)
  | .bool b => .bool b
  | .json text => .json text
  | .null => .null

def literalToValue (lit : Literal) (target : Option ScalarType) : Except QueryError Value :=
  match lit, target with
  | .null, _ => .ok .null
  | lit, none => .ok (untypedValue lit)
  | lit, some st =>
    let mismatch : Except QueryError Value := .error (.literal lit st)
    match st, lit with
    | .string, .string s => .ok (.string s)
    | .bool, .bool b => .ok (.bool b)
    | .u32, .int i =>
      if 0 ≤ i ∧ i ≤ 4294967295 then .ok (.u32 i.toUInt64.toUInt32) else mismatch
    | .u64, .int i => if 0 ≤ i then .ok (.u64 i.toUInt64) else mismatch
    | .i32, .int i =>
      if -2147483648 ≤ i ∧ i ≤ 2147483647 then .ok (.i32 i.toInt32) else mismatch
    | .i64, .int i => .ok (.i64 i)
    | .f32, .float bits => .ok (.f32 (f32OfF64 bits))
    | .f64, .float bits => .ok (.f64 bits)
    | .f32, .int i => .ok (.f32 (f32OfInt i.toInt))
    | .f64, .int i => .ok (.f64 (f64OfInt i.toInt))
    | .bytes, .string s => ((codecs.bytesFromBase64 s).map Value.bytes).mapError QueryError.type
    | .dateTime, .string s =>
      ((codecs.datetimeMillis s).map Value.dateTime).mapError QueryError.type
    | .dateTime, .int i => .ok (.dateTime i)
    | .json, .json text => .ok (.json text)
    | .json, .string s => .ok (.json (codecs.jsonOf (.string s)))
    | .json, .int i => .ok (.json (codecs.jsonOf (.int i)))
    | .json, .float bits => .ok (.json (codecs.jsonOf (.float bits)))
    | .json, .bool b => .ok (.json (codecs.jsonOf (.bool b)))
    | _, _ => mismatch

abbrev LiteralMap := AList (fun _ : String => Literal)

def coerceMap (declared : String → Option ScalarType) (literals : LiteralMap) :
    Except QueryError FieldMap :=
  literals.entries.foldlM (fun fields e => do
    let value ← literalToValue codecs e.2 (declared e.1)
    return fields.insert e.1 value) ∅

def literalMapToFieldMap (schema : Schema) (typeName : String) (literals : LiteralMap) :
    Except QueryError FieldMap :=
  coerceMap codecs (fieldScalarType schema typeName) literals

def edgeLiteralMapToFieldMap (schema : Schema) (sourceType fieldName : String)
    (literals : LiteralMap) : Except QueryError FieldMap :=
  coerceMap codecs (fun name =>
    (schema.getType sourceType).bind fun t => (t.getField fieldName).bind fun f =>
      f.relation?.bind fun rel =>
        (rel.edgeFields.reverse.find? fun e => decide (e.name = name)).map EdgeFieldDef.scalarType)
    literals

end RhypeDb.Query
