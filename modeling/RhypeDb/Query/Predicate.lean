import RhypeDb.Query.Literal

/-! Filter predicates, their check against a type's schema, and their evaluation on an object's
fields. The comparison operators are those of the storage, one for one. -/

namespace RhypeDb.Query

open ByteOrder Engine Storage

inductive Predicate
  | compare (fieldPath : String) (op : CompareOp) (value : Literal)
  | contains (fieldPath : String) (needle : Bytes)
  | and (left right : Predicate)
  | or (left right : Predicate)
  deriving DecidableEq

def compareValues (codecs : Codecs) (fieldVal : Value) (op : CompareOp) (literal : Literal) :
    Bool :=
  match fieldVal, literal with
  | .string a, .string b => compareOrd a op b
  | .u32 a, .int b => compareOrd (a.toNat : Int) op b.toInt
  | .u64 a, .int b => compareOrd (a.toNat : Int) op b.toInt
  | .i32 a, .int b => compareOrd a.toInt op b.toInt
  | .i64 a, .int b => compareOrd a.toInt op b.toInt
  | .f32 a, .float b => compareFloat (widenF32 a) op b
  | .f64 a, .float b => compareFloat a op b
  | .f32 a, .int b => compareFloat (widenF32 a) op (f64OfInt b.toInt)
  | .f64 a, .int b => compareFloat a op (f64OfInt b.toInt)
  | .u32 a, .float b => compareFloat (f64OfInt a.toNat) op b
  | .u64 a, .float b => compareFloat (f64OfInt a.toNat) op b
  | .i32 a, .float b => compareFloat (f64OfInt a.toInt) op b
  | .i64 a, .float b => compareFloat (f64OfInt a.toInt) op b
  | .bool a, .bool b => compareEq (decide (a = b)) op
  | .dateTime a, .int b => compareOrd a.toInt op b.toInt
  | .dateTime a, .string b =>
    match codecs.datetimeMillis b with
    | .ok bms => compareOrd a.toInt op bms.toInt
    | .error _ => false
  | .json a, .json b => compareEq (codecs.jsonEq a b) op
  | .json a, .string b => compareEq (codecs.jsonEq a (codecs.jsonOf (.string b))) op
  | .json a, .int b => compareEq (codecs.jsonEq a (codecs.jsonOf (.int b))) op
  | .json a, .float b => compareEq (codecs.jsonEq a (codecs.jsonOf (.float b))) op
  | .json a, .bool b => compareEq (codecs.jsonEq a (codecs.jsonOf (.bool b))) op
  | a, .null => compareEq (decide (a = .null)) op
  | _, _ => false

def evaluatePredicate (codecs : Codecs) (fields : FieldMap) : Predicate → Bool
  | .compare fieldPath op value =>
    (fields.lookup fieldPath).any fun fv => compareValues codecs fv op value
  | .contains fieldPath needle =>
    match fields.lookup fieldPath with
    | some (.string s) => decide (needle <:+: s)
    | _ => false
  | .and left right => evaluatePredicate codecs fields left && evaluatePredicate codecs fields right
  | .or left right => evaluatePredicate codecs fields left || evaluatePredicate codecs fields right

def descends (fieldPath : String) : Bool := fieldPath.toList.contains '.'

def headSegment (fieldPath : String) : String :=
  .ofList (fieldPath.toList.takeWhile fun c => c ≠ '.')

def isOrdering : CompareOp → Bool
  | .eq => false
  | .ne => false
  | _ => true

def validateCompare (schema : Schema) (typeName fieldPath : String) (op : CompareOp)
    (value : Literal) : Except QueryError Unit :=
  match fieldScalarType schema typeName (headSegment fieldPath) with
  | some .json =>
    if descends fieldPath then
      .error (.type ("querying into a Json field by key/path is not supported yet " ++
        "(a Json field supports whole-value `==` / `!=` only)"))
    else if isOrdering op then
      .error (.type "ordering comparisons are not supported on Json fields")
    else .ok ()
  | some .bytes =>
    if !descends fieldPath ∧ value = .null ∧ (op = .eq ∨ op = .ne) then .ok ()
    else
      .error (.type ("comparisons on Bytes fields are not supported " ++
        "(only `== null` / `!= null`)"))
  | _ => .ok ()

def validateContains (schema : Schema) (typeName fieldPath : String) : Except QueryError Unit :=
  let head := headSegment fieldPath
  match fieldScalarType schema typeName head with
  | some .string =>
    if descends fieldPath then
      .error (.type ("`." ++ fieldPath ++ ".contains(...)`: cannot descend into a String field"))
    else .ok ()
  | some other =>
    .error (.type ("`.contains(...)` requires a String field; `" ++ typeName ++ "." ++ head ++
      "` is " ++ other.debug))
  | none =>
    if (schema.getType typeName).any fun t => (t.getField head).isSome then
      .error (.type ("`.contains(...)` requires a String field; `" ++ typeName ++ "." ++ head ++
        "` is a relation or vector field"))
    else
      .error (.type ("`.contains(...)`: unknown field `" ++ typeName ++ "." ++ head ++ "`"))

def validatePredicateForType (schema : Schema) (typeName : String) :
    Predicate → Except QueryError Unit
  | .compare fieldPath op value => validateCompare schema typeName fieldPath op value
  | .contains fieldPath _ => validateContains schema typeName fieldPath
  | .and left right => do
    validatePredicateForType schema typeName left
    validatePredicateForType schema typeName right
  | .or left right => do
    validatePredicateForType schema typeName left
    validatePredicateForType schema typeName right

end RhypeDb.Query
