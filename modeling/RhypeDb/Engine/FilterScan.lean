import RhypeDb.Basic.SortDedup
import RhypeDb.Engine.Compare
import RhypeDb.Engine.IndexConsistency

/-! The reads behind a filter: scans of a type, probes of a unique value, and the typed scans that
go through a field's index, its zone maps or every object. -/

namespace RhypeDb.Engine

open ByteOrder KeyBuilder SortDedup Storage

/-- `rawFields` is the stored value of an object whose fields are not decoded yet. -/
structure Object where
  typeName : String
  id : Id
  fields : FieldMap
  rawFields : Option Payload
  deriving DecidableEq

namespace Object

def fromRaw (typeName : String) (id : Id) (rawFields : Payload) : Object :=
  { typeName, id, fields := ∅, rawFields := some rawFields }

def ensureFieldsDeserialized (o : Object) : Object :=
  if o.fields.entries.isEmpty then
    match o.rawFields with
    | some raw => { o with fields := raw.deserializeFields }
    | none => o
  else o

def ofRow (typeName : String) (row : Id × Payload) : Object :=
  { typeName, id := row.1, fields := row.2.deserializeFields, rawFields := none }

end Object

def Store.objectRows (store : Store) (typeId : Id) : List (Id × Payload) :=
  store.entries.filterMap fun e =>
    match e.1 with
    | .object t o => if t = typeId then some (o, e.2) else none
    | _ => none

def Store.indexRows (store : Store) (typeId fieldId : Id) (pre : Bytes) : List (Bytes × Payload) :=
  store.entries.filterMap fun e =>
    match e.1 with
    | .fieldIndex t f entry =>
      if t = typeId ∧ f = fieldId ∧ pre <+: entry then some (entry, e.2) else none
    | _ => none

/-- What the storage answers at one snapshot. Scans that skip blocks, or that cut each layer to
its first keys, answer for themselves. -/
structure Reads where
  store : Store
  scanFiltered : (typeId : Id) → FieldPredicate → List (Id × Payload)
  scanLimited : (typeId fieldId : Id) → (pre : Bytes) → Nat → List (Bytes × Payload)
  scanFromLimited : (typeId fieldId : Id) → (start : Bytes) → Nat → List (Bytes × Payload)

section

variable (schema : Schema) (store : Store)

def get (typeName : String) (objectId : Id) : Except EngineError Object := do
  let t ← require (.typeNotFound typeName) (schema.getType typeName)
  let data ← require (.objectNotFound typeName objectId) (store.lookup (.object t.typeId objectId))
  return .ofRow typeName (objectId, data)

def scanType (typeName : String) : Except EngineError (List Object) := do
  let t ← require (.typeNotFound typeName) (schema.getType typeName)
  return (store.objectRows t.typeId).map (.ofRow typeName)

def storedRows (typeId : Id) (ids : List Id) : List (Id × Payload) :=
  (sortDedupBy UInt64.toNat ids).filterMap fun objectId =>
    (store.lookup (.object typeId objectId)).map fun data => (objectId, data)

def getManyLazy (typeName : String) (ids : List Id) : Except EngineError (List Object) := do
  let t ← require (.typeNotFound typeName) (schema.getType typeName)
  return (storedRows store t.typeId ids).map fun row => .fromRaw typeName row.1 row.2

def isFieldIndexed (typeName fieldName : String) : Bool :=
  (schema.getType typeName).any fun t => t.indexedFields.any fun ifd => decide (ifd.name = fieldName)

def isFieldUnique (typeName fieldName : String) : Bool :=
  (schema.getType typeName).any fun t => (t.getField fieldName).any FieldDef.isUnique

def findByUnique (typeName fieldName : String) (value : Value) :
    Except EngineError (Option Object) := do
  let t ← require (.typeNotFound typeName) (schema.getType typeName)
  return (t.getField fieldName).bind fun f =>
    match store.lookup (uniqueKey t f value) with
    | some (.objectId objectId) =>
      (store.lookup (.object t.typeId objectId)).map fun data => .ofRow typeName (objectId, data)
    | _ => none

variable (reads : Reads) (t : TypeDef) (fieldId : Id)

def idOf (bytes : Bytes) : Id := .ofNat (ofBe bytes)

def parseFixed (entry : Bytes) : Option (UInt64 × Id) :=
  if entry.length = 17 then some (.ofNat (ofBe (entry.take 8)), idOf (entry.drop 9)) else none

def findTerminator : Bytes → Option Nat
  | a :: b :: rest =>
    if a = 0 ∧ b = 0 then some 0 else (findTerminator (b :: rest)).map (· + 1)
  | _ => none

def parseVar (entry : Bytes) : Option (Bytes × Id) :=
  if entry.length < 10 then none
  else (findTerminator (entry.take (entry.length - 8))).map fun term =>
    (entry.take (term + 2), idOf ((entry.drop (term + 2)).take 8))

def parseOwner (entry : Bytes) : Option (Unit × Id) :=
  some ((), idOf (entry.drop (entry.length - 8)))

/-- The entries that pass, with the ids they belong to; one that does not pass may end the walk. -/
def walkIndex {β : Type} (parse : Bytes → Option (β × Id)) (pass : β → Bool) (stop : Bool) :
    List (Bytes × Payload) → List (Id × Payload)
  | [] => []
  | e :: es =>
    match parse e.1 with
    | none => walkIndex parse pass stop es
    | some (value, objectId) =>
      if pass value then (objectId, e.2) :: walkIndex parse pass stop es
      else if stop then []
      else walkIndex parse pass stop es

def capped {α : Type} (limit : Option Nat) (l : List α) : List α :=
  match limit with
  | some n => l.take n
  | none => l

def materialize (rows : List (Id × Payload)) : List Object :=
  (rows.filter fun row => !row.2.isEmpty).map (.ofRow t.name) ++
    (storedRows reads.store t.typeId
      ((rows.filter fun row => row.2.isEmpty).map Prod.fst)).map (.ofRow t.name)

def isUpper (op : CompareOp) : Bool := decide (op = .lt ∨ op = .le)

def equalRows (pre : Bytes) (limit : Option Nat) : List (Id × Payload) :=
  let entries :=
    match limit with
    | some n => reads.scanLimited t.typeId fieldId pre n
    | none => reads.store.indexRows t.typeId fieldId pre
  walkIndex parseOwner (fun _ => true) false entries

def rangeEntries (op : CompareOp) (target : Bytes) (limit : Option Nat) : List (Bytes × Payload) :=
  match op, limit with
  | .gt, some n =>
    if ofBe target = 2 ^ 64 - 1 then []
    else reads.scanFromLimited t.typeId fieldId (be 8 (ofBe target + 1)) n
  | .ge, some n => reads.scanFromLimited t.typeId fieldId target n
  | .lt, some n => reads.scanLimited t.typeId fieldId [] n
  | .le, some n => reads.scanLimited t.typeId fieldId [] n
  | _, _ => reads.store.indexRows t.typeId fieldId []

def filterScanViaIndex (op : CompareOp) (target : Bytes) (limit : Option Nat) : List Object :=
  let rows :=
    if op = .eq then equalRows reads t fieldId (target ++ [separator]) limit
    else walkIndex parseFixed (fun value => op.holds value (.ofNat (ofBe target))) (isUpper op)
      (rangeEntries reads t fieldId op target limit)
  materialize reads t (capped limit rows)

/-- For encodings that end in a terminator. The range scan is never cut. -/
def filterScanViaIndexVar (op : CompareOp) (target : Bytes) (limit : Option Nat) : List Object :=
  let rows :=
    if op = .eq then equalRows reads t fieldId target limit
    else walkIndex parseVar (fun value => compareOrd value op target) (isUpper op)
      (reads.store.indexRows t.typeId fieldId [])
  materialize reads t (capped limit rows)

end

variable (schema : Schema) (reads : Reads)

def fieldOf (fieldName : String) (row : Id × Payload) : Option Value :=
  row.2.deserializeFields.lookup fieldName

def passingRows (fieldName : String) (pass : Value → Bool) (rows : List (Id × Payload)) :
    List (Id × Payload) :=
  rows.filter fun row => (fieldOf fieldName row).any pass

def filterScanFallback (t : TypeDef) (fieldName : String) (limit : Option Nat)
    (pass : Value → Bool) : List Object :=
  (capped limit (passingRows fieldName pass (reads.store.objectRows t.typeId))).map (.ofRow t.name)

def findIndexed (t : TypeDef) (fieldName : String) : Option IndexedField :=
  t.indexedFields.find? fun ifd => decide (ifd.name = fieldName)

def intTarget (fieldType : FieldType) (target : Int64) : Option Value :=
  match fieldType with
  | .scalar .u32 =>
    if 0 ≤ target ∧ target ≤ 4294967295 then some (.u32 target.toUInt64.toUInt32) else none
  | .scalar .u64 => if 0 ≤ target then some (.u64 target.toUInt64) else none
  | .scalar .i32 =>
    if -2147483648 ≤ target ∧ target ≤ 2147483647 then some (.i32 target.toInt32) else none
  | .scalar .i64 => some (.i64 target)
  | .scalar .dateTime => some (.dateTime target)
  | _ => none

def passesInt (op : CompareOp) (target : Int64) : Value → Bool
  | .u32 n => compareOrd (n.toNat : Int) op target.toInt
  | .u64 n => compareOrd (n.toNat : Int) op target.toInt
  | .i32 n => compareOrd n.toInt op target.toInt
  | .i64 n => compareOrd n.toInt op target.toInt
  | .dateTime ms => compareOrd ms.toInt op target.toInt
  | .f64 bits => compareFloat bits op (f64OfInt target.toInt)
  | .f32 bits => compareFloat (widenF32 bits) op (f64OfInt target.toInt)
  | _ => false

def passesBool (op : CompareOp) (target : Bool) : Value → Bool
  | .bool b => compareOrd b op target
  | _ => false

def passesFloat (op : CompareOp) (target : UInt64) : Value → Bool
  | .f64 bits => compareFloat bits op target
  | .f32 bits => compareFloat (widenF32 bits) op target
  | .u32 n => compareFloat (f64OfInt n.toNat) op target
  | .u64 n => compareFloat (f64OfInt n.toNat) op target
  | .i32 n => compareFloat (f64OfInt n.toInt) op target
  | .i64 n => compareFloat (f64OfInt n.toInt) op target
  | _ => false

def passesString (op : CompareOp) (target : Bytes) : Value → Bool
  | .string s => compareOrd s op target
  | _ => false

def valuePassesIntPredicate (op : CompareOp) (target64 : UInt64) (value : Value) : Bool :=
  (encodeIntForZone value).any fun bytes => op.holds (.ofNat (ofBe bytes)) target64

def intTargetBytes (f : FieldDef) (target : Int64) : Option Bytes :=
  (intTarget f.fieldType target).bind encodeIntForZone

def filterScanAt (typeName fieldName : String) (op : CompareOp) (target : Int64)
    (limit : Option Nat) : Except EngineError (List Object) := do
  let t ← require (.typeNotFound typeName) (schema.getType typeName)
  let f ← require (.fieldNotFound typeName fieldName) (t.getField fieldName)
  match intTargetBytes f target with
  | none => return filterScanFallback reads t fieldName limit (passesInt op target)
  | some targetBytes =>
    match findIndexed t fieldName with
    | some ifd => return filterScanViaIndex reads t ifd.fieldId op targetBytes limit
    | none =>
      let target64 : UInt64 := .ofNat (ofBe targetBytes)
      let rows := reads.scanFiltered t.typeId ⟨f.fieldId.toUInt32, op, target64⟩
      return (capped limit (passingRows fieldName (valuePassesIntPredicate op target64) rows)).map
        (.ofRow t.name)

def filterScanBoolAt (typeName fieldName : String) (op : CompareOp) (target : Bool)
    (limit : Option Nat) : Except EngineError (List Object) := do
  let t ← require (.typeNotFound typeName) (schema.getType typeName)
  let _ ← require (.fieldNotFound typeName fieldName) (t.getField fieldName)
  match (findIndexed t fieldName).filter fun ifd => decide (ifd.kind = .bool) with
  | some ifd =>
    return filterScanViaIndex reads t ifd.fieldId op (be 8 (if target then 1 else 0)) limit
  | none =>
    return filterScanFallback reads t fieldName limit (passesBool op target)

def filterScanFloatAt (typeName fieldName : String) (op : CompareOp) (target : UInt64)
    (limit : Option Nat) : Except EngineError (List Object) := do
  let t ← require (.typeNotFound typeName) (schema.getType typeName)
  let f ← require (.fieldNotFound typeName fieldName) (t.getField fieldName)
  let isFloat := f.fieldType = .scalar .f32 ∨ f.fieldType = .scalar .f64
  match (findIndexed t fieldName).filter fun ifd => decide (isFloat ∧ ifd.kind = .float) with
  | some ifd => return filterScanViaIndex reads t ifd.fieldId op (encodeF64ForIndex target) limit
  | none =>
    return filterScanFallback reads t fieldName limit (passesFloat op target)

def filterScanStrAt (typeName fieldName : String) (op : CompareOp) (target : Bytes)
    (limit : Option Nat) : Except EngineError (List Object) := do
  let t ← require (.typeNotFound typeName) (schema.getType typeName)
  let _ ← require (.fieldNotFound typeName fieldName) (t.getField fieldName)
  match (findIndexed t fieldName).filter fun ifd => decide (ifd.kind = .string) with
  | some ifd =>
    return filterScanViaIndexVar reads t ifd.fieldId op (encodeBytesForIndex target) limit
  | none =>
    return filterScanFallback reads t fieldName limit (passesString op target)

end RhypeDb.Engine
