import Mathlib.Data.List.ReduceOption
import RhypeDb.Engine.ScanRows
import RhypeDb.Query.Predicate

/-! The access path of a filter: a probe of a unique value, typed scans, an intersection or a
union of them, or none, which leaves the filter to a scan of the whole type. -/

namespace RhypeDb.Query

open ByteOrder Engine Fallible List SortDedup Storage

section

variable (codecs : Codecs) (schema : Schema) (reads : Reads) (typeName : String)

def scanned (result : Except EngineError (List Object)) : Except QueryError (Option (List Object)) :=
  (result.map some).mapError QueryError.engine

def millisOf : Literal → Option Int64
  | .int i => some i
  | .string s => (codecs.datetimeMillis s).toOption
  | _ => none

def pushLiteral (fieldPath : String) (op : CompareOp) (limit : Option Nat) :
    Literal → Except QueryError (Option (List Object))
  | .int i => scanned (filterScanAt schema reads typeName fieldPath op i limit)
  | .string s => scanned (filterScanStrAt schema reads typeName fieldPath op s limit)
  | .bool b => scanned (filterScanBoolAt schema reads typeName fieldPath op b limit)
  | .float bits => scanned (filterScanFloatAt schema reads typeName fieldPath op bits limit)
  | .json _ => .ok none
  | .null => .ok none

def tryFilterScan (predicate : Predicate) (limit : Option Nat) :
    Except QueryError (Option (List Object)) :=
  match predicate with
  | .compare fieldPath op value =>
    if descends fieldPath then .ok none
    else
      match fieldScalarType schema typeName fieldPath with
      | some .json => .ok none
      | some .dateTime =>
        match millisOf codecs value with
        | some millis => scanned (filterScanAt schema reads typeName fieldPath op millis limit)
        | none => .ok none
      | _ => pushLiteral schema reads typeName fieldPath op limit value
  | _ => .ok none

def isProbeType : ScalarType → Bool
  | .string => true
  | .u32 => true
  | .u64 => true
  | .i32 => true
  | .i64 => true
  | .dateTime => true
  | .bool => true
  | _ => false

def probeValue (fieldPath : String) (op : CompareOp) (value : Literal) : Option Value :=
  if op ≠ .eq ∨ descends fieldPath ∨ !isFieldUnique schema typeName fieldPath then none
  else
    (fieldScalarType schema typeName fieldPath).bind fun st =>
      if isProbeType st then
        ((literalToValue codecs value (some st)).toOption).filter fun v => decide (v ≠ .null)
      else none

def uniqueEqProbe (compare : Predicate) : Except QueryError (Option (List Object)) :=
  match compare with
  | .compare fieldPath op value =>
    match probeValue codecs schema typeName fieldPath op value with
    | none => .ok none
    | some coerced =>
      scanned ((findByUnique schema reads.store typeName fieldPath coerced).map Option.toList)
  | _ => .ok none

def intersectById (sets : List (List Object)) : List Object :=
  match sets.insertionSort fun a b => a.length ≤ b.length with
  | [] => []
  | base :: rest => base.filter fun o => rest.all fun s => decide (o.id ∈ s.map Object.id)

def refilterAndSort (predicate : Predicate) (candidates : List Object) : List Object :=
  sortDedupBy (fun o : Object => o.id.toNat)
    ((candidates.map Object.ensureFieldsDeserialized).filter fun o =>
      evaluatePredicate codecs o.fields predicate)

def flattenAnd : Predicate → List Predicate
  | .and left right => flattenAnd left ++ flattenAnd right
  | other => [other]

def flattenOr : Predicate → List Predicate
  | .or left right => flattenOr left ++ flattenOr right
  | other => [other]

def hitsIndex (st : ScalarType) (op : CompareOp) (value : Literal) : Bool :=
  match st, value with
  | .u32, .int i => decide (0 ≤ i ∧ i ≤ 4294967295)
  | .u64, .int i => decide (0 ≤ i)
  | .i32, .int i => decide (-2147483648 ≤ i ∧ i ≤ 2147483647)
  | .i64, .int _ => true
  | .dateTime, .int _ => true
  | .dateTime, .string _ => true
  | .string, .string _ => true
  | .bool, .bool _ => true
  | .f32, .float _ => decide (op ≠ .eq)
  | .f64, .float _ => decide (op ≠ .eq)
  | _, _ => false

def conjunctIndexGenerator (conjunct : Predicate) : Option Nat :=
  match conjunct with
  | .compare fieldPath op value =>
    if descends fieldPath ∨ op = .ne ∨ !isFieldIndexed schema typeName fieldPath then none
    else
      (fieldScalarType schema typeName fieldPath).bind fun st =>
        if hitsIndex st op value then
          some (if op = .eq then if st = .bool then 2 else 0 else 1)
        else none
  | _ => none

def firstProbe : List Predicate → Except QueryError (Option (List Object))
  | [] => .ok none
  | c :: conjuncts => do
    match ← uniqueEqProbe codecs schema reads typeName c with
    | some objects => return some objects
    | none => firstProbe conjuncts

def scanSets (generators : List Predicate) : Except QueryError (List (List Object)) := do
  let sets ← generators.mapM fun g => tryFilterScan codecs schema reads typeName g none
  return sets.reduceOption

def bestGenerator (conjuncts : List Predicate) : Option Predicate :=
  ((conjuncts.filterMap fun c =>
    (conjunctIndexGenerator schema typeName c).map fun rank => (rank, c)).argmin Prod.fst).map
      Prod.snd

def eqGenerators (conjuncts : List Predicate) : List Predicate :=
  (conjuncts.filter fun c =>
    decide (conjunctIndexGenerator schema typeName c = some 0)).take 2

def eqSets (conjuncts : List Predicate) : Except QueryError (List (List Object)) :=
  if (eqGenerators schema typeName conjuncts).length = 2 then
    scanSets codecs schema reads typeName (eqGenerators schema typeName conjuncts)
  else .ok []

/-- Strategies 2 and 3 of `plan_and`: two equalities, or one generator. -/
def planGenerators (predicate : Predicate) (conjuncts : List Predicate) :
    Except QueryError (Option (List Object)) := do
  let sets ← eqSets codecs schema reads typeName conjuncts
  if sets.length = 2 then
    return some (refilterAndSort codecs predicate (intersectById sets))
  else
    match bestGenerator schema typeName conjuncts with
    | none => return none
    | some generator =>
      let candidates ← tryFilterScan codecs schema reads typeName generator none
      return candidates.map (refilterAndSort codecs predicate)

def planAnd (predicate : Predicate) (conjuncts : List Predicate) :
    Except QueryError (Option (List Object)) := do
  match ← firstProbe codecs schema reads typeName conjuncts with
  | some objects => return some (refilterAndSort codecs predicate objects)
  | none => planGenerators codecs schema reads typeName predicate conjuncts

def unionScans : List Predicate → Except QueryError (Option (List Object))
  | [] => .ok (some [])
  | d :: disjuncts => do
    match ← uniqueEqProbe codecs schema reads typeName d with
    | some objects => return (← unionScans disjuncts).map (objects ++ ·)
    | none =>
      if (conjunctIndexGenerator schema typeName d).isSome then
        match ← tryFilterScan codecs schema reads typeName d none with
        | some objects => return (← unionScans disjuncts).map (objects ++ ·)
        | none => return none
      else return none

def planOrUnion (predicate : Predicate) (disjuncts : List Predicate) :
    Except QueryError (Option (List Object)) := do
  if disjuncts.length < 2 then return none
  else
    let unioned ← unionScans codecs schema reads typeName disjuncts
    return unioned.map (refilterAndSort codecs predicate)

def planFilterScan (predicate : Predicate) (pushedLimit : Option Nat) :
    Except QueryError (Option (List Object)) :=
  match predicate with
  | .compare .. => do
    match ← uniqueEqProbe codecs schema reads typeName predicate with
    | some objects => return some (refilterAndSort codecs predicate objects)
    | none => tryFilterScan codecs schema reads typeName predicate pushedLimit
  | .and .. => planAnd codecs schema reads typeName predicate (flattenAnd predicate)
  | .or .. => planOrUnion codecs schema reads typeName predicate (flattenOr predicate)
  | .contains .. => .ok none

end

def UniqueConsistent (schema : Schema) (store : Store) : Prop :=
  ∀ t ∈ schema.types, ∀ f ∈ t.fields, f.isUnique → ∀ bytes payload,
    store.lookup (.uniqueIndex t.typeId f.fieldId bytes) = some payload ↔
      ∃ row ∈ store.objectRows t.typeId, ∃ value, fieldOf f.name row = some value ∧
        value ≠ .null ∧ valueToIndexBytes value = bytes ∧ payload = .objectId row.1

structure Sound (schema : Schema) (store : Store) : Prop where
  index : IndexConsistent schema store
  unique : UniqueConsistent schema store
  typed : Typed schema store

variable (codecs : Codecs) (store : Store) (t : TypeDef)

def liveObjects : List Object := (store.objectRows t.typeId).map (.ofRow t.name)

def matching (p : Predicate) : List Object :=
  (liveObjects store t).filter fun o => evaluatePredicate codecs o.fields p

structure Covers (p : Predicate) (objects : List Object) : Prop where
  live : ∀ o ∈ objects, o ∈ liveObjects store t
  all : ∀ o ∈ liveObjects store t, evaluatePredicate codecs o.fields p = true → o ∈ objects

variable {codecs store t} {p q : Predicate} {objects objects' : List Object} {fields : FieldMap}

theorem pairwise_liveObjects : (liveObjects store t).Pairwise fun a b => a.id.toNat < b.id.toNat :=
  pairwise_map.mpr pairwise_objectRows

theorem eq_of_id_eq {a b : Object} (ha : a ∈ liveObjects store t) (hb : b ∈ liveObjects store t)
    (h : a.id.toNat = b.id.toNat) : a = b := by
  obtain ⟨row, hrow, rfl⟩ := mem_map.mp ha
  obtain ⟨row', hrow', rfl⟩ := mem_map.mp hb
  have hid : row.1 = row'.1 := UInt64.toNat_inj.mp h
  rw [mem_objectRows] at hrow hrow'
  rw [hid, hrow', Option.some.injEq] at hrow
  rw [Object.ofRow, Object.ofRow, hid, hrow]

theorem Covers.mono (h : Covers codecs store t q objects)
    (himp : ∀ fields, evaluatePredicate codecs fields p → evaluatePredicate codecs fields q) :
    Covers codecs store t p objects :=
  ⟨h.live, fun o ho hp => h.all o ho (himp _ hp)⟩

theorem Covers.refilter (h : Covers codecs store t p objects) :
    refilterAndSort codecs p objects = matching codecs store t p := by
  have hread : objects.map Object.ensureFieldsDeserialized = objects := by
    refine map_congr_left (fun o ho => ?_) |>.trans (map_id _)
    obtain ⟨row, -, rfl⟩ := mem_map.mp (h.live o ho)
    rw [Object.ensureFieldsDeserialized]
    split_ifs
    · rfl
    · rfl
  rw [refilterAndSort, hread]
  refine eq_of_mem_iff pairwise_sortDedupBy (pairwise_liveObjects.filter _) fun o => ?_
  rw [mem_sortDedupBy, matching, mem_filter, mem_filter]
  · exact ⟨fun ho => ⟨h.live o ho.1, ho.2⟩, fun ho => ⟨h.all o ho.1 ho.2, ho.2⟩⟩
  · intro a ha b hb
    exact eq_of_id_eq (h.live a (mem_filter.mp ha).1) (h.live b (mem_filter.mp hb).1)

theorem evaluate_flattenAnd : evaluatePredicate codecs fields p = true ↔
    ∀ c ∈ flattenAnd p, evaluatePredicate codecs fields c = true := by
  induction p with
  | and left right ihl ihr =>
    rw [evaluatePredicate, Bool.and_eq_true, ihl, ihr, flattenAnd, forall_mem_append]
  | _ => simp [flattenAnd]

end RhypeDb.Query
