import RhypeDb.Query.Planner

/-! What a single comparison reads: the typed scan it is pushed to asks of a value what the filter
does, except for an order of booleans, and a probe finds the one object that can satisfy it. -/

namespace RhypeDb.Query

open ByteOrder Engine Fallible List SortDedup Storage
open Option hiding filter_map mem_map

section

variable {codecs : Codecs} {schema : Schema} {reads : Reads} {t : TypeDef} {f : FieldDef}
  {fieldPath : String} {op : CompareOp} {value : Literal}

def Literal.isFloat : Literal → Bool
  | .float _ => true
  | _ => false

def Fits (st : Option ScalarType) (v : Value) : Prop :=
  match st with
  | some st => v = .null ∨ st.admits v
  | none => v = .null ∨ v.widenToU64.isSome

end

variable {codecs : Codecs} {schema : Schema} {reads : Reads} {t : TypeDef} {f : FieldDef}
  {fieldPath : String} {op : CompareOp} {value : Literal} {pass : Value → Bool}

def Plain (t : TypeDef) : Predicate → Prop
  | .compare fieldPath _ value => (t.getField (headSegment fieldPath)).isSome ∧ value.isFloat = false
  | .contains fieldPath _ => (t.getField (headSegment fieldPath)).isSome
  | .and left right => Plain t left ∧ Plain t right
  | .or left right => Plain t left ∧ Plain t right

theorem headSegment_eq (h : descends fieldPath = false) : headSegment fieldPath = fieldPath := by
  have hall : ∀ c ∈ fieldPath.toList, decide (c ≠ '.') = true := by
    rintro c hc
    refine decide_eq_true ?_
    rintro rfl
    rw [descends, contains_iff_mem.mpr hc] at h
    cases h
  rw [headSegment, takeWhile_eq_self_iff.mpr hall, String.ofList_toList]

theorem Plain.getField (h : Plain t (.compare fieldPath op value))
    (hpath : descends fieldPath = false) : ∃ f, t.getField fieldPath = some f := by
  have hhead := h.1
  rw [headSegment_eq hpath] at hhead
  exact isSome_iff_exists.mp hhead

end RhypeDb.Query
