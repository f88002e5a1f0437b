import RhypeDb.Basic.Lineage
import RhypeDb.SchemaCatalog.Verbs

/-! The rows of a catalog under one kind of name, and what opening a store does to them: rows are
added under the next ids, and rows that the schema no longer names are retired. -/

namespace RhypeDb.SchemaCatalog

open Fallible Function Lineage

inductive Path
  | type (name : String)
  | field (qual : Qualified)
  | relation (qual : Qualified)
  deriving DecidableEq

namespace Path

def space : Path → RowKind
  | type _ => .type
  | field _ => .field
  | relation _ => .relation

def name : Path → String
  | type name => name
  | field qual | relation qual => (splitQualified qual).2

def parent : Path → Option String
  | type _ => none
  | field qual | relation qual => some (splitQualified qual).1

end Path

def reading : Reading Path RowKind IdEntry where
  space := Path.space
  id := IdEntry.id
  retired e := e.status = .tombstoned

def Catalog.row (cat : Catalog) : Path → Option IdEntry
  | .type name => cat.typeEntries.lookup name
  | .field qual => cat.fieldEntries.lookup qual
  | .relation qual => cat.relEntries.lookup qual

@[simp] theorem Catalog.row_type (cat : Catalog) (name : String) :
    cat.row (.type name) = cat.typeEntries.lookup name := rfl

@[simp] theorem Catalog.row_field (cat : Catalog) (qual : Qualified) :
    cat.row (.field qual) = cat.fieldEntries.lookup qual := rfl

@[simp] theorem Catalog.row_relation (cat : Catalog) (qual : Qualified) :
    cat.row (.relation qual) = cat.relEntries.lookup qual := rfl

def Catalog.next (cat : Catalog) : RowKind → Nat
  | .type => cat.nextType
  | .field => cat.nextField
  | .relation => cat.nextRel

def Stored.row (st : Stored) : Path → Option IdEntry
  | .type name => st.typeRows.lookup name
  | .field qual => st.fieldRows.lookup qual
  | .relation qual => st.relRows.lookup qual

def Stored.counter (st : Stored) : RowKind → Nat
  | .type => st.nextType.getD 0
  | .field => st.nextField.getD 0
  | .relation => st.nextRel.getD 0

@[simp] theorem Stored.row_putEntries (st : Stored) (cat : Catalog) :
    (st.putEntries cat).row = cat.row := by
  funext p
  cases p <;> rfl

@[simp] theorem Stored.row_putRenamed (st : Stored)
    (r : Catalog × SortedMap ObjectKey Engine.FieldMap × Nat) :
    (st.putRenamed r).row = r.1.row := by
  funext p
  cases p <;> rfl

@[simp] theorem Stored.counter_putRenamed (st : Stored)
    (r : Catalog × SortedMap ObjectKey Engine.FieldMap × Nat) :
    (st.putRenamed r).counter = st.counter := by
  funext k
  cases k <;> rfl

@[simp] theorem Stored.counter_putEntries (st : Stored) (cat : Catalog) :
    (st.putEntries cat).counter = st.counter := by
  funext k
  cases k <;> rfl

@[simp] theorem Stored.row_putCounters (st : Stored) (cat : Catalog) (digest : Digest) :
    (st.putCounters cat digest).row = st.row := by
  funext p
  cases p <;> rfl

def Schema.Names (schema : Schema) : Path → Prop
  | .type name => (schema.types.lookup name).isSome
  | .field qual => (schema.field? qual).isSome
  | .relation qual => (schema.field? qual).any FieldDef.isRelation

instance (schema : Schema) : DecidablePred schema.Names := fun p =>
  match p with
  | .type _ | .field _ | .relation _ => inferInstanceAs (Decidable (_ = true))

variable {assignedBy : AssignedBy} {cat cat' : Catalog} {qual : Qualified}

def Allocates (cat : Catalog) (p : Path) (kind : Kind) (cat' : Catalog) : Prop :=
  ∃ assignedBy, cat'.row = Function.update cat.row p
      (some (.new assignedBy (cat.next p.space) kind)) ∧
    cat'.next = Function.update cat.next p.space (cat.next p.space + 1)

theorem checkedBump_eq_ok {kind : RowKind} {cur next : Nat} (h : checkedBump kind cur = .ok next) :
    next = cur + 1 := by
  unfold checkedBump at h
  split_ifs at h
  cases h
  rfl

theorem allocateType_ok {name : String} (h : allocateType assignedBy cat name = .ok cat') :
    Allocates cat (.type name) .unset cat' := by
  obtain ⟨next, hnext, rfl⟩ := map_eq_ok.mp h
  have hbump := checkedBump_eq_ok hnext
  subst hbump
  refine ⟨assignedBy, funext fun p => ?_, funext fun k => ?_⟩
  · cases p with
    | type n =>
      rw [update_apply]
      simp [Catalog.row, Catalog.next, Path.space, SortedMap.lookup_insert]
    | field q => exact (update_of_ne (by simp) _ _).symm
    | relation q => exact (update_of_ne (by simp) _ _).symm
  · cases k with
    | _ => rfl

theorem allocateField_ok {kind : Kind} (h : allocateField assignedBy cat qual kind = .ok cat') :
    Allocates cat (.field qual) kind cat' := by
  obtain ⟨next, hnext, rfl⟩ := map_eq_ok.mp h
  have hbump := checkedBump_eq_ok hnext
  subst hbump
  refine ⟨assignedBy, funext fun p => ?_, funext fun k => ?_⟩
  · cases p with
    | field q =>
      rw [update_apply]
      simp [Catalog.row, Catalog.next, Path.space, SortedMap.lookup_insert]
    | type n => exact (update_of_ne (by simp) _ _).symm
    | relation q => exact (update_of_ne (by simp) _ _).symm
  · cases k with
    | _ => rfl

theorem allocateRel_ok (h : allocateRel assignedBy cat qual = .ok cat') :
    Allocates cat (.relation qual) .relation cat' := by
  obtain ⟨next, hnext, rfl⟩ := map_eq_ok.mp h
  have hbump := checkedBump_eq_ok hnext
  subst hbump
  refine ⟨assignedBy, funext fun p => ?_, funext fun k => ?_⟩
  · cases p with
    | relation q =>
      rw [update_apply]
      simp [Catalog.row, Catalog.next, Path.space, SortedMap.lookup_insert]
    | type n => exact (update_of_ne (by simp) _ _).symm
    | field q => exact (update_of_ne (by simp) _ _).symm
  · cases k with
    | _ => rfl

end RhypeDb.SchemaCatalog
