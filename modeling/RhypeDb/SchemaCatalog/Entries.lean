import Mathlib.Data.Prod.Lex
import Mathlib.Data.String.Basic
import RhypeDb.Migration.Plan

/-! The persisted schema catalog: one row for each type, field and relation that a schema ever
named, the counters their ids are drawn from, and the schemas that are compared with it. -/

namespace RhypeDb.SchemaCatalog

open Engine

abbrev Qualified := Lex (String × String)

def qualified (typeName fieldName : String) : Qualified := toLex (typeName, fieldName)

def splitQualified (qual : Qualified) : String × String := ofLex qual

@[simp] theorem splitQualified_qualified (t f : String) : splitQualified (qualified t f) = (t, f) :=
  rfl

@[simp] theorem qualified_split (qual : Qualified) :
    qualified (splitQualified qual).1 (splitQualified qual).2 = qual := rfl

@[simp] theorem qualified_inj {t f t' f' : String} :
    qualified t f = qualified t' f' ↔ t = t' ∧ f = f' := by
  constructor
  · intro h
    have hpair : (t, f) = (t', f') := h
    exact Prod.mk.inj hpair
  · rintro ⟨rfl, rfl⟩
    rfl

def Qualified.shown (qual : Qualified) : String :=
  (splitQualified qual).1 ++ "." ++ (splitQualified qual).2

inductive Kind
  | unset
  | scalar (s : ScalarType)
  | vector
  | relation
  deriving DecidableEq, Repr

def schemaKind : FieldType → Kind
  | .scalar s => .scalar s
  | .vector _ => .vector
  | .relation _ => .relation

def Kind.isScalar : Kind → Bool
  | .scalar _ => true
  | _ => false

/-- `value_to_kind_byte`. -/
def valueToKind (v : Value) : Kind :=
  match Migration.valueToKind v with
  | some s => .scalar s
  | none => .unset

inductive RowKind
  | type
  | field
  | relation
  deriving DecidableEq, Repr

inductive CatalogError
  | reservedByteInIdentifier (name : String) (byte : Char)
  | reservedDoubleUnderscoreInIdentifier (name : String)
  | unsupportedFormat (got maxSupported : Nat)
  | missingRequiredKey (key : String)
  | tombstoneOnV1Catalog (rowKind : RowKind) (rowId : Nat)
  | duplicateId (kind : RowKind) (id : Nat) (first second : String)
  | counterOverflow (kind : RowKind)
  | schemaShrinkRequiresOptIn (droppedTypes : List String) (droppedFields droppedRels : List Qualified)
  | nameReuseOfRetiredEntry (kind : RowKind) (name : String) (retiredId : Nat)
  | fieldKindChanged (qual : Qualified) (was now : Kind)
  | renameNoOp (kind : RowKind) (name : String)
  | renameSourceNotFound (kind : RowKind) (name : String)
  | renameSourceRetired (kind : RowKind) (name : String) (retiredId : Nat)
  | renameTargetIsRetired (kind : RowKind) (name : String) (retiredId : Nat)
  | renameTargetCollision (kind : RowKind) (name : String) (existingId : Nat)
  | renameHistoryCapExceeded (kind : RowKind) (name : String) (cap : Nat)
  | migrationFieldHasActivePlan (qual : String) (planId : Nat)
  | fieldTypeChangeSourceNotFound (qual : Qualified)
  | fieldTypeChangeSourceRetired (qual : Qualified) (fieldId : Nat)
  | fieldTypeChangeNoOp (qual : Qualified)
  | fieldTypeChangeNonScalar (qual : Qualified) (currentKind requestedKind : Kind)
  | fieldTypeChangeDirectiveUnsupported (qual : Qualified) (directive : String)
  | fieldTypeChangeHistoryCapExceeded (qual : Qualified) (cap : Nat)
  | fieldTypeChangeConverterFailed (qual : Qualified) (objectId : Id)
  | fieldTypeChangeConverterReturnedWrongKind (qual : Qualified) (objectId : Id) (got want : Kind)
  | migrationListShorterThanApplied (codeCount catalogCount : Nat)
  | migrationNameMismatch (ordinal : Nat) (codeName catalogName : String)
  | migrationVerbFailed (ordinal : Nat) (name : String) (reason : CatalogError)
  deriving DecidableEq

def isReservedByte (c : Char) : Bool := c = Char.ofNat 0 || c = ':' || c = '.'

def checkIdentifier (name : String) : Except CatalogError Unit :=
  match name.toList.find? isReservedByte with
  | some byte => .error (.reservedByteInIdentifier name byte)
  | none =>
    if ['_', '_'] <:+: name.toList then
      .error (.reservedDoubleUnderscoreInIdentifier name)
    else .ok ()

/-- The check without its errors. -/
theorem checkIdentifier_eq_ok {name : String} :
    checkIdentifier name = .ok () ↔ Migration.checkIdentifier name = true := by
  unfold checkIdentifier Migration.checkIdentifier
  cases hfind : name.toList.find? isReservedByte with
  | some byte =>
    have hbyte := List.find?_some hfind
    have hmem := List.mem_of_find?_eq_some hfind
    refine ⟨nofun, fun h => ?_⟩
    have hall := List.all_eq_true.mp (Bool.and_eq_true_iff.mp h).1 byte hmem
    unfold isReservedByte at hbyte
    grind
  | none =>
    have hall : name.toList.all (fun c => c ≠ Char.ofNat 0 && c ≠ ':' && c ≠ '.') = true := by
      refine List.all_eq_true.mpr fun c hc => ?_
      have hnot := List.find?_eq_none.mp hfind c hc
      unfold isReservedByte at hnot
      grind
    rw [hall]
    grind

inductive TombstoneStatus
  | live
  | tombstoned
  deriving DecidableEq, Repr

inductive RetireReason
  | explicitShrink
  | cascadeParentRetired
  deriving DecidableEq, Repr

inductive AssignedBy
  | backfill
  | fresh
  deriving DecidableEq, Repr

structure RenameRecord where
  before : String
  after : String
  deriving DecidableEq, Repr

structure TypeChangeRecord where
  fromKind : Kind
  toKind : Kind
  deriving DecidableEq, Repr

structure IdEntry where
  id : Nat
  assignedBy : AssignedBy
  kind : Kind
  status : TombstoneStatus
  retiredReason : Option RetireReason
  previousNames : List RenameRecord
  typeChangeHistory : List TypeChangeRecord
  deriving DecidableEq, Repr

namespace IdEntry

def new (assignedBy : AssignedBy) (id : Nat) (kind : Kind) : IdEntry where
  id := id
  assignedBy := assignedBy
  kind := kind
  status := .live
  retiredReason := none
  previousNames := []
  typeChangeHistory := []

def tombstone (entry : IdEntry) (reason : RetireReason) : IdEntry :=
  { entry with status := .tombstoned, retiredReason := some reason }

def renamed (entry : IdEntry) (old new : String) : IdEntry :=
  { entry with previousNames := ⟨old, new⟩ :: entry.previousNames }

def retyped (entry : IdEntry) (kind : Kind) : IdEntry :=
  { entry with kind := kind, typeChangeHistory := ⟨entry.kind, kind⟩ :: entry.typeChangeHistory }

end IdEntry

def maxRenameHistory : Nat := 32

def maxTypeChangeHistory : Nat := 16

structure FulltextSpec where
  analyzer : String
  positions : Bool
  deriving DecidableEq, Repr

structure FieldDef where
  name : String
  fieldType : FieldType
  indexed : Bool
  unique : Bool
  inverse : Bool
  vectorize : Bool
  fulltext : Option FulltextSpec
  deriving DecidableEq, Repr

def FieldDef.isRelation (f : FieldDef) : Bool := decide (schemaKind f.fieldType = .relation)

/-- The types of a schema by name; the parser refuses a field declared twice. -/
structure Schema where
  types : SortedMap String (List FieldDef)
  fieldNames : ∀ e ∈ types.entries, (e.2.map FieldDef.name).Nodup

def Schema.field? (schema : Schema) (qual : Qualified) : Option FieldDef :=
  (schema.types.lookup (splitQualified qual).1).bind fun fields =>
    fields.find? fun f => decide (f.name = (splitQualified qual).2)

structure FieldDigest where
  name : String
  kind : Kind
  indexed : Bool
  unique : Bool
  inverse : Bool
  vectorize : Bool
  fulltext : Option FulltextSpec
  relation : Option (String × Bool)
  deriving DecidableEq, Repr

def FieldDef.digest (f : FieldDef) : FieldDigest where
  name := f.name
  kind := schemaKind f.fieldType
  indexed := f.indexed
  unique := f.unique
  inverse := f.inverse
  vectorize := f.vectorize
  fulltext := f.fulltext
  relation :=
    match f.fieldType with
    | .relation rel => some (rel.targetType, rel.isMany)
    | _ => none

abbrev Digest := List (String × List FieldDigest)

def Schema.digest (schema : Schema) : Digest :=
  schema.types.entries.map fun e => (e.1, e.2.map FieldDef.digest)

structure PlanRow where
  typeName : String
  fieldName : String
  srcKind : Kind
  targetKind : Kind
  status : Migration.MigrationStatus
  dryRun : Bool
  deriving DecidableEq, Repr

structure Catalog where
  formatVersion : Nat
  typeEntries : SortedMap String IdEntry
  fieldEntries : SortedMap Qualified IdEntry
  relEntries : SortedMap Qualified IdEntry
  nextType : Nat
  nextField : Nat
  nextRel : Nat

def catalogFormatV1 : Nat := 1
def catalogFormatV2 : Nat := 2
def catalogFormatV3 : Nat := 3
def catalogFormatV4 : Nat := 4
def catalogFormatV5 : Nat := 5
def catalogFormatCurrent : Nat := catalogFormatV5

namespace Catalog

def empty : Catalog where
  formatVersion := catalogFormatV1
  typeEntries := .empty
  fieldEntries := .empty
  relEntries := .empty
  nextType := 1
  nextField := 1
  nextRel := 1

end Catalog

/-- `o:<type_id>:<object_id>`, and the same of the generations. -/
structure ObjectKey where
  typeId : Nat
  objectId : Id
  deriving DecidableEq, Repr

namespace ObjectKey

def pair (key : ObjectKey) : Lex (Nat × Nat) := toLex (key.typeId, key.objectId.toNat)

theorem pair_injective : Function.Injective pair := by
  rintro ⟨t, o⟩ ⟨t', o'⟩ h
  have hpair : (t, o.toNat) = (t', o'.toNat) := h
  obtain ⟨rfl, hid⟩ := Prod.mk.inj hpair
  rw [UInt64.toNat_inj.mp hid]

instance : LinearOrder ObjectKey := LinearOrder.lift' pair pair_injective

end ObjectKey

/-- What is stored: the catalog's rows, the applied migrations, and the rows of objects that
catalog verbs rewrite. -/
structure Stored where
  format : Option Nat
  initialized : Bool
  digest : Option Digest
  typeRows : SortedMap String IdEntry
  fieldRows : SortedMap Qualified IdEntry
  relRows : SortedMap Qualified IdEntry
  nextType : Option Nat
  nextField : Option Nat
  nextRel : Option Nat
  plans : SortedMap Nat PlanRow
  nextMigration : Nat
  migrationVersion : Option Nat
  migrationLog : SortedMap Nat String
  objects : SortedMap ObjectKey FieldMap
  versions : SortedMap ObjectKey Nat

namespace Stored

def empty : Stored where
  format := none
  initialized := false
  digest := none
  typeRows := .empty
  fieldRows := .empty
  relRows := .empty
  nextType := none
  nextField := none
  nextRel := none
  plans := .empty
  nextMigration := 0
  migrationVersion := none
  migrationLog := .empty
  objects := .empty
  versions := .empty

def putEntries (st : Stored) (cat : Catalog) : Stored :=
  { st with
    format := some cat.formatVersion
    typeRows := cat.typeEntries
    fieldRows := cat.fieldEntries
    relRows := cat.relEntries }

def putCounters (st : Stored) (cat : Catalog) (digest : Digest) : Stored :=
  { st with
    nextType := some cat.nextType
    nextField := some cat.nextField
    nextRel := some cat.nextRel
    digest := some digest }

end Stored

end RhypeDb.SchemaCatalog
