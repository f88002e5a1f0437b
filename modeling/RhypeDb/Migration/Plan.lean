import RhypeDb.Engine.Database

/-! Online field-type migrations: the persisted plan, and what the backfill, the double-write
hook, the cutover and the rollback do to the blob of one object. While the plan is unsettled the
blob carries the converted value beside the source, with the version of the converter. -/

namespace RhypeDb.Migration

open AList Engine Storage

/-- `value_to_kind_byte`; Null has no kind. -/
def valueToKind : Value → Option ScalarType
  | .string _ => some .string
  | .u32 _ => some .u32
  | .u64 _ => some .u64
  | .i32 _ => some .i32
  | .i64 _ => some .i64
  | .f32 _ => some .f32
  | .f64 _ => some .f64
  | .bool _ => some .bool
  | .bytes _ => some .bytes
  | .dateTime _ => some .dateTime
  | .json _ => some .json
  | .null => none

abbrev Converter := Id → Value → Except EngineError Value

inductive MigrationStatus
  | pending
  | running
  | completed
  | cancelled
  | failed
  | awaitingConverter
  | dryRunCompleted
  deriving DecidableEq, Repr

namespace MigrationStatus

def quiesces : MigrationStatus → Bool
  | completed | cancelled | dryRunCompleted => false
  | _ => true

def isDrivable : MigrationStatus → Bool
  | pending | running => true
  | _ => false

end MigrationStatus

inductive MigrationPhase
  | converting
  | cuttingOver
  | rollingBack
  deriving DecidableEq, Repr

inductive ErrorPolicy
  | stop
  | skipAndLog
  | quarantine
  deriving DecidableEq, Repr

structure PinnedPlan where
  srcKind : ScalarType
  targetKind : ScalarType
  chunkSize : Nat
  converterVersion : UInt32
  parallelDegree : Nat
  idUpperBound : Id
  errorPolicy : ErrorPolicy
  dryRun : Bool
  quarantineCap : Nat
  deriving DecidableEq, Repr

structure MigrationPlan extends PinnedPlan where
  status : MigrationStatus
  phase : MigrationPhase
  cutoverCursor : Id
  deriving DecidableEq, Repr

inductive MigrationError
  | engine (e : EngineError)
  | rowUnexpectedKind (objectId : Id) (got : Option ScalarType) (expected : ScalarType)
  | converterFailed (objectId : Id) (reason : EngineError)
  | converterReturnedWrongKind (objectId : Id) (got : Option ScalarType) (want : ScalarType)
  | fieldConverterUnresolved
  | cutoverShadowMissing (objectId : Id)
  | cutoverShadowStale (objectId : Id) (foundCv wantCv : UInt32)

/-- Only a converter's own failure is left to the error policy. -/
def MigrationError.isPolicyGoverned : MigrationError → Bool
  | converterFailed _ _ => true
  | _ => false

def ofEngine {α : Type} : Except EngineError α → Except MigrationError α
  | .ok a => .ok a
  | .error e => .error (.engine e)

/-- One partition's progress; `errors` counts the rows whose converter failed. -/
structure PartitionCursor where
  cursor : Id
  errors : Nat
  done : Bool
  deriving DecidableEq, Repr

def PartitionCursor.new : PartitionCursor := { cursor := 0, errors := 0, done := false }

def defaultMigrationChunkSize : Nat := 1024

def PinnedPlan.chunk (p : PinnedPlan) : Nat :=
  if p.chunkSize = 0 then defaultMigrationChunkSize else p.chunkSize

/-- The half-open range of ids of a partition. The saturating sums are cut off at the bound. -/
def partitionRange (n : Nat) (idUpperBound : Id) (idx : Nat) : Nat × Nat :=
  let n := max n 1
  let bound := idUpperBound.toNat
  let width := bound - 1
  if width = 0 then (max bound 1, max bound 1)
  else
    let span := max ((width + n - 1) / n) 1
    (min (idx * span + 1) bound, min ((idx + 1) * span + 1) bound)

section

variable (field : String)

def shadowName : String := field ++ "__shadow"

def shadowCvName : String := field ++ "__shadow_cv"

def HasCurrentShadow (version : UInt32) (fields : FieldMap) : Prop :=
  (fields.lookup (shadowName field)).isSome ∧
    fields.lookup (shadowCvName field) = some (.u32 version)

instance (version : UInt32) (fields : FieldMap) : Decidable (HasCurrentShadow field version fields) :=
  inferInstanceAs (Decidable (_ ∧ _))

def withShadow (fields : FieldMap) (value : Value) (version : UInt32) : FieldMap :=
  (fields.insert (shadowName field) value).insert (shadowCvName field) (.u32 version)

def stripShadow (fields : FieldMap) : FieldMap :=
  (fields.erase (shadowName field)).erase (shadowCvName field)

variable (p : PinnedPlan)

def convertRowForBackfill (converter : Converter) (objectId : Id) (fields : FieldMap) :
    Except MigrationError (Option FieldMap) :=
  match fields.lookup field with
  | none => .ok none
  | some old =>
    if valueToKind old = some p.targetKind ∨ valueToKind old = none then .ok none
    else if valueToKind old ≠ some p.srcKind then
      .error (.rowUnexpectedKind objectId (valueToKind old) p.srcKind)
    else if HasCurrentShadow field p.converterVersion fields then .ok none
    else
      match converter objectId old with
      | .error e => .error (.converterFailed objectId e)
      | .ok new =>
        if valueToKind new ≠ some p.targetKind then
          .error (.converterReturnedWrongKind objectId (valueToKind new) p.targetKind)
        else .ok (some (withShadow field fields new p.converterVersion))

/-- The cutover would find the source still unconverted. -/
def quarantineUnresolved (fields : FieldMap) : Bool :=
  match fields.lookup field with
  | none => false
  | some value =>
    decide (valueToKind value = some p.srcKind ∧ p.srcKind ≠ p.targetKind ∧
      ¬ HasCurrentShadow field p.converterVersion fields)

structure MigratingFieldHook where
  converter : Option Converter
  targetKind : ScalarType
  converterVersion : UInt32

def applyMigratingFieldHook (hook : Option MigratingFieldHook) (objectId : Id) (fields : FieldMap) :
    Except MigrationError FieldMap :=
  match hook, fields.lookup field with
  | none, _ => .ok fields
  | some _, none => .ok fields
  | some _, some .null => .ok fields
  | some h, some value =>
    match h.converter with
    | none => .error .fieldConverterUnresolved
    | some converter =>
      match converter objectId value with
      | .error e => .error (.engine e)
      | .ok new =>
        if valueToKind new ≠ some h.targetKind then
          .error (.converterReturnedWrongKind objectId (valueToKind new) h.targetKind)
        else .ok (withShadow field fields new h.converterVersion)

def cutoverRow (objectId : Id) (fields : FieldMap) : Except MigrationError (Option FieldMap) :=
  match fields.lookup (shadowName field) with
  | none =>
    match fields.lookup field with
    | none => .ok none
    | some .null => .ok none
    | some value =>
      if valueToKind value = some p.targetKind ∨ p.errorPolicy ≠ .stop then .ok none
      else .error (.cutoverShadowMissing objectId)
  | some shadow =>
    let foundCv := match fields.lookup (shadowCvName field) with
      | some (.u32 v) => v
      | _ => 0
    if foundCv ≠ p.converterVersion then
      .error (.cutoverShadowStale objectId foundCv p.converterVersion)
    else .ok (some (stripShadow field (fields.insert field shadow)))

def rollbackRow (fields : FieldMap) : Option FieldMap :=
  if (fields.lookup (shadowName field)).isNone ∧ (fields.lookup (shadowCvName field)).isNone then
    none
  else some (stripShadow field fields)

end

section

variable {field : String} {fields : FieldMap} {value : Value} {version : UInt32}

theorem field_ne_shadowName : field ≠ shadowName field := by
  intro h
  have hlength := congrArg String.length h
  unfold shadowName at hlength
  rw [String.length_append] at hlength
  have : "__shadow".length = 8 := rfl
  omega

theorem field_ne_shadowCvName : field ≠ shadowCvName field := by
  intro h
  have hlength := congrArg String.length h
  unfold shadowCvName at hlength
  rw [String.length_append] at hlength
  have : "__shadow_cv".length = 11 := rfl
  omega

theorem shadowName_ne_shadowCvName : shadowName field ≠ shadowCvName field := by
  intro h
  have hlength := congrArg String.length h
  unfold shadowName shadowCvName at hlength
  rw [String.length_append, String.length_append] at hlength
  have : "__shadow".length = 8 := rfl
  have : "__shadow_cv".length = 11 := rfl
  omega

@[simp] theorem lookup_withShadow_field :
    (withShadow field fields value version).lookup field = fields.lookup field := by
  unfold withShadow
  rw [lookup_insert_ne field_ne_shadowCvName, lookup_insert_ne field_ne_shadowName]

@[simp] theorem lookup_withShadow_shadow :
    (withShadow field fields value version).lookup (shadowName field) = some value := by
  unfold withShadow
  rw [lookup_insert_ne shadowName_ne_shadowCvName, lookup_insert]

@[simp] theorem lookup_withShadow_cv :
    (withShadow field fields value version).lookup (shadowCvName field) = some (.u32 version) := by
  unfold withShadow
  rw [lookup_insert]

theorem hasCurrentShadow_withShadow :
    HasCurrentShadow field version (withShadow field fields value version) := by
  constructor
  · rw [lookup_withShadow_shadow]
    rfl
  · exact lookup_withShadow_cv

@[simp] theorem lookup_stripShadow_field :
    (stripShadow field fields).lookup field = fields.lookup field := by
  unfold stripShadow
  rw [lookup_erase_ne field_ne_shadowCvName, lookup_erase_ne field_ne_shadowName]

@[simp] theorem lookup_stripShadow_shadow :
    (stripShadow field fields).lookup (shadowName field) = none := by
  unfold stripShadow
  rw [lookup_erase_ne shadowName_ne_shadowCvName, lookup_erase]

@[simp] theorem lookup_stripShadow_cv :
    (stripShadow field fields).lookup (shadowCvName field) = none := by
  unfold stripShadow
  rw [lookup_erase]

end

/-- `check_identifier`: no zero byte, colon or dot, and no two underscores in a row. -/
def checkIdentifier (name : String) : Bool :=
  name.toList.all (fun c => c ≠ Char.ofNat 0 && c ≠ ':' && c ≠ '.') &&
    !decide (['_', '_'] <:+: name.toList)

structure CheckedType where
  t : TypeDef
  checked : ∀ f ∈ t.fields, checkIdentifier f.name = true

theorem checkIdentifier_append {name rest : String} (h : ['_', '_'] <+: rest.toList) :
    checkIdentifier (name ++ rest) = false := by
  have hinfix : ['_', '_'] <:+: (name ++ rest).toList := by
    rw [String.toList_append]
    exact h.isInfix.trans (List.suffix_append _ _).isInfix
  unfold checkIdentifier
  rw [decide_eq_true hinfix]
  exact Bool.and_false _

theorem CheckedType.getField_shadow (c : CheckedType) {field : String} :
    c.t.getField (shadowName field) = none ∧ c.t.getField (shadowCvName field) = none := by
  have hnone : ∀ name, checkIdentifier name = false → c.t.getField name = none := by
    intro name hname
    rw [Option.eq_none_iff_forall_not_mem]
    intro f hf
    obtain ⟨hmem, rfl⟩ := TypeDef.mem_of_getField hf
    rw [c.checked f hmem] at hname
    cases hname
  exact ⟨hnone _ (checkIdentifier_append ⟨_, rfl⟩), hnone _ (checkIdentifier_append ⟨_, rfl⟩)⟩

end RhypeDb.Migration
