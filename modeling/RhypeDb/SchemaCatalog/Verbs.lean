import RhypeDb.SchemaCatalog.Open

/-! The verbs that change an initialized catalog without a schema's say: renames of types, fields
and relations, the offline change of a field's type, and the plans of online ones. None of them
touches the stored digest. -/

namespace RhypeDb.SchemaCatalog

open Engine Fallible

section

variable (cat : Catalog) {κ : Type} [LinearOrder κ]

def liveEntry (kind : RowKind) (shown : String) (entry : Option IdEntry) :
    Except CatalogError IdEntry := do
  match entry with
  | none => throw (.renameSourceNotFound kind shown)
  | some entry =>
    require (entry.status = .live) (.renameSourceRetired kind shown entry.id)
    pure entry

def refuseTaken (kind : RowKind) (shown : String) (existing : Option IdEntry) :
    Except CatalogError Unit :=
  match existing with
  | none => .ok ()
  | some existing =>
    if existing.status = .tombstoned then .error (.renameTargetIsRetired kind shown existing.id)
    else .error (.renameTargetCollision kind shown existing.id)

def checkHistory (kind : RowKind) (shown : String) (entry : IdEntry) : Except CatalogError Unit :=
  require (entry.previousNames.length + 1 ≤ maxRenameHistory)
    (.renameHistoryCapExceeded kind shown maxRenameHistory)

def rekeyChildren (old new : String) (entries : SortedMap Qualified IdEntry) :
    SortedMap Qualified IdEntry :=
  (entries.entries.filter fun e => decide ((splitQualified e.1).1 = old)).foldl
    (fun m e => (m.erase e.1).insert (qualified new (splitQualified e.1).2) e.2) entries

def rekey (entries : SortedMap κ IdEntry) (old new : κ) (entry : IdEntry) : SortedMap κ IdEntry :=
  (entries.erase old).insert new entry

def renameTypeVerb (old new : String) : Except CatalogError Catalog := do
  require (old ≠ new) (.renameNoOp .type old)
  checkIdentifier new
  let entry ← liveEntry .type old (cat.typeEntries.lookup old)
  refuseTaken .type new (cat.typeEntries.lookup new)
  checkHistory .type old entry
  pure
    { cat with
      typeEntries := rekey cat.typeEntries old new (entry.renamed old new)
      fieldEntries := rekeyChildren old new cat.fieldEntries
      relEntries := rekeyChildren old new cat.relEntries }

/-- What the two field verbs check before they rewrite anything; the entry is the field's own or
the relation's. -/
def checkFieldRename (entries : SortedMap Qualified IdEntry) (typeName old new : String) :
    Except CatalogError (IdEntry × IdEntry) := do
  require (old ≠ new) (.renameNoOp .field (qualified typeName old).shown)
  checkIdentifier new
  let parent ← liveEntry .type typeName (cat.typeEntries.lookup typeName)
  let entry ← liveEntry .field (qualified typeName old).shown (entries.lookup (qualified typeName old))
  let shown := (qualified typeName new).shown
  refuseTaken .field shown (cat.fieldEntries.lookup (qualified typeName new))
  refuseTaken .field shown (cat.relEntries.lookup (qualified typeName new))
  checkHistory .field (qualified typeName old).shown entry
  pure (parent, entry)

def renameKey (old new : String) (fields : FieldMap) : FieldMap :=
  match fields.lookup old with
  | some value => (fields.erase old).insert new value
  | none => fields

def renameInObjects (typeId : Nat) (old new : String) (objects : SortedMap ObjectKey FieldMap) :
    SortedMap ObjectKey FieldMap :=
  objects.mapValues fun key fields => if key.typeId = typeId then renameKey old new fields else fields

def renameFieldVerb (objects : SortedMap ObjectKey FieldMap) (typeName old new : String) :
    Except CatalogError (Catalog × SortedMap ObjectKey FieldMap) := do
  let (parent, entry) ← checkFieldRename cat cat.fieldEntries typeName old new
  pure
    ({ cat with
        fieldEntries := rekey cat.fieldEntries (qualified typeName old) (qualified typeName new)
          (entry.renamed old new) },
      renameInObjects parent.id old new objects)

def renamedField (typeName old new : String) : SortedMap Qualified IdEntry :=
  match cat.fieldEntries.lookup (qualified typeName old) with
  | some field => rekey cat.fieldEntries (qualified typeName old) (qualified typeName new)
      (field.renamed old new)
  | none => cat.fieldEntries

def renameRelationVerb (typeName old new : String) : Except CatalogError Catalog := do
  let (_, entry) ← checkFieldRename cat cat.relEntries typeName old new
  pure
    { cat with
      fieldEntries := renamedField cat typeName old new
      relEntries := rekey cat.relEntries (qualified typeName old) (qualified typeName new)
        (entry.renamed old new) }

inductive RenameVerb
  | type (old new : String)
  | field (typeName old new : String)
  deriving DecidableEq, Repr

def RenameVerb.blockedBy (plans : SortedMap Nat PlanRow) : RenameVerb → Option (String × Nat)
  | type old _ =>
    (plans.entries.find? fun p => p.2.status.quiesces && decide (p.2.typeName = old)).map fun p =>
      (old, p.1)
  | field typeName old _ =>
    (plans.entries.find? fun p => p.2.status.quiesces && decide (p.2.typeName = typeName) &&
      decide (p.2.fieldName = old)).map fun p => ((qualified typeName old).shown, p.1)

def refuseActivePlan (blocked : Option (String × Nat)) : Except CatalogError Unit :=
  match blocked with
  | some (qual, planId) => .error (.migrationFieldHasActivePlan qual planId)
  | none => .ok ()

def loadFormatted (st : Stored) : Except CatalogError Catalog :=
  match st.format with
  | none => .error (.missingRequiredKey "c:F:")
  | some format => loadExisting st format

def checkFormat (st : Stored) : Except CatalogError Unit :=
  match st.format with
  | none => .error (.missingRequiredKey "c:F:")
  | some format =>
    require (format ≤ catalogFormatCurrent) (.unsupportedFormat format catalogFormatCurrent)

def RenameVerb.apply (objects : SortedMap ObjectKey FieldMap) :
    RenameVerb → Except CatalogError (Catalog × SortedMap ObjectKey FieldMap × Nat)
  | type old new => (renameTypeVerb cat old new).map fun cat => (cat, objects, catalogFormatV3)
  | field typeName old new =>
    -- a live relation has rows of its own; all else, a missing field too, is the scalar verb's
    if (cat.relEntries.lookup (qualified typeName old)).any fun e => decide (e.status = .live) then
      (renameRelationVerb cat typeName old new).map fun cat => (cat, objects, catalogFormatV5)
    else
      (renameFieldVerb cat objects typeName old new).map fun r => (r.1, r.2, catalogFormatV5)

def Stored.putRenamed (st : Stored) (r : Catalog × SortedMap ObjectKey FieldMap × Nat) : Stored :=
  { st.putEntries { r.1 with formatVersion := max r.1.formatVersion r.2.2 } with objects := r.2.1 }

def applyMigration (st : Stored) (verb : RenameVerb) : Except CatalogError Stored := do
  checkFormat st
  let cat ← loadFormatted st
  refuseActivePlan (verb.blockedBy st.plans)
  let renamed ← verb.apply cat st.objects
  pure (st.putRenamed renamed)

end

/-- `Fn(object_id, old_value) -> new_value`; its own errors are not told apart. -/
abbrev RowConverter := Id → Value → Option Value

structure FieldTypeChangeVerb where
  typeName : String
  fieldName : String
  targetKind : Kind
  converter : RowConverter

def activePlanForType (plans : SortedMap Nat PlanRow) (typeName : String) : Option (String × Nat) :=
  (plans.entries.find? fun p => p.2.status.quiesces && decide (p.2.typeName = typeName)).map fun p =>
    ((qualified p.2.typeName p.2.fieldName).shown, p.1)

def unsupportedDirective (field : FieldDef) : Option String :=
  if field.indexed then some "@indexed"
  else if field.unique then some "@unique"
  else if field.vectorize then some "@vectorize"
  else if field.fulltext.isSome then some "@fulltext"
  else none

def checkDirectives (schema : Schema) (qual : Qualified) : Except CatalogError Unit :=
  match schema.field? qual with
  | none => .error (.fieldTypeChangeSourceNotFound qual)
  | some field =>
    match unsupportedDirective field with
    | some directive => .error (.fieldTypeChangeDirectiveUnsupported qual directive)
    | none => .ok ()

/-- The field's entry and its type's id, if its kind may change to `targetKind`. -/
def validateFieldTypeChange (cat : Catalog) (schema : Schema) (typeName fieldName : String)
    (targetKind : Kind) : Except CatalogError (IdEntry × Nat) := do
  let qual := qualified typeName fieldName
  match cat.fieldEntries.lookup qual with
  | none => throw (.fieldTypeChangeSourceNotFound qual)
  | some entry =>
    require (entry.status = .live) (.fieldTypeChangeSourceRetired qual entry.id)
    require (entry.kind ≠ targetKind) (.fieldTypeChangeNoOp qual)
    require (entry.kind.isScalar ∧ targetKind.isScalar)
      (.fieldTypeChangeNonScalar qual entry.kind targetKind)
    checkDirectives schema qual
    require (entry.typeChangeHistory.length + 1 ≤ maxTypeChangeHistory)
      (.fieldTypeChangeHistoryCapExceeded qual maxTypeChangeHistory)
    match cat.typeEntries.lookup typeName with
    | none => throw (.fieldTypeChangeSourceNotFound qual)
    | some parent => pure (entry, parent.id)

def convertObject (verb : FieldTypeChangeVerb) (objectId : Id) (fields : FieldMap) :
    Except CatalogError (Option FieldMap) :=
  let qual := qualified verb.typeName verb.fieldName
  match fields.lookup verb.fieldName with
  | none => .ok none
  | some old =>
    match verb.converter objectId old with
    | none => .error (.fieldTypeChangeConverterFailed qual objectId)
    | some new =>
      if valueToKind new ≠ verb.targetKind then
        .error (.fieldTypeChangeConverterReturnedWrongKind qual objectId (valueToKind new)
          verb.targetKind)
      else .ok (some (fields.insert verb.fieldName new))

def bumpGeneration (versions : SortedMap ObjectKey Nat) (key : ObjectKey) : SortedMap ObjectKey Nat :=
  versions.insert key (min ((versions.lookup key).getD 1 + 1) u64Max)

def convertRow (verb : FieldTypeChangeVerb) (st : Stored) (e : ObjectKey × FieldMap) :
    Except CatalogError Stored := do
  match ← convertObject verb e.1.objectId e.2 with
  | none => pure st
  | some fields =>
    pure { st with
      objects := st.objects.insert e.1 fields
      versions := bumpGeneration st.versions e.1 }

def applyFieldTypeChange (st : Stored) (schema : Schema) (verb : FieldTypeChangeVerb) :
    Except CatalogError Stored := do
  checkFormat st
  let cat ← loadFormatted st
  refuseActivePlan (activePlanForType st.plans verb.typeName)
  let (entry, typeId) ← validateFieldTypeChange cat schema verb.typeName verb.fieldName verb.targetKind
  let converted ← (st.objects.entries.filter fun e => decide (e.1.typeId = typeId)).foldlM
    (convertRow verb) st
  pure (converted.putEntries
    { cat with
      formatVersion := max cat.formatVersion catalogFormatV4
      fieldEntries := cat.fieldEntries.insert (qualified verb.typeName verb.fieldName)
        (entry.retyped verb.targetKind) })

def nextMigrationId (counter : Nat) (plans : SortedMap Nat PlanRow) : Nat :=
  min (max counter ((plans.entries.map Prod.fst).max?.getD 0) + 1) u64Max

def createMigrationPlan (st : Stored) (schema : Schema) (typeName fieldName : String)
    (targetKind : Kind) (dryRun : Bool) : Except CatalogError Stored := do
  let cat ← loadFormatted st
  refuseActivePlan (activePlanForType st.plans typeName)
  let (entry, _) ← validateFieldTypeChange cat schema typeName fieldName targetKind
  let planId := nextMigrationId st.nextMigration st.plans
  pure { st with
    nextMigration := planId
    plans := st.plans.insert planId
      { typeName := typeName
        fieldName := fieldName
        srcKind := entry.kind
        targetKind := targetKind
        status := .running
        dryRun := dryRun } }

def setPlanStatus (st : Stored) (planId : Nat) (status : Migration.MigrationStatus) :
    Except CatalogError Stored :=
  match st.plans.lookup planId with
  | none => .error (.missingRequiredKey "c:P:")
  | some plan => .ok { st with plans := st.plans.insert planId { plan with status := status } }

def cutoverEntries (cat : Catalog) (plan : PlanRow) : SortedMap Qualified IdEntry :=
  match cat.fieldEntries.lookup (qualified plan.typeName plan.fieldName) with
  | some entry =>
    if entry.kind ≠ plan.targetKind then
      cat.fieldEntries.insert (qualified plan.typeName plan.fieldName)
        (entry.retyped plan.targetKind)
    else cat.fieldEntries
  | none => cat.fieldEntries

def finalizeMigrationCutover (st : Stored) (planId : Nat) : Except CatalogError Stored := do
  match st.plans.lookup planId with
  | none => throw (.missingRequiredKey "c:P:")
  | some plan =>
    let cat ← loadFormatted st
    let completed : Stored := { st with
      plans := st.plans.insert planId { plan with status := .completed } }
    pure (completed.putEntries
      { cat with
        formatVersion := max cat.formatVersion catalogFormatV4
        fieldEntries := cutoverEntries cat plan })

end RhypeDb.SchemaCatalog
