import RhypeDb.Basic.Fallible
import RhypeDb.SchemaCatalog.Entries

/-! Opening a database's catalog: the backfill of a fresh store, the load of an initialized one,
and its reconciliation with a schema that the stored digest does not vouch for. -/

namespace RhypeDb.SchemaCatalog

open Fallible

section

def u64Max : Nat := 2 ^ 64 - 1

def checkedBump (kind : RowKind) (cur : Nat) : Except CatalogError Nat :=
  if cur < u64Max then .ok (cur + 1) else .error (.counterOverflow kind)

variable (assignedBy : AssignedBy) (cat : Catalog)

def allocateType (name : String) : Except CatalogError Catalog :=
  (checkedBump .type cat.nextType).map fun next =>
    { cat with
      nextType := next
      typeEntries := cat.typeEntries.insert name (.new assignedBy cat.nextType .unset) }

def allocateField (qual : Qualified) (kind : Kind) : Except CatalogError Catalog :=
  (checkedBump .field cat.nextField).map fun next =>
    { cat with
      nextField := next
      fieldEntries := cat.fieldEntries.insert qual (.new assignedBy cat.nextField kind) }

def allocateRel (qual : Qualified) : Except CatalogError Catalog :=
  (checkedBump .relation cat.nextRel).map fun next =>
    { cat with
      nextRel := next
      relEntries := cat.relEntries.insert qual (.new assignedBy cat.nextRel .relation) }

end

def backfillField (typeName : String) (cat : Catalog) (field : FieldDef) :
    Except CatalogError Catalog := do
  let qual := qualified typeName field.name
  let cat ← allocateField .backfill cat qual (schemaKind field.fieldType)
  if field.isRelation then allocateRel .backfill cat qual else pure cat

def backfillType (cat : Catalog) (e : String × List FieldDef) : Except CatalogError Catalog := do
  let cat ← allocateType .backfill cat e.1
  e.2.foldlM (backfillField e.1) cat

def backfill (schema : Schema) : Except CatalogError Catalog :=
  schema.types.entries.foldlM backfillType .empty

def backfillInto (st : Stored) (schema : Schema) : Except CatalogError (Catalog × Stored) := do
  let cat ← backfill schema
  pure (cat, { (st.putEntries cat).putCounters cat schema.digest with initialized := true })

/-- Whatever is derived from a schema is cleared; the applied migrations go with it. -/
def recoverPartial (st : Stored) (schema : Schema) : Except CatalogError (Catalog × Stored) :=
  backfillInto
    { Stored.empty with
      plans := st.plans
      nextMigration := st.nextMigration
      objects := st.objects
      versions := st.versions } schema

def scanRows {κ : Type} (rowKind : RowKind) (format : Nat) (shown : κ → String) :
    List (Nat × String) → List (κ × IdEntry) → Except CatalogError Unit
  | _, [] => .ok ()
  | seen, (name, entry) :: rows =>
    if format = catalogFormatV1 ∧ entry.status = .tombstoned then
      .error (.tombstoneOnV1Catalog rowKind entry.id)
    else
      match seen.lookup entry.id with
      | some first => .error (.duplicateId rowKind entry.id first (shown name))
      | none => scanRows rowKind format shown ((entry.id, shown name) :: seen) rows

def readCounter (key : String) : Option Nat → Except CatalogError Nat
  | some counter => .ok counter
  | none => .error (.missingRequiredKey key)

def selfHealCounter (onDisk : Nat) : Option Nat → Nat
  | some maxAssigned => max onDisk (min (maxAssigned + 1) u64Max)
  | none => max onDisk 1

def maxAssigned {κ : Type} [LinearOrder κ] (rows : SortedMap κ IdEntry) : Option Nat :=
  (rows.entries.map fun e => e.2.id).max?

def loadExisting (st : Stored) (format : Nat) : Except CatalogError Catalog := do
  scanRows .type format id [] st.typeRows.entries
  scanRows .field format Qualified.shown [] st.fieldRows.entries
  scanRows .relation format Qualified.shown [] st.relRows.entries
  let nextType ← readCounter "c:N:T" st.nextType
  let nextField ← readCounter "c:N:E" st.nextField
  let nextRel ← readCounter "c:N:R" st.nextRel
  pure
    { formatVersion := format
      typeEntries := st.typeRows
      fieldEntries := st.fieldRows
      relEntries := st.relRows
      nextType := selfHealCounter nextType (maxAssigned st.typeRows)
      nextField := selfHealCounter nextField (maxAssigned st.fieldRows)
      nextRel := selfHealCounter nextRel (maxAssigned st.relRows) }

section

variable (schema : Schema) (cat : Catalog)

/-- Live types that the schema does not name. -/
def droppedTypes : List String :=
  (cat.typeEntries.entries.filter fun e =>
    decide (e.2.status = .live) && (schema.types.lookup e.1).isNone).map Prod.fst

/-- Live fields that the schema's type does not have; a dropped type's fields are not among
them. -/
def droppedFields : List Qualified :=
  (cat.fieldEntries.entries.filter fun e =>
    decide (e.2.status = .live) && (schema.types.lookup (splitQualified e.1).1).isSome &&
      (schema.field? e.1).isNone).map Prod.fst

/-- Live relations that the schema's type does not have, or has as something else. -/
def droppedRels : List Qualified :=
  (cat.relEntries.entries.filter fun e =>
    decide (e.2.status = .live) && (schema.types.lookup (splitQualified e.1).1).isSome &&
      !(schema.field? e.1).any FieldDef.isRelation).map Prod.fst

def retiredId {κ : Type} [LinearOrder κ] (entries : SortedMap κ IdEntry) (name : κ) : Option Nat :=
  (entries.lookup name).bind fun e => if e.status = .tombstoned then some e.id else none

def refuseRetiredType (name : String) : Except CatalogError Unit :=
  match retiredId cat.typeEntries name with
  | some id => .error (.nameReuseOfRetiredEntry .type name id)
  | none => .ok ()

def refuseRetiredField (typeName : String) (field : FieldDef) : Except CatalogError Unit :=
  let qual := qualified typeName field.name
  match retiredId cat.fieldEntries qual with
  | some id => .error (.nameReuseOfRetiredEntry .field qual.shown id)
  | none =>
    match retiredId cat.relEntries qual with
    | some id =>
      if field.isRelation then .error (.nameReuseOfRetiredEntry .relation qual.shown id) else .ok ()
    | none => .ok ()

def refuseRetired : Except CatalogError Unit := do
  schema.types.entries.forM fun e => refuseRetiredType cat e.1
  schema.types.entries.forM fun e => e.2.forM (refuseRetiredField cat e.1)

def cascaded (entries : SortedMap Qualified IdEntry) : List Qualified :=
  (entries.entries.filter fun e =>
    decide (e.2.status = .live) &&
      decide ((splitQualified e.1).1 ∈ droppedTypes schema cat)).map Prod.fst

def resumablePlanForKindChange (plans : SortedMap Nat PlanRow) (qual : Qualified)
    (catKind wantKind : Kind) : Option Nat :=
  (plans.entries.find? fun p =>
    p.2.status.quiesces && decide (p.2.typeName = (splitQualified qual).1) &&
      decide (p.2.fieldName = (splitQualified qual).2) && decide (p.2.srcKind = catKind) &&
      decide (p.2.targetKind = wantKind)).map Prod.fst

def checkKind (plans : SortedMap Nat PlanRow) (e : Qualified × IdEntry) : Except CatalogError Unit :=
  match schema.field? e.1 with
  | none => .ok ()
  | some field =>
    let want := schemaKind field.fieldType
    if e.2.kind ≠ want ∧ (resumablePlanForKindChange plans e.1 e.2.kind want).isNone then
      .error (.fieldKindChanged e.1 e.2.kind want)
    else .ok ()

def addType (cat : Catalog) (e : String × List FieldDef) : Except CatalogError Catalog :=
  if (cat.typeEntries.lookup e.1).isSome then .ok cat else allocateType .fresh cat e.1

def ensureField (cat : Catalog) (qual : Qualified) (kind : Kind) : Except CatalogError Catalog :=
  if (cat.fieldEntries.lookup qual).isSome then .ok cat else allocateField .fresh cat qual kind

def ensureRel (cat : Catalog) (qual : Qualified) : Except CatalogError Catalog :=
  if (cat.relEntries.lookup qual).isSome then .ok cat else allocateRel .fresh cat qual

def addField (typeName : String) (cat : Catalog) (field : FieldDef) :
    Except CatalogError Catalog := do
  let qual := qualified typeName field.name
  let cat ← ensureField cat qual (schemaKind field.fieldType)
  if field.isRelation then ensureRel cat qual else pure cat

def addFields (cat : Catalog) (e : String × List FieldDef) : Except CatalogError Catalog :=
  e.2.foldlM (addField e.1) cat

/-- What the schema names and the catalog does not is given fresh ids. -/
def addMissing : Except CatalogError Catalog := do
  let cat ← schema.types.entries.foldlM addType cat
  schema.types.entries.foldlM addFields cat

def tombstoneRow {κ : Type} [LinearOrder κ] (reason : RetireReason) (m : SortedMap κ IdEntry)
    (name : κ) : SortedMap κ IdEntry :=
  match m.lookup name with
  | some e => m.insert name (e.tombstone reason)
  | none => m

def tombstoneAll {κ : Type} [LinearOrder κ] (reason : RetireReason) (names : List κ)
    (entries : SortedMap κ IdEntry) : SortedMap κ IdEntry :=
  names.foldl (tombstoneRow reason) entries

def reconcile (plans : SortedMap Nat PlanRow) (allowSchemaShrink : Bool) :
    Except CatalogError Catalog := do
  let types := droppedTypes schema cat
  let fields := droppedFields schema cat
  let rels := droppedRels schema cat
  require (types = [] ∧ fields = [] ∧ rels = [] ∨ allowSchemaShrink)
    (.schemaShrinkRequiresOptIn types fields rels)
  refuseRetired schema cat
  let cascadedFields := cascaded schema cat cat.fieldEntries
  let cascadedRels := cascaded schema cat cat.relEntries
  cat.fieldEntries.entries.forM (checkKind schema plans)
  let grown ← addMissing schema cat
  -- the first tombstone makes the format one that older binaries refuse
  let bumped := !(types.isEmpty && fields.isEmpty && rels.isEmpty && cascadedFields.isEmpty &&
    cascadedRels.isEmpty)
  pure
    { grown with
      formatVersion := if bumped then max cat.formatVersion catalogFormatV2 else cat.formatVersion
      typeEntries := tombstoneAll .explicitShrink types grown.typeEntries
      fieldEntries := tombstoneAll .cascadeParentRetired cascadedFields
        (tombstoneAll .explicitShrink fields grown.fieldEntries)
      relEntries := tombstoneAll .cascadeParentRetired cascadedRels
        (tombstoneAll .explicitShrink rels grown.relEntries) }

end

def Schema.checkIdentifiers (schema : Schema) : Except CatalogError Unit :=
  schema.types.entries.forM fun e => do
    checkIdentifier e.1
    e.2.forM fun f => checkIdentifier f.name

/-- The catalog that an open uses, and what it leaves stored. A schema that the digest vouches
for is not looked at further. -/
def loadOrInitialize (st : Stored) (schema : Schema) (allowSchemaShrink : Bool) :
    Except CatalogError (Catalog × Stored) := do
  schema.checkIdentifiers
  match st.format, st.initialized with
  | none, false => backfillInto st schema
  | some format, true =>
    require (format ≤ catalogFormatCurrent) (.unsupportedFormat format catalogFormatCurrent)
    let cat ← loadExisting st format
    match st.digest with
    | none => throw (.missingRequiredKey "c:D:")
    | some digest =>
      if digest = schema.digest then pure (cat, st)
      else
        let cat ← reconcile schema cat st.plans allowSchemaShrink
        pure (cat, (st.putEntries cat).putCounters cat schema.digest)
  | _, _ => recoverPartial st schema

end RhypeDb.SchemaCatalog
