import RhypeDb.Engine.Store

/-! The object writes of `database.rs`. Each stages its writes against one view; nothing of
them is seen by its own reads. -/

namespace RhypeDb.Engine

open Storage KeyBuilder

abbrev Versions := Id → Id → Nat

namespace Versions

def set (versions : Versions) (typeId objectId : Id) (version : Nat) : Versions :=
  fun t o => if t = typeId ∧ o = objectId then version else versions t o

end Versions

structure Counters where
  nextObjectId : Id
  versions : Versions

namespace Counters

def bumpVersion (c : Counters) (typeId objectId : Id) : Counters :=
  { c with versions := c.versions.set typeId objectId (c.versions typeId objectId + 1) }

def rollbackVersion (c : Counters) (typeId objectId : Id) : Counters :=
  { c with versions := c.versions.set typeId objectId (c.versions typeId objectId - 1) }

def forgetVersion (c : Counters) (typeId objectId : Id) : Counters :=
  { c with versions := c.versions.set typeId objectId 0 }

end Counters

/-- `Err` when an option is empty. -/
def require {α : Type} (e : EngineError) : Option α → Except EngineError α
  | some a => .ok a
  | none => .error e

def buildFieldIndexKey (typeId fieldId : Id) (kind : IndexedKind) (value : Value) (objectId : Id) :
    Option Key :=
  let fixed := fun encoded : Bytes =>
    Key.fieldIndex typeId fieldId (encoded ++ separator :: word objectId)
  let escaped := fun b : Bytes =>
    Key.fieldIndex typeId fieldId (encodeBytesForIndex b ++ word objectId)
  match kind, value with
  | .integer, v => (encodeIntForZone v).map fixed
  | .bool, v => (encodeBoolForIndex v).map fixed
  | .float, v => (encodeFloatForIndex v).map fixed
  | .string, .string s => some (escaped s)
  | .bytes, .bytes b => some (escaped b)
  | _, _ => none

def indexKeyOf (t : TypeDef) (objectId : Id) (fields : FieldMap) (ifd : IndexedField) : Option Key :=
  (fields.lookup ifd.name).bind fun value =>
    if value = .null then none else buildFieldIndexKey t.typeId ifd.fieldId ifd.kind value objectId

def uniqueKey (t : TypeDef) (f : FieldDef) (value : Value) : Key :=
  .uniqueIndex t.typeId f.fieldId (valueToIndexBytes value)

/-- The id a unique entry holds; `existing[..8]` of anything else is out of range. -/
def existingId : Payload → Except EngineError Id
  | .objectId id => .ok id
  | _ => .error .storage

/-- A duplicate among the values claimed by earlier rows of the same transaction, which the
reads of this one cannot see. -/
def checkStaged (staged : List (Key × Id)) (key : Key) (objectId : Id) (violation : EngineError) :
    Except EngineError Unit :=
  match staged.lookup key with
  | some stagedId => if stagedId ≠ objectId then .error violation else .ok ()
  | none => .ok ()

def checkStored (view : View) (key : Key) (objectId : Id) (violation : EngineError) :
    Except EngineError Unit := do
  match ← view.get key with
  | some existing =>
    let id ← existingId existing
    if id ≠ objectId then .error violation else .ok ()
  | none => .ok ()

def checkUniqueAndInsert (view : View) (t : TypeDef) (f : FieldDef) (value : Value) (objectId : Id)
    (staged : List (Key × Id)) : Except EngineError (List (Key × Id)) := do
  let violation := EngineError.uniqueViolation t.name f.name value
  checkStaged staged (uniqueKey t f value) objectId violation
  checkStored view (uniqueKey t f value) objectId violation
  return (uniqueKey t f value, objectId) :: staged

section

variable (schema : Schema) (view : View) (versions : Versions)

/-- `object_version`: 0 for an unknown type. -/
def objectVersion (typeName : String) (objectId : Id) : Nat :=
  match schema.typeId typeName with
  | some typeId => versions typeId objectId
  | none => 0

def readFields (typeName : String) (objectId : Id) : Option FieldMap :=
  match schema.typeId typeName with
  | some typeId =>
    match view.get (.object typeId objectId) with
    | .ok (some data) => some data.deserializeFields
    | _ => none
  | none => none

def otherTargets (t : TypeDef) (sourceId : Id) (fieldName : String) :
    List (FieldDef × RelationType × Id) :=
  t.fields.filterMap fun f =>
    if f.name = fieldName then none
    else f.forward?.bind fun rel =>
      if rel.isMany then none
      else (view.scanEdges sourceId f.relId).head?.map fun row => (f, rel, row.1)

def withNestedForwardCovers (targetType : String) (targetData : FieldMap) (targetId : Id) :
    FieldMap × List (String × FieldMap × Nat) :=
  match schema.getType targetType with
  | none => (targetData, [])
  | some t =>
    t.fields.foldl (fun acc f =>
      match f.forward? with
      | none => acc
      | some rel =>
        if rel.isMany then acc
        else
          match (view.scanEdges targetId f.relId).head? with
          | none => acc
          | some row =>
            match readFields schema view rel.targetType row.1 with
            | none => acc
            | some next =>
              (acc.1.insert f.name (.u64 row.1),
                acc.2 ++ [(f.name, next, objectVersion schema versions rel.targetType row.1)]))
      (targetData, [])

def coverEntry (name targetType : String) (targetData : FieldMap) (targetId : Id)
    (targetVersion : Nat) : CoverEntry :=
  let nested := withNestedForwardCovers schema view versions targetType targetData targetId
  { name, fields := nested.1, next := nested.2, version := targetVersion }

/-- The value of a reverse edge: empty unless another to-one relation of the source is set,
else the source's fields with its targets by this and the other to-one relations. -/
def buildCoveringRevValue (t : TypeDef) (sourceId : Id) (sourceData : Option Payload)
    (fieldName : String) (targetId : Id) : Payload :=
  let others := otherTargets view t sourceId fieldName
  if others.isEmpty then .empty
  else
    let source := (sourceData.map Payload.deserializeFields).getD ∅
    let effective := others.foldl (fun m o => m.insert o.1.name (.u64 o.2.2))
      (source.insert fieldName (.u64 targetId))
    .fields effective (others.filterMap fun o =>
      (readFields schema view o.2.1.targetType o.2.2).map fun data =>
        coverEntry schema view versions o.1.name o.2.1.targetType data o.2.2
          (objectVersion schema versions o.2.1.targetType o.2.2))

/-- `refresh_outbound_rev_edges`: rewrite the value of every reverse edge of the object. -/
def refreshOutboundRevEdges (t : TypeDef) (objectId : Id) (sourceData : Option Payload) :
    Writes Key Payload :=
  if t.hasForward1to1 then
    t.fields.flatMap fun f =>
      match f.forward? with
      | none => []
      | some _ => (view.scanEdges objectId f.relId).map fun row =>
        (.reverseEdge row.1 f.relId objectId,
          some (buildCoveringRevValue schema view versions t objectId sourceData f.name row.1))
  else []

structure Link where
  fieldName : String
  targetId : Id
  targetType : String
  targetData : Payload
  targetVersion : Nat
  relId : Id
  is1to1Forward : Bool
  deriving DecidableEq

def splitField (versions : Versions) (t : TypeDef) (acc : FieldMap × List Link)
    (field : Sigma fun _ : String => Value) : Except EngineError (FieldMap × List Link) := do
  let value := field.2
  let f ← require (.fieldNotFound t.name field.1) (t.getField field.1)
  validateValue f value
  match f.fieldType with
  | .relation rel =>
    if f.inverse.isSome then
      throw (.typeMismatch f.name "scalar (inverse fields are virtual)" value.typeName)
    else if value = .null then return acc
    else
      let targetId ← require
        (.typeMismatch f.name "relation target id (non-negative integer)" value.typeName)
        value.targetId
      let targetTypeId ← require (.typeNotFound rel.targetType) (schema.typeId rel.targetType)
      let targetData ← require (.objectNotFound rel.targetType targetId)
        (← view.get (.object targetTypeId targetId))
      return (acc.1, acc.2 ++
        [{ fieldName := field.1, targetId, targetType := rel.targetType, targetData,
           targetVersion := objectVersion schema versions rel.targetType targetId,
           relId := f.relId, is1to1Forward := !rel.isMany }])
  | .scalar _ => return (acc.1.insert field.1 value, acc.2)
  | .vector _ => throw (.typeMismatch f.name "scalar or relation" value.typeName)

/-- The value of the reverse edge of the link at `thisIdx`, from the links in hand. -/
def buildInflightCover (versions : Versions) (scalars : FieldMap) (this : Link) (links : List Link)
    (thisIdx : Nat) : Payload :=
  let others := links.zipIdx.filterMap fun l =>
    if l.2 = thisIdx ∨ !l.1.is1to1Forward then none else some l.1
  if others.isEmpty then .empty
  else
    let effective := others.foldl (fun m o => m.insert o.fieldName (.u64 o.targetId))
      (scalars.insert this.fieldName (.u64 this.targetId))
    .fields effective (others.map fun o =>
      coverEntry schema view versions o.fieldName o.targetType o.targetData.deserializeFields
        o.targetId o.targetVersion)

def stageUnique (t : TypeDef) (objectId : Id) (staged : List (Key × Id))
    (field : Sigma fun _ : String => Value) : Except EngineError (List (Key × Id)) := do
  let f ← require (.fieldNotFound t.name field.1) (t.getField field.1)
  if f.isUnique && field.2 ≠ .null then checkUniqueAndInsert view t f field.2 objectId staged
  else return staged

def linkPuts (versions : Versions) (objectId : Id) (scalars : FieldMap) (links : List Link)
    (l : Link × Nat) : Writes Key Payload :=
  [(.edge objectId l.1.relId l.1.targetId, some .empty),
   (.reverseEdge l.1.targetId l.1.relId objectId,
     some (buildInflightCover schema view versions scalars l.1 links l.2))]

/-- The puts of a create except the unique entries: index entries with the fields as covering
payload, the object, and the edges. -/
def createPuts (versions : Versions) (t : TypeDef) (objectId : Id) (scalars : FieldMap)
    (links : List Link) : Writes Key Payload :=
  (t.indexedFields.filterMap fun ifd =>
    (indexKeyOf t objectId scalars ifd).map fun key => (key, some (serializeFields scalars))) ++
  (.object t.typeId objectId, some (serializeFields scalars)) ::
    links.zipIdx.flatMap (linkPuts schema view versions objectId scalars links)

/-- `stage_create_writes`: the claimed unique values, whose entries go into the transaction at
once, and the other puts. -/
def stageCreateWrites (versions : Versions) (t : TypeDef) (objectId : Id) (fields : FieldMap)
    (staged : List (Key × Id)) : Except EngineError (List (Key × Id) × Writes Key Payload) := do
  let split ← fields.entries.foldlM (splitField schema view versions t) (∅, [])
  let staged ← split.1.entries.foldlM (stageUnique view t objectId) staged
  return (staged, createPuts schema view versions t objectId split.1 split.2)

def uniquePuts (staged : List (Key × Id)) : Writes Key Payload :=
  staged.reverse.map fun s => (s.1, some (.objectId s.2))

abbrev Staged := Except EngineError (Writes Key Payload) × Counters

def create (c : Counters) (typeName : String) (fields : FieldMap) : Staged :=
  match schema.getType typeName with
  | none => (.error (.typeNotFound typeName), c)
  | some t =>
    let objectId := c.nextObjectId
    let c := { c with nextObjectId := objectId + 1 }
    match stageCreateWrites schema view c.versions t objectId fields [] with
    | .error e => (.error e, c)
    | .ok (staged, puts) => (.ok (uniquePuts staged ++ puts), c.bumpVersion t.typeId objectId)

structure Batch where
  objectIds : List Id
  staged : List (Key × Id)
  puts : Writes Key Payload

/-- The rows of a batch; a failing row takes back the generations of the rows before it. -/
def stageRows (t : TypeDef) : List FieldMap → Batch → Counters → Staged
  | [], batch, c => (.ok (uniquePuts batch.staged ++ batch.puts), c)
  | fields :: rows, batch, c =>
    let objectId := c.nextObjectId
    let c := { c with nextObjectId := objectId + 1 }
    match stageCreateWrites schema view c.versions t objectId fields batch.staged with
    | .error e => (.error e, batch.objectIds.foldl (fun c id => c.rollbackVersion t.typeId id) c)
    | .ok (staged, puts) =>
      stageRows t rows
        { objectIds := batch.objectIds ++ [objectId], staged, puts := batch.puts ++ puts }
        (c.bumpVersion t.typeId objectId)

def createBatch (c : Counters) (typeName : String) (rows : List FieldMap) : Staged :=
  if rows.isEmpty then (.ok [], c)
  else
    match schema.getType typeName with
    | none => (.error (.typeNotFound typeName), c)
    | some t => stageRows schema view t rows { objectIds := [], staged := [], puts := [] } c

/-- The rows of a restore, under the caller's ids. A failing row takes back the generations of
the rows before it, a failing read does not. -/
def restoreRows (t : TypeDef) (rejectExisting : Bool) :
    List (Id × FieldMap) → Batch → Counters → Staged
  | [], batch, c => (.ok (uniquePuts batch.staged ++ batch.puts), c)
  | (objectId, fields) :: rows, batch, c =>
    let undone := batch.objectIds.foldl (fun c id => c.rollbackVersion t.typeId id) c
    match if rejectExisting then view.get (.object t.typeId objectId) else .ok none with
    | .error e => (.error e, c)
    | .ok (some _) => (.error (.restoreObjectExists t.name objectId), undone)
    | .ok none =>
      match stageCreateWrites schema view c.versions t objectId fields batch.staged with
      | .error e => (.error e, undone)
      | .ok (staged, puts) =>
        restoreRows t rejectExisting rows
          { objectIds := batch.objectIds ++ [objectId], staged, puts := batch.puts ++ puts }
          (c.bumpVersion t.typeId objectId)

/-- `restore_objects`; after the commit the counter is moved past the highest id, `max_id + 1`
wrapping around. -/
def restoreObjects (c : Counters) (typeName : String) (rows : List (Id × FieldMap))
    (rejectExisting : Bool) : Staged :=
  if rows.isEmpty then (.ok [], c)
  else
    match schema.getType typeName with
    | none => (.error (.typeNotFound typeName), c)
    | some t =>
      match restoreRows schema view t rejectExisting rows
        { objectIds := [], staged := [], puts := [] } c with
      | (.error e, c) => (.error e, c)
      | (.ok writes, c) =>
        let maxId := (rows.map Prod.fst).foldl max 0
        (.ok writes, { c with nextObjectId := max c.nextObjectId (maxId + 1) })

variable (store : Store)

/-- The ids under the `o:` prefixes of the schema's types. -/
def liveIds : List Id := store.entries.filterMap fun e =>
  match e.1 with
  | .object typeId objectId =>
    if typeId ∈ schema.types.map TypeDef.typeId then some objectId else none
  | _ => none

/-- What `open` rebuilds from the store: the counter behind the highest live id, generation 1
for every live object, and the persisted generations over that. -/
def openCounters : Counters where
  nextObjectId := (liveIds schema store).foldl max 0 + 1
  versions typeId objectId :=
    match store.lookup (.objectVersion typeId objectId) with
    | some (.generation version) => version
    | _ =>
      if typeId ∈ schema.types.map TypeDef.typeId ∧ store.Has (.object typeId objectId) then 1 else 0

def validateUpdate (t : TypeDef) (field : Sigma fun _ : String => Value) :
    Except EngineError Unit := do
  let f ← require (.fieldNotFound t.name field.1) (t.getField field.1)
  validateValue f field.2

def updateUnique (t : TypeDef) (objectId : Id) (fields : FieldMap)
    (acc : Writes Key Payload × List (Key × Id)) (field : Sigma fun _ : String => Value) :
    Except EngineError (Writes Key Payload × List (Key × Id)) := do
  let f ← require (.fieldNotFound t.name field.1) (t.getField field.1)
  if f.isUnique then
    let removed : Writes Key Payload :=
      match fields.lookup field.1 with
      | some old => if old = .null then [] else [(uniqueKey t f old, none)]
      | none => []
    if field.2 = .null then return (acc.1 ++ removed, acc.2)
    else
      let staged ← checkUniqueAndInsert view t f field.2 objectId acc.2
      return (acc.1 ++ removed ++ [(uniqueKey t f field.2, some (.objectId objectId))], staged)
  else return acc

/-- The index maintenance of `rewrite_object_and_maintain_covers` for one field. -/
def maintainIndex (t : TypeDef) (objectId : Id) (old new : FieldMap) (anyUpdate : Bool)
    (serialized : Payload) (ifd : IndexedField) : Writes Key Payload :=
  let put := (indexKeyOf t objectId new ifd).toList.map fun key => (key, some serialized)
  if !Value.optionEq (old.lookup ifd.name) (new.lookup ifd.name) then
    ((indexKeyOf t objectId old ifd).toList.map fun key => (key, none)) ++ put
  else if anyUpdate then put
  else []

/-- The writes of an update after its unique entries: index and cover maintenance, the new
generation, and the object. -/
def updateWrites (versions : Versions) (t : TypeDef) (objectId : Id) (fields updates : FieldMap) :
    Writes Key Payload :=
  let merged := fields.merge updates
  let serialized := serializeFields merged
  t.indexedFields.flatMap
    (maintainIndex t objectId fields merged (!updates.entries.isEmpty) serialized) ++
  refreshOutboundRevEdges schema view versions t objectId (some serialized) ++
  [(.objectVersion t.typeId objectId, some (.generation (versions t.typeId objectId + 1))),
   (.object t.typeId objectId, some serialized)]

def stageUpdate (versions : Versions) (typeName : String) (objectId : Id) (updates : FieldMap) :
    Except EngineError (Id × Writes Key Payload) := do
  let t ← require (.typeNotFound typeName) (schema.getType typeName)
  updates.entries.forM (validateUpdate t)
  let existing ← require (.objectNotFound typeName objectId)
    (← view.get (.object t.typeId objectId))
  let fields := existing.deserializeFields
  let unique ← updates.entries.foldlM (updateUnique view t objectId fields) ([], [])
  return (t.typeId, unique.1 ++ updateWrites schema view versions t objectId fields updates)

def update (c : Counters) (typeName : String) (objectId : Id) (updates : FieldMap) : Staged :=
  match stageUpdate schema view c.versions typeName objectId updates with
  | .error e => (.error e, c)
  | .ok (typeId, writes) => (.ok writes, c.bumpVersion typeId objectId)

def validateEdgeField (sourceType fieldName : String) (rel : RelationType)
    (field : Sigma fun _ : String => Value) : Except EngineError Unit := do
  let e ← require (.fieldNotFound (sourceType ++ "." ++ fieldName) field.1)
    (rel.edgeFields.find? fun e => decide (e.name = field.1))
  validateEdgeValue e field.2

def validateEdgeFields (sourceType fieldName : String) (rel : RelationType) :
    Option FieldMap → Except EngineError Unit
  | some edgeFields => edgeFields.entries.forM (validateEdgeField sourceType fieldName rel)
  | none => .ok ()

def link (versions : Versions) (sourceType : String) (sourceId : Id) (fieldName : String)
    (targetId : Id) (edgeFields : Option FieldMap) : Except EngineError (Writes Key Payload) := do
  let t ← require (.typeNotFound sourceType) (schema.getType sourceType)
  let f ← require (.fieldNotFound sourceType fieldName) (t.getField fieldName)
  let rel ← require (.fieldNotFound sourceType fieldName) f.relation?
  validateEdgeFields sourceType fieldName rel edgeFields
  let targetTypeId ← require (.typeNotFound rel.targetType) (schema.typeId rel.targetType)
  let sourceData ← require (.objectNotFound sourceType sourceId)
    (← view.get (.object t.typeId sourceId))
  let _ ← require (.objectNotFound rel.targetType targetId)
    (← view.get (.object targetTypeId targetId))
  let edgeValue := (edgeFields.map serializeFields).getD .empty
  let revValue :=
    buildCoveringRevValue schema view versions t sourceId (some sourceData) fieldName targetId
  return [(.edge sourceId f.relId targetId, some edgeValue),
    (.reverseEdge targetId f.relId sourceId, some revValue)]

def unlink (sourceType : String) (sourceId : Id) (fieldName : String) (targetId : Id) :
    Except EngineError (Writes Key Payload) := do
  let t ← require (.typeNotFound sourceType) (schema.getType sourceType)
  let f ← require (.fieldNotFound sourceType fieldName) (t.getField fieldName)
  let _ ← require (.fieldNotFound sourceType fieldName) f.relation?
  return [(.edge sourceId f.relId targetId, none), (.reverseEdge targetId f.relId sourceId, none)]

/-- `refresh_covers_for_target`: rewrite the reverse edges of every object that points at the
target by a to-one relation. -/
def refreshCoversForTarget (versions : Versions) (targetTypeId targetId : Id) :
    Except EngineError (Writes Key Payload) :=
  let sources := (schema.incomingRelations targetTypeId).flatMap fun inc =>
    if inc.isMany then []
    else (view.scanReverseEdges targetId inc.relId).map fun row => (inc.sourceTypeId, row.1)
  sources.foldlM (fun writes source => do
    match schema.typeById source.1, ← view.get (.object source.1 source.2) with
    | some t, some data =>
      return writes ++ refreshOutboundRevEdges schema view versions t source.2 (some data)
    | _, _ => return writes) []

end

variable (schema : Schema) (view : View)

abbrev CascadeCtx := Id × Payload

abbrev Arrival := (Id × Id) × Option CascadeCtx

structure Walk where
  deleted : List (Id × Id)
  arena : List Key

def edgeTombstones (sourceId relId targetId : Id) : List Key :=
  [.edge sourceId relId targetId, .reverseEdge targetId relId sourceId]

def entryTombstones (t : TypeDef) (objectId : Id) (fields : FieldMap) : List Key :=
  (t.fields.filterMap fun f =>
    if f.isUnique then
      (fields.lookup f.name).bind fun value =>
        if value = .null then none else some (uniqueKey t f value)
    else none) ++
  t.indexedFields.filterMap (indexKeyOf t objectId fields)

def inboundTombstones (objectId : Id) (inc : IncomingRelation) : List Key :=
  (view.scanReverseEdges objectId inc.relId).flatMap fun row =>
    edgeTombstones row.1 inc.relId objectId

/-- The inbound relations in turn: the first one with an edge and a deny policy ends the
delete; a cascade queues its sources with the reverse edges' values. -/
def stageInbound (t : TypeDef) (objectId : Id) :
    List IncomingRelation → List Key × List Arrival → Except EngineError (List Key × List Arrival)
  | [], acc => .ok acc
  | inc :: incs, (arena, queue) =>
    let rows := view.scanReverseEdges objectId inc.relId
    if rows.isEmpty then stageInbound t objectId incs (arena, queue)
    else
      match inc.policy with
      | .deny => .error (.deleteDenied t.name objectId inc.sourceType inc.sourceField)
      | .remove =>
        stageInbound t objectId incs (arena ++ inboundTombstones view objectId inc, queue)
      | .cascade =>
        stageInbound t objectId incs (arena ++ inboundTombstones view objectId inc,
          queue ++ rows.map fun row => ((inc.sourceTypeId, row.1), some (inc.relId, row.2)))

def coveredTargets (t : TypeDef) (ctx : Option CascadeCtx) : List (Id × Id) :=
  match ctx with
  | none => []
  | some (parentRelId, cover) =>
    if cover.isEmpty then []
    else t.forwardRelations.filterMap fun rel =>
      if rel.isMany ∨ rel.relId = parentRelId then none
      else (cover.findU64FieldInRaw rel.fieldName).map fun targetId => (rel.relId, targetId)

def coveredRelIds (t : TypeDef) (ctx : Option CascadeCtx) : List Id :=
  (ctx.toList.map Prod.fst) ++ (coveredTargets t ctx).map Prod.fst

def outboundTombstones (t : TypeDef) (objectId : Id) (ctx : Option CascadeCtx) : List Key :=
  ((coveredTargets t ctx).flatMap fun c => edgeTombstones objectId c.1 c.2) ++
  (t.forwardRelations.filter fun rel => decide (rel.relId ∉ coveredRelIds t ctx)).flatMap fun rel =>
    (view.scanEdges objectId rel.relId).flatMap fun row => edgeTombstones objectId rel.relId row.1

def ownTombstones (versions : Versions) (typeId objectId : Id) : List Key :=
  .object typeId objectId :: (if 1 < versions typeId objectId then [.objectVersion typeId objectId] else [])

/-- The stored object, where the walk has a use for it or has to know that it exists. -/
def readForDelete (t : TypeDef) (typeId objectId : Id) (verifyExists : Bool) :
    Except EngineError (Option Payload) :=
  if t.hasUnique || t.hasIndexed || t.hasScalar || verifyExists then do
    let data ← view.get (.object typeId objectId)
    if data.isNone && verifyExists then .error (.objectNotFound t.name objectId) else .ok data
  else .ok none

def deleteInner (versions : Versions) :
    (fuel : Nat) → (verifyExists : Bool) → Walk → Arrival → Except EngineError Walk
  | 0, _, _, _ => .error .outOfFuel
  | fuel + 1, verifyExists, walk, ((typeId, objectId), ctx) =>
    if (typeId, objectId) ∈ walk.deleted then .ok walk
    else do
      let t ← require (.typeNotFound ("type_id=" ++ toString typeId)) (schema.typeById typeId)
      let data ← readForDelete view t typeId objectId verifyExists
      let entries := (data.map fun d => entryTombstones t objectId d.deserializeFields).getD []
      let (arena, queue) ← stageInbound view t objectId (schema.incomingRelations typeId)
        (walk.arena ++ entries, [])
      let walk ← queue.foldlM (deleteInner versions fuel false)
        { deleted := walk.deleted ++ [(typeId, objectId)], arena }
      return { walk with
        arena := walk.arena ++ outboundTombstones view t objectId ctx ++
          ownTombstones versions typeId objectId }

/-- No cascade visits more objects than there are types and reverse edges to pair. -/
def deleteFuel : Nat := schema.types.length * view.size + 2

def delete (c : Counters) (typeName : String) (objectId : Id) : Staged :=
  match schema.typeId typeName with
  | none => (.error (.typeNotFound typeName), c)
  | some typeId =>
    match deleteInner schema view c.versions (deleteFuel schema view) true
      { deleted := [], arena := [] } ((typeId, objectId), none) with
    | .error e => (.error e, c)
    | .ok walk =>
      (.ok (walk.arena.map fun key => (key, none)),
        walk.deleted.foldl (fun c d => c.forgetVersion d.1 d.2) c)

end RhypeDb.Engine
