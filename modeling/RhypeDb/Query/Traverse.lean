import RhypeDb.Query.Gate

/-! The pure steps of a pipeline: a traversal, by the ids and objects that reverse edges carry or
by the edges themselves, and filters, limits and offsets. -/

namespace RhypeDb.Query

open Engine

def ofEngine {α : Type} (result : Except EngineError α) : Except QueryError α :=
  result.mapError QueryError.engine

/-- `output_type_name`: the type of what is there, or else of the source. -/
def outputTypeName (source : Source) : QueryOutput → String
  | .idSet typeName _ => typeName
  | .idSetWithFields typeName _ => typeName
  | .single obj => obj.typeName
  | .objects objs => (objs.head?.map Object.typeName).getD source.typeName
  | .scored rows => (rows.head?.map fun row => row.1.typeName).getD source.typeName
  | .done => source.typeName

def QueryOutput.ids : QueryOutput → List Id
  | .idSet _ ids => ids
  | .idSetWithFields _ items => items.map Prod.fst
  | .single obj => [obj.id]
  | .objects objs => objs.map Object.id
  | .scored rows => rows.map fun row => row.1.id
  | .done => []

def idsFromOutput (source : Source) (output : QueryOutput) : String × List Id :=
  (outputTypeName source output, output.ids)

def extractObjects : QueryOutput → Except QueryError (List Object)
  | .objects objs => .ok objs
  | .scored rows => .ok (rows.map Prod.fst)
  | .single obj => .ok [obj]
  | .done => .ok []
  | _ => .error (.type ("internal: extract_objects called on IdSet variant — should have " ++
      "been materialized first via ids_from_output or the terminal materialize"))

def materializeIds (schema : Schema) (store : Store) (typeName : String) (ids : List Id) :
    List Object :=
  (getManyLazy schema store typeName ids).toOption.getD []

def materialize (schema : Schema) (store : Store) : QueryOutput → Except QueryError (List Object)
  | .idSet typeName ids => .ok (materializeIds schema store typeName ids)
  | .idSetWithFields typeName items =>
    .ok (materializeIds schema store typeName (items.map Prod.fst))
  | other => extractObjects other

section

/-- `find_bytes_field_in_raw` of `<name>__cover`, and `<name>__cover_v`. -/
def findCover (data : Payload) (name : String) : Option (Payload × Nat) :=
  match data with
  | .fields _ covers => (covers.find? fun c => decide (c.name = name)).map fun c =>
    (.fields c.fields (c.next.map fun n =>
      { name := n.1, fields := n.2.1, next := [], version := n.2.2 }), c.version)
  | _ => none

/-- One hop: where it leads, against an `@inverse` or not, and whether to one target. -/
structure Hop where
  targetType : String
  isInverse : Bool
  isOneToOneForward : Bool

def hopOf (f : FieldDef) (rel : RelationType) : Hop where
  targetType := rel.targetType
  isInverse := f.inverse.isSome
  isOneToOneForward := !rel.isMany && f.inverse.isNone

def resolveHop (schema : Schema) (sourceType fieldName : String) : Except QueryError Hop :=
  match (schema.getType sourceType).bind fun t => (t.getField fieldName).bind fun f =>
      f.relation?.map (hopOf f) with
  | some hop => .ok hop
  | none => .error (.invalidArgument ("no relation field " ++ fieldName ++ " on " ++ sourceType))

def fusionInput (fieldName : String) (output : QueryOutput) : Option (List (Id × Payload)) :=
  let named (items : List (Id × Payload)) : Option (List (Id × Payload)) :=
    if items.any fun item => (item.2.findU64FieldInRaw fieldName).isSome then some items else none
  match output with
  | .idSetWithFields _ items => named items
  | .objects objs => named (objs.filterMap fun o => o.rawFields.map fun raw => (o.id, raw))
  | _ => none

def fusedTargets (fieldName : String) (items : List (Id × Payload)) : List (Id × Payload) :=
  (items.filterMap fun item =>
    (item.2.findU64FieldInRaw fieldName).map fun targetId => (targetId, item.2)).eraseDupsBy
      fun a b => decide (a.1 = b.1)

variable (schema : Schema) (db : Database)

def freshCover (targetType fieldName : String) (target : Id × Payload) : Option Payload :=
  (findCover target.2 fieldName).bind fun cover =>
    let live := objectVersion schema db.counters.versions targetType target.1
    if cover.2 = live ∧ live ≠ 0 then some cover.1 else none

/-- The fusion path: whole objects out of the values where all targets have a fresh cover, some
out of the values and the others read where some have, the ids alone where none has. -/
def fuse (targetType fieldName : String) (items : List (Id × Payload)) :
    Except QueryError QueryOutput :=
  let targets := fusedTargets fieldName items
  let covered := targets.filterMap fun target =>
    (freshCover schema db targetType fieldName target).map (Object.fromRaw targetType target.1)
  let idOnly := (targets.filter fun target =>
    (freshCover schema db targetType fieldName target).isNone).map Prod.fst
  if covered.isEmpty then .ok (.idSet targetType idOnly)
  else if idOnly.isEmpty then .ok (.objects covered)
  else
    match getManyLazy schema db.store targetType idOnly with
    | .ok probed => .ok (.objects (covered ++ probed))
    | .error _ => .error (.invalidArgument ("type not found: " ++ targetType))

end

variable {F : Type} (ctx : ExecContext F) (db : Database) (source : Source)

def followLinks (fieldName : String) (hop : Hop) (current : QueryOutput) : Metered QueryOutput := do
  let (sourceType, sourceIds) := idsFromOutput source current
  let groups ← MonadExcept.ofExcept
    (ofEngine (getLinksMany ctx.schema db.store.view sourceType sourceIds fieldName))
  ctx.governor.charge (groups.map List.length).sum
  if hop.isInverse then
    return .idSetWithFields hop.targetType
      (groups.flatten.eraseDupsBy fun a b => decide (a.1 = b.1))
  else return .idSet hop.targetType (groups.flatten.map Prod.fst).eraseDups

def traverse (fieldName : String) (current : QueryOutput) : Metered QueryOutput := do
  let hop ← MonadExcept.ofExcept
    (resolveHop ctx.schema (outputTypeName source current) fieldName)
  match if hop.isOneToOneForward then fusionInput fieldName current else none with
  | some items => do
    ctx.governor.charge items.length
    MonadExcept.ofExcept (fuse ctx.schema db hop.targetType fieldName items)
  | none => followLinks ctx db source fieldName hop current

def filterStep (predicate : Predicate) (current : QueryOutput) : Except QueryError QueryOutput := do
  validatePredicateForType ctx.schema (outputTypeName source current) predicate
  match current with
  | .scored rows =>
    return .scored ((rows.map fun row => (row.1.ensureFieldsDeserialized, row.2)).filter fun row =>
      evaluatePredicate ctx.codecs row.1.fields predicate)
  | other => do
    let objects ← materialize ctx.schema db.store other
    return .objects ((objects.map Object.ensureFieldsDeserialized).filter fun obj =>
      evaluatePredicate ctx.codecs obj.fields predicate)

def limitStep (count : Nat) : QueryOutput → Except QueryError QueryOutput
  | .idSet typeName ids => .ok (.idSet typeName (ids.take count))
  | .idSetWithFields typeName items => .ok (.idSetWithFields typeName (items.take count))
  | .scored rows => .ok (.scored (rows.take count))
  | other => (extractObjects other).map fun objects => .objects (objects.take count)

def offsetStep (count : Nat) : QueryOutput → Except QueryError QueryOutput
  | .idSet typeName ids => .ok (.idSet typeName (ids.drop count))
  | .idSetWithFields typeName items => .ok (.idSetWithFields typeName (items.drop count))
  | .scored rows => .ok (.scored (rows.drop count))
  | other => (extractObjects other).map fun objects => .objects (objects.drop count)

end RhypeDb.Query
