import RhypeDb.Query.Planner
import RhypeDb.Query.Search

/-! The pipeline of a query: its source, its steps in turn, and the terminal read filter. What only
reads is a computation over the meter; the writes are calls of the engine, each of which runs
alone. An error keeps what was written before it. -/

namespace RhypeDb.Query

open Authz Engine List

structure ExecState where
  db : Database
  meter : Meter

abbrev Exec := ExceptT QueryError (StateM ExecState)

section

variable {F : Type} (ctx : ExecContext F)

def reading {α : Type} (f : Database → Metered α) : Exec α :=
  ExceptT.mk fun s =>
    let out := (f s.db).run.run s.meter
    (out.1, { s with meter := out.2 })

def ExecState.commit (s : ExecState) : Staged → Except QueryError Unit × ExecState
  | (.ok writes, c) =>
    (.ok (), { s with db := { store := s.db.store.apply writes, counters := c } })
  | (.error e, c) => (.error (.engine e), { s with db := { s.db with counters := c } })

def write (call : Database.Call) : Exec Unit :=
  ExceptT.mk fun s =>
    s.commit (Database.stage ctx.schema s.db.store.view s.db.counters call)

def readObject (typeName : String) (id : Id) : Exec Object :=
  reading fun db => MonadExcept.ofExcept (ofEngine (Engine.get ctx.schema db.store typeName id))

end

section

variable {F : Type} [JsonNumber F] (ctx : ExecContext F) (db : Database)

def chargeWords (words : Nat) : Metered Unit :=
  if ctx.governor.scanCap.isSome then ctx.governor.charge words else return

def leadingLimit (steps : List Step) : Option Nat :=
  match steps.head? with
  | some (.limit count) => some count
  | _ => none

def scanAllObjects (typeName : String) : Metered (List Object) := do
  let objs := ofEngine (scanType ctx.schema db.store typeName)
  if !ctx.governor.enabled then MonadExcept.ofExcept objs
  else do
    let objs ← MonadExcept.ofExcept objs
    match ctx.governor.scanCap with
    | some cap =>
      if cap < objs.length then
        throw (.resourceLimitExceeded ("query scans more than " ++ toString cap ++
          " rows of type '" ++ typeName ++
          "'; narrow it with an indexed filter or a smaller query"))
    | none => pure ()
    ctx.governor.charge objs.length
    return objs

def pushedLimit (steps : List Step) : Option Nat :=
  if ctx.rules.isNone then (leadingLimit steps).map ctx.governor.clampLimit else none

def filterSource (typeName : String) (predicate : Predicate) (steps : List Step) :
    Metered QueryOutput := do
  MonadExcept.ofExcept (validatePredicateForType ctx.schema typeName predicate)
  let reads := { ctx.pruned db.store with store := db.store }
  match ← MonadExcept.ofExcept (planFilterScan ctx.codecs ctx.schema reads typeName predicate
      (pushedLimit ctx steps)) with
  | some objects => do
    ctx.governor.charge objects.length
    return .objects (objects.map Object.ensureFieldsDeserialized)
  | none => do
    let all ← scanAllObjects ctx db typeName
    return .objects ((all.map Object.ensureFieldsDeserialized).filter fun obj =>
      evaluatePredicate ctx.codecs obj.fields predicate)

def prepareCreate (typeName : String) (fields : LiteralMap) : Metered FieldMap := do
  let fieldMap ← MonadExcept.ofExcept
    (literalMapToFieldMap ctx.codecs ctx.schema typeName fields)
  chargeWords ctx (ctx.fulltext.indexWords typeName fieldMap)
  gateCreate ctx db.store typeName fieldMap
  return fieldMap

def prepareBatch (typeName : String) (rows : List LiteralMap) : Metered (List FieldMap) := do
  ctx.governor.charge rows.length
  let fieldMaps ← MonadExcept.ofExcept
    (rows.mapM (literalMapToFieldMap ctx.codecs ctx.schema typeName))
  chargeWords ctx (fieldMaps.map (ctx.fulltext.indexWords typeName)).sum
  fieldMaps.forM (gateCreate ctx db.store typeName)
  return fieldMaps

def nextObjectId : Exec Id := reading fun db => return db.counters.nextObjectId

def executeSource (query : Query) : Exec QueryOutput :=
  match query.source with
  | .get typeName id => do return .objects [← readObject ctx typeName id]
  | .filter typeName predicate =>
    reading fun db => filterSource ctx db typeName predicate query.steps
  | .create typeName fields => do
    let fieldMap ← reading fun db => prepareCreate ctx db typeName fields
    let id ← nextObjectId
    write ctx (.create typeName fieldMap)
    return .single (← readObject ctx typeName id)
  | .createBatch typeName rows => do
    let fieldMaps ← reading fun db => prepareBatch ctx db typeName rows
    let next ← nextObjectId
    write ctx (.createBatch typeName fieldMaps)
    return .objects (← (drawnIds next fieldMaps.length).mapM (readObject ctx typeName))
  | .all typeName => do
    return .objects (← reading fun db => scanAllObjects ctx db typeName)

def resolveRelationField (schema : Schema) (sourceType targetType : String) :
    Except QueryError String :=
  match schema.getType sourceType with
  | none => .error (.type ("unknown type " ++ sourceType))
  | some t =>
    match (t.fields.filter fun f =>
        f.relation?.any fun rel => decide (rel.targetType = targetType)).map FieldDef.name with
    | [] => .error (.invalidArgument
        ("no relation field on " ++ sourceType ++ " points to " ++ targetType))
    | [single] => .ok single
    | many => .error (.invalidArgument
        ("ambiguous: " ++ sourceType ++ " has multiple relation fields to " ++ targetType ++
          ": [" ++ ", ".intercalate (many.map fun name => "\"" ++ name ++ "\"") ++ "]"))

section

variable (db : Database) (typeName : String) (ids : List Id)

def chargeStoredWords (updates : Option FieldMap) : Metered Unit :=
  if ctx.governor.scanCap.isSome then do
    ctx.governor.charge (← MonadExcept.ofExcept
      (ofEngine (ctx.fulltext.storedWords db typeName ids updates)))
  else return

def prepareUpdate (fields : LiteralMap) : Metered FieldMap := do
  ctx.governor.charge ids.length
  let fieldMap ← MonadExcept.ofExcept
    (literalMapToFieldMap ctx.codecs ctx.schema typeName fields)
  chargeWords ctx (saturatingMul (ctx.fulltext.indexWords typeName fieldMap) ids.length)
  chargeStoredWords ctx db typeName ids (some fieldMap)
  gateWrite ctx db.store .update typeName ids (some fieldMap)
  return fieldMap

def prepareDelete : Metered Unit := do
  ctx.governor.charge ids.length
  chargeStoredWords ctx db typeName ids none
  gateWrite ctx db.store .delete typeName ids none

/-- A link is an update of its source; its field is resolved behind the gate. -/
def prepareUnlink (targetType : String) : Metered String := do
  ctx.governor.charge ids.length
  gateWrite ctx db.store .update typeName ids none
  MonadExcept.ofExcept (resolveRelationField ctx.schema typeName targetType)

def prepareLink (targetType : String) (edgeFields : LiteralMap) :
    Metered (String × Option FieldMap) := do
  let fieldName ← prepareUnlink ctx db typeName ids targetType
  if edgeFields.entries.isEmpty then return (fieldName, none)
  else do
    let edgeMap ← MonadExcept.ofExcept
      (edgeLiteralMapToFieldMap ctx.codecs ctx.schema typeName fieldName edgeFields)
    return (fieldName, some edgeMap)

end

def updateObject (typeName : String) (fields : FieldMap) (id : Id) : Exec Object := do
  reading fun _ => ctx.governor.checkDeadline
  write ctx (.update typeName id fields)
  readObject ctx typeName id

def deleteObject (typeName : String) (id : Id) : Exec Unit := do
  reading fun _ => ctx.governor.checkDeadline
  write ctx (.delete typeName id)

def writeStep (typeName : String) (ids : List Id) : Step → Exec QueryOutput
  | .update fields => do
    let fieldMap ← reading fun db => prepareUpdate ctx db typeName ids fields
    match ← ids.mapM (updateObject ctx typeName fieldMap) with
    | [obj] => return .single obj
    | updated => return .objects updated
  | .delete => do
    reading fun db => prepareDelete ctx db typeName ids
    ids.forM (deleteObject ctx typeName)
    return .done
  | .link targetType targetId edgeFields => do
    let (fieldName, edgeMap) ←
      reading fun db => prepareLink ctx db typeName ids targetType edgeFields
    ids.forM fun id => write ctx (.link typeName id fieldName targetId edgeMap)
    return .done
  | .unlink targetType targetId => do
    let fieldName ← reading fun db => prepareUnlink ctx db typeName ids targetType
    ids.forM fun id => write ctx (.unlink typeName id fieldName targetId)
    return .done
  | _ => return .done

def readStep (source : Source) (current : QueryOutput) (db : Database) : Step → Metered QueryOutput
  | .traverse fieldName => traverse ctx db source fieldName current
  | .filter predicate => MonadExcept.ofExcept (filterStep ctx db source predicate current)
  | .similar fieldName query k ef rerank =>
    let (typeName, ids) := idsFromOutput source current
    runSimilar ctx db typeName fieldName query k (some ids) ef rerank
  | .matches fieldName text k =>
    let (typeName, ids) := idsFromOutput source current
    runMatches ctx db typeName fieldName text k (some ids)
  | .limit count => MonadExcept.ofExcept (limitStep (ctx.governor.clampLimit count) current)
  | .offset count => MonadExcept.ofExcept (offsetStep count current)
  | _ => return current

def executeStep (source : Source) (current : QueryOutput) (step : Step) : Exec QueryOutput :=
  if step.isWrite then
    let (typeName, ids) := idsFromOutput source current
    writeStep ctx typeName ids step
  else reading fun db => readStep ctx source current db step

end

variable {F : Type} [JsonNumber F] (ctx : ExecContext F) (query : Query)

structure Pipeline where
  result : QueryOutput
  depth : Nat
  unfiltered : Bool

def Step.isTraverse : Step → Bool
  | .traverse _ => true
  | _ => false

def Step.bringsRows (step : Step) : Bool := step.isTraverse || step.isWrite

/-- A search over a whole type, which runs instead of the source; a vector search only where no
rule could drop a row behind it. -/
def bareSearch : Option (Database → Metered QueryOutput) :=
  match query.source, query.steps.head? with
  | .all typeName, some (.similar fieldName sq k ef rerank) =>
    if ctx.rules.isNone then
      some fun db => runSimilar ctx db typeName fieldName sq k none ef rerank
    else none
  | .all typeName, some (.matches fieldName text k) =>
    some fun db => runMatches ctx db typeName fieldName text k none
  | _, _ => none

def start : Exec Pipeline :=
  match bareSearch ctx query with
  | some search => do return { result := ← reading search, depth := 0, unfiltered := false }
  | none => do return { result := ← executeSource ctx query, depth := 0, unfiltered := true }

def stepsLeft : List (Step × Nat) :=
  query.steps.zipIdx.drop (if (bareSearch ctx query).isSome then 1 else 0)

/-- What a step has to pass before it runs, and the read filter on the rows it is given. A write
straight behind a point source gates the object named by itself. -/
def enterStage (step : Step × Nat) (p : Pipeline) (db : Database) : Metered Pipeline := do
  ctx.governor.checkDeadline
  let depth := if step.1.isTraverse then p.depth + 1 else p.depth
  if step.1.isTraverse then ctx.governor.checkDepth depth
  if ctx.rules.isSome ∧ p.unfiltered ∧
      ¬ (step.2 = 0 ∧ query.source.isPoint ∧ step.1.isWrite) then
    return { result := ← readFilterStage ctx db.store p.result, depth, unfiltered := false }
  else return { p with depth }

def runStage (step : Step × Nat) (p : Pipeline) : Exec Pipeline := do
  let p ← reading (enterStage ctx query step p)
  let result ← executeStep ctx query.source p.result step.1
  return { p with result, unfiltered := p.unfiltered || step.1.bringsRows }

def runStages : List (Step × Nat) → Pipeline → Exec Pipeline
  | [], p => return p
  | step :: steps, p => do runStages steps (← runStage ctx query step p)

def terminalRows (db : Database) (result : QueryOutput) : Metered QueryOutput :=
  match result with
  | .idSet typeName ids => do
    ctx.governor.checkResultRows ids.length
    ctx.governor.charge ids.length
    return .objects (materializeIds ctx.schema db.store typeName ids)
  | .idSetWithFields typeName items => do
    ctx.governor.checkResultRows items.length
    ctx.governor.charge items.length
    return .objects (materializeIds ctx.schema db.store typeName (items.map Prod.fst))
  | other => return other

def chargeRows : QueryOutput → Metered Unit
  | .objects objs => ctx.governor.charge objs.length
  | .scored rows => ctx.governor.charge rows.length
  | _ => return

def terminalFilter (db : Database) (result : QueryOutput) : Metered QueryOutput :=
  if ctx.rules.isSome then do
    chargeRows ctx result
    let result ← ExceptT.lift (applyReadFilter ctx db.store result)
    ctx.governor.checkExhausted
    return result
  else return result

def finish (result : QueryOutput) (db : Database) : Metered QueryOutput := do
  let result ← terminalFilter ctx db (← terminalRows ctx db result)
  ctx.governor.checkResultRows result.ruleRows
  return result

/-- The source and the first steps behind it. -/
def stages (n : Nat) : Exec Pipeline := do
  let p ← start ctx query
  runStages ctx query ((stepsLeft ctx query).take n) p

def execute : Exec QueryOutput := do
  let p ← start ctx query
  let p ← runStages ctx query (stepsLeft ctx query) p
  reading (finish ctx p.result)

variable {ctx query}

theorem runStages_append (l l' : List (Step × Nat)) (p : Pipeline) :
    runStages ctx query (l ++ l') p = runStages ctx query l p >>= runStages ctx query l' := by
  induction l generalizing p with
  | nil => rw [nil_append, runStages, pure_bind]
  | cons step l ih =>
    rw [cons_append, runStages, runStages, bind_assoc]
    exact bind_congr fun p => ih p

theorem stages_succ {n : Nat} {step : Step × Nat} (h : (stepsLeft ctx query)[n]? = some step) :
    stages ctx query (n + 1) = stages ctx query n >>= runStage ctx query step := by
  have htake : (stepsLeft ctx query).take (n + 1) = (stepsLeft ctx query).take n ++ [step] := by
    rw [take_add_one, h]
    rfl
  have hone : ∀ p, runStages ctx query [step] p = runStage ctx query step p := by
    intro p
    exact bind_pure _
  unfold stages
  rw [bind_assoc, htake]
  refine bind_congr fun p => ?_
  rw [runStages_append]
  exact bind_congr hone

theorem execute_eq_stages :
    execute ctx query = stages ctx query (stepsLeft ctx query).length >>= fun p =>
      reading (finish ctx p.result) := by
  unfold execute stages
  rw [take_length, bind_assoc]

theorem stages_zero : stages ctx query 0 = start ctx query := by
  exact bind_pure _

end RhypeDb.Query
