import RhypeDb.Query.Context

/-! Authorization of the data plane: creates are gated on the incoming fields, writes on the
stored objects that a step names, and every stage's rows are filtered by the read rule. A denied
write is an error, a denied row is dropped. -/

namespace RhypeDb.Query

open Authz Engine

def maxRuleRelationTargets : Nat := 1024

def readCheckBatch : Nat := 1024

section

variable {F : Type} (ctx : ExecContext F) (store : Store) (typeName : String)
  (object : Option Object) (request : Option FieldMap)

def relationTarget (rel : String) : Option String :=
  (ctx.schema.getType typeName).bind fun t => (t.getField rel).bind fun f =>
    f.relation?.map RelationType.targetType

/-- The edges of the current object, unless there is none or the traversal fails. -/
def linkedRows (rel : String) : Option (List (Id × Payload)) :=
  object.bind fun obj =>
    (getLinksMany ctx.schema store.view typeName [obj.id] rel).toOption.map List.flatten

/-- The linked ids, charged for; `none` where they cannot be told. -/
def linkedIds (rel : String) : StateM Meter (Option (List Id)) :=
  match linkedRows ctx store typeName object rel with
  | none => return none
  | some rows => do
    match ← (ctx.governor.charge rows.length).run with
    | .error _ => return none
    | .ok _ => return if maxRuleRelationTargets < rows.length then none else some (rows.map Prod.fst)

def targetScalar (targetType : String) (id : Id) (field : String) : Option (Json F) :=
  match Engine.get ctx.schema store targetType id with
  | .ok obj => (obj.ensureFieldsDeserialized.fields.lookup field).map (valueToQueryJson ctx.json)
  | .error _ => none

def scalarOfFirst (targetType field : String) (ids : Option (List Id)) : Option (Json F) :=
  ids.bind fun ids => ids.head?.bind fun id => targetScalar ctx store targetType id field

def scalarsOfAll (targetType field : String) (ids : Option (List Id)) : Option (List (Json F)) :=
  ids.map fun ids => ids.filterMap fun id => targetScalar ctx store targetType id field

def engineResource : MeteredAccessor Meter F where
  resourceScalar field := object.bind fun obj =>
    (obj.fields.lookup field).map (valueToQueryJson ctx.json)
  resourceRelationOne rel field :=
    match relationTarget ctx typeName rel with
    | none => return none
    | some targetType => do
      return scalarOfFirst ctx store targetType field (← linkedIds ctx store typeName object rel)
  resourceRelationMany rel field :=
    match relationTarget ctx typeName rel with
    | none => return none
    | some targetType => do
      return scalarsOfAll ctx store targetType field (← linkedIds ctx store typeName object rel)
  requestField field := request.bind fun fields =>
    (fields.lookup field).map (valueToQueryJson ctx.json)

def boundedIds (rel : String) : Option (List Id) :=
  (linkedRows ctx store typeName object rel).bind fun rows =>
    if maxRuleRelationTargets < rows.length then none else some (rows.map Prod.fst)

/-- The same resource, its relations answered whatever they cost. -/
def resourceOf : ResourceAccessor F where
  resourceScalar field := object.bind fun obj =>
    (obj.fields.lookup field).map (valueToQueryJson ctx.json)
  resourceRelationOne rel field := (relationTarget ctx typeName rel).bind fun targetType =>
    scalarOfFirst ctx store targetType field (boundedIds ctx store typeName object rel)
  resourceRelationMany rel field := (relationTarget ctx typeName rel).bind fun targetType =>
    scalarsOfAll ctx store targetType field (boundedIds ctx store typeName object rel)
  requestField field := request.bind fun fields =>
    (fields.lookup field).map (valueToQueryJson ctx.json)

variable {ctx store typeName object request}

theorem linkedIds_cases (rel : String) (meter : Meter) :
    ((linkedIds ctx store typeName object rel).run meter).1 = none ∨
      ((linkedIds ctx store typeName object rel).run meter).1 =
        boundedIds ctx store typeName object rel := by
  unfold linkedIds boundedIds
  cases linkedRows ctx store typeName object rel with
  | none => exact .inl rfl
  | some rows =>
    rw [StateT.run_bind]
    generalize (ctx.governor.charge rows.length).run.run meter = out
    obtain ⟨charged, meter'⟩ := out
    cases charged with
    | error e => exact .inl rfl
    | ok _ => exact .inr rfl

theorem engineResource_under :
    (engineResource ctx store typeName object request).Under
      (resourceOf ctx store typeName object request) where
  resourceScalar := rfl
  requestField := rfl
  resourceRelationOne rel field meter := by
    unfold engineResource resourceOf
    dsimp only
    cases relationTarget ctx typeName rel with
    | none => exact .inl rfl
    | some targetType =>
      dsimp only [Option.bind_some]
      rw [StateT.run_bind]
      rcases @linkedIds_cases _ ctx store typeName object rel meter with hnone | hsame
      · left
        change scalarOfFirst ctx store targetType field _ = none
        rw [hnone]
        rfl
      · right
        change scalarOfFirst ctx store targetType field _ = _
        rw [hsame]
  resourceRelationMany rel field meter := by
    unfold engineResource resourceOf
    dsimp only
    cases relationTarget ctx typeName rel with
    | none => exact .inl rfl
    | some targetType =>
      dsimp only [Option.bind_some]
      rw [StateT.run_bind]
      rcases @linkedIds_cases _ ctx store typeName object rel meter with hnone | hsame
      · left
        change scalarsOfAll ctx store targetType field _ = none
        rw [hnone]
        rfl
      · right
        change scalarsOfAll ctx store targetType field _ = _
        rw [hsame]

end

variable {F : Type} [JsonNumber F] (ctx : ExecContext F) (store : Store)

def deniedError (op : Op) (typeName : String) : QueryError :=
  .permissionDenied (op.asStr ++ " on " ++ typeName ++ " denied by security rules")

/-- `decide`. -/
def decideOp (rules : RulesProgram F) (op : Op) (typeName : String)
    (resource : MeteredAccessor Meter F) : Metered Unit := do
  match ← ExceptT.lift (rules.evaluateM ctx.principal resource op typeName) with
  | .allow => return
  | .deny => throw (deniedError op typeName)

def gateCreate (typeName : String) (fields : FieldMap) : Metered Unit :=
  match ctx.rules with
  | none => return
  | some rules =>
    decideOp ctx rules .create typeName (engineResource ctx store typeName none (some fields))

/-- One object of a write, unless it does not exist. -/
def gateObject (rules : RulesProgram F) (op : Op) (typeName : String) (request : Option FieldMap)
    (id : Id) : Metered Unit :=
  match Engine.get ctx.schema store typeName id with
  | .error _ => return
  | .ok obj =>
    decideOp ctx rules op typeName
      (engineResource ctx store typeName (some obj.ensureFieldsDeserialized) request)

def gateWrite (op : Op) (typeName : String) (ids : List Id) (request : Option FieldMap) :
    Metered Unit :=
  match ctx.rules with
  | none => return
  | some rules => ids.forM (gateObject ctx store rules op typeName request)

def mayRead (rules : RulesProgram F) (obj : Object) : StateM Meter Bool := do
  let decision ← rules.evaluateM ctx.principal
    (engineResource ctx store obj.typeName (some obj) none) .read obj.typeName
  return decide (decision = .allow)

/-- `filter_read`: the readable objects, their fields decoded. -/
def filterRead (rules : RulesProgram F) : List Object → StateM Meter (List Object)
  | [] => return []
  | obj :: objs => do
    let obj := obj.ensureFieldsDeserialized
    let keep ← mayRead ctx store rules obj
    let rest ← filterRead rules objs
    return if keep then obj :: rest else rest

def rescored (rows : List (Object × RowScore)) (objs : List Object) : List (Object × RowScore) :=
  objs.filterMap fun obj =>
    (rows.reverse.find? fun row => decide (row.1.id = obj.id)).map fun row => (obj, row.2)

def applyReadFilter (result : QueryOutput) : StateM Meter QueryOutput :=
  match ctx.rules with
  | none => return result
  | some rules =>
    match result with
    | .objects objs => do return .objects (← filterRead ctx store rules objs)
    | .scored rows => do
      return .scored (rescored rows (← filterRead ctx store rules (rows.map Prod.fst)))
    | .single obj => do
      let obj := obj.ensureFieldsDeserialized
      return if ← mayRead ctx store rules obj then .single obj else .done
    | .done => return .done
    | .idSet typeName ids => return .idSet typeName ids
    | .idSetWithFields typeName items => return .idSetWithFields typeName items

def chunks {α : Type} (size : Nat) (l : List α) : List (List α) :=
  (List.range ((l.length + size - 1) / size)).map fun i => (l.drop (i * size)).take size

def readableBatch (rules : RulesProgram F) (typeName : String) (batch : List Id) :
    Metered (List Id) := do
  let objs := (getManyLazy ctx.schema store typeName batch).toOption.getD []
  let kept ← ExceptT.lift (filterRead ctx store rules objs)
  ctx.governor.checkDeadline
  return kept.map Object.id

def readableIds (rules : RulesProgram F) (typeName : String) (ids : List Id) :
    Metered (List Id) := do
  ctx.governor.charge ids.length
  let batches ← (chunks readCheckBatch ids).mapM (readableBatch ctx store rules typeName)
  return batches.flatten

def QueryOutput.ruleRows : QueryOutput → Nat
  | .objects objs => objs.length
  | .scored rows => rows.length
  | _ => 0

def readFilterStage (result : QueryOutput) : Metered QueryOutput :=
  match ctx.rules with
  | none => return result
  | some rules => do
    let filtered ← match result with
      | .idSet typeName ids => do
        let keep ← readableIds ctx store rules typeName ids
        pure (QueryOutput.idSet typeName (ids.filter fun id => decide (id ∈ keep)))
      | .idSetWithFields typeName items => do
        let keep ← readableIds ctx store rules typeName (items.map Prod.fst)
        pure (QueryOutput.idSetWithFields typeName
          (items.filter fun item => decide (item.1 ∈ keep)))
      | other => do
        ctx.governor.charge other.ruleRows
        ExceptT.lift (applyReadFilter ctx store other)
    ctx.governor.checkExhausted
    return filtered

end RhypeDb.Query
