import RhypeDb.Basic.Run
import RhypeDb.Migration.Store

/-! One migration among the threads of a process: foreground writes under the read lock, the
driver with its partition workers under no lock, and the passes of cutover and rollback under the
write lock. Transactions read at a snapshot and are refused if a key they write was committed
since; everything but what is committed is lost when the process stops. -/

namespace RhypeDb.Migration

open Engine Storage

structure MigrationPlanSpec where
  targetFieldType : ScalarType
  converterVersion : UInt32
  chunkSize : Nat
  parallelDegree : Nat
  errorPolicy : ErrorPolicy
  dryRun : Bool
  quarantineCap : Nat

inductive Write
  | create (fields : FieldMap)
  | update (objectId : Id) (updates : FieldMap)
  | delete (objectId : Id) (cascade : List Id)

structure StagedWrite where
  rows : Writes Id FieldMap
  written : List (Id × Option Value)

section

variable (field : String)

def collectScalar (t : TypeDef) (acc : FieldMap) (f : Sigma fun _ : String => Value) :
    Except EngineError FieldMap := do
  let fieldDef ← require (.fieldNotFound t.name f.1) (t.getField f.1)
  validateValue fieldDef f.2
  match fieldDef.fieldType with
  | .scalar _ => return acc.insert f.1 f.2
  | .relation _ => return acc
  | .vector _ => throw (.typeMismatch fieldDef.name "scalar or relation" f.2.typeName)

def stageWrite (t : TypeDef) (hook : Option MigratingFieldHook) (rows : Rows) (objectId : Id) :
    Write → Except MigrationError StagedWrite
  | .create fields => do
    let scalars ← ofEngine (fields.entries.foldlM (collectScalar t) ∅)
    let blob ← applyMigratingFieldHook field hook objectId scalars
    return { rows := [(objectId, some blob)], written := [(objectId, scalars.lookup field)] }
  | .update id updates => do
    ofEngine (updates.entries.forM (validateUpdate t))
    let existing ← ofEngine (require (.objectNotFound t.name id) (rows.lookup id))
    let blob ← applyMigratingFieldHook field hook id (existing.merge updates)
    return { rows := [(id, some blob)]
             written := (updates.lookup field).toList.map fun value => (id, some value) }
  | .delete id cascade => do
    let _ ← ofEngine (require (.objectNotFound t.name id) (rows.lookup id))
    return { rows := (id :: cascade).map fun id => (id, none)
             written := (id :: cascade).map fun id => (id, none) }

end

structure Writer where
  snapshot : Nat
  objectId : Id
  op : Write
  staged : StagedWrite

inductive Control
  | run
  | pause
  | cancel
  deriving DecidableEq

inductive PartitionDriveOutcome
  | done
  | paused
  | cancelled
  | capExceeded
  | failed
  deriving DecidableEq

/-- A partition worker: before it loads its cursor, before it polls the control, before it scans,
and with a chunk to commit. -/
inductive WorkerPhase
  | starting
  | polling (pc : PartitionCursor)
  | scanning (pc : PartitionCursor) (attempts : Nat)
  | staged (pc : PartitionCursor) (attempts snapshot : Nat) (commit : Commit)
      (after : PartitionCursor) (errors : Nat)
  | finished (outcome : PartitionDriveOutcome)

structure Backfill where
  plan : MigrationPlan
  workers : Nat → WorkerPhase
  errorCounter : Nat

inductive BackfillResult
  | allDone
  | paused
  | failed
  deriving DecidableEq

inductive DriverPhase
  | loading
  | backfill (b : Backfill)
  | backfilled (plan : MigrationPlan) (result : BackfillResult)
  | finalizeDryRun
  | terminal
  | inPass
  | finished

structure Driver where
  control : Control
  inline : Bool
  phase : DriverPhase

/-- A resume on its caller's thread: it has loaded the plan, armed the hook, or loaded the plan
that it is about to drive. -/
inductive ResumePhase
  | loaded (plan : MigrationPlan)
  | armed
  | driving (plan : MigrationPlan)

structure Resume where
  resolved : Bool
  phase : ResumePhase

inductive Owner
  | driver
  | caller
  | opening
  deriving DecidableEq

inductive PassKind
  | cutover
  | rollback
  deriving DecidableEq

inductive PassPhase
  | gate
  | mark
  | scan (attempts : Nat)
  | staged (attempts snapshot : Nat) (commit : Commit) (after : MigrationPlan) (more : Bool)
  | finalize

/-- The holder of the write lock, with the plan it has in memory. `start` is what the rows were when
it took the lock; no step reads it. -/
structure Pass where
  owner : Owner
  kind : PassKind
  plan : MigrationPlan
  start : Rows
  phase : PassPhase

/-- An open database. `waiting` counts the threads other than the driver that are about to run a
terminal pass; `spawning` is a create that has yet to register its driver. -/
structure Handle where
  type : CheckedType
  registered : Bool
  hook : Option MigratingFieldHook
  nextObjectId : Id
  writers : List Writer
  spawning : Bool
  resumes : List Resume
  driver : Option Driver
  waiting : Nat
  pass : Option Pass

/-- What is committed, the process, and beside them what the users last wrote into the field of
each object, the objects whose quarantine row was cleared, and the converters in use. -/
structure Sys where
  history : History
  handle : Option Handle
  written : Id → Option Value
  cleared : List Id
  converters : List Converter

inductive Event
  | openDatabase (type : CheckedType) (highestOther : Id)
  | stop
  | registerConverter
  | drawObjectId
  | write (op : Write)
  | commitWrite (i : Nat)
  | createMigration
  | spawnDriver
  | driver
  | worker (idx : Nat) (layers : Layers)
  | pause
  | waitForMigration
  | resume
  | resumeStep (i : Nat)
  | cancel
  | cutover
  | terminalPass
  | pass (layers : Layers)
  | retryQuarantined (objectId : Id) (newConverter : Converter)
  | clearQuarantine

def start (field : String) (rows : Rows) (kind : ScalarType) : Sys where
  history :=
    { base := { rows, plan := none, cursors := ∅, quarantine := ∅, kind }, commits := [] }
  handle := none
  written := fun id => (rows.lookup id).bind fun fields => fields.lookup field
  cleared := []
  converters := []

namespace Handle

def lockFree (h : Handle) : Bool := h.writers.isEmpty && h.pass.isNone

def opening (h : Handle) : Bool := h.pass.any fun p => decide (p.owner = .opening)

def drawFor (h : Handle) : Write → Handle
  | .create _ => { h with nextObjectId := h.nextObjectId + UInt64.ofNat 1 }
  | _ => h

def setDriver (h : Handle) (phase : DriverPhase) : Handle :=
  { h with driver := h.driver.map fun d => { d with phase } }

def finishDriver (h : Handle) : Handle :=
  { h with driver := h.driver.bind fun d =>
      if d.inline then none else some { d with phase := .finished } }

def setWorker (h : Handle) (b : Backfill) (idx : Nat) (w : WorkerPhase) : Handle :=
  h.setDriver (.backfill { b with workers := Function.update b.workers idx w })

def backfill? (h : Handle) : Option Backfill :=
  h.driver.bind fun d =>
    match d.phase with
    | .backfill b => some b
    | _ => none

end Handle

namespace Sys

def data (s : Sys) : Data := s.history.latest Data.apply

def dataAt (s : Sys) (snapshot : Nat) : Data := s.history.stateAt Data.apply snapshot

def commit (s : Sys) (c : Commit) : Sys := { s with history := s.history.commit c }

def setHandle (s : Sys) (h : Handle) : Sys := { s with handle := some h }

def Refused (s : Sys) (snapshot : Nat) (c : Commit) : Prop :=
  s.history.Conflicts Commit.keys snapshot c.keys

instance (s : Sys) (snapshot : Nat) (c : Commit) : Decidable (s.Refused snapshot c) :=
  inferInstanceAs (Decidable (s.history.Conflicts Commit.keys snapshot c.keys))

end Sys

def writeConflictRetries : Nat := 8

section

variable (field : String) (spec : MigrationPlanSpec) (converter : Converter)

def declaredKind (c : CheckedType) : Option ScalarType :=
  (c.t.getField field).bind fun f =>
    match f.fieldType with
    | .scalar kind => some kind
    | _ => none

def hookOf (p : PinnedPlan) (resolved : Bool) : MigratingFieldHook where
  converter := if resolved then some converter else none
  targetKind := p.targetKind
  converterVersion := p.converterVersion

def terminalPass (owner : Owner) (p : MigrationPlan) (start : Rows) : Pass :=
  if p.phase = .rollingBack then { owner, kind := .rollback, plan := p, start, phase := .scan 0 }
  else { owner, kind := .cutover, plan := p, start, phase := .gate }

def freshHandle (type : CheckedType) (nextObjectId : Id) (hook : Option MigratingFieldHook)
    (pass : Option Pass) : Handle where
  type := type
  registered := false
  hook := hook
  nextObjectId := nextObjectId
  writers := []
  spawning := false
  resumes := []
  driver := none
  waiting := 0
  pass := pass

/-- The open admits the catalog's kind, or the target of an unsettled plan. It arms the hook, still
without a converter, and finishes a pass that a stop cut off. -/
def openDatabase (s : Sys) (type : CheckedType) (highestOther : Id) : Sys :=
  let d := s.data
  let declared := declaredKind field type
  let licensed := d.plan.any fun p => p.status.quiesces && decide (p.srcKind = d.kind) &&
    decide (declared = some p.targetKind)
  let next := UInt64.ofNat ((d.rows.keys.map UInt64.toNat).foldl max highestOther.toNat + 1)
  if s.handle.isSome ∨ ¬ (declared = some d.kind ∨ licensed) then s
  else
    match d.plan with
    | none => s.setHandle (freshHandle type next none none)
    | some p =>
      if p.status.quiesces = false ∨ p.dryRun = true then
        s.setHandle (freshHandle type next none none)
      else
        let hook := some (hookOf converter p.toPinnedPlan false)
        let pass := some (terminalPass .opening p d.rows)
        if p.phase = .rollingBack then
          if declared = some p.srcKind then s.setHandle (freshHandle type next hook pass) else s
        else if p.status.isDrivable ∧ p.phase = .cuttingOver then
          if declared = some p.targetKind then s.setHandle (freshHandle type next hook pass) else s
        else s.setHandle (freshHandle type next hook none)

def beginWrite (s : Sys) (h : Handle) (op : Write) : Sys :=
  if h.pass.isSome then s
  else
    let objectId := h.nextObjectId
    let h := h.drawFor op
    match stageWrite field h.type.t h.hook s.data.rows objectId op with
    | .error _ => s.setHandle h
    | .ok staged =>
      s.setHandle
        { h with writers := { snapshot := s.history.version, objectId, op, staged } :: h.writers }

/-- A committed write is what its user last wrote; a refused one is over. -/
def commitWrite (s : Sys) (h : Handle) (i : Nat) : Sys :=
  match h.writers[i]? with
  | none => s
  | some w =>
    let h := { h with writers := h.writers.eraseIdx i }
    if s.Refused w.snapshot { rows := w.staged.rows } then s.setHandle h
    else
      { s.commit { rows := w.staged.rows } with
        handle := some h
        written := w.staged.written.foldl (fun f e => Function.update f e.1 e.2) s.written }

def planOf (kind : ScalarType) (nextObjectId : Id) : MigrationPlan where
  srcKind := kind
  targetKind := spec.targetFieldType
  chunkSize := spec.chunkSize
  converterVersion := spec.converterVersion
  parallelDegree := max 1 (min 64 spec.parallelDegree)
  idUpperBound := nextObjectId
  errorPolicy := spec.errorPolicy
  dryRun := spec.dryRun
  quarantineCap := if spec.quarantineCap = 0 then 100000 else spec.quarantineCap
  status := .running
  phase := .converting
  cutoverCursor := 0

def createFieldTypeMigration (s : Sys) (h : Handle) : Sys :=
  let directives := (h.type.t.getField field).all fun f => f.isIndexed || f.isUnique
  if !h.lockFree || !h.registered || s.data.plan.isSome || directives ||
      decide (s.data.kind = spec.targetFieldType) then s
  else
    let p := planOf spec s.data.kind h.nextObjectId
    { s.commit { plan := some p } with
      converters := converter :: s.converters
      handle := some
        { h with
          hook := if p.dryRun then h.hook else some (hookOf converter p.toPinnedPlan true)
          spawning := true } }

def Driver.isActive (d : Driver) : Bool :=
  match d.phase with
  | .finished => false
  | _ => true

def spawnMigrationDriver (s : Sys) (h : Handle) : Sys :=
  if !h.spawning || h.driver.any Driver.isActive then s
  else s.setHandle
    { h with
      spawning := false
      driver := some { control := .run, inline := false, phase := .loading } }

def runParallelBackfill (d : Data) (p : MigrationPlan) : Backfill where
  plan := p
  workers := fun _ => .starting
  errorCounter := (sumPartitionCounts d p.toPinnedPlan).1

def joinWorkers (d : Data) (b : Backfill) : Option (BackfillResult × Bool) :=
  let n := max b.plan.parallelDegree 1
  let outcomes := (List.range n).filterMap fun idx =>
    match b.workers idx with
    | .finished outcome => some outcome
    | _ => none
  if outcomes.length < n then none
  else if .failed ∈ outcomes ∨ .capExceeded ∈ outcomes then some (.failed, true)
  else if .paused ∈ outcomes ∨ .cancelled ∈ outcomes then some (.paused, false)
  else if (sumPartitionCounts d b.plan.toPinnedPlan).2 then some (.allDone, false)
  else some (.failed, true)

def driverStep (s : Sys) (h : Handle) (d : Driver) : Sys :=
  match s.data.plan with
  | none => s
  | some p =>
    match d.phase with
    | .loading =>
      if p.phase = .converting then
        s.setHandle (h.setDriver (.backfill (runParallelBackfill s.data p)))
      else s.setHandle (h.setDriver (.backfilled p .allDone))
    | .backfill b =>
      match joinWorkers s.data b with
      | none => s
      | some (result, parked) =>
        let s := if parked then s.commit (parkMigrationFailedKeepCursors s.data) else s
        s.setHandle (h.setDriver (.backfilled b.plan result))
    | .backfilled plan result =>
      if p.phase = .rollingBack then s.setHandle (h.setDriver .terminal)
      else
        match result with
        | .failed => s.setHandle h.finishDriver
        | .paused => s.setHandle h.finishDriver
        | .allDone =>
          s.setHandle (h.setDriver (if plan.dryRun then .finalizeDryRun else .terminal))
    | .finalizeDryRun => (s.commit (finalizeDryRun s.data)).setHandle h.finishDriver
    | .terminal =>
      if h.lockFree then
        s.setHandle { h.setDriver .inPass with pass := some (terminalPass .driver p s.data.rows) }
      else s
    | .inPass => s
    | .finished => s

def markDone (idx : Nat) (pc : PartitionCursor) : Commit where
  cursors := [(idx, some { pc with done := true })]

/-- One step of `run_migration_partition`. -/
def workerStep (s : Sys) (h : Handle) (control : Control) (b : Backfill) (idx : Nat)
    (layers : Layers) : Sys :=
  let p := b.plan.toPinnedPlan
  let range := partitionRange p.parallelDegree p.idUpperBound idx
  match b.workers idx with
  | .starting =>
    let pc := (s.data.cursors.lookup idx).getD .new
    s.setHandle (h.setWorker b idx (if pc.done then .finished .done else .polling pc))
  | .polling pc =>
    match control with
    | .pause => s.setHandle (h.setWorker b idx (.finished .paused))
    | .cancel => s.setHandle (h.setWorker b idx (.finished .cancelled))
    | .run =>
      if range.2 ≤ max pc.cursor.toNat (range.1 - 1) + 1 then
        (s.commit (markDone idx pc)).setHandle (h.setWorker b idx (.finished .done))
      else s.setHandle (h.setWorker b idx (.scanning pc 0))
  | .scanning pc attempts =>
    let startId := UInt64.ofNat (max pc.cursor.toNat (range.1 - 1) + 1)
    let chunk := scanChunkRaw s.data.rows layers startId p.chunk
    match chunk.highWater with
    | none => (s.commit (markDone idx pc)).setHandle (h.setWorker b idx (.finished .done))
    | some high =>
      match stageBackfill field p converter idx range.2 pc chunk high with
      | .error _ => s.setHandle (h.setWorker b idx (.finished .failed))
      | .ok (commit, after, errors) =>
        s.setHandle
          (h.setWorker b idx (.staged pc attempts s.history.version commit after errors))
  | .staged pc attempts snapshot commit after errors =>
    if s.Refused snapshot commit then
      s.setHandle (h.setWorker b idx
        (if attempts < writeConflictRetries then .scanning pc (attempts + 1)
         else .finished .failed))
    else
      let counter := b.errorCounter + errors
      let next := if p.errorPolicy ≠ .stop ∧ p.quarantineCap < counter then .finished .capExceeded
        else if after.done then .finished .done
        else .polling after
      (s.commit commit).setHandle (h.setWorker { b with errorCounter := counter } idx next)
  | .finished _ => s

/-- The checks of a resume. A dry run arms no hook, and is driven on the source schema. -/
def resumeFieldTypeMigration (s : Sys) (h : Handle) : Sys :=
  let push := fun phase =>
    s.setHandle { h with resumes := { resolved := h.registered, phase } :: h.resumes }
  match s.data.plan with
  | none => s
  | some p =>
    if h.opening || !p.status.quiesces then s
    else if p.phase = .rollingBack then
      if declaredKind field h.type = some p.srcKind then push (.loaded p) else s
    else if p.phase = .converting ∧ h.registered = false then s
    else if p.dryRun then push .armed
    else if declaredKind field h.type = some p.targetKind then push (.loaded p)
    else s

def resumeStep (s : Sys) (h : Handle) (i : Nat) : Sys :=
  match h.resumes[i]?, s.data.plan with
  | none, _ => s
  | _, none => s
  | some r, some p =>
    let gone := h.resumes.eraseIdx i
    match r.phase with
    | .loaded plan =>
      if h.lockFree then
        s.setHandle
          { h with
            hook := some (hookOf converter plan.toPinnedPlan r.resolved)
            resumes := h.resumes.set i { r with phase := .armed } }
      else s
    | .armed =>
      if p.phase ≠ .converting then
        s.setHandle { h with resumes := gone, waiting := h.waiting + 1 }
      else if r.resolved then
        s.setHandle { h with resumes := h.resumes.set i { r with phase := .driving p } }
      else s.setHandle { h with resumes := gone }
    | .driving plan =>
      if h.driver.any Driver.isActive then s.setHandle { h with resumes := gone }
      else s.setHandle
        { h with
          resumes := gone
          driver := some { control := .run, inline := true,
                           phase := .backfill (runParallelBackfill s.data plan) } }

/-- The marker is durable before the driver sees the control; without a driver the caller rolls
back itself. -/
def cancelMigration (s : Sys) (h : Handle) : Sys :=
  match s.data.plan with
  | none => s
  | some p =>
    if !h.lockFree || decide (p.status = .cancelled ∨ p.status = .completed ∨
        p.status = .dryRunCompleted ∨ p.phase = .cuttingOver) then s
    else
      let s := if p.phase = .rollingBack then s else s.commit (setPlanPhaseRollingBack s.data)
      match h.driver with
      | some d => s.setHandle { h with driver := some { d with control := .cancel } }
      | none => s.setHandle { h with waiting := h.waiting + 1 }

def cutoverMigration (s : Sys) (h : Handle) : Sys :=
  match s.data.plan with
  | none => s
  | some p =>
    if !h.lockFree || decide (p.status = .cancelled ∨ p.phase = .rollingBack) then s
    else if declaredKind field h.type = some p.targetKind then
      s.setHandle { h with pass := some (terminalPass .caller p s.data.rows) }
    else s

/-- A thread behind `run_terminal_pass` gets the lock. -/
def takeTerminalPass (s : Sys) (h : Handle) : Sys :=
  match s.data.plan with
  | none => s
  | some p =>
    if !h.lockFree || decide (h.waiting = 0) then s
    else s.setHandle
      { h with waiting := h.waiting - 1, pass := some (terminalPass .caller p s.data.rows) }

/-- The lock is released; an open whose pass fails fails with it. -/
def endPass (s : Sys) (h : Handle) (pass : Pass) (ok : Bool) : Sys :=
  let h := { h with pass := none }
  match pass.owner with
  | .driver => s.setHandle h.finishDriver
  | .caller => s.setHandle h
  | .opening => { s with handle := if ok then some h else none }

/-- One step of `run_cutover_locked` or `run_cancel_rollback_locked`. -/
def passStep (s : Sys) (h : Handle) (pass : Pass) (layers : Layers) : Sys :=
  let p := pass.plan.toPinnedPlan
  let goto := fun phase => { h with pass := some { pass with phase } }
  match pass.phase with
  | .gate =>
    if p.errorPolicy ≠ .quarantine then s.setHandle (goto .mark)
    else if unresolvedQuarantine s.data field p = [] then
      (s.commit (reapResolved s.data field p)).setHandle (goto .mark)
    else endPass ((s.commit (reapResolved s.data field p)).commit
      (parkMigrationFailedKeepCursors s.data)) h pass false
  | .mark =>
    if pass.plan.phase = .cuttingOver then s.setHandle (goto (.scan 0))
    else
      let plan := { pass.plan with phase := .cuttingOver }
      (s.commit { plan := some plan }).setHandle
        { h with pass := some { pass with plan, phase := .scan 0 } }
  | .scan attempts =>
    if pass.plan.cutoverCursor.toNat = 2 ^ 64 - 1 then s.setHandle (goto .finalize)
    else
      let start := if pass.plan.cutoverCursor = 0 then 0
        else pass.plan.cutoverCursor + UInt64.ofNat 1
      let chunk := scanChunkRaw s.data.rows layers start p.chunk
      match chunk.highWater with
      | none => s.setHandle (goto .finalize)
      | some high =>
        let after := { pass.plan with cutoverCursor := high }
        let stage := fun rows => s.setHandle
          (goto (.staged attempts s.history.version { rows, plan := some after } after chunk.more))
        match pass.kind with
        | .rollback => stage (stageRollback field chunk)
        | .cutover =>
          match stageCutover field p chunk with
          | .ok rows => stage rows
          | .error _ => endPass (s.commit (parkMigrationFailedRewind s.data)) h pass false
  | .staged attempts snapshot commit after more =>
    if s.Refused snapshot commit then
      if attempts < writeConflictRetries then s.setHandle (goto (.scan (attempts + 1)))
      else endPass s h pass false
    else
      let next := { pass with plan := after, phase := if more then .scan 0 else .finalize }
      (s.commit commit).setHandle { h with pass := some next }
  | .finalize =>
    let c := match pass.kind with
      | .cutover => finalizeMigrationCutover s.data
      | .rollback => finalizeMigrationCancelled s.data
    endPass (s.commit c) { h with hook := none } pass true

/-- One object of `retry_quarantined`, in a commit of its own under the write lock. -/
def retryStep (s : Sys) (h : Handle) (objectId : Id) (newConverter : Converter) : Sys :=
  match s.data.plan with
  | none => s
  | some p =>
    if !h.lockFree || (s.data.quarantine.lookup objectId).isNone then s
    else
      match retryQuarantined s.data field p.toPinnedPlan newConverter objectId with
      | none => s
      | some c => { s.commit c with converters := newConverter :: s.converters }

def step (s : Sys) (event : Event) : Sys :=
  match event, s.handle with
  | .openDatabase type highestOther, _ => openDatabase field converter s type highestOther
  | .stop, _ => { s with handle := none }
  | _, none => s
  | .registerConverter, some h =>
    if h.opening then s else s.setHandle { h with registered := true }
  | .drawObjectId, some h =>
    if h.pass.isSome then s
    else s.setHandle { h with nextObjectId := h.nextObjectId + UInt64.ofNat 1 }
  | .write op, some h => beginWrite field s h op
  | .commitWrite i, some h => commitWrite s h i
  | .createMigration, some h => createFieldTypeMigration field spec converter s h
  | .spawnDriver, some h => spawnMigrationDriver s h
  | .driver, some h => h.driver.elim s fun d => driverStep s h d
  | .worker idx layers, some h =>
    match h.driver, h.backfill? with
    | some d, some b =>
      if idx < max b.plan.parallelDegree 1 then
        workerStep field converter s h d.control b idx layers
      else s
    | _, _ => s
  | .pause, some h =>
    s.setHandle { h with driver := h.driver.map fun d => { d with control := .pause } }
  | .waitForMigration, some h =>
    if h.driver.any Driver.isActive then s else s.setHandle { h with driver := none }
  | .resume, some h => resumeFieldTypeMigration field s h
  | .resumeStep i, some h => resumeStep converter s h i
  | .cancel, some h => cancelMigration s h
  | .cutover, some h => cutoverMigration field s h
  | .terminalPass, some h => takeTerminalPass s h
  | .pass layers, some h => h.pass.elim s fun pass => passStep field s h pass layers
  | .retryQuarantined objectId newConverter, some h => retryStep field s h objectId newConverter
  | .clearQuarantine, some h =>
    if h.lockFree then
      { s.commit (clearQuarantine s.data) with cleared := s.data.quarantine.keys ++ s.cleared }
    else s

end

end RhypeDb.Migration
