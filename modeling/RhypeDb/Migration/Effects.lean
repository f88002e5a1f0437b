import RhypeDb.Migration.Transactions

/-! What a step can do, as an effect on what is committed, the hook, the pass and the workers. The
invariants of a migration are kept by each effect, whatever event has it. -/

namespace RhypeDb.Migration

open Engine Storage Fallible

def WorkerPhase.cursor? : WorkerPhase → Option PartitionCursor
  | .polling pc => some pc
  | .scanning pc _ => some pc
  | .staged pc _ _ _ _ _ => some pc
  | _ => none

namespace Handle

def Runs (h : Handle) (idx : Nat) (w : WorkerPhase) : Prop :=
  ∃ d b, h.driver = some d ∧ d.phase = .backfill b ∧ b.workers idx = w

def Due (h : Handle) : Prop :=
  h.waiting ≠ 0 ∨ ∃ d, h.driver = some d ∧
    (d.phase = .terminal ∨ ∃ plan, d.phase = .backfilled plan .allDone ∧ plan.dryRun = false)

def setPass (h : Handle) (pass : Pass) : Handle := { h with pass := some pass }

structure Keeps (h h' : Handle) : Prop where
  type : h'.type = h.type
  hook : h'.hook = h.hook
  pass : h'.pass = h.pass
  due : h'.Due → h.Due
  runs : ∀ idx w, h'.Runs idx w → h.Runs idx w

end Handle

/-- Type, hook and pass stay, nothing new is due, and the workers go on from where they were, from what
is stored, or from what they stage now. -/
structure Follows (s : Sys) (h h' : Handle) : Prop where
  type : h'.type = h.type
  hook : h'.hook = h.hook
  pass : h'.pass = h.pass
  due : h'.Due → h.Due
  runs : ∀ idx w, h'.Runs idx w → ∃ w', h.Runs idx w'
  cursor : ∀ idx w pc, h'.Runs idx w → w.cursor? = some pc →
    (∃ w', h.Runs idx w' ∧ w'.cursor? = some pc) ∨ pc = (s.data.cursors.lookup idx).getD .new
  staged : ∀ idx pc attempts snapshot commit after errors,
    h'.Runs idx (.staged pc attempts snapshot commit after errors) →
      h.Runs idx (.staged pc attempts snapshot commit after errors) ∨
        snapshot = s.history.version

def Released (h : Handle) (o : Option Handle) : Prop :=
  ∀ h', o = some h' → h'.hook = h.hook ∧ h'.pass = none ∧ (h'.Due → h.Due) ∧
    ∀ idx w, h'.Runs idx w → h.Runs idx w

section

variable {s : Sys} {c : Commit} {d : Data} {p : MigrationPlan}

theorem Sys.data_commit : (s.commit c).data = s.data.apply c := SnapshotHistory.latest_commit

theorem Data.apply_plan {q : MigrationPlan} (h : c.plan = some q) : (d.apply c).plan = some q := by
  unfold Data.apply
  rw [h]
  rfl

theorem Data.apply_plan_none (h : c.plan = none) : (d.apply c).plan = d.plan := by
  unfold Data.apply
  rw [h]
  rfl

theorem planRecord_plan {f : MigrationPlan → MigrationPlan} (hp : d.plan = some p) :
    (planRecord d f).plan = some (f p) := by
  unfold planRecord
  rw [hp]
  rfl

end

variable (field : String) (spec : MigrationPlanSpec) (converter : Converter)

structure Opened (s : Sys) (h : Handle) : Prop where
  writers : h.writers = []
  driver : h.driver = none
  waiting : h.waiting = 0
  unplanned : s.data.plan = none → h.hook = none ∧ h.pass = none ∧
    declaredKind field h.type = some s.data.kind
  settled : ∀ p, s.data.plan = some p → ¬ (p.status.quiesces = true ∧ p.dryRun = false) →
    h.hook = none ∧ h.pass = none
  hook : ∀ p, s.data.plan = some p → p.status.quiesces = true → p.dryRun = false →
    h.hook = some (hookOf converter p.toPinnedPlan false)
  pass : ∀ p pass, s.data.plan = some p → h.pass = some pass →
    pass = terminalPass .opening p s.data.rows ∧ p.phase ≠ .converting
  rollingBack : ∀ p, s.data.plan = some p → p.status.quiesces = true → p.dryRun = false →
    p.phase = .rollingBack → h.pass.isSome

def PassPhase.isScan : PassPhase → Bool
  | .scan _ => true
  | _ => false

/-- A chunk of the cutover finds a row that it cannot promote. -/
def RefusedChunk (s : Sys) (layers : Layers) : Prop :=
  ∃ h ∈ s.handle, ∃ pass ∈ h.pass, pass.kind = .cutover ∧ pass.phase.isScan = true ∧
    pass.plan.cutoverCursor.toNat ≠ 2 ^ 64 - 1 ∧
    (stageCutover field pass.plan.toPinnedPlan
      (scanChunkRaw s.data.rows layers (passStart pass.plan) pass.plan.chunk)).isOk = false

instance (s : Sys) (layers : Layers) : Decidable (RefusedChunk field s layers) :=
  inferInstanceAs (Decidable (∃ h ∈ s.handle, ∃ pass ∈ h.pass, _ ∧ _ ∧ _ ∧ _))

inductive Takes (h : Handle) (p : MigrationPlan) : Event → Prop
  | cutover : p.status ≠ .cancelled → p.phase ≠ .rollingBack → Takes h p .cutover
  | driver : h.Due → (∀ idx w, ¬ h.Runs idx w) → Takes h p .driver
  | terminalPass : h.Due → Takes h p .terminalPass

inductive Effect (s : Sys) : Event → Sys → Prop
  | same {e : Event} : Effect s e s
  | stopped {e : Event} : Effect s e { s with handle := none }
  | opened {e : Event} {h : Handle} : s.handle = none → Opened field converter s h →
      Effect s e (s.setHandle h)
  | quiet {e : Event} {h h' : Handle} : s.handle = some h → Follows s h h' →
      Effect s e (s.setHandle h')
  | due {e : Event} {h h' : Handle} {p : MigrationPlan} : s.handle = some h →
      s.data.plan = some p → p.phase ≠ .converting → h'.hook = h.hook → h'.pass = h.pass →
      (∀ idx w, h'.Runs idx w → h.Runs idx w) → Effect s e (s.setHandle h')
  | drives {e : Event} {h h' : Handle} {p : MigrationPlan} : s.handle = some h →
      s.data.plan = some p → h'.hook = h.hook → h'.pass = h.pass → (h'.Due → h.Due) →
      (∀ idx w, h'.Runs idx w → w.cursor? = none) →
      (p.phase = .converting ∨ ∃ i r plan, e = .resumeStep i ∧ h.resumes[i]? = some r ∧
        r.phase = .driving plan) → Effect s e (s.setHandle h')
  | joined {e : Event} {h h' : Handle} {p : MigrationPlan} : s.handle = some h →
      s.data.plan = some p → (sumPartitionCounts s.data p.toPinnedPlan).2 = true →
      h'.hook = h.hook → h'.pass = h.pass → (p.dryRun = true → h'.Due → h.Due) →
      (∀ idx w, h'.Runs idx w → h.Runs idx w) → Effect s e (s.setHandle h')
  | parked {e : Event} {h h' : Handle} {p : MigrationPlan} : s.handle = some h →
      s.data.plan = some p → h.Keeps h' → (∃ idx w, h.Runs idx w) →
      Effect s e ((s.commit (parkMigrationFailedKeepCursors s.data)).setHandle h')
  | dryRunFinalized {e : Event} {h h' : Handle} {p : MigrationPlan} : s.handle = some h →
      s.data.plan = some p → p.dryRun = true → h.Keeps h' →
      Effect s e ((s.commit (finalizeDryRun s.data)).setHandle h')
  | armed {i : Nat} {h h' : Handle} {p : MigrationPlan} {r : Resume} {plan : MigrationPlan} :
      s.handle = some h → s.data.plan = some p → h.resumes[i]? = some r →
      r.phase = .loaded plan → h.pass = none →
      h'.hook = some (hookOf converter p.toPinnedPlan r.resolved) → h'.pass = none →
      (h'.Due → h.Due) → (∀ idx w, h'.Runs idx w → h.Runs idx w) →
      Effect s (.resumeStep i) (s.setHandle h')
  | markedDone {e : Event} {h h' : Handle} {p : MigrationPlan} {idx : Nat} {w : WorkerPhase}
      {pc : PartitionCursor} : s.handle = some h → s.data.plan = some p → h.Runs idx w →
      w.cursor? = some pc →
      (∀ id row, s.data.rows.lookup id = some row →
        (partitionRange p.parallelDegree p.idUpperBound idx).1 ≤ id.toNat →
        id.toNat < (partitionRange p.parallelDegree p.idUpperBound idx).2 → id ≤ pc.cursor) →
      Follows (s.commit (markDone idx pc)) h h' →
      Effect s e ((s.commit (markDone idx pc)).setHandle h')
  | backfilled {e : Event} {h h' : Handle} {p : MigrationPlan} {idx : Nat}
      {pc after : PartitionCursor} {attempts snapshot errors : Nat} {commit : Commit} :
      s.handle = some h → s.data.plan = some p →
      h.Runs idx (.staged pc attempts snapshot commit after errors) →
      StagedBackfill field converter s.history p.toPinnedPlan idx pc snapshot commit after
        errors →
      ¬ s.Refused snapshot commit → Follows (s.commit commit) h h' →
      Effect s e ((s.commit commit).setHandle h')
  | wrote {i : Nat} {h : Handle} {w : Writer} : s.handle = some h → h.writers[i]? = some w →
      WriterOk field s.history h w → h.pass = none →
      ¬ s.Refused w.snapshot { rows := w.staged.rows } →
      Effect s (.commitWrite i)
        { s.commit { rows := w.staged.rows } with
          handle := some { h with writers := h.writers.eraseIdx i }
          written := w.staged.written.foldl (fun f e => Function.update f e.1 e.2) s.written }
  | created {h h' : Handle} : s.handle = some h → s.data.plan = none → h.pass = none →
      h.writers = [] → s.data.kind ≠ spec.targetFieldType →
      h'.hook = (if (planOf spec s.data.kind h.nextObjectId).dryRun then h.hook
        else some (hookOf converter (planOf spec s.data.kind h.nextObjectId).toPinnedPlan true)) →
      h'.pass = none → ¬ h'.Due → (∀ idx w, ¬ h'.Runs idx w) →
      Effect s .createMigration
        { s.commit { plan := some (planOf spec s.data.kind h.nextObjectId) } with
          converters := converter :: s.converters
          handle := some h' }
  | cancelMarked {h h' : Handle} {p : MigrationPlan} : s.handle = some h →
      s.data.plan = some p → h.pass = none → p.phase = .converting →
      h'.hook = h.hook → h'.pass = none → (∀ idx w, h'.Runs idx w → h.Runs idx w) →
      Effect s .cancel ((s.commit (setPlanPhaseRollingBack s.data)).setHandle h')
  | taken {e : Event} {h h' : Handle} {p : MigrationPlan} {owner : Owner} : s.handle = some h →
      s.data.plan = some p → h.pass = none → h.writers = [] → Takes h p e → h'.hook = h.hook →
      h'.pass = some (terminalPass owner p s.data.rows) → (h'.Due → h.Due) →
      (∀ idx w, h'.Runs idx w → h.Runs idx w) → Effect s e (s.setHandle h')
  | gateOpened {e : Event} {h : Handle} {p : MigrationPlan} {pass : Pass} : s.handle = some h →
      s.data.plan = some p → h.pass = some pass → PassOk field s.history p pass →
      pass.phase = .gate → p.errorPolicy ≠ .quarantine →
      Effect s e (s.setHandle (h.setPass { pass with phase := .mark }))
  | gateReaped {e : Event} {h : Handle} {p : MigrationPlan} {pass : Pass} : s.handle = some h →
      s.data.plan = some p → h.pass = some pass → PassOk field s.history p pass →
      pass.phase = .gate → unresolvedQuarantine s.data field p.toPinnedPlan = [] →
      Effect s e ((s.commit (reapResolved s.data field p.toPinnedPlan)).setHandle
        (h.setPass { pass with phase := .mark }))
  | gateParked {e : Event} {h : Handle} {p : MigrationPlan} {pass : Pass} {o : Option Handle} :
      s.handle = some h → s.data.plan = some p → h.pass = some pass →
      PassOk field s.history p pass → Released h o →
      Effect s e
        { (s.commit (reapResolved s.data field p.toPinnedPlan)).commit
            (parkMigrationFailedKeepCursors s.data) with handle := o }
  | passMoved {e : Event} {h : Handle} {p : MigrationPlan} {pass : Pass} {phase : PassPhase} :
      s.handle = some h → s.data.plan = some p → h.pass = some pass →
      PassOk field s.history p pass → pass.phase ≠ .gate → pass.phase ≠ .finalize →
      p.phase ≠ .converting → phase ≠ .gate → phase ≠ .mark →
      (phase = .finalize → ∀ id row, s.data.rows.lookup id = some row →
        Behind p.cutoverCursor id) →
      (∀ attempts snapshot commit after more, phase = .staged attempts snapshot commit after more →
        snapshot = s.history.version) →
      Effect s e (s.setHandle (h.setPass { pass with phase }))
  | marked {e : Event} {h : Handle} {p : MigrationPlan} {pass : Pass} : s.handle = some h →
      s.data.plan = some p → h.pass = some pass → PassOk field s.history p pass →
      pass.phase = .mark → p.phase = .converting →
      Effect s e ((s.commit { plan := some { pass.plan with phase := .cuttingOver } }).setHandle
        (h.setPass
          { pass with plan := { pass.plan with phase := .cuttingOver }, phase := .scan 0 }))
  | refused {layers : Layers} {h : Handle} {p : MigrationPlan} {pass : Pass} {o : Option Handle} :
      s.handle = some h → s.data.plan = some p → h.pass = some pass →
      PassOk field s.history p pass → p.phase = .cuttingOver → RefusedChunk field s layers →
      Released h o →
      Effect s (.pass layers) { s.commit (parkMigrationFailedRewind s.data) with handle := o }
  | dropped {e : Event} {h : Handle} {p : MigrationPlan} {pass : Pass} {o : Option Handle}
      {attempts snapshot : Nat} {commit : Commit} {after : MigrationPlan} {more : Bool} :
      s.handle = some h → s.data.plan = some p → h.pass = some pass →
      PassOk field s.history p pass → pass.phase = .staged attempts snapshot commit after more →
      s.Refused snapshot commit → Released h o → Effect s e { s with handle := o }
  | moved {e : Event} {h : Handle} {p : MigrationPlan} {pass : Pass} {attempts snapshot : Nat}
      {commit : Commit} {after : MigrationPlan} {more : Bool} :
      s.handle = some h → s.data.plan = some p → h.pass = some pass →
      PassOk field s.history p pass → pass.phase = .staged attempts snapshot commit after more →
      ¬ s.Refused snapshot commit →
      Effect s e ((s.commit commit).setHandle
        (h.setPass { pass with plan := after, phase := if more then .scan 0 else .finalize }))
  | cutOver {layers : Layers} {h : Handle} {p : MigrationPlan} {pass : Pass}
      {o : Option Handle} : s.handle = some h → s.data.plan = some p → h.pass = some pass →
      PassOk field s.history p pass → pass.phase = .finalize → p.phase = .cuttingOver →
      Released { h with hook := none } o →
      Effect s (.pass layers) { s.commit (finalizeMigrationCutover s.data) with handle := o }
  | cancelled {e : Event} {h : Handle} {p : MigrationPlan} {pass : Pass} {o : Option Handle} :
      s.handle = some h → s.data.plan = some p → h.pass = some pass →
      PassOk field s.history p pass → pass.phase = .finalize → p.phase = .rollingBack →
      Released { h with hook := none } o →
      Effect s e { s.commit (finalizeMigrationCancelled s.data) with handle := o }
  | retried {h : Handle} {p : MigrationPlan} {objectId : Id} {newConverter : Converter}
      {c : Commit} : s.handle = some h → s.data.plan = some p → h.pass = none →
      retryQuarantined s.data field p.toPinnedPlan newConverter objectId = some c →
      Effect s (.retryQuarantined objectId newConverter)
        { s.commit c with converters := newConverter :: s.converters }
  | cleared {h : Handle} : s.handle = some h → h.pass = none →
      Effect s .clearQuarantine
        { s.commit (clearQuarantine s.data) with cleared := s.data.quarantine.keys ++ s.cleared }

end RhypeDb.Migration
