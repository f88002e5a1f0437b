import RhypeDb.Migration.System

/-! Who drives a plan: the registry of drivers, drives on their own threads and on those of their
callers, and a cancel among them. What a backfill or a cutover meets in the rows is arbitrary here. -/

namespace RhypeDb.Migration.Drives

open List

structure PlanRecord where
  status : MigrationStatus
  phase : MigrationPhase
  parallel : Bool
  errorPolicy : ErrorPolicy
  dryRun : Bool
  deriving DecidableEq

inductive Mode
  | async
  | inline
  | cancel
  deriving DecidableEq

/-- `chunks` is the single-worker path, with the plan record that it has in memory. -/
inductive Phase
  | loading
  | registering (plan : PlanRecord)
  | backfill (plan : PlanRecord)
  | backfilled (plan : PlanRecord) (result : BackfillResult)
  | finalizeDryRun
  | loadingChunks
  | chunks (plan : PlanRecord)
  | terminal
  | leaving
  | deregistering
  | finished
  deriving DecidableEq

/-- A drive, with the control and the finished signal that its entry of the registry shares; `guarded`
says that it takes out an entry when it is over. -/
structure Drive where
  mode : Mode
  guarded : Bool
  control : Control
  signalled : Bool
  phase : Phase
  deriving DecidableEq

def Drive.start (mode : Mode) : Drive :=
  { mode, guarded := false, control := .run, signalled := false, phase := .loading }

/-- One plan and those who drive it. `registry` is the drive whose entry is there, `waiters` are the
drives waited for, `accepted` says that a cancel has returned Ok. -/
structure Sys where
  plan : PlanRecord
  drives : List Drive
  registry : Option Nat
  waiters : List Nat
  accepted : Bool
  deriving DecidableEq

/-- How a backfill ends: `lost` is an error that parks nothing, a commit that was refused. -/
inductive Outcome
  | allDone
  | paused
  | parked
  | lost
  deriving DecidableEq

/-- How a chunk of the single worker ends; `exhausted` found no row. -/
inductive ChunkOutcome
  | more
  | last
  | exhausted
  | parked
  | lost
  deriving DecidableEq

/-- How a cutover ends: at its gate, at a row that it cannot promote, or with a refused commit. -/
inductive CutoverOutcome
  | completed
  | blocked
  | refused
  | lost
  deriving DecidableEq

inductive DriveStep
  | load
  | register
  | backfill (outcome : Outcome)
  | reload
  | finalizeDryRun (ok : Bool)
  | loadChunks
  | chunk (outcome : ChunkOutcome)
  | terminalPass (outcome : CutoverOutcome)
  | markDone
  | deregister
  deriving DecidableEq

inductive Event
  | spawnDriver (ok : Bool)
  | resume
  | pause
  | cancel
  | cutover (outcome : CutoverOutcome)
  | waitForMigration
  | reap (waiter : Nat)
  | drive (i : Nat) (step : DriveStep)
  deriving DecidableEq

structure Move where
  plan : PlanRecord
  drive : Drive
  registry : Option Nat
  accepted : Bool

section

variable (s : Sys)

def gateLocked : Bool :=
  s.registry.all fun j => (s.drives[j]?).all fun d => d.signalled

def spawnMigrationDriver (ok : Bool) : Sys :=
  if gateLocked s && ok then
    { s with drives := s.drives ++ [.start .async], registry := some s.drives.length }
  else { s with drives := s.drives ++ [.start .inline] }

def resumeFieldTypeMigration : Sys :=
  if s.plan.status.quiesces then { s with drives := s.drives ++ [.start .inline] } else s

def signal (control : Control) : Sys :=
  match s.registry with
  | none => s
  | some j => { s with drives := s.drives.modify j fun d => { d with control } }

def setPlanPhaseRollingBack : Sys := { s with plan := { s.plan with phase := .rollingBack } }

def handOver : Sys :=
  match s.registry with
  | some _ => { signal s .cancel with accepted := true }
  | none => { s with drives := s.drives ++ [.start .cancel] }

def cancelMigration : Sys :=
  match s.plan.status with
  | .cancelled => { s with accepted := true }
  | .completed | .dryRunCompleted => s
  | _ => if s.plan.phase = .cuttingOver then s else handOver (setPlanPhaseRollingBack s)

def waitForMigration : Sys :=
  match s.registry with
  | none => s
  | some j => { s with waiters := s.waiters ++ [j] }

def reap (waiter : Nat) : Sys :=
  match s.waiters[waiter]? with
  | none => s
  | some j =>
    if (s.drives[j]?).all fun d => d.signalled then
      { s with registry := none, waiters := s.waiters.eraseIdx waiter }
    else s

def runCutover (plan : PlanRecord) : CutoverOutcome → PlanRecord
  | .completed => { plan with status := .completed, phase := .cuttingOver }
  | .blocked => { plan with status := .failed }
  | .refused => { plan with status := .failed, phase := .converting }
  | .lost => { plan with phase := .cuttingOver }

def cutoverMigration (outcome : CutoverOutcome) : Sys :=
  if s.plan.status = .cancelled ∨ s.plan.phase = .rollingBack then s
  else { s with plan := runCutover s.plan outcome }

variable (i : Nat) (d : Drive)

def goto (phase : Phase) : Move :=
  { plan := s.plan, drive := { d with phase }, registry := s.registry, accepted := s.accepted }

def stay : Move := goto s d d.phase

def load : Move :=
  match d.mode, s.plan.phase with
  | .async, .converting => goto s d (.backfill s.plan)
  | .async, _ => goto s d (.backfilled s.plan .allDone)
  | .inline, .converting =>
    if s.plan.parallel then goto s d (.registering s.plan) else goto s d .loadingChunks
  | .cancel, .converting => goto s d .finished
  | _, _ => goto s d .terminal

def register (plan : PlanRecord) : Move :=
  if gateLocked s then
    { goto s { d with guarded := true } (.backfill plan) with registry := some i }
  else goto s d .finished

def runParallelBackfill (plan : PlanRecord) : Outcome → Move
  | .allDone => goto s d (.backfilled plan .allDone)
  | .paused => if d.control = .run then stay s d else goto s d (.backfilled plan .paused)
  | .parked =>
    { goto s d (.backfilled plan .failed) with plan := { s.plan with status := .failed } }
  | .lost => goto s d (.backfilled plan .failed)

def reload (plan : PlanRecord) (result : BackfillResult) : Move :=
  if s.plan.phase = .rollingBack then goto s d .terminal
  else
    match result with
    | .failed | .paused => goto s d .leaving
    | .allDone => if plan.dryRun then goto s d .finalizeDryRun else goto s d .terminal

def finalizeDryRun (ok : Bool) : Move :=
  if ok then { goto s d .leaving with plan := { s.plan with status := .dryRunCompleted } }
  else goto s d .leaving

def loadChunks : Move :=
  if s.plan.errorPolicy ≠ .stop ∨ s.plan.dryRun then goto s d .finished
  else goto s d (.chunks s.plan)

def runMigrationChunk (plan : PlanRecord) : ChunkOutcome → Move
  | .more =>
    let plan := { plan with status := .running }
    { goto s d (.chunks plan) with plan }
  | .last => { goto s d .terminal with plan := { plan with status := .running } }
  | .exhausted => goto s d .terminal
  | .parked => { goto s d .finished with plan := { s.plan with status := .failed } }
  | .lost => goto s d .finished

/-- Under the write lock, by the phase of the plan as it is now. A cancel returns Ok when its own pass
does. -/
def terminalPass (outcome : CutoverOutcome) : Move :=
  let after : Phase := if d.mode = .async ∨ d.guarded then .leaving else .finished
  let accepted := s.accepted || decide (d.mode = .cancel)
  if s.plan.phase = .rollingBack then
    { goto s d after with plan := { s.plan with status := .cancelled }, accepted }
  else if s.plan.status = .cancelled then goto s d after
  else
    { goto s d after with
      plan := runCutover s.plan outcome
      accepted := if outcome = .completed then accepted else s.accepted }

def markDone : Move :=
  let d := { d with signalled := true }
  if d.mode = .async then goto s d .finished else goto s d .deregistering

def stepDrive (step : DriveStep) : Move :=
  match d.phase, step with
  | .loading, .load => load s d
  | .registering plan, .register => register s i d plan
  | .backfill plan, .backfill outcome => runParallelBackfill s d plan outcome
  | .backfilled plan result, .reload => reload s d plan result
  | .finalizeDryRun, .finalizeDryRun ok => finalizeDryRun s d ok
  | .loadingChunks, .loadChunks => loadChunks s d
  | .chunks plan, .chunk outcome => runMigrationChunk s d plan outcome
  | .terminal, .terminalPass outcome => terminalPass s d outcome
  | .leaving, .markDone => markDone s d
  | .deregistering, .deregister => { goto s d .finished with registry := none }
  | _, _ => stay s d

end

def step (s : Sys) : Event → Sys
  | .spawnDriver ok => spawnMigrationDriver s ok
  | .resume => resumeFieldTypeMigration s
  | .pause => signal s .pause
  | .cancel => cancelMigration s
  | .cutover outcome => cutoverMigration s outcome
  | .waitForMigration => waitForMigration s
  | .reap waiter => reap s waiter
  | .drive i driveStep =>
    match s.drives[i]? with
    | none => s
    | some d =>
      let m := stepDrive s i d driveStep
      { plan := m.plan, drives := s.drives.set i m.drive, registry := m.registry,
        waiters := s.waiters, accepted := m.accepted }

def start (plan : PlanRecord) : Sys :=
  { plan, drives := [], registry := none, waiters := [], accepted := false }

section

def Phase.rollsBack : Phase → Bool
  | .loading | .backfill _ | .backfilled _ _ | .chunks _ | .terminal => true
  | _ => false

def Phase.inMemory : Phase → Option PlanRecord
  | .chunks plan => some plan
  | _ => none

def Attended (status : MigrationStatus) (drives : List Drive) : Prop :=
  status = .cancelled ∨ ∃ d ∈ drives, d.phase.rollsBack = true

structure AcceptedInv (s : Sys) : Prop where
  cancelled : s.plan.status = .cancelled → s.plan.phase = .rollingBack
  completed : s.plan.status = .completed → s.plan.phase ≠ .rollingBack
  accepted : s.accepted = true → s.plan.phase = .rollingBack ∧ Attended s.plan.status s.drives
  owned : ∀ d ∈ s.drives, d.mode = .cancel → s.plan.phase = .rollingBack

/-- A cancel that finds an entry finds a drive that has still to load the plan. While a plan rolls
back no single worker commits a record of another phase, and where one fails, or a dry run is
finalized, the plan is still attended. -/
def KeepsCancel (s : Sys) : Event → Prop
  | .cancel => s.plan.status.quiesces = true → s.registry.isSome = true →
      ∃ d ∈ s.drives, d.phase.rollsBack = true
  | .drive i (.chunk outcome) => s.plan.phase = .rollingBack → ∀ d ∈ s.drives[i]?,
      ∀ plan ∈ d.phase.inMemory, plan.phase = .rollingBack ∧
        (outcome = .parked → ∃ d ∈ s.drives.eraseIdx i, d.phase.rollsBack = true) ∧
        (outcome = .lost → Attended s.plan.status (s.drives.eraseIdx i))
  | .drive i (.finalizeDryRun true) => s.plan.phase = .rollingBack → ∀ d ∈ s.drives[i]?,
      d.phase = .finalizeDryRun → ∃ d ∈ s.drives.eraseIdx i, d.phase.rollsBack = true
  | _ => True

instance (status : MigrationStatus) (drives : List Drive) : Decidable (Attended status drives) :=
  inferInstanceAs (Decidable (_ ∨ _))

instance (s : Sys) (e : Event) : Decidable (KeepsCancel s e) :=
  match e with
  | .cancel => inferInstanceAs (Decidable (s.plan.status.quiesces = true → _))
  | .drive i (.chunk _) => inferInstanceAs (Decidable (s.plan.phase = .rollingBack →
      ∀ d ∈ s.drives[i]?, ∀ plan ∈ d.phase.inMemory, _ ∧ _ ∧ _))
  | .drive i (.finalizeDryRun true) => inferInstanceAs (Decidable (s.plan.phase = .rollingBack →
      ∀ d ∈ s.drives[i]?, _))
  | .drive _ (.finalizeDryRun false) | .drive _ .load | .drive _ .register
  | .drive _ (.backfill _) | .drive _ .reload | .drive _ .loadChunks | .drive _ (.terminalPass _)
  | .drive _ .markDone | .drive _ .deregister | .spawnDriver _ | .resume | .pause | .cutover _
  | .waitForMigration | .reap _ => .isTrue trivial

structure RollsOn (s : Sys) (i : Nat) (d : Drive) (m : Move) : Prop where
  phase : m.plan.phase = .rollingBack
  completed : m.plan.status ≠ .completed
  mode : m.drive.mode = d.mode
  attended : m.plan.status = s.plan.status ∧
      (d.phase.rollsBack = true → m.drive.phase.rollsBack = true) ∨
    m.drive.phase.rollsBack = true ∨ Attended m.plan.status (s.drives.eraseIdx i)
  accepted : m.accepted = true → s.accepted = true ∨ m.plan.status = .cancelled

variable {s : Sys} {i : Nat} {d d' : Drive} {e : Event} {driveStep : DriveStep}

theorem Attended.of_eraseIdx {status : MigrationStatus} {drives : List Drive}
    (h : Attended status (drives.eraseIdx i)) (d : Drive) : Attended status (drives.set i d) := by
  refine h.imp_right ?_
  rintro ⟨d', hmem, hrolls⟩
  obtain ⟨j, hne, hj⟩ := mem_eraseIdx_iff_getElem?.mp hmem
  refine ⟨d', mem_iff_getElem?.mpr ⟨j, ?_⟩, hrolls⟩
  rw [getElem?_set_ne hne.symm]
  exact hj

theorem RollsOn.attends {m : Move} (h : RollsOn s i d m) (hd : s.drives[i]? = some d)
    (hattended : Attended s.plan.status s.drives) :
    Attended m.plan.status (s.drives.set i m.drive) := by
  have hlt : i < s.drives.length := (List.getElem?_eq_some_iff.mp hd).1
  rcases h.attended with ⟨hstatus, hrolls⟩ | hrolls | hothers
  · rw [hstatus]
    rcases hattended with hcancelled | ⟨d', hmem, hrolls'⟩
    · exact .inl hcancelled
    · obtain ⟨j, hj⟩ := mem_iff_getElem?.mp hmem
      by_cases hij : i = j
      · subst hij
        cases hd.symm.trans hj
        exact .inr ⟨m.drive, mem_set hlt _, hrolls hrolls'⟩
      · refine .inr ⟨d', mem_iff_getElem?.mpr ⟨j, ?_⟩, hrolls'⟩
        rw [getElem?_set_ne hij]
        exact hj
  · exact .inr ⟨m.drive, mem_set hlt _, hrolls⟩
  · exact hothers.of_eraseIdx _

theorem rollsOn_goto (hrolling : s.plan.phase = .rollingBack) (hstatus : s.plan.status ≠ .completed)
    {phase : Phase} (hmode : d'.mode = d.mode)
    (hrolls : d.phase.rollsBack = true → phase.rollsBack = true) :
    RollsOn s i d (goto s d' phase) :=
  ⟨hrolling, hstatus, hmode, .inl ⟨rfl, hrolls⟩, .inl⟩

theorem stepDrive_rollsOn (hrolling : s.plan.phase = .rollingBack)
    (hstatus : s.plan.status ≠ .completed) (hd : s.drives[i]? = some d)
    (hcond : KeepsCancel s (.drive i driveStep)) : RollsOn s i d (stepDrive s i d driveStep) := by
  have hstay : RollsOn s i d (stay s d) := rollsOn_goto hrolling hstatus rfl id
  have hgoto : ∀ {phase}, (d.phase.rollsBack = true → phase.rollsBack = true) →
      RollsOn s i d (goto s d phase) := rollsOn_goto hrolling hstatus rfl
  unfold stepDrive
  split
  next hphase =>
    -- whoever loads the plan now comes to a terminal pass
    unfold load
    rw [hrolling]
    cases d.mode with
    | _ => exact hgoto fun _ => rfl
  next plan hphase =>
    have hnot : d.phase.rollsBack = false := by rw [hphase]; rfl
    unfold register
    split_ifs
    · exact ⟨hrolling, hstatus, rfl, .inr (.inl rfl), .inl⟩
    · exact hgoto fun h => nomatch hnot.symm.trans h
  next plan outcome hphase =>
    cases outcome with
    | allDone => exact hgoto fun _ => rfl
    | paused =>
      unfold runParallelBackfill
      split_ifs
      · exact hstay
      · exact hgoto fun _ => rfl
    | parked => exact ⟨hrolling, fun h => (nomatch h), rfl, .inr (.inl rfl), .inl⟩
    | lost => exact hgoto fun _ => rfl
  next plan result hphase =>
    unfold reload
    rw [if_pos hrolling]
    exact hgoto fun _ => rfl
  next ok hphase =>
    have hnot : d.phase.rollsBack = false := by rw [hphase]; rfl
    cases ok with
    | true =>
      have hothers := hcond hrolling d hd hphase
      exact ⟨hrolling, fun h => (nomatch h), rfl, .inr (.inr (.inr hothers)), .inl⟩
    | false => exact hgoto fun h => nomatch hnot.symm.trans h
  next hphase =>
    have hnot : d.phase.rollsBack = false := by rw [hphase]; rfl
    unfold loadChunks
    split_ifs
    · exact hgoto fun h => nomatch hnot.symm.trans h
    · exact hgoto fun h => nomatch hnot.symm.trans h
  next plan outcome hphase =>
    have hmemory : plan ∈ d.phase.inMemory := by rw [hphase]; rfl
    obtain ⟨hplan, hparked, hlost⟩ := hcond hrolling d hd plan hmemory
    cases outcome with
    | more => exact ⟨hplan, fun h => (nomatch h), rfl, .inr (.inl rfl), .inl⟩
    | last => exact ⟨hplan, fun h => (nomatch h), rfl, .inr (.inl rfl), .inl⟩
    | exhausted => exact hgoto fun _ => rfl
    | parked => exact ⟨hrolling, fun h => (nomatch h), rfl, .inr (.inr (.inr (hparked rfl))), .inl⟩
    | lost => exact ⟨hrolling, hstatus, rfl, .inr (.inr (hlost rfl)), .inl⟩
  next outcome hphase =>
    unfold terminalPass
    rw [if_pos hrolling]
    exact ⟨hrolling, fun h => (nomatch h), rfl, .inr (.inr (.inl rfl)), fun _ => .inr rfl⟩
  next hphase =>
    have hnot : d.phase.rollsBack = false := by rw [hphase]; rfl
    unfold markDone
    dsimp only
    split_ifs
    · exact rollsOn_goto hrolling hstatus rfl fun h => nomatch hnot.symm.trans h
    · exact rollsOn_goto hrolling hstatus rfl fun h => nomatch hnot.symm.trans h
  next hphase =>
    have hnot : d.phase.rollsBack = false := by rw [hphase]; rfl
    exact ⟨hrolling, hstatus, rfl, .inl ⟨rfl, fun h => nomatch hnot.symm.trans h⟩, .inl⟩
  next => exact hstay

theorem stepDrive_before (driveStep : DriveStep) (hrolling : s.plan.phase ≠ .rollingBack)
    (hcancelled : s.plan.status ≠ .cancelled) (hmode : d.mode ≠ .cancel) :
    (stepDrive s i d driveStep).plan.status ≠ .cancelled ∧
      ((stepDrive s i d driveStep).plan.status = .completed →
        (stepDrive s i d driveStep).plan.phase ≠ .rollingBack) ∧
      (stepDrive s i d driveStep).drive.mode = d.mode ∧
      (stepDrive s i d driveStep).accepted = s.accepted := by
  have hgoto : ∀ {phase}, (goto s d phase).plan.status ≠ .cancelled ∧
      ((goto s d phase).plan.status = .completed → (goto s d phase).plan.phase ≠ .rollingBack) ∧
      (goto s d phase).drive.mode = d.mode ∧ (goto s d phase).accepted = s.accepted :=
    ⟨hcancelled, fun _ => hrolling, rfl, rfl⟩
  unfold stepDrive
  split
  next hphase =>
    unfold load
    split
    · exact hgoto
    · exact hgoto
    · split_ifs <;> exact hgoto
    · exact hgoto
    · exact hgoto
  next plan hphase =>
    unfold register
    split_ifs
    · exact ⟨hcancelled, fun _ => hrolling, rfl, rfl⟩
    · exact hgoto
  next plan outcome hphase =>
    cases outcome with
    | allDone => exact hgoto
    | paused =>
      unfold runParallelBackfill
      split_ifs <;> exact hgoto
    | parked => exact ⟨fun h => (nomatch h), fun h => (nomatch h), rfl, rfl⟩
    | lost => exact hgoto
  next plan result hphase =>
    unfold reload
    rw [if_neg hrolling]
    cases result with
    | failed => exact hgoto
    | paused => exact hgoto
    | allDone =>
      split_ifs <;> exact hgoto
  next ok hphase =>
    cases ok with
    | true => exact ⟨fun h => (nomatch h), fun h => (nomatch h), rfl, rfl⟩
    | false => exact hgoto
  next hphase =>
    unfold loadChunks
    split_ifs <;> exact hgoto
  next plan outcome hphase =>
    cases outcome with
    | more => exact ⟨fun h => (nomatch h), fun h => (nomatch h), rfl, rfl⟩
    | last => exact ⟨fun h => (nomatch h), fun h => (nomatch h), rfl, rfl⟩
    | exhausted => exact hgoto
    | parked => exact ⟨fun h => (nomatch h), fun h => (nomatch h), rfl, rfl⟩
    | lost => exact hgoto
  next outcome hphase =>
    unfold terminalPass
    rw [if_neg hrolling, if_neg hcancelled, decide_eq_false hmode, Bool.or_false]
    have haccepted : (if outcome = .completed then s.accepted else s.accepted) = s.accepted :=
      ite_self _
    cases outcome with
    | completed => exact ⟨fun h => (nomatch h), fun _ h => (nomatch h), rfl, haccepted⟩
    | blocked => exact ⟨fun h => (nomatch h), fun h => (nomatch h), rfl, haccepted⟩
    | refused => exact ⟨fun h => (nomatch h), fun h => (nomatch h), rfl, haccepted⟩
    | lost => exact ⟨hcancelled, fun _ h => (nomatch h), rfl, haccepted⟩
  next hphase =>
    unfold markDone
    dsimp only
    split_ifs <;> exact ⟨hcancelled, fun _ => hrolling, rfl, rfl⟩
  next hphase => exact ⟨hcancelled, fun _ => hrolling, rfl, rfl⟩
  next => exact hgoto

theorem AcceptedInv.modify (hinv : AcceptedInv s) {j : Nat} {control : Control} :
    AcceptedInv { s with drives := s.drives.modify j fun d => { d with control } } := by
  have hphases : ∀ d ∈ s.drives, ∃ d' ∈ s.drives.modify j (fun d => { d with control }),
      d'.phase = d.phase := by
    intro d hmem
    obtain ⟨k, hk⟩ := mem_iff_getElem?.mp hmem
    refine ⟨if j = k then { d with control } else d, mem_iff_getElem?.mpr ⟨k, ?_⟩, ?_⟩
    · rw [getElem?_modify, hk]
      rfl
    · split_ifs <;> rfl
  refine ⟨hinv.cancelled, hinv.completed, fun haccepted => ?_, ?_⟩
  · obtain ⟨hphase, hattended⟩ := hinv.accepted haccepted
    refine ⟨hphase, hattended.imp_right ?_⟩
    rintro ⟨d, hmem, hrolls⟩
    obtain ⟨d', hmem', heq⟩ := hphases d hmem
    exact ⟨d', hmem', (congrArg Phase.rollsBack heq).trans hrolls⟩
  · intro d' hmem' hmode
    obtain ⟨k, hk⟩ := mem_iff_getElem?.mp hmem'
    rw [getElem?_modify] at hk
    obtain ⟨d, hd, rfl⟩ := Option.map_eq_some_iff.mp hk
    refine hinv.owned d (mem_of_getElem? hd) ?_
    have hsame : (if j = k then { d with control } else d).mode = d.mode := by split_ifs <;> rfl
    exact hsame.symm.trans hmode

theorem AcceptedInv.append (hinv : AcceptedInv s)
    (howned : d.mode = .cancel → s.plan.phase = .rollingBack) {registry : Option Nat} :
    AcceptedInv { s with drives := s.drives ++ [d], registry } := by
  refine ⟨hinv.cancelled, hinv.completed, fun haccepted => ?_, ?_⟩
  · obtain ⟨hphase, hattended⟩ := hinv.accepted haccepted
    refine ⟨hphase, hattended.imp_right ?_⟩
    rintro ⟨d', hmem, hrolls⟩
    exact ⟨d', mem_append_left _ hmem, hrolls⟩
  · intro d' hmem
    rcases List.mem_append.mp hmem with hmem | hmem
    · exact hinv.owned d' hmem
    · rw [List.mem_singleton.mp hmem]
      exact howned

theorem AcceptedInv.accept (hinv : AcceptedInv s) (hphase : s.plan.phase = .rollingBack)
    (hattended : Attended s.plan.status s.drives) : AcceptedInv { s with accepted := true } :=
  ⟨hinv.cancelled, hinv.completed, fun _ => ⟨hphase, hattended⟩, hinv.owned⟩

theorem AcceptedInv.signal (hinv : AcceptedInv s) (control : Control) :
    AcceptedInv (signal s control) := by
  unfold Drives.signal
  split
  · exact hinv
  · exact hinv.modify

theorem AcceptedInv.handOver (hinv : AcceptedInv s) (hphase : s.plan.phase = .rollingBack)
    (hattending : s.registry.isSome = true → ∃ d ∈ s.drives, d.phase.rollsBack = true) :
    AcceptedInv (handOver s) := by
  unfold Drives.handOver
  split
  next j hregistry =>
    have haccepted := hinv.accept hphase (.inr (hattending (by rw [hregistry]; rfl)))
    have hsignalled := haccepted.signal .cancel
    unfold Drives.signal at hsignalled ⊢
    rw [hregistry] at hsignalled ⊢
    exact hsignalled
  next => exact hinv.append fun _ => hphase

theorem AcceptedInv.cancel (hinv : AcceptedInv s) (hcond : KeepsCancel s .cancel) :
    AcceptedInv (cancelMigration s) := by
  have hunsettled : s.plan.status.quiesces = true → AcceptedInv
      (if s.plan.phase = .cuttingOver then s else Drives.handOver (setPlanPhaseRollingBack s)) := by
    intro hquiesces
    split_ifs
    · exact hinv
    have hmarked : AcceptedInv (setPlanPhaseRollingBack s) :=
      ⟨fun _ => rfl, fun h => (nomatch hquiesces.symm.trans (congrArg MigrationStatus.quiesces h)),
        fun h => ⟨rfl, (hinv.accepted h).2⟩, fun _ _ _ => rfl⟩
    exact hmarked.handOver rfl (hcond hquiesces)
  unfold cancelMigration
  cases hstatus : s.plan.status with
  | cancelled => exact hinv.accept (hinv.cancelled hstatus) (.inl hstatus)
  | completed => exact hinv
  | dryRunCompleted => exact hinv
  | _ => exact hunsettled (by rw [hstatus]; rfl)

theorem AcceptedInv.step (hinv : AcceptedInv s) (hcond : KeepsCancel s e) :
    AcceptedInv (step s e) := by
  cases e with
  | spawnDriver ok =>
    unfold Drives.step spawnMigrationDriver
    dsimp only
    split_ifs
    · exact hinv.append fun (h : Mode.async = .cancel) => nomatch h
    · exact hinv.append fun (h : Mode.inline = .cancel) => nomatch h
  | resume =>
    unfold Drives.step resumeFieldTypeMigration
    split_ifs
    · exact hinv.append fun (h : Mode.inline = .cancel) => nomatch h
    · exact hinv
  | pause => exact hinv.signal .pause
  | cancel => exact hinv.cancel hcond
  | cutover outcome =>
    unfold Drives.step cutoverMigration
    split_ifs with hrefused
    · exact hinv
    obtain ⟨hcancelled, hrolling⟩ := not_or.mp hrefused
    have haccepted : ∀ {P : Prop}, s.accepted = true → P := fun h => absurd (hinv.accepted h).1 hrolling
    have howned : ∀ {P : Prop}, ∀ d ∈ s.drives, d.mode = .cancel → P :=
      fun d hmem hmode => absurd (hinv.owned d hmem hmode) hrolling
    cases outcome with
    | completed => exact ⟨fun h => (nomatch h), fun _ h => (nomatch h), haccepted, howned⟩
    | blocked => exact ⟨fun h => (nomatch h), fun h => (nomatch h), haccepted, howned⟩
    | refused => exact ⟨fun h => (nomatch h), fun h => (nomatch h), haccepted, howned⟩
    | lost => exact ⟨fun h => absurd h hcancelled, fun _ h => (nomatch h), haccepted, howned⟩
  | waitForMigration =>
    unfold Drives.step waitForMigration
    dsimp only
    split
    · exact hinv
    · exact ⟨hinv.cancelled, hinv.completed, hinv.accepted, hinv.owned⟩
  | reap waiter =>
    unfold Drives.step reap
    dsimp only
    split
    · exact hinv
    · split_ifs
      · exact ⟨hinv.cancelled, hinv.completed, hinv.accepted, hinv.owned⟩
      · exact hinv
  | drive i driveStep =>
    unfold Drives.step
    dsimp only
    cases hd : s.drives[i]? with
    | none => exact hinv
    | some d =>
      have hmem := mem_of_getElem? hd
      by_cases hrolling : s.plan.phase = .rollingBack
      · have hstatus : s.plan.status ≠ .completed := fun h => hinv.completed h hrolling
        have hrolls := stepDrive_rollsOn hrolling hstatus hd hcond
        refine ⟨fun _ => hrolls.phase, fun h => absurd h hrolls.completed, fun haccepted => ?_,
          fun _ _ _ => hrolls.phase⟩
        refine ⟨hrolls.phase, ?_⟩
        rcases hrolls.accepted haccepted with hbefore | hcancelled
        · exact hrolls.attends hd (hinv.accepted hbefore).2
        · exact .inl hcancelled
      · have hcancelled : s.plan.status ≠ .cancelled := fun h => hrolling (hinv.cancelled h)
        have hmode : d.mode ≠ .cancel := fun h => hrolling (hinv.owned d hmem h)
        obtain ⟨hnot, hcompleted, hmode', haccepted⟩ :=
          stepDrive_before driveStep hrolling hcancelled hmode
        refine ⟨fun h => absurd h hnot, hcompleted, fun h => ?_, fun d' hmem' hcancel => ?_⟩
        · exact absurd (hinv.accepted (haccepted.symm.trans h)).1 hrolling
        · rcases mem_or_eq_of_mem_set hmem' with hmem' | rfl
          · exact absurd (hinv.owned d' hmem' hcancel) hrolling
          · exact absurd (hmode'.symm.trans hcancel) hmode

end

section

variable {run : List Event}

/-- When a cancel has returned Ok the plan is never completed, and it is cancelled when every drive has
come to its end. -/
theorem cancel_kept {plan : PlanRecord} (hplan : plan.status.quiesces = true)
    (hrun : Run.Along step KeepsCancel (start plan) run)
    (haccepted : (Run.exec step (start plan) run).accepted = true) :
    (Run.exec step (start plan) run).plan.status ≠ .completed ∧
      ((∀ d ∈ (Run.exec step (start plan) run).drives, d.phase = .finished) →
        (Run.exec step (start plan) run).plan.status = .cancelled) := by
  have hstart : AcceptedInv (start plan) :=
    ⟨fun h => (nomatch hplan.symm.trans (congrArg MigrationStatus.quiesces h)),
      fun h => (nomatch hplan.symm.trans (congrArg MigrationStatus.quiesces h)),
      fun h => (nomatch h), fun _ h => nomatch h⟩
  have hinv := Run.exec_invariant (fun _ _ hinv hcond => hinv.step hcond) hstart hrun
  obtain ⟨hphase, hattended⟩ := hinv.accepted haccepted
  refine ⟨fun h => hinv.completed h hphase, fun hfinished => hattended.resolve_right ?_⟩
  rintro ⟨d, hmem, hrolls⟩
  rw [hfinished d hmem] at hrolls
  cases hrolls

def samplePlan (parallel : Bool) : PlanRecord where
  status := .running
  phase := .converting
  parallel := parallel
  errorPolicy := .stop
  dryRun := false

def cancelledRun : List Event :=
  [.spawnDriver true, .drive 0 .load, .waitForMigration, .cancel, .drive 0 (.backfill .paused),
    .drive 0 .reload, .drive 0 (.terminalPass .completed), .drive 0 .markDone, .reap 0]

theorem cancel_kept_driven :
    (Run.exec step (start (samplePlan true)) cancelledRun).plan.status ≠ .completed ∧
      ((∀ d ∈ (Run.exec step (start (samplePlan true)) cancelledRun).drives, d.phase = .finished) →
        (Run.exec step (start (samplePlan true)) cancelledRun).plan.status = .cancelled) :=
  cancel_kept rfl (by decide) rfl

def pausedRun : List Event :=
  [.spawnDriver true, .drive 0 .load, .pause, .drive 0 (.backfill .paused), .drive 0 .reload,
    .drive 0 .markDone, .cancel]

/-- A single worker commits the record that it has in memory over the mark of a cancel, and the pass
that the cancel runs itself cuts over. -/
def overwrittenRun : List Event :=
  [.resume, .drive 0 .load, .drive 0 .loadChunks, .cancel, .drive 1 .load, .drive 0 (.chunk .last),
    .drive 1 (.terminalPass .completed), .drive 0 (.terminalPass .completed)]

/-- The cancel has returned Ok and nobody rolls back; and it has, and the plan is completed. -/
theorem cancel_lost :
    (((Run.exec step (start (samplePlan true)) pausedRun).accepted = true ∧
      ∀ d ∈ (Run.exec step (start (samplePlan true)) pausedRun).drives, d.phase = .finished) ∧
      (Run.exec step (start (samplePlan true)) pausedRun).plan.status = .running) ∧
    (Run.exec step (start (samplePlan false)) overwrittenRun).accepted = true ∧
      (Run.exec step (start (samplePlan false)) overwrittenRun).plan.status = .completed := by
  decide

end

end RhypeDb.Migration.Drives
