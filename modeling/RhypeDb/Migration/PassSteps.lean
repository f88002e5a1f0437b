import RhypeDb.Migration.Steps

/-! The effects of the calls that resume, cancel and cut over, of the passes under the write lock and
of the operator's calls; with them every step has an effect. -/

namespace RhypeDb.Migration

open Engine Storage Fallible List
open Bool hiding not_or

variable {field : String} {spec : MigrationPlanSpec} {converter : Converter}

section

variable {s : Sys} {h : Handle} {e : Event}

theorem resumeFieldTypeMigration_spec (hs : WellStaged field converter s) (hh : s.handle = some h) :
    Effect field spec converter s e (resumeFieldTypeMigration field s h) ∧
      WellStaged field converter (resumeFieldTypeMigration field s h) := by
  have hok := hs h hh
  unfold resumeFieldTypeMigration
  split
  · exact ⟨.same, hs⟩
  next p hp =>
    have hpush : ∀ phase : ResumePhase, (∀ q ∈ phase.pinned?, q = p.toPinnedPlan) →
        Effect field spec converter s e
            (s.setHandle { h with resumes := { resolved := h.registered, phase } :: h.resumes }) ∧
          WellStaged field converter
            (s.setHandle { h with resumes := { resolved := h.registered, phase } :: h.resumes }) := by
      intro phase hphase
      refine quiet_spec hh (keeps_of_eq rfl rfl rfl rfl rfl) (.planned hp hok.writers hok.locked
        (hok.pass p hp) (hok.driver p hp) fun r hr => ?_)
      rcases mem_cons.mp hr with rfl | hr
      · exact hphase
      · exact hok.resumes p hp r hr
    have hloaded : ∀ q ∈ (ResumePhase.loaded p).pinned?, q = p.toPinnedPlan :=
      fun _ hq => (Option.some.inj hq).symm
    split_ifs
    · exact ⟨.same, hs⟩
    · exact hpush _ hloaded
    · exact ⟨.same, hs⟩
    · exact ⟨.same, hs⟩
    · exact hpush _ nofun
    · exact hpush _ hloaded
    · exact ⟨.same, hs⟩

theorem resumeStep_spec {i : Nat} (hs : WellStaged field converter s) (hh : s.handle = some h) :
    Effect field spec converter s (.resumeStep i) (resumeStep converter s h i) ∧
      WellStaged field converter (resumeStep converter s h i) := by
  have hok := hs h hh
  unfold resumeStep
  split
  · exact ⟨.same, hs⟩
  · exact ⟨.same, hs⟩
  next r p hr hp =>
    have hmem : r ∈ h.resumes := mem_of_getElem? hr
    have hpinned := hok.resumes p hp r hmem
    have hset : ∀ phase : ResumePhase, (∀ q ∈ phase.pinned?, q = p.toPinnedPlan) →
        ∀ r' ∈ h.resumes.set i { r with phase }, ∀ q ∈ r'.phase.pinned?, q = p.toPinnedPlan := by
      intro phase hphase r' hr'
      rcases mem_or_eq_of_mem_set hr' with hold | rfl
      · exact hok.resumes p hp r' hold
      · exact hphase
    have hgone : ∀ r' ∈ h.resumes.eraseIdx i, ∀ q ∈ r'.phase.pinned?, q = p.toPinnedPlan :=
      fun r' hr' => hok.resumes p hp r' (mem_of_mem_eraseIdx hr')
    split
    next plan hphase =>
      split_ifs with hlock
      · obtain ⟨hwriters, hpass⟩ := Handle.lockFree_iff.mp hlock
        have hplan : plan.toPinnedPlan = p.toPinnedPlan := by
          rw [hphase] at hpinned
          exact hpinned _ rfl
        rw [hplan]
        refine ⟨.armed hh hp hr hphase hpass rfl hpass id fun _ _ => id, wellStaged_setHandle ?_⟩
        refine .planned hp ?_ (fun _ => hwriters) (hok.pass p hp) (hok.driver p hp)
          (hset _ fun _ hq => nomatch hq)
        rw [hwriters]
        exact nofun
      · exact ⟨.same, hs⟩
    next hphase =>
      split_ifs with hconverting hresolved
      · refine ⟨.due hh hp hconverting rfl rfl fun _ _ => id, wellStaged_setHandle ?_⟩
        exact .planned hp hok.writers hok.locked (hok.pass p hp) (hok.driver p hp) hgone
      · exact quiet_spec hh (keeps_of_eq rfl rfl rfl rfl rfl) (.planned hp hok.writers hok.locked
          (hok.pass p hp) (hok.driver p hp) (hset _ fun _ hq => (Option.some.inj hq).symm))
      · exact quiet_spec hh (keeps_of_eq rfl rfl rfl rfl rfl) (.planned hp hok.writers hok.locked
          (hok.pass p hp) (hok.driver p hp) hgone)
    next plan hphase =>
      split_ifs with hactive
      · exact quiet_spec hh (keeps_of_eq rfl rfl rfl rfl rfl) (.planned hp hok.writers hok.locked
          (hok.pass p hp) (hok.driver p hp) hgone)
      · have hplan : plan.toPinnedPlan = p.toPinnedPlan := by
          rw [hphase] at hpinned
          exact hpinned _ rfl
        constructor
        · refine .drives hh hp rfl rfl ?_ ?_ (.inr ⟨i, r, plan, rfl, hr, hphase⟩)
          · rintro (hwaiting | ⟨d, hd, hdue⟩)
            · exact .inl hwaiting
            · cases hd
              rcases hdue with hdue | ⟨_, hdue, -⟩
              · cases hdue
              · cases hdue
          · rintro idx w ⟨d, b, hd, hb, rfl⟩
            cases hd
            cases hb
            rfl
        · refine wellStaged_setHandle (.planned hp hok.writers hok.locked (hok.pass p hp) ?_ hgone)
          rintro d ⟨⟩
          exact ⟨hplan, fun _ _ _ _ _ _ _ h => nomatch h⟩

theorem cancelMigration_spec (hs : WellStaged field converter s) (hh : s.handle = some h) :
    Effect field spec converter s .cancel (cancelMigration s h) ∧
      WellStaged field converter (cancelMigration s h) := by
  have hok := hs h hh
  unfold cancelMigration
  split
  · exact ⟨.same, hs⟩
  next p hp =>
    by_cases hrefused : (!h.lockFree || decide (p.status = .cancelled ∨ p.status = .completed ∨
        p.status = .dryRunCompleted ∨ p.phase = .cuttingOver)) = true
    · rw [if_pos hrefused]
      exact ⟨.same, hs⟩
    rw [if_neg hrefused]
    simp only [or_eq_true, not_eq_true', decide_eq_true_eq, not_or, not_eq_false]
      at hrefused
    obtain ⟨hlock, -, -, -, hcutting⟩ := hrefused
    obtain ⟨hwriters, hpass⟩ := Handle.lockFree_iff.mp hlock
    have hcancel : ∀ {hist : History} {q : MigrationPlan}, HandleOk field converter hist h →
        (hist.latest Data.apply).plan = some q → ∀ d, h.driver = some d →
        HandleOk field converter hist { h with driver := some { d with control := .cancel } } := by
      intro hist q hok hq d hd
      refine .planned hq hok.writers hok.locked (hok.pass q hq) ?_ (hok.resumes q hq)
      rintro d' ⟨⟩
      exact hok.driver q hq d hd
    have hwait : ∀ {hist : History} {q : MigrationPlan}, HandleOk field converter hist h →
        (hist.latest Data.apply).plan = some q →
        HandleOk field converter hist { h with waiting := h.waiting + 1 } :=
      fun hok hq => .planned hq hok.writers hok.locked (hok.pass _ hq) (hok.driver _ hq)
        (hok.resumes _ hq)
    have hruns : ∀ d, h.driver = some d → ∀ idx w,
        Handle.Runs { h with driver := some { d with control := .cancel } } idx w →
          h.Runs idx w := by
      rintro d hd idx w ⟨d', b, hd', hb, hw⟩
      cases hd'
      exact ⟨d, b, hd, hb, hw⟩
    by_cases hrolling : p.phase = .rollingBack
    · rw [if_pos hrolling]
      split
      next d hd =>
        refine quiet_spec hh ⟨rfl, rfl, rfl, ?_, hruns d hd⟩ (hcancel hok hp d hd)
        rintro (hwaiting | ⟨d', hd', hdue⟩)
        · exact .inl hwaiting
        · cases hd'
          exact .inr ⟨d, hd, hdue⟩
      · exact ⟨.due hh hp (fun h => nomatch hrolling.symm.trans h) rfl rfl fun _ _ => id,
          wellStaged_setHandle (hwait hok hp)⟩
    · rw [if_neg hrolling]
      have hconverting : p.phase = .converting := by
        cases hphase : p.phase with
        | converting => rfl
        | cuttingOver => exact absurd hphase hcutting
        | rollingBack => exact absurd hphase hrolling
      have hok' : HandleOk field converter (s.commit (setPlanPhaseRollingBack s.data)).history h := by
        refine hok.commit (fun p' hp' => ?_) fun hsome => ?_
        · cases (planRecord_plan hp).symm.trans hp'
          refine ⟨p, hp, rfl, fun hsome => ?_⟩
          rw [hpass] at hsome
          cases hsome
        · rw [hpass] at hsome
          cases hsome
      have hplan : (s.commit (setPlanPhaseRollingBack s.data)).data.plan =
          some { p with phase := .rollingBack, cutoverCursor := 0 } := by
        rw [Sys.data_commit]
        exact Data.apply_plan (planRecord_plan hp)
      split
      next d hd =>
        exact ⟨.cancelMarked hh hp hpass hconverting rfl hpass (hruns d hd),
          wellStaged_setHandle (hcancel hok' hplan d hd)⟩
      · exact ⟨.cancelMarked hh hp hpass hconverting rfl hpass fun _ _ => id,
          wellStaged_setHandle (hwait hok' hplan)⟩

theorem cutoverMigration_spec (hs : WellStaged field converter s) (hh : s.handle = some h) :
    Effect field spec converter s .cutover (cutoverMigration field s h) ∧
      WellStaged field converter (cutoverMigration field s h) := by
  have hok := hs h hh
  unfold cutoverMigration
  split
  · exact ⟨.same, hs⟩
  next p hp =>
    split_ifs with hrefused hdeclared
    · exact ⟨.same, hs⟩
    · simp only [or_eq_true, not_eq_true', decide_eq_true_eq, not_or, not_eq_false]
        at hrefused
      obtain ⟨hlock, hcancelled, hrolling⟩ := hrefused
      obtain ⟨hwriters, hpass⟩ := Handle.lockFree_iff.mp hlock
      exact ⟨.taken hh hp hpass hwriters (.cutover hcancelled hrolling) rfl rfl id fun _ _ => id,
        wellStaged_setHandle (hok.setPass hp hwriters passOk_terminalPass)⟩
    · exact ⟨.same, hs⟩

theorem takeTerminalPass_spec (hs : WellStaged field converter s) (hh : s.handle = some h) :
    Effect field spec converter s .terminalPass (takeTerminalPass s h) ∧
      WellStaged field converter (takeTerminalPass s h) := by
  have hok := hs h hh
  unfold takeTerminalPass
  split
  · exact ⟨.same, hs⟩
  next p hp =>
    split_ifs with hrefused
    · exact ⟨.same, hs⟩
    · simp only [or_eq_true, not_eq_true', decide_eq_true_eq, not_or, not_eq_false]
        at hrefused
      obtain ⟨hlock, hwaiting⟩ := hrefused
      obtain ⟨hwriters, hpass⟩ := Handle.lockFree_iff.mp hlock
      refine ⟨.taken hh hp hpass hwriters (.terminalPass (.inl hwaiting)) rfl rfl
        (fun _ => .inl hwaiting) fun _ _ => id, wellStaged_setHandle ?_⟩
      exact .planned hp hok.writers (fun _ => hwriters)
        (fun _ h => Option.some.inj h ▸ passOk_terminalPass) (hok.driver p hp) (hok.resumes p hp)

variable {p : MigrationPlan} {pass : Pass} {hist : History} {phase : PassPhase}

theorem endPass_spec (owner : Pass) (ok : Bool) (hp : s.data.plan = some p)
    (hok : HandleOk field converter s.history { h with pass := none }) :
    ∃ o, endPass s h owner ok = { s with handle := o } ∧ Released h o ∧
      WellStaged field converter { s with handle := o } := by
  have hreleased : Released h (some { h with pass := none }) := by
    rintro _ ⟨⟩
    exact ⟨rfl, rfl, id, fun _ _ => id⟩
  unfold endPass
  split
  · refine ⟨some (Handle.finishDriver { h with pass := none }), rfl, ?_,
      wellStaged_setHandle (hok.finishDriver hp)⟩
    rintro _ ⟨⟩
    exact ⟨rfl, rfl, Handle.due_finishDriver, fun _ _ hrun =>
      absurd hrun Handle.not_runs_finishDriver⟩
  · exact ⟨some { h with pass := none }, rfl, hreleased, wellStaged_setHandle hok⟩
  · cases ok with
    | true => exact ⟨some { h with pass := none }, rfl, hreleased, wellStaged_setHandle hok⟩
    | false => exact ⟨none, rfl, (fun _ h => nomatch h), wellStaged_none rfl⟩

theorem PassOk.goto {hist' : History} (hpass : PassOk field hist p pass)
    (hgate : phase ≠ .gate) (hcutting : phase ≠ .mark → p.phase ≠ .converting)
    (hrollback : pass.kind = .rollback → phase ≠ .mark)
    (hstaged : ∀ attempts snapshot commit after more,
      phase = .staged attempts snapshot commit after more →
        StagedPass field hist' pass snapshot commit after more) :
    PassOk field hist' p { pass with phase } := by
  refine ⟨hpass.pinned, hpass.phase, hpass.cursor, hpass.kind, ?_, ?_, hstaged⟩
  · intro hkind _ hmark
    have hphase := hcutting hmark
    cases hp : p.phase with
    | converting => exact absurd hp hphase
    | cuttingOver => rfl
    | rollingBack =>
      have hrolling := hpass.kind.mpr hp
      exact nomatch hkind.symm.trans hrolling
  · exact fun hkind => ⟨hgate, hrollback hkind⟩

theorem PassOk.not_converting (hpass : PassOk field hist p pass)
    (hgate : pass.phase ≠ .gate) (hmark : pass.phase ≠ .mark) : p.phase ≠ .converting := by
  intro hconverting
  cases hkind : pass.kind with
  | cutover => exact nomatch hconverting.symm.trans (hpass.marked hkind hgate hmark)
  | rollback => exact nomatch hconverting.symm.trans (hpass.kind.mp hkind)

theorem PassOk.cutting (hpass : PassOk field hist p pass)
    (hkind : pass.kind = .cutover) (hgate : pass.phase ≠ .gate) (hmark : pass.phase ≠ .mark) :
    p.phase = .cuttingOver := hpass.marked hkind hgate hmark

theorem passMoved_spec (hs : WellStaged field converter s) (hh : s.handle = some h)
    (hp : s.data.plan = some p) (hpass : h.pass = some pass)
    (hgate : pass.phase ≠ .gate) (hfinal : pass.phase ≠ .finalize)
    (hconverting : p.phase ≠ .converting) (hgate' : phase ≠ .gate) (hmark' : phase ≠ .mark)
    (hbehind : phase = .finalize → ∀ id row, s.data.rows.lookup id = some row →
      Behind p.cutoverCursor id)
    (hstaged : ∀ attempts snapshot commit after more,
      phase = .staged attempts snapshot commit after more →
        snapshot = s.history.version ∧ StagedPass field s.history pass snapshot commit after more) :
    Effect field spec converter s e (s.setHandle (h.setPass { pass with phase })) ∧
      WellStaged field converter (s.setHandle (h.setPass { pass with phase })) := by
  have hok := hs h hh
  have hpok := hok.pass p hp pass hpass
  have hwriters : h.writers = [] := hok.locked (by rw [hpass]; rfl)
  constructor
  · exact .passMoved hh hp hpass hpok hgate hfinal hconverting hgate' hmark' hbehind
      fun attempts snapshot commit after more hphase =>
        (hstaged attempts snapshot commit after more hphase).1
  · exact wellStaged_setHandle (hok.setPass hp hwriters (hpok.goto hgate' (fun _ => hconverting)
      (fun _ => hmark') fun attempts snapshot commit after more hphase =>
        (hstaged attempts snapshot commit after more hphase).2))

theorem endPass_commit (owner : Pass) (ok : Bool) (hook : Option MigratingFieldHook)
    (hs : WellStaged field converter s) (hh : s.handle = some h) {p' : MigrationPlan} {c : Commit}
    (hp : s.data.plan = some p) (hpass : h.pass = some pass) (hc : c.plan = some p')
    (hpinned : p'.toPinnedPlan = p.toPinnedPlan) :
    ∃ o, endPass (s.commit c) { h with hook } owner ok = { s.commit c with handle := o } ∧
      Released { h with hook } o ∧ WellStaged field converter { s.commit c with handle := o } := by
  have hok := hs h hh
  have hwriters : h.writers = [] := hok.locked (by rw [hpass]; rfl)
  have hplan : (s.commit c).data.plan = some p' := by
    rw [Sys.data_commit]
    exact Data.apply_plan hc
  refine endPass_spec owner ok hplan ?_
  have hok' : HandleOk field converter (s.commit c).history { h with pass := none } := by
    refine (hok.release hp).commit (fun q hq => ?_) nofun
    cases hc.symm.trans hq
    exact ⟨p, hp, hpinned, fun h => nomatch h⟩
  refine .planned hplan ?_ (fun _ => hwriters) (fun _ h => nomatch h) (hok'.driver _ hplan)
    (hok'.resumes _ hplan)
  rw [hwriters]
  exact nofun

variable {layers : Layers} {attempts : Nat}

theorem passScan_spec (hs : WellStaged field converter s) (hh : s.handle = some h)
    (hpass : h.pass = some pass) (hphase : pass.phase = .scan attempts) :
    Effect field spec converter s (.pass layers) (passStep field s h pass layers) ∧
      WellStaged field converter (passStep field s h pass layers) := by
  have hok := hs h hh
  have hplanned : ∃ p, s.data.plan = some p := by
    cases hplan : s.data.plan with
    | none =>
      have hidle := (hok.unplanned hplan).2.2.2.1
      exact nomatch hidle.symm.trans hpass
    | some p => exact ⟨p, rfl⟩
  obtain ⟨p, hp⟩ := hplanned
  have hpok := hok.pass p hp pass hpass
  have hgate : pass.phase ≠ .gate := fun h => nomatch hphase.symm.trans h
  have hmark : pass.phase ≠ .mark := fun h => nomatch hphase.symm.trans h
  have hfinal : pass.phase ≠ .finalize := fun h => nomatch hphase.symm.trans h
  have hconverting := hpok.not_converting hgate hmark
  -- all that is live lies behind the cursor
  have hfinish : (∀ id row, s.data.rows.lookup id = some row → Behind p.cutoverCursor id) →
      Effect field spec converter s (.pass layers)
          (s.setHandle (h.setPass { pass with phase := .finalize })) ∧
        WellStaged field converter (s.setHandle (h.setPass { pass with phase := .finalize })) :=
    fun hbehind => passMoved_spec hs hh hp hpass hgate hfinal hconverting (fun h => nomatch h)
      (fun h => nomatch h) (fun _ => hbehind) fun _ _ _ _ _ h => nomatch h
  unfold passStep
  rw [hphase]
  dsimp only
  by_cases hmax : pass.plan.cutoverCursor.toNat = 2 ^ 64 - 1
  · rw [if_pos hmax]
    refine hfinish fun id row _ => ?_
    rw [← hpok.cursor]
    have hlt := id.toNat_lt
    refine ⟨?_, UInt64.le_iff_toNat_le.mpr (by omega)⟩
    intro hzero
    rw [hzero] at hmax
    exact absurd hmax (by decide)
  rw [if_neg hmax]
  split
  next hnone =>
    refine hfinish fun id row hrow => ?_
    have hlt := scanChunkRaw_none (passStart pass.plan) PinnedPlan.one_le_chunk hrow hnone
    rw [← hpok.cursor]
    rcases behind_or_passStart_le id hmax with ⟨hbehind, -⟩ | ⟨-, hstart, -⟩
    · exact hbehind
    · exact absurd hlt (UInt64.not_lt.mpr hstart)
  next high hhigh =>
    have hstage : ∀ rows, StagesRows field pass.plan.toPinnedPlan
          (scanChunkRaw s.data.rows layers (passStart pass.plan) pass.plan.chunk) rows pass.kind →
        StagedPass field s.history pass s.history.version
          { rows, plan := some { pass.plan with cutoverCursor := high } }
          { pass.plan with cutoverCursor := high }
          (scanChunkRaw s.data.rows layers (passStart pass.plan) pass.plan.chunk).more := by
      intro rows hrows
      refine ⟨Nat.le_refl _, hmax, ?_, layers, high, rows, ?_⟩
      · rw [SnapshotHistory.stateAt_version]
        exact .refl _
      · rw [SnapshotHistory.stateAt_version]
        exact ⟨hhigh, rfl, rfl, rfl, hrows⟩
    split
    next hkind =>
      rw [hkind] at hstage
      refine passMoved_spec hs hh hp hpass hgate hfinal hconverting (fun h => nomatch h)
        (fun h => nomatch h) (fun h => nomatch h) ?_
      intro _ _ _ _ _ hstaged
      cases hstaged
      exact ⟨rfl, hstage _ rfl⟩
    next hkind =>
      rw [hkind] at hstage
      split
      next rows hrows =>
        refine passMoved_spec hs hh hp hpass hgate hfinal hconverting (fun h => nomatch h)
          (fun h => nomatch h) (fun h => nomatch h) ?_
        intro _ _ _ _ _ hstaged
        cases hstaged
        exact ⟨rfl, hstage _ hrows⟩
      next err herr =>
        obtain ⟨o, ho, hreleased, hstaged⟩ := endPass_commit pass false h.hook
          hs hh hp hpass (planRecord_plan hp) rfl
          (c := parkMigrationFailedRewind s.data)
        have heq : endPass (s.commit (parkMigrationFailedRewind s.data)) h pass false =
            { s.commit (parkMigrationFailedRewind s.data) with handle := o } := ho
        have hscan : pass.phase.isScan = true := by
          rw [hphase]
          rfl
        have hfailed : (stageCutover field pass.plan.toPinnedPlan (scanChunkRaw s.data.rows layers
            (passStart pass.plan) pass.plan.chunk)).isOk = false := by
          have herr' : stageCutover field pass.plan.toPinnedPlan (scanChunkRaw s.data.rows layers
            (passStart pass.plan) pass.plan.chunk) = .error err := herr
          rw [herr']
          rfl
        rw [heq]
        exact ⟨.refused hh hp hpass hpok (hpok.cutting hkind hgate hmark)
          ⟨h, hh, pass, hpass, hkind, hscan, hmax, hfailed⟩ hreleased, hstaged⟩

theorem wellStaged_pass (hs : WellStaged field converter s) (hh : s.handle = some h)
    (hp : s.data.plan = some p) (hpass : h.pass = some pass) {c : Commit} {q : MigrationPlan}
    {pass' : Pass} (hplan : (s.commit c).data.plan = some q)
    (hpinned : q.toPinnedPlan = p.toPinnedPlan) (hpok : PassOk field (s.commit c).history q pass') :
    WellStaged field converter ((s.commit c).setHandle (h.setPass pass')) := by
  have hok := hs h hh
  have hwriters : h.writers = [] := hok.locked (by rw [hpass]; rfl)
  have hok' : HandleOk field converter (s.commit c).history { h with pass := none } := by
    refine (hok.release hp).commit (fun r hr => ?_) nofun
    have hsame : r = q := by
      rw [Sys.data_commit, Data.apply_plan hr] at hplan
      exact Option.some.inj hplan
    rw [hsame]
    exact ⟨p, hp, hpinned, fun h => nomatch h⟩
  exact wellStaged_setHandle (hok'.setPass hplan hwriters hpok)

theorem passGate_spec (hs : WellStaged field converter s) (hh : s.handle = some h)
    (hp : s.data.plan = some p) (hpass : h.pass = some pass) (hphase : pass.phase = .gate) :
    Effect field spec converter s (.pass layers) (passStep field s h pass layers) ∧
      WellStaged field converter (passStep field s h pass layers) := by
  have hok := hs h hh
  have hpok := hok.pass p hp pass hpass
  have hwriters : h.writers = [] := hok.locked (by rw [hpass]; rfl)
  have hmark : ∀ {hist' : History}, PassOk field hist' p { pass with phase := .mark } := by
    intro hist'
    refine hpok.goto (fun h => nomatch h) (fun h => absurd rfl h) (fun hkind => ?_)
      fun _ _ _ _ _ h => nomatch h
    exact absurd hphase (hpok.rollback hkind).1
  unfold passStep
  rw [hphase, hpok.pinned]
  dsimp only
  split_ifs with hpolicy hunresolved
  · exact ⟨.gateOpened hh hp hpass hpok hphase hpolicy,
      wellStaged_setHandle (hok.setPass hp hwriters hmark)⟩
  · refine ⟨.gateReaped hh hp hpass hpok hphase hunresolved,
      wellStaged_pass hs hh hp hpass ?_ rfl hmark⟩
    rw [Sys.data_commit, Data.apply_plan_none rfl]
    exact hp
  · have hreap : (s.commit (reapResolved s.data field p.toPinnedPlan)).data.plan = some p := by
      rw [Sys.data_commit, Data.apply_plan_none rfl]
      exact hp
    have hs' : WellStaged field converter
        ((s.commit (reapResolved s.data field p.toPinnedPlan)).setHandle h) :=
      wellStaged_setHandle (hok.commit (fun _ h => nomatch h) fun _ _ _ => .refl _)
    have hpark := planRecord_plan (f := fun p => { p with status := .failed }) hp
    obtain ⟨o, ho, hreleased, hstaged⟩ := endPass_commit pass false h.hook
      hs' rfl hreap hpass hpark rfl
    have heq : endPass ((s.commit (reapResolved s.data field p.toPinnedPlan)).commit
        (parkMigrationFailedKeepCursors s.data)) h pass false =
        { (s.commit (reapResolved s.data field p.toPinnedPlan)).commit
            (parkMigrationFailedKeepCursors s.data) with handle := o } := by
      exact ho
    rw [heq]
    exact ⟨.gateParked hh hp hpass hpok hreleased, hstaged⟩

theorem passMark_spec (hs : WellStaged field converter s) (hh : s.handle = some h)
    (hp : s.data.plan = some p) (hpass : h.pass = some pass) (hphase : pass.phase = .mark) :
    Effect field spec converter s (.pass layers) (passStep field s h pass layers) ∧
      WellStaged field converter (passStep field s h pass layers) := by
  have hpok := (hs h hh).pass p hp pass hpass
  have hkind : pass.kind = .cutover := by
    cases hkind : pass.kind with
    | cutover => rfl
    | rollback => exact absurd hphase (hpok.rollback hkind).2
  unfold passStep
  rw [hphase]
  dsimp only
  split_ifs with hcutting
  · rw [hpok.phase] at hcutting
    exact passMoved_spec hs hh hp hpass (fun h => nomatch hphase.symm.trans h)
      (fun h => nomatch hphase.symm.trans h) (fun h => nomatch hcutting.symm.trans h)
      (fun h => nomatch h) (fun h => nomatch h) (fun h => nomatch h)
      fun _ _ _ _ _ h => nomatch h
  · have hconverting : p.phase = .converting := by
      rw [hpok.phase] at hcutting
      cases hp : p.phase with
      | converting => rfl
      | cuttingOver => exact absurd hp hcutting
      | rollingBack =>
        have hrolling := hpok.kind.mpr hp
        exact nomatch hkind.symm.trans hrolling
    refine ⟨.marked hh hp hpass hpok hphase hconverting, wellStaged_pass hs hh hp hpass
      (q := { pass.plan with phase := .cuttingOver }) ?_ hpok.pinned ?_⟩
    · rw [Sys.data_commit]
      exact Data.apply_plan rfl
    · refine ⟨rfl, rfl, rfl, ?_, fun _ _ _ => rfl, fun h => ?_, fun _ _ _ _ _ h => nomatch h⟩
      · exact iff_of_false (fun h => nomatch hkind.symm.trans h) nofun
      · exact nomatch hkind.symm.trans h

theorem passStaged_spec {snapshot : Nat} {commit : Commit} {after : MigrationPlan}
    {more : Bool} (hs : WellStaged field converter s) (hh : s.handle = some h)
    (hp : s.data.plan = some p) (hpass : h.pass = some pass)
    (hphase : pass.phase = .staged attempts snapshot commit after more) :
    Effect field spec converter s (.pass layers) (passStep field s h pass layers) ∧
      WellStaged field converter (passStep field s h pass layers) := by
  have hok := hs h hh
  have hpok := hok.pass p hp pass hpass
  have hgate : pass.phase ≠ .gate := fun h => nomatch hphase.symm.trans h
  have hmark : pass.phase ≠ .mark := fun h => nomatch hphase.symm.trans h
  have hconverting := hpok.not_converting hgate hmark
  unfold passStep
  rw [hphase]
  dsimp only
  by_cases hrefused : s.Refused snapshot commit
  · split_ifs with hretry
    · exact passMoved_spec hs hh hp hpass hgate (fun h => nomatch hphase.symm.trans h) hconverting
        (fun h => nomatch h) (fun h => nomatch h) (fun h => nomatch h) fun _ _ _ _ _ h => nomatch h
    · obtain ⟨o, ho, hreleased, hstaged⟩ := endPass_spec pass false hp
        (hok.release hp)
      rw [ho]
      exact ⟨.dropped hh hp hpass hpok hphase hrefused hreleased, hstaged⟩
  · rw [if_neg hrefused]
    refine ⟨.moved hh hp hpass hpok hphase hrefused, ?_⟩
    obtain ⟨-, -, -, _, high, rows, -, -, rfl, rfl, -⟩ := hpok.staged _ _ _ _ _ hphase
    refine wellStaged_pass hs hh hp hpass (q := { pass.plan with cutoverCursor := high }) ?_
      hpok.pinned ?_
    · rw [Sys.data_commit]
      exact Data.apply_plan rfl
    · have hcutting : pass.kind = .cutover → pass.plan.phase = .cuttingOver :=
        fun hkind => hpok.phase.trans (hpok.cutting hkind hgate hmark)
      refine ⟨rfl, rfl, rfl, ?_, fun hkind _ _ => hcutting hkind, fun _ => ?_, ?_⟩
      · rw [hpok.kind]
        rw [hpok.phase]
      · cases more with
        | true => exact ⟨nofun, nofun⟩
        | false => exact ⟨nofun, nofun⟩
      · intro _ _ _ _ _ hnext
        cases more with
        | true => cases hnext
        | false => cases hnext

theorem passFinalize_spec (hs : WellStaged field converter s) (hh : s.handle = some h)
    (hp : s.data.plan = some p) (hpass : h.pass = some pass) (hphase : pass.phase = .finalize) :
    Effect field spec converter s (.pass layers) (passStep field s h pass layers) ∧
      WellStaged field converter (passStep field s h pass layers) := by
  have hpok := (hs h hh).pass p hp pass hpass
  have hgate : pass.phase ≠ .gate := fun h => nomatch hphase.symm.trans h
  have hmark : pass.phase ≠ .mark := fun h => nomatch hphase.symm.trans h
  unfold passStep
  rw [hphase]
  cases hkind : pass.kind with
  | cutover =>
    obtain ⟨o, ho, hreleased, hstaged⟩ := endPass_commit pass true none
      hs hh hp hpass (planRecord_plan hp) rfl (c := finalizeMigrationCutover s.data)
    rw [ho]
    exact ⟨.cutOver hh hp hpass hpok hphase (hpok.cutting hkind hgate hmark) hreleased, hstaged⟩
  | rollback =>
    obtain ⟨o, ho, hreleased, hstaged⟩ := endPass_commit pass true none
      hs hh hp hpass (planRecord_plan hp) rfl (c := finalizeMigrationCancelled s.data)
    rw [ho]
    exact ⟨.cancelled hh hp hpass hpok hphase (hpok.kind.mp hkind) hreleased, hstaged⟩

theorem passStep_spec (hs : WellStaged field converter s) (hh : s.handle = some h)
    (hpass : h.pass = some pass) :
    Effect field spec converter s (.pass layers) (passStep field s h pass layers) ∧
      WellStaged field converter (passStep field s h pass layers) := by
  have hplanned : ∃ p, s.data.plan = some p := by
    cases hplan : s.data.plan with
    | none =>
      have hidle := ((hs h hh).unplanned hplan).2.2.2.1
      exact nomatch hidle.symm.trans hpass
    | some p => exact ⟨p, rfl⟩
  obtain ⟨p, hp⟩ := hplanned
  cases hphase : pass.phase with
  | gate => exact passGate_spec hs hh hp hpass hphase
  | mark => exact passMark_spec hs hh hp hpass hphase
  | scan attempts => exact passScan_spec hs hh hpass hphase
  | staged attempts snapshot commit after more => exact passStaged_spec hs hh hp hpass hphase
  | finalize => exact passFinalize_spec hs hh hp hpass hphase

theorem retryStep_spec {objectId : Id} {newConverter : Converter}
    (hs : WellStaged field converter s) (hh : s.handle = some h) :
    Effect field spec converter s (.retryQuarantined objectId newConverter)
        (retryStep field s h objectId newConverter) ∧
      WellStaged field converter (retryStep field s h objectId newConverter) := by
  have hok := hs h hh
  unfold retryStep
  split
  · exact ⟨.same, hs⟩
  next p hp =>
    split_ifs with hrefused
    · exact ⟨.same, hs⟩
    · rw [or_eq_true, not_or, not_eq_true', not_eq_false] at hrefused
      obtain ⟨-, hpass⟩ := Handle.lockFree_iff.mp hrefused.1
      split
      · exact ⟨.same, hs⟩
      next c hc =>
        refine ⟨.retried hh hp hpass hc, ?_⟩
        have hplan : c.plan = none := by
          unfold retryQuarantined at hc
          split at hc
          · cases hc
            rfl
          · split at hc <;> cases hc <;> rfl
        intro h' hh'
        cases hh.symm.trans hh'
        refine hok.commit (fun p' hp' => ?_) fun hsome => ?_
        · rw [hplan] at hp'
          cases hp'
        · rw [hpass] at hsome
          cases hsome

theorem clearQuarantine_spec (hs : WellStaged field converter s) (hh : s.handle = some h)
    (hlock : h.lockFree = true) :
    Effect field spec converter s .clearQuarantine
        { s.commit (clearQuarantine s.data) with
          cleared := s.data.quarantine.keys ++ s.cleared } ∧
      WellStaged field converter
        { s.commit (clearQuarantine s.data) with
          cleared := s.data.quarantine.keys ++ s.cleared } := by
  obtain ⟨-, hpass⟩ := Handle.lockFree_iff.mp hlock
  refine ⟨.cleared hh hpass, fun h' hh' => ?_⟩
  cases hh.symm.trans hh'
  exact (hs h hh).commit (fun _ h => nomatch h) fun _ _ _ => .refl _

end

variable {s : Sys}

theorem step_spec (spec : MigrationPlanSpec) (hs : WellStaged field converter s) (event : Event) :
    Effect field spec converter s event (step field spec converter s event) ∧
      WellStaged field converter (step field spec converter s event) := by
  cases hh : s.handle with
  | none =>
    unfold step
    rw [hh]
    cases event with
    | openDatabase type highestOther => exact openDatabase_spec hs
    | stop => exact ⟨.stopped, wellStaged_none rfl⟩
    | _ => exact ⟨.same, hs⟩
  | some h =>
    have hok := hs h hh
    unfold step
    rw [hh]
    cases event with
    | openDatabase type highestOther => exact openDatabase_spec hs
    | stop => exact ⟨.stopped, wellStaged_none rfl⟩
    | registerConverter =>
      dsimp only
      split_ifs
      · exact ⟨.same, hs⟩
      · exact quiet_spec hh (keeps_of_eq rfl rfl rfl rfl rfl)
          (hok.of_eq rfl rfl rfl rfl rfl rfl (fun _ => id) fun d hd => ⟨d, hd, rfl⟩)
    | drawObjectId =>
      dsimp only
      split_ifs
      · exact ⟨.same, hs⟩
      · exact quiet_spec hh (keeps_of_eq rfl rfl rfl rfl rfl)
          (hok.of_eq rfl rfl rfl rfl rfl rfl (fun _ => id) fun d hd => ⟨d, hd, rfl⟩)
    | write op => exact beginWrite_spec hs hh
    | commitWrite i => exact commitWrite_spec hs hh
    | createMigration => exact createFieldTypeMigration_spec hs hh
    | spawnDriver => exact spawnMigrationDriver_spec hs hh
    | driver =>
      cases hd : h.driver with
      | none =>
        dsimp only
        rw [hd]
        exact ⟨.same, hs⟩
      | some d =>
        dsimp only
        rw [hd]
        exact driverStep_spec hs hh hd
    | worker idx layers =>
      dsimp only
      split
      next d b hd hb =>
        split_ifs
        · exact workerStep_spec hs hh hd ((Handle.backfill?_eq_some hd).mp hb)
        · exact ⟨.same, hs⟩
      · exact ⟨.same, hs⟩
    | pause =>
      have hphase : ∀ d', (h.driver.map fun d => { d with control := .pause }) = some d' →
          ∃ d, h.driver = some d ∧ d.phase = d'.phase := by
        intro d' hd'
        obtain ⟨d, hd, rfl⟩ := Option.map_eq_some_iff.mp hd'
        exact ⟨d, hd, rfl⟩
      refine quiet_spec hh ⟨rfl, rfl, rfl, ?_, ?_⟩ (hok.of_eq rfl rfl rfl rfl rfl rfl (fun _ => id) hphase)
      · rintro (hwaiting | ⟨d', hd', hdue⟩)
        · exact .inl hwaiting
        · obtain ⟨d, hd, heq⟩ := hphase d' hd'
          rw [← heq] at hdue
          exact .inr ⟨d, hd, hdue⟩
      · rintro idx w ⟨d', b, hd', hb, hw⟩
        obtain ⟨d, hd, heq⟩ := hphase d' hd'
        exact ⟨d, b, hd, heq.trans hb, hw⟩
    | waitForMigration =>
      dsimp only
      split_ifs
      · exact ⟨.same, hs⟩
      · refine quiet_spec hh ⟨rfl, rfl, rfl, ?_, ?_⟩
          (hok.of_eq rfl rfl rfl rfl rfl rfl (fun _ => id) fun _ h => nomatch h)
        · rintro (hwaiting | ⟨_, hd, -⟩)
          · exact .inl hwaiting
          · cases hd
        · rintro _ _ ⟨_, _, hd, -⟩
          cases hd
    | resume => exact resumeFieldTypeMigration_spec hs hh
    | resumeStep i => exact resumeStep_spec hs hh
    | cancel => exact cancelMigration_spec hs hh
    | cutover => exact cutoverMigration_spec hs hh
    | terminalPass => exact takeTerminalPass_spec hs hh
    | pass layers =>
      cases hpass : h.pass with
      | none =>
        dsimp only
        rw [hpass]
        exact ⟨.same, hs⟩
      | some pass =>
        dsimp only
        rw [hpass]
        exact passStep_spec hs hh hpass
    | retryQuarantined objectId newConverter => exact retryStep_spec hs hh
    | clearQuarantine =>
      dsimp only
      split_ifs with hlock
      · exact clearQuarantine_spec hs hh hlock
      · exact ⟨.same, hs⟩

end RhypeDb.Migration
