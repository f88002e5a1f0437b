import RhypeDb.Migration.Effects

/-! Each function of the engine has one of the effects, and keeps what is in flight as it was staged
at its snapshot: the open, the foreground writes, the driver and its workers. -/

namespace RhypeDb.Migration

open Engine Storage Fallible List Option Function SnapshotHistory

variable {field : String} {spec : MigrationPlanSpec} {converter : Converter}

section

variable {hist : History} {h h' : Handle} {p : MigrationPlan} {phase : DriverPhase} {idx : Nat}
  {w : WorkerPhase} {s : Sys}

theorem Handle.runs_setDriver (hrun : (h.setDriver phase).Runs idx w) :
    ∃ b, phase = .backfill b ∧ b.workers idx = w := by
  obtain ⟨d, b, hd, hphase, hw⟩ := hrun
  obtain ⟨_, -, rfl⟩ := map_eq_some_iff.mp hd
  exact ⟨b, hphase, hw⟩

theorem Handle.due_setDriver (hdue : (h.setDriver phase).Due) :
    h.waiting ≠ 0 ∨ phase = .terminal ∨
      ∃ plan, phase = .backfilled plan .allDone ∧ plan.dryRun = false := by
  rcases hdue with hwaiting | ⟨d, hd, hphase⟩
  · exact .inl hwaiting
  · obtain ⟨_, -, rfl⟩ := map_eq_some_iff.mp hd
    exact .inr hphase

theorem Handle.finishDriver_phase {d : Driver} (hd : h.finishDriver.driver = some d) :
    d.phase = .finished := by
  obtain ⟨_, -, hsome⟩ := bind_eq_some_iff.mp hd
  split_ifs at hsome
  cases hsome
  rfl

theorem Handle.not_runs_finishDriver : ¬ h.finishDriver.Runs idx w := by
  rintro ⟨d, b, hd, hphase, -⟩
  rw [Handle.finishDriver_phase hd] at hphase
  cases hphase

theorem Handle.due_finishDriver (hdue : h.finishDriver.Due) : h.Due := by
  rcases hdue with hwaiting | ⟨d, hd, hphase⟩
  · exact .inl hwaiting
  · rw [Handle.finishDriver_phase hd] at hphase
    rcases hphase with hphase | ⟨_, hphase, -⟩
    · cases hphase
    · cases hphase

theorem follows_of_keeps (h' : Handle) (hkeeps : h.Keeps h') : Follows s h h' where
  type := hkeeps.type
  hook := hkeeps.hook
  pass := hkeeps.pass
  due := hkeeps.due
  runs := fun idx w hrun => ⟨w, hkeeps.runs idx w hrun⟩
  cursor := fun idx w _ hrun hpc => .inl ⟨w, hkeeps.runs idx w hrun, hpc⟩
  staged := fun idx _ _ _ _ _ _ hrun => .inl (hkeeps.runs idx _ hrun)

theorem keeps_of_eq (htype : h'.type = h.type) (hhook : h'.hook = h.hook) (hpass : h'.pass = h.pass)
    (hwaiting : h'.waiting = h.waiting) (hdriver : h'.driver = h.driver) : h.Keeps h' := by
  refine ⟨htype, hhook, hpass, ?_, ?_⟩
  · unfold Handle.Due
    rw [hwaiting, hdriver]
    exact id
  · unfold Handle.Runs
    rw [hdriver]
    exact fun _ _ => id

theorem keeps_finishDriver : h.Keeps h.finishDriver :=
  ⟨rfl, rfl, rfl, Handle.due_finishDriver, fun _ _ hrun => absurd hrun Handle.not_runs_finishDriver⟩

theorem HandleOk.planned (hp : (hist.latest Data.apply).plan = some p)
    (hwriters : ∀ w ∈ h.writers, WriterOk field hist h w) (hlocked : h.pass.isSome → h.writers = [])
    (hpass : ∀ pass, h.pass = some pass → PassOk field hist p pass)
    (hdriver : ∀ d, h.driver = some d → DriverOk field converter hist p d.phase)
    (hresumes : ∀ r ∈ h.resumes, ∀ q ∈ r.phase.pinned?, q = p.toPinnedPlan) :
    HandleOk field converter hist h := by
  have hsame : ∀ p', (hist.latest Data.apply).plan = some p' → p' = p :=
    fun p' hp' => Option.some.inj (hp'.symm.trans hp)
  refine ⟨fun hnone => ?_, hwriters, hlocked, fun p' hp' => ?_, fun p' hp' => ?_, fun p' hp' => ?_⟩
  · rw [hp] at hnone
    cases hnone
  · rw [hsame p' hp']
    exact hpass
  · rw [hsame p' hp']
    exact hdriver
  · rw [hsame p' hp']
    exact hresumes

theorem HandleOk.setDriver (hok : HandleOk field converter hist h) (phase : DriverPhase)
    (hp : (hist.latest Data.apply).plan = some p) (hphase : DriverOk field converter hist p phase) :
    HandleOk field converter hist (h.setDriver phase) := by
  refine .planned hp hok.writers hok.locked (hok.pass p hp) (fun d hd => ?_) (hok.resumes p hp)
  obtain ⟨_, -, rfl⟩ := map_eq_some_iff.mp hd
  exact hphase

theorem HandleOk.finishDriver (hok : HandleOk field converter hist h)
    (hp : (hist.latest Data.apply).plan = some p) :
    HandleOk field converter hist h.finishDriver := by
  refine .planned hp hok.writers hok.locked (hok.pass p hp) (fun d hd => ?_) (hok.resumes p hp)
  rw [Handle.finishDriver_phase hd]
  trivial

theorem HandleOk.release (hok : HandleOk field converter hist h)
    (hp : (hist.latest Data.apply).plan = some p) :
    HandleOk field converter hist { h with pass := none } :=
  .planned hp hok.writers (fun h => nomatch h) (fun _ h => nomatch h) (hok.driver p hp)
    (hok.resumes p hp)

theorem HandleOk.setPass (hok : HandleOk field converter hist h)
    (hp : (hist.latest Data.apply).plan = some p) (hwriters : h.writers = []) {pass : Pass}
    (hpass : PassOk field hist p pass) : HandleOk field converter hist (h.setPass pass) := by
  refine .planned hp hok.writers (fun _ => hwriters) (fun pass' hpass' => ?_) (hok.driver p hp)
    (hok.resumes p hp)
  cases hpass'
  exact hpass

theorem wellStaged_setHandle (h : HandleOk field converter s.history h') :
    WellStaged field converter (s.setHandle h') := by
  intro h'' hh
  cases hh
  exact h

theorem wellStaged_none (hnone : s.handle = none) : WellStaged field converter s := by
  intro h hh
  rw [hnone] at hh
  cases hh

theorem passOk_terminalPass {owner : Owner} {rows : Rows} :
    PassOk field hist p (terminalPass owner p rows) := by
  unfold terminalPass
  split_ifs with hrolling
  · refine ⟨rfl, rfl, rfl, iff_of_true rfl hrolling, (fun h => nomatch h), fun _ => ?_,
      (fun _ _ _ _ _ h => nomatch h)⟩
    exact ⟨(fun h => nomatch h), (fun h => nomatch h)⟩
  · refine ⟨rfl, rfl, rfl, iff_of_false (fun h => nomatch h) hrolling, ?_, (fun h => nomatch h),
      (fun _ _ _ _ _ h => nomatch h)⟩
    exact fun _ hgate => absurd rfl hgate

variable {e : Event} {type : CheckedType}

theorem opened_spec {h : Handle} (hnone : s.handle = none) (hopen : Opened field converter s h)
    (hresumes : h.resumes = []) (hspawning : h.spawning = false) :
    Effect field spec converter s e (s.setHandle h) ∧
      WellStaged field converter (s.setHandle h) := by
  refine ⟨.opened hnone hopen, wellStaged_setHandle ?_⟩
  constructor
  · intro hplan
    obtain ⟨hhook, hpass, -⟩ := hopen.unplanned hplan
    exact ⟨hhook, hopen.driver, hresumes, hpass, hspawning, hopen.waiting⟩
  · rw [hopen.writers]
    exact fun _ hw => nomatch hw
  · exact fun _ => hopen.writers
  · intro p hp pass hpass
    rw [(hopen.pass p pass hp hpass).1]
    exact passOk_terminalPass
  · rw [hopen.driver]
    exact fun _ _ _ hd => nomatch hd
  · rw [hresumes]
    exact fun _ _ _ hr => nomatch hr

theorem opened_armed {p : MigrationPlan} {next : Id} {pass : Option Pass}
    (hplan : s.data.plan = some p) (hquiesces : p.status.quiesces = true) (hdry : p.dryRun = false)
    (hpass : ∀ pass', pass = some pass' → pass' = terminalPass .opening p s.data.rows ∧
      p.phase ≠ .converting) (hrolling : p.phase = .rollingBack → pass.isSome) :
    Opened field converter s
      (freshHandle type next (some (hookOf converter p.toPinnedPlan false)) pass) := by
  have hsame : ∀ p', s.data.plan = some p' → p' = p :=
    fun p' hp' => Option.some.inj (hp'.symm.trans hplan)
  refine ⟨rfl, rfl, rfl, ?_, ?_, ?_, ?_, ?_⟩
  · intro hnone
    rw [hplan] at hnone
    cases hnone
  · intro p' hp' hsettled
    rw [hsame p' hp'] at hsettled
    exact absurd ⟨hquiesces, hdry⟩ hsettled
  · intro p' hp' _ _
    rw [hsame p' hp']
    rfl
  · intro p' pass' hp' hpass'
    rw [hsame p' hp']
    exact hpass pass' hpass'
  · intro p' hp' _ _ hphase
    rw [hsame p' hp'] at hphase
    exact hrolling hphase

theorem openDatabase_spec {highestOther : Id} (hs : WellStaged field converter s) :
    Effect field spec converter s e (openDatabase field converter s type highestOther) ∧
      WellStaged field converter (openDatabase field converter s type highestOther) := by
  unfold openDatabase
  dsimp only
  split_ifs with hrefused
  · exact ⟨.same, hs⟩
  rw [not_or, not_not] at hrefused
  have hnone : s.handle = none := not_isSome_iff_eq_none.mp hrefused.1
  split
  next hplan =>
    have hnever : ∀ p, s.data.plan ≠ some p := fun p hp => nomatch hplan.symm.trans hp
    refine opened_spec hnone ⟨rfl, rfl, rfl, fun _ => ⟨rfl, rfl, ?_⟩, ?_, ?_, ?_, ?_⟩ rfl rfl
    · rw [hplan] at hrefused
      exact hrefused.2.resolve_right fun h => nomatch h
    · exact fun p hp => absurd hp (hnever p)
    · exact fun p hp => absurd hp (hnever p)
    · exact fun p _ hp => absurd hp (hnever p)
    · exact fun p hp => absurd hp (hnever p)
  next p hplan =>
    split_ifs with hsettled hrolling hdeclared hcut hdeclared
    · have hsame : ∀ p', s.data.plan = some p' →
          ¬ (p'.status.quiesces = true ∧ p'.dryRun = false) := by
        intro p' hp'
        cases hp'.symm.trans hplan
        rintro ⟨hquiesces, hdry⟩
        rw [hquiesces, hdry] at hsettled
        exact hsettled.elim (fun h => nomatch h) (fun h => nomatch h)
      refine opened_spec hnone ⟨rfl, rfl, rfl, ?_, fun _ _ _ => ⟨rfl, rfl⟩, ?_,
        (fun _ _ _ h => nomatch h), ?_⟩ rfl rfl
      · intro hno
        rw [hplan] at hno
        cases hno
      · exact fun p' hp' hquiesces hdry => absurd ⟨hquiesces, hdry⟩ (hsame p' hp')
      · exact fun p' hp' hquiesces hdry => absurd ⟨hquiesces, hdry⟩ (hsame p' hp')
    all_goals
      try
        rw [not_or, Bool.not_eq_false, Bool.not_eq_true] at hsettled
        obtain ⟨hquiesces, hdry⟩ := hsettled
    · refine opened_spec hnone (opened_armed hplan hquiesces hdry ?_ fun _ => rfl) rfl rfl
      rintro _ ⟨⟩
      exact ⟨rfl, fun h => nomatch hrolling.symm.trans h⟩
    · exact ⟨.same, hs⟩
    · refine opened_spec hnone (opened_armed hplan hquiesces hdry ?_ fun _ => rfl) rfl rfl
      rintro _ ⟨⟩
      exact ⟨rfl, fun h => nomatch hcut.2.symm.trans h⟩
    · exact ⟨.same, hs⟩
    · exact opened_spec hnone
        (opened_armed hplan hquiesces hdry (fun _ h => nomatch h) fun h => absurd h hrolling)
        rfl rfl

end

section

variable {s : Sys} {h : Handle} {e : Event} {h' : Handle}

theorem quiet_spec (hh : s.handle = some h) (hkeeps : h.Keeps h')
    (hok : HandleOk field converter s.history h') :
    Effect field spec converter s e (s.setHandle h') ∧
      WellStaged field converter (s.setHandle h') :=
  ⟨.quiet hh (follows_of_keeps h' hkeeps), wellStaged_setHandle hok⟩

theorem HandleOk.of_eq {hist : History} (hok : HandleOk field converter hist h)
    (htype : h'.type = h.type) (hhook : h'.hook = h.hook) (hpass : h'.pass = h.pass)
    (hwaiting : h'.waiting = h.waiting) (hspawning : h'.spawning = h.spawning)
    (hresumes : h'.resumes = h.resumes) (hwriters : ∀ w ∈ h'.writers, w ∈ h.writers)
    (hdriver : ∀ d, h'.driver = some d → ∃ d', h.driver = some d' ∧ d'.phase = d.phase) :
    HandleOk field converter hist h' := by
  have hempty : h.writers = [] → h'.writers = [] := by
    intro hnil
    rw [eq_nil_iff_forall_not_mem]
    intro w hw
    have hmem := hwriters w hw
    rw [hnil] at hmem
    cases hmem
  constructor
  · intro hplan
    obtain ⟨hhook', hdriver', hresumes', hpass', hspawning', hwaiting'⟩ := hok.unplanned hplan
    refine ⟨hhook.trans hhook', ?_, hresumes.trans hresumes', hpass.trans hpass',
      hspawning.trans hspawning', hwaiting.trans hwaiting'⟩
    rw [eq_none_iff_forall_ne_some]
    intro d hd
    obtain ⟨d', hd', -⟩ := hdriver d hd
    rw [hdriver'] at hd'
    cases hd'
  · intro w hw
    have hstaged := hok.writers w (hwriters w hw)
    unfold WriterOk at hstaged ⊢
    rw [htype, hhook]
    exact hstaged
  · rw [hpass]
    exact fun hlocked => hempty (hok.locked hlocked)
  · rw [hpass]
    exact hok.pass
  · intro p hp d hd
    obtain ⟨d', hd', hphase⟩ := hdriver d hd
    rw [← hphase]
    exact hok.driver p hp d' hd'
  · rw [hresumes]
    exact hok.resumes

theorem beginWrite_spec {op : Write} (hs : WellStaged field converter s) (hh : s.handle = some h) :
    Effect field spec converter s e (beginWrite field s h op) ∧
      WellStaged field converter (beginWrite field s h op) := by
  have hok := hs h hh
  unfold beginWrite
  split_ifs with hlocked
  · exact ⟨.same, hs⟩
  -- the handle after the id is drawn
  set h' : Handle := h.drawFor op with hh'
  have hsame : h'.type = h.type ∧ h'.hook = h.hook ∧ h'.pass = h.pass ∧ h'.waiting = h.waiting ∧
      h'.spawning = h.spawning ∧ h'.resumes = h.resumes ∧ h'.writers = h.writers ∧
      h'.driver = h.driver := by
    cases op <;> exact ⟨rfl, rfl, rfl, rfl, rfl, rfl, rfl, rfl⟩
  obtain ⟨htype, hhook, hpass, hwaiting, hspawning, hresumes, hwriters, hdriver⟩ := hsame
  have hok' : HandleOk field converter s.history h' := by
    refine hok.of_eq htype hhook hpass hwaiting hspawning hresumes ?_ ?_
    · rw [hwriters]
      exact fun _ hw => hw
    · rw [hdriver]
      exact fun d hd => ⟨d, hd, rfl⟩
  dsimp only
  split
  · exact quiet_spec hh (keeps_of_eq htype hhook hpass hwaiting hdriver) hok'
  next staged hstaged =>
    refine quiet_spec hh (keeps_of_eq htype hhook hpass hwaiting hdriver) ?_
    refine ⟨hok'.unplanned, ?_, ?_, hok'.pass, hok'.driver, hok'.resumes⟩
    · intro w hw
      rcases mem_cons.mp hw with rfl | hw
      · refine ⟨Nat.le_refl _, ?_⟩
        rw [stateAt_version]
        exact hstaged
      · exact hok'.writers w hw
    · intro hsome
      rw [hpass] at hsome
      exact absurd hsome hlocked

theorem commitWrite_spec {i : Nat} (hs : WellStaged field converter s) (hh : s.handle = some h) :
    Effect field spec converter s (.commitWrite i) (commitWrite s h i) ∧
      WellStaged field converter (commitWrite s h i) := by
  have hok := hs h hh
  unfold commitWrite
  split
  · exact ⟨.same, hs⟩
  next w hw =>
    have hmem : w ∈ h.writers := mem_of_getElem? hw
    have hnone : h.pass = none := by
      rw [← not_isSome_iff_eq_none]
      intro hsome
      rw [hok.locked hsome] at hmem
      cases hmem
    have hok' : HandleOk field converter s.history { h with writers := h.writers.eraseIdx i } :=
      hok.of_eq rfl rfl rfl rfl rfl rfl (fun _ hw => mem_of_mem_eraseIdx hw)
        fun d hd => ⟨d, hd, rfl⟩
    split_ifs with hrefused
    · exact quiet_spec hh (keeps_of_eq rfl rfl rfl rfl rfl) hok'
    · refine ⟨.wrote hh hw (hok.writers w hmem) hnone hrefused, ?_⟩
      rintro _ ⟨⟩
      refine hok'.commit (fun _ h => nomatch h) fun hsome => ?_
      rw [hnone] at hsome
      cases hsome

theorem createFieldTypeMigration_spec (hs : WellStaged field converter s) (hh : s.handle = some h) :
    Effect field spec converter s .createMigration
        (createFieldTypeMigration field spec converter s h) ∧
      WellStaged field converter (createFieldTypeMigration field spec converter s h) := by
  have hok := hs h hh
  unfold createFieldTypeMigration
  dsimp only
  generalize hnew : (if (planOf spec s.data.kind h.nextObjectId).dryRun = true then h.hook
    else some (hookOf converter (planOf spec s.data.kind h.nextObjectId).toPinnedPlan true)) = hook
  split_ifs with hrefused
  · exact ⟨.same, hs⟩
  simp only [Bool.or_eq_true, not_or, Bool.not_eq_true, Bool.not_eq_false', decide_eq_false_iff_not,
    isSome_eq_false_iff, isNone_iff_eq_none] at hrefused
  obtain ⟨⟨⟨⟨hlock, hregistered⟩, hnone⟩, hdirectives⟩, hkind⟩ := hrefused
  obtain ⟨hhook, hdriver, hresumes, hpass, hspawning, hwaiting⟩ := hok.unplanned hnone
  have hwriters : h.writers = [] := by
    unfold Handle.lockFree at hlock
    rw [Bool.and_eq_true] at hlock
    exact List.isEmpty_iff.mp hlock.1
  constructor
  · refine .created hh hnone hpass hwriters hkind hnew.symm hpass ?_ ?_
    · rintro (hdue | ⟨d, hd, -⟩)
      · exact hdue hwaiting
      · exact nomatch hdriver.symm.trans hd
    · rintro _ _ ⟨d, _, hd, -⟩
      exact nomatch hdriver.symm.trans hd
  · rintro _ ⟨⟩
    refine ⟨?_, ?_, fun _ => hwriters, ?_, ?_, ?_⟩
    · intro hplan
      rw [Sys.commit, latest_commit] at hplan
      cases hplan
    · rw [hwriters]
      exact fun _ hw => nomatch hw
    · rw [hpass]
      exact fun _ _ _ h => nomatch h
    · rw [hdriver]
      exact fun _ _ _ h => nomatch h
    · rw [hresumes]
      exact fun _ _ _ h => nomatch h

theorem spawnMigrationDriver_spec (hs : WellStaged field converter s) (hh : s.handle = some h) :
    Effect field spec converter s e (spawnMigrationDriver s h) ∧
      WellStaged field converter (spawnMigrationDriver s h) := by
  have hok := hs h hh
  unfold spawnMigrationDriver
  split_ifs with hrefused
  · exact ⟨.same, hs⟩
  rw [Bool.or_eq_true, not_or, Bool.not_eq_true, Bool.not_eq_false'] at hrefused
  refine quiet_spec hh ⟨rfl, rfl, rfl, ?_, ?_⟩ ⟨?_, hok.writers, hok.locked, hok.pass, ?_, hok.resumes⟩
  · rintro (hwaiting | ⟨d, hd, hphase⟩)
    · exact .inl hwaiting
    · cases hd
      rcases hphase with hphase | ⟨_, hphase, -⟩
      · cases hphase
      · cases hphase
  · rintro _ _ ⟨d, _, hd, hphase, -⟩
    cases hd
    cases hphase
  · intro hplan
    have hspawning := (hok.unplanned hplan).2.2.2.2.1
    exact nomatch hspawning.symm.trans hrefused.1
  · rintro p hp d ⟨⟩
    trivial

variable {d : Driver}

theorem Handle.lockFree_iff : h.lockFree = true ↔ h.writers = [] ∧ h.pass = none := by
  unfold Handle.lockFree
  rw [Bool.and_eq_true, List.isEmpty_iff, isNone_iff_eq_none]

theorem joinWorkers_allDone {data : Data} {b : Backfill} {parked : Bool}
    (hjoin : joinWorkers data b = some (.allDone, parked)) :
    parked = false ∧ (sumPartitionCounts data b.plan.toPinnedPlan).2 = true := by
  unfold joinWorkers at hjoin
  dsimp only at hjoin
  split_ifs at hjoin with hlength hfailed hpaused hdone
  · cases hjoin
  · cases hjoin
  · cases hjoin
    exact ⟨rfl, hdone⟩
  · cases hjoin

theorem driverStep_spec (hs : WellStaged field converter s) (hh : s.handle = some h)
    (hd : h.driver = some d) :
    Effect field spec converter s .driver (driverStep s h d) ∧
      WellStaged field converter (driverStep s h d) := by
  have hok := hs h hh
  unfold driverStep
  split
  · exact ⟨.same, hs⟩
  next p hp =>
    have hdriver := hok.driver p hp d hd
    split
    next hphase =>
      split_ifs with hconverting
      · refine ⟨.drives hh hp rfl rfl ?_ ?_ (.inl hconverting), wellStaged_setHandle ?_⟩
        · intro hdue
          rcases Handle.due_setDriver hdue with hwaiting | hterminal | ⟨_, hdone, -⟩
          · exact .inl hwaiting
          · cases hterminal
          · cases hdone
        · intro idx w hrun
          obtain ⟨b, hb, rfl⟩ := Handle.runs_setDriver hrun
          cases hb
          rfl
        · refine hok.setDriver _ hp ⟨rfl, ?_⟩
          exact fun _ _ _ _ _ _ _ h => nomatch h
      · refine ⟨.due hh hp hconverting rfl rfl ?_, wellStaged_setHandle (hok.setDriver _ hp rfl)⟩
        intro idx w hrun
        obtain ⟨b, hb, -⟩ := Handle.runs_setDriver hrun
        cases hb
    next b hphase =>
      rw [hphase] at hdriver
      split
      · exact ⟨.same, hs⟩
      next result parked hjoin =>
        have hruns : ∃ idx w, h.Runs idx w := ⟨0, _, d, b, hd, hphase, rfl⟩
        have hidle : ∀ idx w, (h.setDriver (.backfilled b.plan result)).Runs idx w →
            h.Runs idx w := by
          intro idx w hrun
          obtain ⟨_, hb, -⟩ := Handle.runs_setDriver hrun
          cases hb
        have hfailed : ∀ {x : MigrationPlan}, result ≠ .allDone →
            (h.setDriver (.backfilled x result)).Due → h.Due := by
          intro x hresult hdue
          rcases Handle.due_setDriver hdue with hwaiting | hterminal | ⟨_, hdone, -⟩
          · exact .inl hwaiting
          · cases hterminal
          · cases hdone
            exact absurd rfl hresult
        cases parked with
        | true =>
          have hresult : result ≠ .allDone := by
            rintro rfl
            cases (joinWorkers_allDone hjoin).1
          refine ⟨.parked hh hp ⟨rfl, rfl, rfl, hfailed hresult, hidle⟩ hruns,
            wellStaged_setHandle ?_⟩
          have hplan : (s.commit (parkMigrationFailedKeepCursors s.data)).data.plan =
              some { p with status := .failed } := by
            rw [Sys.data_commit]
            exact Data.apply_plan (planRecord_plan hp)
          refine HandleOk.setDriver (hok.commit ?_ fun _ _ _ => .refl _) _ hplan hdriver.1
          intro p' hp'
          cases (planRecord_plan hp).symm.trans hp'
          exact ⟨p, hp, rfl, fun _ => ⟨rfl, rfl⟩⟩
        | false =>
          refine ⟨?_, wellStaged_setHandle (hok.setDriver _ hp hdriver.1)⟩
          by_cases hresult : result = .allDone
          · subst hresult
            have hdone := (joinWorkers_allDone hjoin).2
            rw [hdriver.1] at hdone
            refine .joined hh hp hdone rfl rfl ?_ hidle
            intro hdry hdue
            rcases Handle.due_setDriver hdue with hwaiting | hterminal | ⟨_, hplan, hnot⟩
            · exact .inl hwaiting
            · cases hterminal
            · cases hplan
              have hdry' := congrArg PinnedPlan.dryRun hdriver.1
              rw [hnot, hdry] at hdry'
              cases hdry'
          · exact .quiet hh (follows_of_keeps _ ⟨rfl, rfl, rfl, hfailed hresult, hidle⟩)
    next plan result hphase =>
      rw [hphase] at hdriver
      have hidle : ∀ {phase : DriverPhase}, (∀ b, phase ≠ .backfill b) → ∀ idx w,
          (h.setDriver phase).Runs idx w → h.Runs idx w := by
        intro phase hno idx w hrun
        obtain ⟨b, hb, -⟩ := Handle.runs_setDriver hrun
        exact absurd hb (hno b)
      by_cases hrolling : p.phase = .rollingBack
      · rw [if_pos hrolling]
        exact ⟨.due hh hp (fun h => nomatch hrolling.symm.trans h) rfl rfl
          (hidle fun _ h => nomatch h), wellStaged_setHandle (hok.setDriver _ hp trivial)⟩
      · rw [if_neg hrolling]
        split
        · exact quiet_spec hh keeps_finishDriver (hok.finishDriver hp)
        · exact quiet_spec hh keeps_finishDriver (hok.finishDriver hp)
        · split_ifs with hdry
          · refine quiet_spec hh ⟨rfl, rfl, rfl, ?_, hidle fun _ h => nomatch h⟩ (hok.setDriver _ hp ?_)
            · intro hdue
              rcases Handle.due_setDriver hdue with hwaiting | hterminal | ⟨_, hdone, -⟩
              · exact .inl hwaiting
              · cases hterminal
              · cases hdone
            · have hsame := congrArg PinnedPlan.dryRun hdriver
              exact hsame.symm.trans hdry
          · refine quiet_spec hh ⟨rfl, rfl, rfl, ?_, hidle fun _ h => nomatch h⟩
              (hok.setDriver _ hp trivial)
            rw [Bool.not_eq_true] at hdry
            exact fun _ => .inr ⟨d, hd, .inr ⟨plan, hphase, hdry⟩⟩
    next hphase =>
      rw [hphase] at hdriver
      refine ⟨.dryRunFinalized hh hp hdriver keeps_finishDriver, wellStaged_setHandle ?_⟩
      have hplan : (s.commit (finalizeDryRun s.data)).data.plan =
          some { p with status := .dryRunCompleted } := by
        rw [Sys.data_commit]
        exact Data.apply_plan (planRecord_plan hp)
      refine HandleOk.finishDriver (hok.commit ?_ fun _ _ _ => .refl _) hplan
      intro p' hp'
      cases (planRecord_plan hp).symm.trans hp'
      exact ⟨p, hp, rfl, fun _ => ⟨rfl, rfl⟩⟩
    next hphase =>
      split_ifs with hlock
      · obtain ⟨hwriters, hpass⟩ := Handle.lockFree_iff.mp hlock
        have hdue : h.Due := .inr ⟨d, hd, .inl hphase⟩
        have hruns : ∀ idx w, ¬ h.Runs idx w := by
          rintro idx w ⟨d', b, hd', hb, -⟩
          cases hd.symm.trans hd'
          exact nomatch hphase.symm.trans hb
        refine ⟨.taken hh hp hpass hwriters (.driver hdue hruns) rfl rfl (fun _ => hdue) ?_,
          wellStaged_setHandle ?_⟩
        · rintro idx w ⟨d', b, hd', hb, -⟩
          obtain ⟨_, -, rfl⟩ := map_eq_some_iff.mp hd'
          cases hb
        · exact (hok.setDriver .inPass hp trivial).setPass hp hwriters
            passOk_terminalPass
      · exact ⟨.same, hs⟩
    · exact ⟨.same, hs⟩
    · exact ⟨.same, hs⟩

end

variable {s : Sys} {h : Handle} {e : Event} {d : Driver} {b : Backfill} {idx : Nat}
  {p : MigrationPlan} {pc : PartitionCursor} {hist : History} {w : WorkerPhase} {b' : Backfill}

theorem Handle.backfill?_eq_some (hd : h.driver = some d) :
    h.backfill? = some b ↔ d.phase = .backfill b := by
  unfold Handle.backfill?
  rw [hd, bind_some]
  constructor
  · intro hb
    split at hb
    next b' hphase =>
      cases hb
      exact hphase
    · cases hb
  · intro hphase
    rw [hphase]

theorem Handle.runs_setWorker (hworkers : b'.workers = b.workers)
    {w' : WorkerPhase} {i : Nat} (hrun : (h.setWorker b' idx w).Runs i w') :
    i = idx ∧ w' = w ∨ w' = b.workers i := by
  obtain ⟨b'', hb, rfl⟩ := Handle.runs_setDriver hrun
  cases hb
  dsimp only
  by_cases hi : i = idx
  · subst hi
    exact .inl ⟨rfl, update_self ..⟩
  · right
    rw [update_of_ne hi, hworkers]

theorem follows_setWorker (hd : h.driver = some d) (hphase : d.phase = .backfill b)
    (hworkers : b'.workers = b.workers)
    (hcursor : ∀ pc, w.cursor? = some pc → (b.workers idx).cursor? = some pc ∨
      pc = (s.data.cursors.lookup idx).getD .new)
    (hstaged : ∀ pc attempts snapshot commit after errors,
      w = .staged pc attempts snapshot commit after errors → snapshot = s.history.version) :
    Follows s h (h.setWorker b' idx w) := by
  have hruns : ∀ i, h.Runs i (b.workers i) := fun i => ⟨d, b, hd, hphase, rfl⟩
  refine ⟨rfl, rfl, rfl, ?_, fun i _ _ => ⟨_, hruns i⟩, ?_, ?_⟩
  · intro hdue
    rcases Handle.due_setDriver hdue with hwaiting | hterminal | ⟨_, hdone, -⟩
    · exact .inl hwaiting
    · cases hterminal
    · cases hdone
  · intro i w' pc hrun hpc
    rcases Handle.runs_setWorker hworkers hrun with ⟨rfl, rfl⟩ | rfl
    · exact (hcursor pc hpc).imp_left fun hpc => ⟨_, hruns i, hpc⟩
    · exact .inl ⟨_, hruns i, hpc⟩
  · intro i pc attempts snapshot commit after errors hrun
    rcases Handle.runs_setWorker hworkers hrun with ⟨rfl, hw⟩ | hw
    · exact .inr (hstaged pc attempts snapshot commit after errors hw.symm)
    · rw [hw]
      exact .inl (hruns i)

theorem HandleOk.setWorker (hok : HandleOk field converter hist h)
    (hp : (hist.latest Data.apply).plan = some p)
    (hdriver : DriverOk field converter hist p (.backfill b))
    (hplan : b'.plan = b.plan) (hworkers : b'.workers = b.workers)
    (hstaged : ∀ pc attempts snapshot commit after errors,
      w = .staged pc attempts snapshot commit after errors →
        StagedBackfill field converter hist p.toPinnedPlan idx pc snapshot commit after errors) :
    HandleOk field converter hist (h.setWorker b' idx w) := by
  refine hok.setDriver _ hp ⟨?_, ?_⟩
  · rw [← hdriver.1]
    exact congrArg MigrationPlan.toPinnedPlan hplan
  · intro i pc attempts snapshot commit after errors hw
    dsimp only at hw
    by_cases hi : i = idx
    · subst hi
      rw [update_self] at hw
      exact hstaged pc attempts snapshot commit after errors hw
    · rw [update_of_ne hi, hworkers] at hw
      exact hdriver.2 i pc attempts snapshot commit after errors hw

theorem StagedBackfill.touched {q : PinnedPlan} {after : PartitionCursor}
    {snapshot errors : Nat} {commit : Commit}
    (hstaged : StagedBackfill field converter hist q idx pc snapshot commit after errors)
    (hno : ¬ hist.Conflicts Commit.keys snapshot commit.keys) :
    Touched field q (hist.latest Data.apply).rows
      ((hist.latest Data.apply).apply commit).rows := by
  intro id
  rcases hstaged.fate hno id with hsame | ⟨old, new, hold, hconvert, hnew⟩
  · exact .inl hsame
  · obtain ⟨hconvertible, _, w, -, -, -, -, rfl⟩ := convertRowForBackfill_eq_some hconvert
    exact .inr ⟨old, w, hold, hconvertible, hnew⟩

theorem markDone_spec (hs : WellStaged field converter s) (hh : s.handle = some h)
    (hp : s.data.plan = some p) (hd : h.driver = some d) (hphase : d.phase = .backfill b)
    (hpc : (b.workers idx).cursor? = some pc)
    (hbehind : ∀ id row, s.data.rows.lookup id = some row →
      (partitionRange b.plan.parallelDegree b.plan.idUpperBound idx).1 ≤ id.toNat →
      id.toNat < (partitionRange b.plan.parallelDegree b.plan.idUpperBound idx).2 →
        id ≤ pc.cursor) :
    Effect field spec converter s e
        ((s.commit (markDone idx pc)).setHandle (h.setWorker b idx (.finished .done))) ∧
      WellStaged field converter
        ((s.commit (markDone idx pc)).setHandle (h.setWorker b idx (.finished .done))) := by
  have hok := hs h hh
  have hdriver := hok.driver p hp d hd
  rw [hphase] at hdriver
  have hplan : (s.commit (markDone idx pc)).data.plan = some p := by
    rw [Sys.data_commit, Data.apply_plan_none rfl]
    exact hp
  constructor
  · refine .markedDone hh hp ⟨d, b, hd, hphase, rfl⟩ hpc ?_
      (follows_setWorker hd hphase rfl (fun _ h => nomatch h) fun _ _ _ _ _ _ h => nomatch h)
    rw [← hdriver.1]
    exact hbehind
  · refine wellStaged_setHandle (HandleOk.setWorker ?_ hplan (hdriver.commit rfl) rfl rfl
      fun _ _ _ _ _ _ h => nomatch h)
    exact hok.commit (fun _ h => nomatch h) fun _ _ _ => .refl _

theorem workerStep_spec {layers : Layers} {control : Control}
    (hs : WellStaged field converter s) (hh : s.handle = some h) (hd : h.driver = some d)
    (hphase : d.phase = .backfill b) :
    Effect field spec converter s e
        (workerStep field converter s h control b idx layers) ∧
      WellStaged field converter (workerStep field converter s h control b idx layers) := by
  have hok := hs h hh
  have hplanned : ∃ p, s.data.plan = some p := by
    cases hplan : s.data.plan with
    | none =>
      have hidle := (hok.unplanned hplan).2.1
      exact nomatch hidle.symm.trans hd
    | some p => exact ⟨p, rfl⟩
  obtain ⟨p, hp⟩ := hplanned
  have hdriver := hok.driver p hp d hd
  rw [hphase] at hdriver
  -- a worker that stages nothing and reads its cursor from where it was, or from what is stored
  have hmove : ∀ w, (∀ pc, w.cursor? = some pc → (b.workers idx).cursor? = some pc ∨
        pc = (s.data.cursors.lookup idx).getD .new) →
      (∀ pc attempts snapshot commit after errors,
        w ≠ .staged pc attempts snapshot commit after errors) →
      Effect field spec converter s e (s.setHandle (h.setWorker b idx w)) ∧
        WellStaged field converter (s.setHandle (h.setWorker b idx w)) := by
    intro w hcursor hstaged
    constructor
    · exact .quiet hh (follows_setWorker hd hphase rfl hcursor fun pc attempts snapshot commit
        after errors hw => absurd hw (hstaged pc attempts snapshot commit after errors))
    · exact wellStaged_setHandle (hok.setWorker hp hdriver rfl rfl fun pc attempts snapshot commit
        after errors hw => absurd hw (hstaged pc attempts snapshot commit after errors))
  unfold workerStep
  dsimp only
  split
  next hstarting =>
    split_ifs with hdone
    · exact hmove _ (fun _ h => nomatch h) fun _ _ _ _ _ _ h => nomatch h
    · refine hmove _ (fun pc hpc => ?_) fun _ _ _ _ _ _ h => nomatch h
      cases hpc
      exact .inr rfl
  next pc hpolling =>
    split
    · exact hmove _ (fun _ h => nomatch h) fun _ _ _ _ _ _ h => nomatch h
    · exact hmove _ (fun _ h => nomatch h) fun _ _ _ _ _ _ h => nomatch h
    · split_ifs with hnothing
      · refine markDone_spec hs hh hp hd hphase (by rw [hpolling]; rfl) ?_
        intro id _ _ hlo hhi
        rw [UInt64.le_iff_toNat_le]
        omega
      · refine hmove _ (fun pc' hpc' => ?_) fun _ _ _ _ _ _ h => nomatch h
        rw [hpolling]
        exact .inl hpc'
  next pc attempts hscanning =>
    split
    next hnone =>
      refine markDone_spec hs hh hp hd hphase (by rw [hscanning]; rfl) ?_
      intro id row hrow hlo _
      exact le_cursor_of_lt_workerStart hlo
        (scanChunkRaw_none _ PinnedPlan.one_le_chunk hrow hnone)
    next high hhigh =>
      split
      · exact hmove _ (fun _ h => nomatch h) fun _ _ _ _ _ _ h => nomatch h
      next commit after errors hstage =>
        have hstaged : StagedBackfill field converter s.history p.toPinnedPlan idx pc
            s.history.version commit after errors := by
          rw [← hdriver.1]
          refine ⟨Nat.le_refl _, layers, high, ?_, ?_⟩
          · rw [stateAt_version]
            exact hhigh
          · rw [stateAt_version]
            exact hstage
        constructor
        · refine .quiet hh (follows_setWorker hd hphase rfl ?_ ?_)
          · rw [hscanning]
            exact fun _ hpc => .inl hpc
          · intro _ _ _ _ _ _ hw
            cases hw
            rfl
        · refine wellStaged_setHandle (hok.setWorker hp hdriver rfl rfl ?_)
          intro _ _ _ _ _ _ hw
          cases hw
          exact hstaged
  next pc attempts snapshot commit after errors hworker =>
    have hstaged := hdriver.2 idx pc attempts snapshot commit after errors hworker
    have hcommit : ∀ b' w, b'.plan = b.plan → b'.workers = b.workers →
        (∀ pc', w.cursor? = some pc' → pc' = after) →
        (∀ pc attempts snapshot commit after errors,
          w ≠ .staged pc attempts snapshot commit after errors) → ¬ s.Refused snapshot commit →
        Effect field spec converter s e ((s.commit commit).setHandle (h.setWorker b' idx w)) ∧
          WellStaged field converter ((s.commit commit).setHandle (h.setWorker b' idx w)) := by
      intro b' w hplan hworkers hcursor hno hrefused
      obtain ⟨_, _, high, -, hstage⟩ := id hstaged
      have hspec := stageBackfill_spec hstage
      have hplan' : (s.commit commit).data.plan = some p := by
        rw [Sys.data_commit, Data.apply_plan_none hspec.plan]
        exact hp
      have hstored : ((s.commit commit).data.cursors.lookup idx).getD .new = after := by
        rw [Sys.data_commit]
        unfold Data.apply
        rw [hspec.cursors]
        have hlookup : (applyWrites s.data.cursors [(idx, some after)]).lookup idx = some after :=
          AList.lookup_insert _
        rw [hlookup]
        rfl
      constructor
      · refine .backfilled hh hp ⟨d, b, hd, hphase, hworker⟩ hstaged hrefused
          (follows_setWorker hd hphase hworkers ?_ fun pc attempts snapshot commit after errors hw =>
            absurd hw (hno pc attempts snapshot commit after errors))
        exact fun pc' hpc' => .inr ((hcursor pc' hpc').trans hstored.symm)
      · refine wellStaged_setHandle (HandleOk.setWorker ?_ hplan' (hdriver.commit rfl) hplan hworkers
          fun pc attempts snapshot commit after errors hw =>
            absurd hw (hno pc attempts snapshot commit after errors))
        refine hok.commit (fun p' hp' => ?_) fun _ p' hp' => ?_
        · rw [hspec.plan] at hp'
          cases hp'
        · cases hp.symm.trans hp'
          exact hstaged.touched hrefused
    split_ifs with hrefused hretry hcap hdone
    · refine hmove _ (fun pc' hpc' => ?_) fun _ _ _ _ _ _ h => nomatch h
      rw [hworker]
      exact .inl hpc'
    · exact hmove _ (fun _ h => nomatch h) fun _ _ _ _ _ _ h => nomatch h
    · exact hcommit _ _ rfl rfl (fun _ h => nomatch h) (fun _ _ _ _ _ _ h => nomatch h) hrefused
    · exact hcommit _ _ rfl rfl (fun _ h => nomatch h) (fun _ _ _ _ _ _ h => nomatch h) hrefused
    · exact hcommit _ _ rfl rfl (fun _ h => (Option.some.inj h).symm)
        (fun _ _ _ _ _ _ h => nomatch h) hrefused
  · exact ⟨.same, hs⟩

end RhypeDb.Migration
