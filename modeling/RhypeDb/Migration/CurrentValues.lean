import RhypeDb.Migration.BeforePlan

/-! A completed migration has converted the current values. Until a row is promoted its source is what
its users last wrote and its shadow, if there is one, is converted from it; the passes, the writes and
the backfill keep that, but for the writes and rewinds that the condition of the run excludes. -/

namespace RhypeDb.Migration

open Engine Storage Fallible

variable (field : String) (spec : MigrationPlanSpec) (converter : Converter)

section

variable (p : PinnedPlan)

/-- The source is what was last written, and a shadow is converted from it. -/
def Unpromoted (id : Id) (last : Option Value) (row : FieldMap) : Prop :=
  row.lookup field = last ∧
    (Unset last ∧ Unshadowed field row ∨
      (∃ v, last = some v ∧ valueToKind v = some p.srcKind ∧ Unshadowed field row) ∨
      Shadows field p converter id row)

def Promoted (id : Id) (last : Option Value) (row : FieldMap) : Prop :=
  Unshadowed field row ∧
    (Unset last ∧ row.lookup field = last ∨
      ∃ v w, last = some v ∧ v ≠ .null ∧ converter id v = .ok w ∧
        valueToKind w = some p.targetKind ∧ row.lookup field = some w)

def RowCurrent (phase : MigrationPhase) (cursor : Id) (id : Id) (last : Option Value)
    (row : FieldMap) : Prop :=
  (phase = .converting ∨ ¬ id ≤ cursor → Unpromoted field converter p id last row) ∧
    (Unpromoted field converter p id last row ∨ Promoted field converter p id last row) ∧
    (Behind cursor id → Promoted field converter p id last row)

def AllPromoted (rows : Rows) (written : Id → Option Value) : Prop :=
  ∀ id row, rows.lookup id = some row → Promoted field converter p id (written id) row

variable {field converter p} {id : Id} {last : Option Value} {row new : FieldMap}

theorem Unpromoted.backfill (h : Unpromoted field converter p id last row)
    (hconvert : convertRowForBackfill field p converter id row = .ok (some new)) :
    Unpromoted field converter p id last new := by
  obtain ⟨-, v, w, hv, hkind, hw, htarget, rfl⟩ := convertRowForBackfill_eq_some hconvert
  have hset : v ≠ .null := fun hnull => not_unset_of_kind hkind (unset_some.mpr hnull)
  refine ⟨lookup_withShadow_field.trans h.1, .inr (.inr ⟨v, w, ?_, hset, hw, htarget, ?_, ?_⟩)⟩
  · rw [lookup_withShadow_field]
    exact hv
  · exact lookup_withShadow_shadow
  · exact lookup_withShadow_cv

theorem Promoted.not_convertible (h : Promoted field converter p id last row) :
    ¬ Convertible field p row := by
  rintro ⟨v, hv, hkind, hne, -⟩
  rcases h.2 with ⟨hunset, hlast⟩ | ⟨_, w, -, -, -, htarget, hw⟩
  · rw [← hlast, hv] at hunset
    exact not_unset_of_kind hkind hunset
  · cases hv.symm.trans hw
    rw [hkind] at htarget
    exact hne (Option.some.inj htarget)

theorem Unpromoted.cutover (h : Unpromoted field converter p id last row)
    (hcut : cutoverRow field p id row = .ok (some new)) :
    Promoted field converter p id last new := by
  obtain ⟨w, hw, rfl⟩ := cutoverRow_eq_some hcut
  refine ⟨unshadowed_stripShadow, .inr ?_⟩
  rcases h.2 with ⟨-, hunshadowed⟩ | ⟨v, -, -, hunshadowed⟩ | ⟨v, w', hv, hset, hconvert, hkind, hw', -⟩
  · exact nomatch hw.symm.trans hunshadowed.1
  · exact nomatch hw.symm.trans hunshadowed.1
  · cases hw.symm.trans hw'
    refine ⟨v, w, h.1.symm.trans hv, hset, hconvert, hkind, ?_⟩
    rw [lookup_stripShadow_field, AList.lookup_insert]

theorem Unpromoted.passed (h : Unpromoted field converter p id last row)
    (hpolicy : p.errorPolicy = .stop) (hkinds : p.srcKind ≠ p.targetKind)
    (hcut : cutoverRow field p id row = .ok none) : Promoted field converter p id last row := by
  obtain ⟨hshadow, hpassed⟩ := cutoverRow_eq_none hcut
  rcases h.2 with ⟨hunset, hunshadowed⟩ | ⟨v, hv, hkind, hunshadowed⟩ | ⟨_, w, -, -, -, -, hw, -⟩
  · exact ⟨hunshadowed, .inl ⟨hunset, h.1⟩⟩
  · have hlookup := h.1.trans hv
    rcases hpassed with hunset | ⟨_, hv', htarget⟩ | hother
    · rw [hlookup] at hunset
      exact absurd hunset (not_unset_of_kind hkind)
    · cases hlookup.symm.trans hv'
      rw [hkind] at htarget
      exact absurd (Option.some.inj htarget) hkinds
    · exact absurd hpolicy hother
  · exact nomatch hw.symm.trans hshadow

theorem Promoted.not_cutover (h : Promoted field converter p id last row) :
    cutoverRow field p id row ≠ .ok (some new) := by
  intro hcut
  obtain ⟨w, hw, -⟩ := cutoverRow_eq_some hcut
  exact nomatch hw.symm.trans h.1.1

theorem unpromoted_of_hook {resolved : Bool} {fields : FieldMap}
    (hblob : applyMigratingFieldHook field (some (hookOf converter p resolved)) id fields = .ok new)
    (hunset : Unset (fields.lookup field) → Unshadowed field fields) :
    Unpromoted field converter p id (fields.lookup field) new := by
  rcases armed_hook_eq_ok hblob with ⟨hnull, rfl⟩ | ⟨v, w, hv, hset, hw, hkind, rfl⟩
  · exact ⟨rfl, .inl ⟨hnull, hunset hnull⟩⟩
  · refine ⟨lookup_withShadow_field, .inr (.inr ⟨v, w, ?_, hset, hw, hkind, ?_, ?_⟩)⟩
    · rw [lookup_withShadow_field]
      exact hv
    · exact lookup_withShadow_shadow
    · exact lookup_withShadow_cv

theorem Unpromoted.promoted_of_unset (h : Unpromoted field converter p id last row)
    (hunset : Unset (row.lookup field)) : Promoted field converter p id last row := by
  have hlast : Unset last := by
    rw [← h.1]
    exact hunset
  rcases h.2 with ⟨-, hunshadowed⟩ | ⟨v, hv, hkind, -⟩ | ⟨v, _, hv, hset, -⟩
  · exact ⟨hunshadowed, .inl ⟨hlast, h.1⟩⟩
  · rw [hv] at hlast
    exact absurd hlast (not_unset_of_kind hkind)
  · rw [hv] at hunset
    exact absurd (unset_some.mp hunset) hset

end

structure HandleCurrent (p : PinnedPlan) (rows : Rows) (written : Id → Option Value) (h : Handle) :
    Prop where
  dry : p.dryRun = true → ¬ h.Due ∧ h.pass = none
  hook : p.dryRun = false → ∃ resolved, h.hook = some (hookOf converter p resolved)
  quiesces : ∀ pass, h.pass = some pass → pass.plan.status.quiesces = true
  finalize : ∀ pass, h.pass = some pass → pass.phase = .finalize →
    AllPromoted field converter p rows written

structure CurrentAt (p : MigrationPlan) (rows : Rows) (written : Id → Option Value)
    (handle : Option Handle) : Prop where
  policy : p.errorPolicy = .stop
  kinds : p.srcKind ≠ p.targetKind
  status : p.dryRun = false → p.status.quiesces = true
  phase : p.phase ≠ .rollingBack
  cursor : p.phase = .converting → p.cutoverCursor = 0
  dry : p.dryRun = true → p.phase = .converting
  current : p.dryRun = false → ∀ id row, rows.lookup id = some row →
    RowCurrent field converter p.toPinnedPlan p.phase p.cutoverCursor id (written id) row
  armed : ∀ h, handle = some h → HandleCurrent field converter p.toPinnedPlan rows written h

def Completed (s : Sys) : Prop := ∃ p ∈ s.data.plan, p.status = .completed

instance (s : Sys) : Decidable (Completed s) :=
  inferInstanceAs (Decidable (∃ p ∈ s.data.plan, _))

def PlannedCurrent (d : Data) (written : Id → Option Value) (handle : Option Handle) : Prop :=
  ∀ p, d.plan = some p →
    p.status = .completed ∧ AllPromoted field converter p.toPinnedPlan d.rows written ∨
      p.status ≠ .completed ∧ CurrentAt field converter p d.rows written handle

structure CurrentInv (s : Sys) : Prop where
  staged : WellStaged field converter s
  before : s.data.plan = none → BeforePlan field s.data s.written s.handle
  planned : PlannedCurrent field converter s.data s.written s.handle

/-- The steps of an online migration that is not cancelled, nor cut over ahead of its backfill. A
write that nulls the field finds no shadow, one behind a cutover that was cut off leaves the field
unset, and a refused cutover has promoted nothing. -/
def KeepsCurrent (s : Sys) : Event → Prop
  | .cancel => False
  | .cutover => False
  | .retryQuarantined _ _ => False
  | .clearQuarantine => False
  | .commitWrite i => ∀ h ∈ s.handle, ∀ w ∈ h.writers[i]?,
      (∀ e ∈ w.staged.written, e.2 = some .null → ∀ row ∈ s.data.rows.lookup e.1,
        Unshadowed field row) ∧
      ∀ p ∈ s.data.plan, p.phase = .cuttingOver → ∀ e ∈ w.staged.rows, ∀ blob ∈ e.2,
        e.1 ≤ p.cutoverCursor → Unset (blob.lookup field)
  | .pass layers => RefusedChunk field s layers → ∀ p ∈ s.data.plan, ∀ e ∈ s.data.rows.entries,
      Unshadowed field e.2 → ∀ v ∈ e.2.lookup field, valueToKind v ≠ some p.targetKind
  | _ => True

instance (s : Sys) (e : Event) : Decidable (KeepsCurrent field s e) :=
  match e with
  | .cancel | .cutover | .retryQuarantined _ _ | .clearQuarantine => .isFalse id
  | .commitWrite i => inferInstanceAs (Decidable (∀ h ∈ s.handle, ∀ w ∈ h.writers[i]?, _ ∧ _))
  | .pass layers => inferInstanceAs (Decidable (RefusedChunk field s layers → _))
  | .openDatabase _ _ | .stop | .registerConverter | .drawObjectId | .write _ | .createMigration
  | .spawnDriver | .driver | .worker _ _ | .pause | .waitForMigration | .resume | .resumeStep _
  | .terminalPass => .isTrue trivial

section

variable {field spec converter} {s s' : Sys} {e : Event} {p : MigrationPlan} {d : Data}
  {rows : Rows} {written : Id → Option Value} {handle : Option Handle} {h h' : Handle}

variable {q : PinnedPlan} {last : Option Value} {cursor : Id} {pass : Pass} {rows' : Rows}

theorem HandleCurrent.of_eq (hcur : HandleCurrent field converter q rows written h)
    (hhook : h'.hook = h.hook) (hpass : h'.pass = h.pass) (hdue : q.dryRun = true → h'.Due → h.Due) :
    HandleCurrent field converter q rows written h' := by
  refine ⟨fun hdry => ?_, ?_, ?_, ?_⟩
  · obtain ⟨hnot, hnone⟩ := hcur.dry hdry
    exact ⟨fun h => hnot (hdue hdry h), hpass.trans hnone⟩
  · rw [hhook]
    exact hcur.hook
  · rw [hpass]
    exact hcur.quiesces
  · rw [hpass]
    exact hcur.finalize

theorem HandleCurrent.unlocked (hpass : h.pass = none) (hdry : q.dryRun = true → ¬ h.Due)
    (hhook : q.dryRun = false → ∃ resolved, h.hook = some (hookOf converter q resolved)) :
    HandleCurrent field converter q rows written h := by
  refine ⟨fun h => ⟨hdry h, hpass⟩, hhook, ?_, ?_⟩
  · rw [hpass]
    exact fun _ h => nomatch h
  · rw [hpass]
    exact fun _ h => nomatch h

theorem HandleCurrent.released {o : Option Handle}
    (hcur : HandleCurrent field converter q rows written h) (hreleased : Released h o) :
    ∀ h', o = some h' → HandleCurrent field converter q rows' written h' := by
  intro h' hh'
  obtain ⟨hhook, hpass, hdue, -⟩ := hreleased h' hh'
  refine .unlocked hpass (fun hdry h => (hcur.dry hdry).1 (hdue h)) ?_
  rw [hhook]
  exact hcur.hook

theorem HandleCurrent.setPass (hcur : HandleCurrent field converter q rows written h)
    (hdry : q.dryRun = false) (hquiesces : pass.plan.status.quiesces = true)
    (hfinal : pass.phase = .finalize → AllPromoted field converter q rows' written) :
    HandleCurrent field converter q rows' written (h.setPass pass) := by
  refine ⟨fun h => (nomatch hdry.symm.trans h), hcur.hook, ?_, ?_⟩
  · rintro _ ⟨⟩
    exact hquiesces
  · rintro _ ⟨⟩
    exact hfinal

theorem CurrentAt.rearm (hcur : CurrentAt field converter p rows written handle)
    {handle' : Option Handle} (harmed : ∀ h, handle' = some h →
      HandleCurrent field converter p.toPinnedPlan rows written h) :
    CurrentAt field converter p rows written handle' :=
  { hcur with armed := harmed }

theorem CurrentAt.restatus (hcur : CurrentAt field converter p rows written handle)
    {status : MigrationStatus} (hstatus : p.dryRun = false → status.quiesces = true) :
    CurrentAt field converter { p with status } rows written handle where
  policy := hcur.policy
  kinds := hcur.kinds
  status := hstatus
  phase := hcur.phase
  cursor := hcur.cursor
  dry := hcur.dry
  current := hcur.current
  armed := hcur.armed

theorem plannedCurrent_of (hp : d.plan = some p) (hstatus : p.status ≠ .completed)
    (hcur : CurrentAt field converter p d.rows written handle) :
    PlannedCurrent field converter d written handle := by
  intro p' hp'
  cases hp.symm.trans hp'
  exact .inr ⟨hstatus, hcur⟩

theorem CurrentAt.not_dry (hcur : CurrentAt field converter p rows written (some h))
    (hpass : h.pass = some pass) : p.dryRun = false := by
  cases hdry : p.dryRun with
  | false => rfl
  | true => exact nomatch hpass.symm.trans ((hcur.armed h rfl).dry hdry).2

theorem CurrentAt.backfilled (hcur : CurrentAt field converter p rows written (some h))
    (hfate : ∀ id, rows'.lookup id = rows.lookup id ∨ ∃ old new, rows.lookup id = some old ∧
      convertRowForBackfill field p.toPinnedPlan converter id old = .ok (some new) ∧
        rows'.lookup id = some new) : CurrentAt field converter p rows' written (some h) := by
  refine ⟨hcur.policy, hcur.kinds, hcur.status, hcur.phase, hcur.cursor, hcur.dry, ?_, ?_⟩
  · intro hdry id row hrow
    rcases hfate id with hsame | ⟨old, new, hold, hconvert, hnew⟩
    · exact hcur.current hdry id row (hsame ▸ hrow)
    · cases hnew.symm.trans hrow
      obtain ⟨hsource, heither, hbehind⟩ := hcur.current hdry id old hold
      have hconvertible := (convertRowForBackfill_eq_some hconvert).1
      have hunpromoted := (heither.resolve_right fun h =>
        h.not_convertible hconvertible).backfill hconvert
      exact ⟨fun _ => hunpromoted, .inl hunpromoted,
        fun h => absurd hconvertible (hbehind h).not_convertible⟩
  · rintro _ ⟨⟩
    have harmed := hcur.armed h rfl
    refine ⟨harmed.dry, harmed.hook, harmed.quiesces, fun pass hpass hfinal id row hrow => ?_⟩
    have hall := harmed.finalize pass hpass hfinal
    rcases hfate id with hsame | ⟨old, new, hold, hconvert, -⟩
    · exact hall id row (hsame ▸ hrow)
    · exact absurd (convertRowForBackfill_eq_some hconvert).1 (hall id old hold).not_convertible

theorem RowCurrent.wrote {phase : MigrationPhase} {id : Id} {resolved : Bool}
    {staged : StagedWrite} {old new : Option FieldMap} {last' : Option Value}
    (hfate : WriteFate field h staged id old last new last')
    (hhook : h.hook = some (hookOf converter q resolved))
    (hold : ∀ row, old = some row → RowCurrent field converter q phase cursor id last row)
    (hnull : (id, some .null) ∈ staged.written → ∀ row, old = some row → Unshadowed field row)
    (hbehind : phase = .cuttingOver → ∀ blob, (id, some blob) ∈ staged.rows → id ≤ cursor → Unset
      (blob.lookup field)) (hphase : phase ≠ .rollingBack)
    (hzero : phase = .converting → cursor = 0) {row : FieldMap} (hrow : new = some row) :
    RowCurrent field converter q phase cursor id last' row := by
  have hcutting : Behind cursor id → phase = .cuttingOver := by
    intro h
    cases hcase : phase with
    | converting => exact absurd (hzero hcase) h.1
    | cuttingOver => rfl
    | rollingBack => exact absurd hcase hphase
  -- an unpromoted row is current, unless it is set and behind the cursor
  have hsource : (id, some row) ∈ staged.rows → Unpromoted field converter q id last' row →
      RowCurrent field converter q phase cursor id last' row := by
    intro hmem hun
    exact ⟨fun _ => hun, .inl hun,
      fun h => hun.promoted_of_unset (hbehind (hcutting h) row hmem h.2)⟩
  cases hfate with
  | kept => exact hold row hrow
  | created hunshadowed _ hblob hmem _ =>
    cases hrow
    rw [hhook] at hblob
    exact hsource hmem (unpromoted_of_hook hblob fun _ => hunshadowed)
  | @updated before merged blob update hbefore hfield hshadow hcv _ hblob hmem hwritten =>
    cases hrow
    rw [hhook] at hblob
    obtain ⟨hfirst, heither, -⟩ := hold before hbefore
    by_cases hun : Unpromoted field converter q id last before
    · have hlast : merged.lookup field = update.or last := by
        rw [hfield, hun.1]
      have hunset : Unset (merged.lookup field) → Unshadowed field merged := by
        intro hunset
        have hbare : Unshadowed field before := by
          cases update with
          | none =>
            rw [hfield] at hunset
            exact (hun.promoted_of_unset hunset).1
          | some v =>
            rw [hfield] at hunset
            rw [unset_some.mp hunset] at hwritten
            exact hnull (hwritten _ rfl) before hbefore
        exact ⟨hshadow.trans hbare.1, hcv.trans hbare.2⟩
      have hnew := unpromoted_of_hook hblob hunset
      rw [hlast] at hnew
      exact hsource hmem hnew
    · have hpromoted := heither.resolve_left hun
      have hnot : ¬ (phase = .converting ∨ ¬ id ≤ cursor) := fun h => hun (hfirst h)
      rw [not_or, not_not] at hnot
      have hcut : phase = .cuttingOver := by
        cases hcase : phase with
        | converting => exact absurd hcase hnot.1
        | cuttingOver => rfl
        | rollingBack => exact absurd hcase hphase
      have hnull := hbehind hcut _ hmem hnot.2
      rcases armed_hook_eq_ok hblob with ⟨hunset, rfl⟩ | ⟨v, w, hv, hset, -, -, rfl⟩
      · have hbare := hpromoted.1
        have hnew : Promoted field converter q id (update.or last) row := by
          refine ⟨⟨hshadow.trans hbare.1, hcv.trans hbare.2⟩, .inl ?_⟩
          cases update with
          | none =>
            rw [hfield] at hunset
            rcases hpromoted.2 with ⟨hlast, hfield'⟩ | ⟨_, w, -, -, -, hkind, hw⟩
            · exact ⟨hlast, hfield.trans hfield'⟩
            · rw [hw] at hunset
              exact absurd hunset (not_unset_of_kind hkind)
          | some v =>
            rw [hfield] at hunset
            exact ⟨hunset, hfield⟩
        exact ⟨fun h => absurd h (not_or.mpr ⟨hnot.1, not_not.mpr hnot.2⟩), .inr hnew,
          fun _ => hnew⟩
      · rw [lookup_withShadow_field, hv] at hnull
        exact absurd (unset_some.mp hnull) hset
  | deleted => cases hrow

theorem RowCurrent.moved {base : Rows} {high id : Id} {more : Bool}
    {old new : FieldMap} (hpolicy : q.errorPolicy = .stop) (hkinds : q.srcKind ≠ q.targetKind)
    (hold : RowCurrent field converter q .cuttingOver cursor id last old)
    (hfate : PassFate field .cutover q base id cursor high more old new) :
    RowCurrent field converter q .cuttingOver high id last new ∧
      (more = false → Promoted field converter q id last new) := by
  have hdone : id ≤ high → Promoted field converter q id last new →
      RowCurrent field converter q .cuttingOver high id last new ∧
        (more = false → Promoted field converter q id last new) := by
    intro hle hnew
    exact ⟨⟨fun h => absurd hle (h.resolve_left fun h => nomatch h), .inr hnew, fun _ => hnew⟩,
      fun _ => hnew⟩
  obtain ⟨hsource, heither, hbehind⟩ := hold
  cases hfate with
  | behind h hle => exact hdone hle (hbehind h)
  | ahead hmore hlt hlt' =>
    have hun := hsource (.inr (UInt64.not_le.mpr hlt'))
    refine ⟨⟨fun _ => hun, .inl hun, fun h => ?_⟩, fun h => nomatch hmore.symm.trans h⟩
    exact absurd h.2 (UInt64.not_le.mpr hlt)
  | left hle hnone =>
    exact hdone hle (heither.elim (fun h => h.passed hpolicy hkinds hnone) fun h => h)
  | shadowed hle _ hconvertible hnone _ =>
    -- under Stop a convertible row is not passed over
    obtain ⟨v, hv, hkind, -, -⟩ := hconvertible
    obtain ⟨-, hpassed⟩ := cutoverRow_eq_none hnone
    rcases hpassed with hunset | ⟨_, hv', htarget⟩ | hother
    · rw [hv] at hunset
      exact absurd hunset (not_unset_of_kind hkind)
    · cases hv.symm.trans hv'
      rw [hkind] at htarget
      exact absurd (Option.some.inj htarget) hkinds
    · exact absurd hpolicy hother
  | moved hle hmoved =>
    refine hdone hle (heither.elim (fun h => h.cutover hmoved) fun h => ?_)
    exact absurd hmoved h.not_cutover

theorem CurrentAt.step (hp : s.data.plan = some p) (hstatus : p.status ≠ .completed)
    (hcur : CurrentAt field converter p s.data.rows s.written s.handle)
    (heffect : Effect field spec converter s e s') (hcond : KeepsCurrent field s e) :
    PlannedCurrent field converter s'.data s'.written s'.handle := by
  -- a plan record rewritten by a commit that writes no row
  have hrecord : ∀ {c : Commit} {p' : MigrationPlan} {handle : Option Handle}, c.plan = some p' →
      c.rows = [] → p'.status ≠ .completed →
      CurrentAt field converter p' s.data.rows s.written handle →
      PlannedCurrent field converter (s.commit c).data s.written handle := by
    intro c p' handle hc hrows hstatus' hcur'
    rw [Sys.data_commit]
    refine plannedCurrent_of (Data.apply_plan hc) hstatus' ?_
    rw [Data.apply_rows_nil hrows]
    exact hcur'
  -- a commit that leaves the plan record alone
  have hrows : ∀ {c : Commit} {handle : Option Handle}, c.plan = none →
      CurrentAt field converter p (applyWrites s.data.rows c.rows) s.written handle →
      PlannedCurrent field converter (s.commit c).data s.written handle := by
    intro c handle hc hcur'
    rw [Sys.data_commit]
    exact plannedCurrent_of ((Data.apply_plan_none hc).trans hp) hstatus hcur'
  have hsame : ∀ {p' : MigrationPlan}, s.data.plan = some p' → p' = p :=
    fun hp' => Option.some.inj (hp'.symm.trans hp)
  have hfailed : CurrentAt field converter { p with status := .failed } s.data.rows s.written
      s.handle := hcur.restatus fun _ => rfl
  cases heffect with
  | same => exact plannedCurrent_of hp hstatus hcur
  | stopped => exact plannedCurrent_of hp hstatus (hcur.rearm fun _ h => nomatch h)
  | @opened _ h hnone hopen =>
    refine plannedCurrent_of hp hstatus (hcur.rearm ?_)
    rintro _ ⟨⟩
    have hdue : ¬ h.Due := by
      rintro (hwaiting | ⟨_, hd, -⟩)
      · exact hwaiting hopen.waiting
      · exact nomatch hopen.driver.symm.trans hd
    have hpass : ∀ pass, h.pass = some pass → p.dryRun = false ∧
        pass = terminalPass .opening p s.data.rows := by
      intro pass hpass
      obtain ⟨heq, hphase⟩ := hopen.pass p pass hp hpass
      refine ⟨?_, heq⟩
      cases hdry : p.dryRun with
      | false => rfl
      | true => exact absurd (hcur.dry hdry) hphase
    refine ⟨fun hdry => ⟨hdue, ?_⟩, fun hdry => ⟨false, hopen.hook p hp (hcur.status hdry) hdry⟩,
      ?_, ?_⟩
    · cases hcase : h.pass with
      | none => rfl
      | some pass => exact nomatch hdry.symm.trans (hpass pass hcase).1
    · intro pass hsome
      obtain ⟨hdry, rfl⟩ := hpass pass hsome
      unfold terminalPass
      split_ifs <;> exact hcur.status hdry
    · intro pass hsome hfinal
      obtain ⟨-, rfl⟩ := hpass pass hsome
      unfold terminalPass at hfinal
      split_ifs at hfinal
  | quiet hh hfollows =>
    refine plannedCurrent_of hp hstatus (hcur.rearm ?_)
    rintro _ ⟨⟩
    exact (hcur.armed _ hh).of_eq hfollows.hook hfollows.pass fun _ => hfollows.due
  | due hh hp' hphase hhook hpass =>
    refine plannedCurrent_of hp hstatus (hcur.rearm ?_)
    rintro _ ⟨⟩
    refine (hcur.armed _ hh).of_eq hhook hpass fun hdry _ => ?_
    rw [hsame hp'] at hphase
    exact absurd (hcur.dry hdry) hphase
  | drives hh _ hhook hpass hdue =>
    refine plannedCurrent_of hp hstatus (hcur.rearm ?_)
    rintro _ ⟨⟩
    exact (hcur.armed _ hh).of_eq hhook hpass fun _ => hdue
  | joined hh hp' _ hhook hpass hdue =>
    refine plannedCurrent_of hp hstatus (hcur.rearm ?_)
    rintro _ ⟨⟩
    rw [hsame hp'] at hdue
    exact (hcur.armed _ hh).of_eq hhook hpass hdue
  | parked hh hp' hkeeps =>
    refine hrecord (planRecord_plan hp) rfl nofun (hfailed.rearm ?_)
    rintro _ ⟨⟩
    exact (hcur.armed _ hh).of_eq hkeeps.hook hkeeps.pass fun _ => hkeeps.due
  | dryRunFinalized hh hp' hdry hkeeps =>
    rw [hsame hp'] at hdry
    refine hrecord (planRecord_plan hp) rfl nofun
      ((hcur.restatus fun h => nomatch hdry.symm.trans h).rearm ?_)
    rintro _ ⟨⟩
    exact (hcur.armed _ hh).of_eq hkeeps.hook hkeeps.pass fun _ => hkeeps.due
  | armed hh hp' _ _ _ hhook hpass hdue =>
    refine plannedCurrent_of hp hstatus (hcur.rearm ?_)
    rintro _ ⟨⟩
    rw [hsame hp'] at hhook
    exact .unlocked hpass (fun hdry h => ((hcur.armed _ hh).dry hdry).1 (hdue h))
      fun _ => ⟨_, hhook⟩
  | markedDone hh _ _ _ _ hfollows =>
    refine hrows rfl (hcur.rearm ?_)
    rintro _ ⟨⟩
    exact (hcur.armed _ hh).of_eq hfollows.hook hfollows.pass fun _ => hfollows.due
  | @backfilled _ h _ _ _ _ _ _ _ _ _ hh hp' _ hstaged hno hfollows =>
    rw [hsame hp'] at hstaged
    obtain ⟨_, _, _, -, hstage⟩ := id hstaged
    rw [hh] at hcur
    have hafter := hcur.backfilled fun id => hstaged.fate hno id
    refine hrows (stageBackfill_spec hstage).plan (hafter.rearm ?_)
    rintro _ ⟨⟩
    exact (hafter.armed _ rfl).of_eq hfollows.hook hfollows.pass fun _ => hfollows.due
  | @wrote i h w hh hi hw hpass hno =>
    obtain ⟨hnull, hbehind⟩ := hcond h hh w hi
    have harmed := hcur.armed h hh
    have hafter : PlannedCurrent field converter (s.data.apply { rows := w.staged.rows })
        (w.staged.written.foldl (fun f e => Function.update f e.1 e.2) s.written)
        (some { h with writers := h.writers.eraseIdx i }) := by
      refine plannedCurrent_of (d := s.data.apply { rows := w.staged.rows }) hp hstatus
        ⟨hcur.policy, hcur.kinds, hcur.status, hcur.phase, hcur.cursor, hcur.dry, ?_, ?_⟩
      · intro hdry id row hrow
        obtain ⟨resolved, hhook⟩ := harmed.hook hdry
        exact RowCurrent.wrote (hw.fate hno s.written id) hhook (hcur.current hdry id)
          (fun hmem row hrow => hnull _ hmem rfl row hrow)
          (fun hcut blob hmem hle => hbehind p hp hcut _ hmem blob rfl hle) hcur.phase hcur.cursor
          hrow
      · rintro _ ⟨⟩
        exact .unlocked hpass (fun hdry => (harmed.dry hdry).1) harmed.hook
    rw [← Sys.data_commit] at hafter
    exact hafter
  | created _ hnone => exact nomatch hnone.symm.trans hp
  | cancelMarked => exact hcond.elim
  | @taken _ h h' p' owner hh hp' hnone _ htakes hhook hpass hdue =>
    refine plannedCurrent_of hp hstatus (hcur.rearm ?_)
    rintro _ ⟨⟩
    have harmed := hcur.armed h hh
    have hdry : p.dryRun = false := by
      cases hdry : p.dryRun with
      | false => rfl
      | true =>
        have hnot := (harmed.dry hdry).1
        cases htakes with
        | cutover => exact hcond.elim
        | driver hdue => exact absurd hdue hnot
        | terminalPass hdue => exact absurd hdue hnot
    rw [hsame hp'] at hpass
    refine ⟨fun h => (nomatch hdry.symm.trans h), hhook ▸ harmed.hook, ?_, ?_⟩
    · intro pass hsome
      cases hpass.symm.trans hsome
      unfold terminalPass
      split_ifs <;> exact hcur.status hdry
    · intro pass hsome hfinal
      cases hpass.symm.trans hsome
      unfold terminalPass at hfinal
      split_ifs at hfinal
  | gateOpened hh _ hpass =>
    rw [hh] at hcur
    have harmed := hcur.armed _ rfl
    have hquiesces := harmed.quiesces _ hpass
    refine plannedCurrent_of hp hstatus (hcur.rearm ?_)
    rintro _ ⟨⟩
    exact harmed.setPass (hcur.not_dry hpass) hquiesces nofun
  | gateReaped hh _ hpass =>
    rw [hh] at hcur
    have harmed := hcur.armed _ rfl
    have hquiesces := harmed.quiesces _ hpass
    refine hrows rfl (hcur.rearm ?_)
    rintro _ ⟨⟩
    exact harmed.setPass (hcur.not_dry hpass) hquiesces nofun
  | @gateParked _ h _ pass o hh hp' hpass _ hreleased =>
    cases hsame hp'
    have harmed := hcur.armed _ hh
    have hafter : PlannedCurrent field converter
        ((s.data.apply (reapResolved s.data field p.toPinnedPlan)).apply
          (parkMigrationFailedKeepCursors s.data)) s.written o := by
      refine plannedCurrent_of (Data.apply_plan (planRecord_plan hp)) nofun ?_
      exact hfailed.rearm (harmed.released hreleased)
    rw [← Sys.data_commit, ← Sys.data_commit] at hafter
    exact hafter
  | @passMoved _ h _ pass _ hh hp' hpass _ _ _ _ _ _ hbehind _ =>
    rw [hh] at hcur
    have harmed := hcur.armed _ rfl
    have hdry := hcur.not_dry hpass
    have hquiesces := harmed.quiesces _ hpass
    refine plannedCurrent_of hp hstatus (hcur.rearm ?_)
    rintro _ ⟨⟩
    refine harmed.setPass hdry hquiesces fun hfinal id row hrow => ?_
    rw [hsame hp'] at hbehind
    exact (hcur.current hdry id row hrow).2.2 (hbehind hfinal id row hrow)
  | @marked _ h _ pass hh hp' hpass hpok _ hconverting =>
    rw [hh] at hcur
    rw [hsame hp'] at hpok hconverting
    have harmed := hcur.armed _ rfl
    have hdry := hcur.not_dry hpass
    have hquiesces := harmed.quiesces _ hpass
    have hplan := hpok.plan_eq
    generalize pass.plan.status = status at hplan hquiesces
    rw [hplan]
    refine hrecord rfl rfl (fun h => ?_) ⟨hcur.policy, hcur.kinds, fun _ => hquiesces,
      nofun, nofun, fun h => (nomatch hdry.symm.trans h), ?_, ?_⟩
    · have hcompleted : status = .completed := h
      rw [hcompleted] at hquiesces
      cases hquiesces
    · intro _ id row hrow
      obtain ⟨hsource, heither, -⟩ := hcur.current hdry id row hrow
      exact ⟨fun _ => hsource (.inl hconverting), heither,
        fun h => absurd (hcur.cursor hconverting) h.1⟩
    · rintro _ ⟨⟩
      exact harmed.setPass hdry hquiesces nofun
  | @refused layers h _ pass o hh _ hpass _ _ hrefused hreleased =>
    have harmed := hcur.armed _ hh
    rw [hh] at hcur
    have hdry := hcur.not_dry hpass
    refine hrecord (planRecord_plan hp) rfl nofun ⟨hcur.policy, hcur.kinds,
      fun _ => rfl, nofun, fun _ => rfl, fun _ => rfl, ?_,
      harmed.released hreleased⟩
    intro _ id row hrow
    have hun : Unpromoted field converter p.toPinnedPlan id (s.written id) row := by
      rcases (hcur.current hdry id row hrow).2.1 with hun | ⟨hbare, ⟨hunset, hlast⟩ | hset⟩
      · exact hun
      · exact ⟨hlast, .inl ⟨hunset, hbare⟩⟩
      · obtain ⟨_, w, -, -, -, hkind, hw⟩ := hset
        have hmem := AList.mem_lookup_iff.mp hrow
        exact absurd hkind (hcond hrefused p hp _ hmem hbare w hw)
    exact ⟨fun _ => hun, .inl hun, fun h => absurd rfl h.1⟩
  | @dropped _ h _ _ _ _ _ _ _ _ hh _ _ _ _ _ hreleased =>
    have harmed := hcur.armed _ hh
    exact plannedCurrent_of hp hstatus (hcur.rearm (harmed.released hreleased))
  | @moved _ h _ pass attempts snapshot commit after more hh hp' hpass hpok hphase hno =>
    rw [hh] at hcur
    rw [hsame hp'] at hpok
    have harmed := hcur.armed _ rfl
    have hdry := hcur.not_dry hpass
    have hquiesces := harmed.quiesces _ hpass
    have hkind := hpok.kind_cutover hcur.phase
    have hcutting : p.phase = .cuttingOver := hpok.cutting hkind
      (fun h => nomatch hphase.symm.trans h) (fun h => nomatch hphase.symm.trans h)
    have hstaged := hpok.staged _ _ _ _ _ hphase
    obtain ⟨-, hfate⟩ := hstaged.fate hno
    obtain ⟨hgone, -⟩ := hstaged.fate hno
    obtain ⟨_, high, rows, rfl, rfl, -⟩ := hstaged.visits
    rw [hkind, hpok.pinned, hpok.cursor] at hfate
    -- each row of the chunk, whether the pass goes on or is over
    have hrow : ∀ id row, (applyWrites s.data.rows rows).lookup id = some row →
        RowCurrent field converter p.toPinnedPlan .cuttingOver high id (s.written id) row ∧
          (more = false → Promoted field converter p.toPinnedPlan id (s.written id) row) := by
      intro id row hrow
      cases hold : s.data.rows.lookup id with
      | none => exact nomatch (hgone id hold).symm.trans hrow
      | some old =>
        obtain ⟨new, hnew, hfate⟩ := hfate id old hold
        cases hnew.symm.trans hrow
        have hcurrent := hcur.current hdry id old hold
        rw [hcutting] at hcurrent
        exact hcurrent.moved hcur.policy hcur.kinds hfate
    have hplan := hpok.plan_eq
    generalize pass.plan.status = status at hplan hquiesces
    have hafter : CurrentAt field converter { p with status, cutoverCursor := high }
        (applyWrites s.data.rows rows) s.written (some (h.setPass
          { pass with
            plan := { pass.plan with cutoverCursor := high }
            phase := if more then .scan 0 else .finalize })) := by
      refine ⟨hcur.policy, hcur.kinds, fun _ => hquiesces, hcur.phase, ?_, hcur.dry, ?_, ?_⟩
      · exact fun h => nomatch hcutting.symm.trans h
      · intro _ id row hlive
        have hcurrent := (hrow id row hlive).1
        rw [← hcutting] at hcurrent
        exact hcurrent
      · rintro _ ⟨⟩
        refine harmed.setPass hdry ?_ fun hfinal id row hlive => (hrow id row hlive).2 ?_
        · rw [hplan]
          exact hquiesces
        · cases more with
          | true => cases hfinal
          | false => rfl
    have hend : PlannedCurrent field converter
        (s.data.apply { rows, plan := some { pass.plan with cutoverCursor := high } }) s.written
        (some (h.setPass { pass with
            plan := { pass.plan with cutoverCursor := high }
            phase := if more then .scan 0 else .finalize })) := by
      refine plannedCurrent_of (p := { p with status, cutoverCursor := high })
        (Data.apply_plan ?_) (fun h => ?_) hafter
      · rw [hplan]
      · have hcompleted : status = .completed := h
        rw [hcompleted] at hquiesces
        cases hquiesces
    rw [← Sys.data_commit] at hend
    exact hend
  | @cutOver layers h _ pass o hh _ hpass hpok hphase _ hreleased =>
    have hall := (hcur.armed _ hh).finalize pass hpass hphase
    have hafter : PlannedCurrent field converter
        (s.data.apply (finalizeMigrationCutover s.data)) s.written o := by
      intro p' hp'
      cases (Data.apply_plan (planRecord_plan hp)).symm.trans hp'
      exact .inl ⟨rfl, hall⟩
    rw [← Sys.data_commit] at hafter
    exact hafter
  | cancelled _ hp' _ _ _ hrolling =>
    rw [hsame hp'] at hrolling
    exact absurd hrolling hcur.phase
  | retried => exact hcond.elim
  | cleared => exact hcond.elim

theorem CurrentInv.step (hpolicy : spec.errorPolicy = .stop)
    (hinv : CurrentInv field converter s) (hnot : ¬ Completed s) (hcond : KeepsCurrent field s e) :
    CurrentInv field converter (Migration.step field spec converter s e) := by
  obtain ⟨heffect, hstaged⟩ := step_spec spec hinv.staged e
  refine ⟨hstaged, fun hnone => ?_, ?_⟩
  · exact (hinv.before (heffect.plan_none hnone)).step hinv.staged heffect hnone
  cases hplan : s.data.plan with
  | some p =>
    rcases hinv.planned p hplan with ⟨hcompleted, -⟩ | ⟨hstatus, hcur⟩
    · exact absurd ⟨p, hplan, hcompleted⟩ hnot
    · exact hcur.step hplan hstatus heffect hcond
  | none =>
    intro p hp
    obtain ⟨h, h', hcreated⟩ := heffect.created_of hplan hp
    have hbefore := hinv.before hplan
    have hplanned := hcreated.plan
    have hpass := hcreated.pass
    rw [hcreated.handle, hcreated.written, hcreated.data]
    subst hplanned
    refine .inr ⟨fun h => (nomatch h), hpolicy, hcreated.kinds, fun _ => rfl, nofun,
      fun _ => rfl, fun _ => rfl, ?_, ?_⟩
    · intro _ id row hrow
      obtain ⟨hlast, hkind, hbare⟩ := hbefore.rows id row hrow
      have hun : Unpromoted field converter (planOf spec s.data.kind h.nextObjectId).toPinnedPlan id
          (s.written id) row := by
        refine ⟨hlast, ?_⟩
        rcases hkind with hunset | ⟨v, hv, hkind⟩
        · exact .inl ⟨hlast ▸ hunset, hbare⟩
        · exact .inr (.inl ⟨v, hlast.symm.trans hv, hkind, hbare⟩)
      exact ⟨fun _ => hun, .inl hun, fun h => absurd rfl h.1⟩
    · rintro _ ⟨⟩
      refine .unlocked hpass (fun _ => hcreated.due) fun hdry => ⟨true, ?_⟩
      have hhook := hcreated.hook
      rw [hdry] at hhook
      exact hhook

theorem start_currentInv {rows : Rows} {kind : ScalarType}
    (hrows : ∀ id row, rows.lookup id = some row →
      OfKind kind (row.lookup field) ∧ Unshadowed field row) :
    CurrentInv field converter (start field rows kind) :=
  ⟨start_wellStaged, fun _ => start_beforePlan hrows, fun _ h => nomatch h⟩

end

variable {field spec converter}

/-- When a migration under Stop is completed first, each live object holds no shadow, and in its field
what its users unset or else the converted value of what they last wrote. -/
theorem completed_current (hpolicy : spec.errorPolicy = .stop) {rows : Rows} {kind : ScalarType}
    (hrows : ∀ id row, rows.lookup id = some row →
      OfKind kind (row.lookup field) ∧ Unshadowed field row)
    {run : List Event}
    (hrun : Run.Along (step field spec converter)
      (fun s e => ¬ Completed s ∧ KeepsCurrent field s e) (start field rows kind) run)
    (hdone : Completed (Run.exec (step field spec converter) (start field rows kind) run)) :
    ∃ p, (Run.exec (step field spec converter) (start field rows kind) run).data.plan = some p ∧
      AllPromoted field converter p.toPinnedPlan
        (Run.exec (step field spec converter) (start field rows kind) run).data.rows
        (Run.exec (step field spec converter) (start field rows kind) run).written := by
  have hinv : CurrentInv field converter
      (Run.exec (step field spec converter) (start field rows kind) run) :=
    Run.exec_invariant (fun _ _ hinv hcond => hinv.step hpolicy hcond.1 hcond.2)
      (start_currentInv hrows) hrun
  obtain ⟨p, hp, hcompleted⟩ := hdone
  rcases hinv.planned p hp with ⟨-, hall⟩ | ⟨hstatus, -⟩
  · exact ⟨p, hp, hall⟩
  · exact absurd hcompleted hstatus

def writtenRun : List Event :=
  [.openDatabase (sampleType .u32) 0, .registerConverter, .createMigration, .spawnDriver,
    setField 2 .null, .commitWrite 0, .driver] ++ List.replicate 7 (.worker 0 noLayers) ++
  [setField 1 (.u32 9), .commitWrite 0, .driver, .driver, .driver] ++
    List.replicate 7 (.pass noLayers)

theorem completed_current_written :
    ∃ p, (Run.exec (step "n" (sampleSpec .stop 1) widen) (start "n" sampleRows .u32)
        writtenRun).data.plan = some p ∧
      AllPromoted "n" widen p.toPinnedPlan
        (Run.exec (step "n" (sampleSpec .stop 1) widen) (start "n" sampleRows .u32)
          writtenRun).data.rows
        (Run.exec (step "n" (sampleSpec .stop 1) widen) (start "n" sampleRows .u32)
          writtenRun).written :=
  completed_current rfl sampleRows_plain (by decide +kernel) (by decide +kernel)

def nulledRun : List Event :=
  [.openDatabase (sampleType .u32) 0, .registerConverter, .createMigration, .spawnDriver,
    .driver] ++ List.replicate 7 (.worker 0 noLayers) ++
  [setField 1 .null, .commitWrite 0, .driver, .driver, .driver] ++
    List.replicate 7 (.pass noLayers)

/-- The migration is completed, and the nulled field holds the converted value of before. -/
theorem nulled_field_converted :
    Completed (Run.exec (step "n" (sampleSpec .stop 1) widen) (start "n" sampleRows .u32)
      nulledRun) ∧
    (Run.exec (step "n" (sampleSpec .stop 1) widen) (start "n" sampleRows .u32) nulledRun).written 1 =
      some .null ∧
    ∃ row ∈ (Run.exec (step "n" (sampleSpec .stop 1) widen) (start "n" sampleRows .u32)
      nulledRun).data.rows.lookup 1, row.lookup "n" = some (.u64 5) := by
  decide +kernel

end RhypeDb.Migration
