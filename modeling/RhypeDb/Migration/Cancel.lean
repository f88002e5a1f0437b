import RhypeDb.Migration.BeforePlan

/-! A cancelled migration has lost nothing. Until the kind of the field flips its source is what its
users last wrote, but for the rows that a cutover has promoted; a rollback strips what is behind its
cursor, and no worker runs beside it. -/

namespace RhypeDb.Migration

open Engine Storage Fallible

variable (field : String) (spec : MigrationPlanSpec) (converter : Converter)

/-- The field is as it was last written, at the source kind. -/
def Original (p : PinnedPlan) (last : Option Value) (row : FieldMap) : Prop :=
  row.lookup field = last ∧ OfKind p.srcKind last

def AtTarget (p : PinnedPlan) (row : FieldMap) : Prop :=
  ∃ v, row.lookup field = some v ∧ valueToKind v = some p.targetKind

def AllUnshadowed (rows : Rows) : Prop :=
  ∀ id row, rows.lookup id = some row → Unshadowed field row

def Settling (p : MigrationPlan) (handle : Option Handle) : Prop :=
  p.status = .cancelled ∨
    ∃ h pass, handle = some h ∧ h.pass = some pass ∧ pass.plan.status = .cancelled

structure LosslessAt (p : MigrationPlan) (kind : ScalarType) (rows : Rows)
    (written : Id → Option Value) (handle : Option Handle) : Prop where
  kinds : p.srcKind ≠ p.targetKind
  flipped : kind ≠ p.srcKind → p.phase = .cuttingOver
  shadows : ∀ id row w, rows.lookup id = some row → row.lookup (shadowName field) = some w →
    valueToKind w = some p.targetKind
  hook : ∀ h k, handle = some h → h.hook = some k →
    ∃ resolved, k = hookOf converter p.toPinnedPlan resolved
  source : kind = p.srcKind → ∀ id row, rows.lookup id = some row →
    Original field p.toPinnedPlan (written id) row ∨
      p.phase = .cuttingOver ∧ AtTarget field p.toPinnedPlan row
  behind : p.phase = .rollingBack → ∀ id row, rows.lookup id = some row →
    Behind p.cutoverCursor id → Unshadowed field row
  finalize : p.phase = .rollingBack → ∀ h pass, handle = some h → h.pass = some pass →
    pass.phase = .finalize → AllUnshadowed field rows
  idle : p.phase = .rollingBack → ∀ h, handle = some h →
    h.pass.isSome ∨ p.cutoverCursor ≠ 0 ∨ p.status = .cancelled → ∀ idx w, ¬ h.Runs idx w
  settling : Settling p handle → p.phase = .rollingBack ∧ p.status.quiesces = false ∧
    AllUnshadowed field rows ∧ ∀ h, handle = some h → h.hook = none

def RollbackFresh (s : Sys) : Prop :=
  ∀ h pass attempts snapshot commit after more, s.handle = some h → h.pass = some pass →
    pass.kind = .rollback → pass.phase = .staged attempts snapshot commit after more →
      (s.dataAt snapshot).rows = s.data.rows

def PlannedLossless (d : Data) (written : Id → Option Value) (handle : Option Handle) : Prop :=
  ∀ p, d.plan = some p → LosslessAt field converter p d.kind d.rows written handle

structure LosslessInv (s : Sys) : Prop where
  staged : WellStaged field converter s
  before : s.data.plan = none → BeforePlan field s.data s.written s.handle
  planned : PlannedLossless field converter s.data s.written s.handle
  fresh : RollbackFresh s

def ResumePhase.Timely (p : MigrationPlan) : ResumePhase → Prop
  | .loaded _ => p.status.quiesces = true
  | .armed => True
  | .driving _ => p.phase = .converting

instance (p : MigrationPlan) (phase : ResumePhase) : Decidable (phase.Timely p) :=
  match phase with
  | .loaded _ => inferInstanceAs (Decidable (_ = true))
  | .armed => .isTrue trivial
  | .driving _ => inferInstanceAs (Decidable (_ = MigrationPhase.converting))

/-- The steps of a migration that its operator does not retry or clear. Until the kind flips no write
stores a value of another kind; a refused cutover has promoted nothing; a resume is timely, a rollback
starts when no worker runs, and behind a rollback that was cut off no write leaves a shadow. -/
def KeepsLossless (s : Sys) : Event → Prop
  | .retryQuarantined _ _ => False
  | .clearQuarantine => False
  | .commitWrite i => ∀ h ∈ s.handle, ∀ w ∈ h.writers[i]?, ∀ p ∈ s.data.plan,
      (s.data.kind = p.srcKind → ∀ e ∈ w.staged.written, OfKind p.srcKind e.2) ∧
      (p.phase = .rollingBack → ∀ e ∈ w.staged.rows, ∀ blob ∈ e.2,
        Behind p.cutoverCursor e.1 → Unshadowed field blob)
  | .pass layers => RefusedChunk field s layers → ∀ p ∈ s.data.plan, s.data.kind = p.srcKind ∧
      ∀ e ∈ s.data.rows.entries, ∀ v ∈ e.2.lookup field, valueToKind v ≠ some p.targetKind
  | .resumeStep i => ∀ h ∈ s.handle, ∀ r ∈ h.resumes[i]?, ∀ p ∈ s.data.plan, r.phase.Timely p
  | .terminalPass => ∀ h ∈ s.handle, ∀ p ∈ s.data.plan, p.phase = .rollingBack →
      h.backfill? = none
  | _ => True

instance (s : Sys) (e : Event) : Decidable (KeepsLossless field s e) :=
  match e with
  | .retryQuarantined _ _ | .clearQuarantine => .isFalse id
  | .commitWrite i => inferInstanceAs (Decidable (∀ h ∈ s.handle, ∀ w ∈ h.writers[i]?,
      ∀ p ∈ s.data.plan, _ ∧ _))
  | .pass layers => inferInstanceAs (Decidable (RefusedChunk field s layers → _))
  | .resumeStep i => inferInstanceAs (Decidable (∀ h ∈ s.handle, ∀ r ∈ h.resumes[i]?,
      ∀ p ∈ s.data.plan, _))
  | .terminalPass => inferInstanceAs (Decidable (∀ h ∈ s.handle, ∀ p ∈ s.data.plan, _ → _))
  | .openDatabase _ _ | .stop | .registerConverter | .drawObjectId | .write _ | .createMigration
  | .spawnDriver | .driver | .worker _ _ | .pause | .waitForMigration | .resume | .cancel
  | .cutover => .isTrue trivial

def Cancelled (s : Sys) : Prop := ∃ p ∈ s.data.plan, p.status = .cancelled

instance (s : Sys) : Decidable (Cancelled s) :=
  inferInstanceAs (Decidable (∃ p ∈ s.data.plan, _))

/-- Each live object holds what its users last wrote at the kind before the migration, the catalog has
that kind, and no hook is armed. -/
def Restored (kind : ScalarType) (s : Sys) : Prop :=
  s.data.kind = kind ∧
  (∀ id row, s.data.rows.lookup id = some row → row.lookup field = s.written id ∧
    OfKind kind (s.written id) ∧ Unshadowed field row) ∧
  ∀ h, s.handle = some h → h.hook = none

section

variable {field spec converter} {s s' : Sys} {e : Event} {p : MigrationPlan} {d : Data}
  {kind : ScalarType} {rows : Rows} {written : Id → Option Value} {handle : Option Handle}
  {h h' : Handle} {o : Option Handle}

theorem Handle.not_runs_of_backfill? (hnone : h.backfill? = none) (idx : Nat) (w : WorkerPhase) :
    ¬ h.Runs idx w := by
  rintro ⟨d, b, hd, hphase, -⟩
  exact nomatch hnone.symm.trans ((Handle.backfill?_eq_some hd).mpr hphase)

theorem plannedLossless_of (hp : d.plan = some p)
    (hloss : LosslessAt field converter p d.kind d.rows written handle) :
    PlannedLossless field converter d written handle := by
  intro p' hp'
  cases hp.symm.trans hp'
  exact hloss

theorem Settling.of_pass_eq (hsettling : Settling p (some h')) (hpass : h'.pass = h.pass) :
    Settling p (some h) := by
  refine hsettling.imp_right ?_
  rintro ⟨_, pass, ⟨⟩, hsome, hstatus⟩
  exact ⟨h, pass, rfl, hpass.symm.trans hsome, hstatus⟩

theorem Settling.of_terminalPass (hsettling : Settling p (some h)) (owner : Owner) (rows : Rows)
    (hpass : ∀ pass ∈ h.pass, pass = terminalPass owner p rows) : p.status = .cancelled := by
  rcases hsettling with hstatus | ⟨_, pass, ⟨⟩, hsome, hstatus⟩
  · exact hstatus
  · rw [hpass pass hsome] at hstatus
    unfold terminalPass at hstatus
    split_ifs at hstatus <;> exact hstatus

theorem Settling.of_no_pass (hsettling : Settling p (some h)) (hpass : h.pass = none) :
    p.status = .cancelled :=
  hsettling.of_terminalPass .opening ∅ fun _ hsome => nomatch hpass.symm.trans hsome

theorem terminalPass_ne_finalize {owner : Owner} :
    (terminalPass owner p rows).phase ≠ .finalize := by
  unfold terminalPass
  split_ifs <;> exact nofun

theorem LosslessAt.settled (hloss : LosslessAt field converter p kind rows written (some h))
    (hsettling : Settling p (some h)) (hhook : h'.hook = h.hook) :
    p.phase = .rollingBack ∧ p.status.quiesces = false ∧ AllUnshadowed field rows ∧
      ∀ o, some h' = some o → o.hook = none := by
  obtain ⟨hphase, hquiesces, hbare, hnone⟩ := hloss.settling hsettling
  refine ⟨hphase, hquiesces, hbare, ?_⟩
  rintro _ ⟨⟩
  exact hhook.trans (hnone h rfl)

theorem LosslessAt.rehandle (hloss : LosslessAt field converter p kind rows written (some h))
    (hhook : h'.hook = h.hook) (hpass : h'.pass = h.pass)
    (hruns : ∀ idx w, h'.Runs idx w → ∃ w', h.Runs idx w') :
    LosslessAt field converter p kind rows written (some h') := by
  refine ⟨hloss.kinds, hloss.flipped, hloss.shadows, ?_, hloss.source, hloss.behind, ?_, ?_, ?_⟩
  · rintro _ k ⟨⟩ hk
    exact hloss.hook h k rfl (hhook.symm.trans hk)
  · rintro hphase _ pass ⟨⟩ hsome
    exact hloss.finalize hphase h pass rfl (hpass.symm.trans hsome)
  · rintro hphase _ ⟨⟩ hbusy idx w hrun
    obtain ⟨w', hrun'⟩ := hruns idx w hrun
    rw [hpass] at hbusy
    exact hloss.idle hphase h rfl hbusy idx w' hrun'
  · exact fun hsettling => hloss.settled (hsettling.of_pass_eq hpass) hhook

theorem LosslessAt.release (hloss : LosslessAt field converter p kind rows written handle)
    (hreleased : ∀ h', o = some h' → ∃ h, handle = some h ∧
      h'.hook = h.hook ∧ h'.pass = none ∧ ∀ idx w, h'.Runs idx w → h.Runs idx w) :
    LosslessAt field converter p kind rows written o := by
  refine ⟨hloss.kinds, hloss.flipped, hloss.shadows, ?_, hloss.source, hloss.behind, ?_, ?_, ?_⟩
  · intro h' k hh' hk
    obtain ⟨h, hh, hhook, -⟩ := hreleased h' hh'
    exact hloss.hook h k hh (hhook.symm.trans hk)
  · intro _ h' pass hh' hsome
    obtain ⟨h, hh, -, hpass, -⟩ := hreleased h' hh'
    exact nomatch hpass.symm.trans hsome
  · intro hphase h' hh' hbusy idx w hrun
    obtain ⟨h, hh, -, hpass, hruns⟩ := hreleased h' hh'
    rw [hpass] at hbusy
    exact hloss.idle hphase h hh (hbusy.imp_left fun h => nomatch h) idx w (hruns idx w hrun)
  · intro hsettling
    have hstatus : p.status = .cancelled := by
      rcases hsettling with hstatus | ⟨h', pass, hh', hsome, -⟩
      · exact hstatus
      · obtain ⟨h, hh, -, hpass, -⟩ := hreleased h' hh'
        exact nomatch hpass.symm.trans hsome
    obtain ⟨hphase, hquiesces, hbare, hnone⟩ := hloss.settling (.inl hstatus)
    refine ⟨hphase, hquiesces, hbare, fun h' hh' => ?_⟩
    obtain ⟨h, hh, hhook, -⟩ := hreleased h' hh'
    exact hhook.trans (hnone h hh)

theorem LosslessAt.restatus (hloss : LosslessAt field converter p kind rows written handle)
    {status : MigrationStatus} (hstatus : status ≠ .cancelled)
    (hsettling : Settling { p with status } handle → status.quiesces = false) :
    LosslessAt field converter { p with status } kind rows written handle := by
  refine ⟨hloss.kinds, hloss.flipped, hloss.shadows, hloss.hook, hloss.source, hloss.behind,
    hloss.finalize, ?_, ?_⟩
  · intro hphase h hh hbusy
    exact hloss.idle hphase h hh (hbusy.imp_right fun h => h.imp_right fun h => absurd h hstatus)
  · intro h
    obtain ⟨hphase, -, hbare, hnone⟩ := hloss.settling (.inr (h.resolve_left hstatus))
    exact ⟨hphase, hsettling h, hbare, hnone⟩

theorem Released.of_handle (hh : handle = some h) (hreleased : Released h o) :
    ∀ h', o = some h' → ∃ h, handle = some h ∧ h'.hook = h.hook ∧ h'.pass = none ∧
      ∀ idx w, h'.Runs idx w → h.Runs idx w := by
  intro h' hh'
  obtain ⟨hhook, hpass, -, hruns⟩ := hreleased h' hh'
  exact ⟨h, hh, hhook, hpass, hruns⟩

variable {q : PinnedPlan} {old : FieldMap} {more : Bool} {cursor : Id} {base : Rows} {id : Id}
  {new row : FieldMap} {last : Option Value}

theorem Original.of_eq (h : Original field q last row)
    (hsame : new.lookup field = row.lookup field) :
    Original field q last new := ⟨hsame.trans h.1, h.2⟩

theorem AtTarget.of_eq (h : AtTarget field q row)
    (hsame : new.lookup field = row.lookup field) : AtTarget field q new := by
  unfold AtTarget
  rw [hsame]
  exact h

theorem LosslessAt.setPass (hloss : LosslessAt field converter p kind rows written (some h))
    {pass pass' : Pass} (hpass : h.pass = some pass) (hstatus : pass'.plan.status = pass.plan.status)
    (hfinal : p.phase = .rollingBack → pass'.phase = .finalize → AllUnshadowed field rows) :
    LosslessAt field converter p kind rows written (some (h.setPass pass')) := by
  refine ⟨hloss.kinds, hloss.flipped, hloss.shadows, ?_, hloss.source, hloss.behind, ?_, ?_, ?_⟩
  · rintro _ k ⟨⟩ hk
    exact hloss.hook h k rfl hk
  · rintro hphase _ _ ⟨⟩ ⟨⟩ hfinalize
    exact hfinal hphase hfinalize
  · rintro hphase _ ⟨⟩ _
    exact hloss.idle hphase h rfl (.inl (by rw [hpass]; rfl))
  · intro hsettling
    have hsettling' : Settling p (some h) := by
      refine hsettling.imp_right ?_
      rintro ⟨_, _, ⟨⟩, ⟨⟩, hcancelled⟩
      exact ⟨h, pass, rfl, hpass, hstatus.symm.trans hcancelled⟩
    exact hloss.settled hsettling' rfl

theorem LosslessAt.backfilled (hloss : LosslessAt field converter p kind rows written (some h))
    {rows' : Rows} {idx : Nat} {w : WorkerPhase} (hrun : h.Runs idx w)
    (hfate : ∀ id, rows'.lookup id = rows.lookup id ∨ ∃ old new, rows.lookup id = some old ∧
      convertRowForBackfill field p.toPinnedPlan converter id old = .ok (some new) ∧
        rows'.lookup id = some new) : LosslessAt field converter p kind rows' written (some h) := by
  have hbusy : p.phase = .rollingBack → h.pass = none ∧ p.cutoverCursor = 0 ∧
      p.status ≠ .cancelled := by
    intro hphase
    have hnot := fun hbusy => hloss.idle hphase h rfl hbusy idx w hrun
    refine ⟨?_, ?_, fun hstatus => hnot (.inr (.inr hstatus))⟩
    · cases hpass : h.pass with
      | none => rfl
      | some pass => exact (hnot (.inl (by rw [hpass]; rfl))).elim
    · by_contra hcursor
      exact hnot (.inr (.inl hcursor))
  have hidle : ¬ Settling p (some h) := by
    intro hsettling
    obtain ⟨hpass, -, hstatus⟩ := hbusy (hloss.settling hsettling).1
    rcases hsettling with hcancelled | ⟨_, pass, ⟨⟩, hsome, -⟩
    · exact hstatus hcancelled
    · exact nomatch hpass.symm.trans hsome
  refine ⟨hloss.kinds, hloss.flipped, ?_, hloss.hook, ?_, ?_, ?_, hloss.idle,
    fun h => absurd h hidle⟩
  · intro id row w hrow hw
    rcases hfate id with hsame | ⟨old, new, hold, hconvert, hnew⟩
    · exact hloss.shadows id row w (hsame ▸ hrow) hw
    · cases hnew.symm.trans hrow
      obtain ⟨-, _, w', -, -, -, htarget, rfl⟩ := convertRowForBackfill_eq_some hconvert
      rw [lookup_withShadow_shadow] at hw
      cases hw
      exact htarget
  · intro hkind id row hrow
    rcases hfate id with hsame | ⟨old, new, hold, hconvert, hnew⟩
    · exact hloss.source hkind id row (hsame ▸ hrow)
    · cases hnew.symm.trans hrow
      obtain ⟨-, _, w', -, -, -, -, rfl⟩ := convertRowForBackfill_eq_some hconvert
      exact (hloss.source hkind id old hold).imp (fun h => h.of_eq lookup_withShadow_field)
        fun h => ⟨h.1, h.2.of_eq lookup_withShadow_field⟩
  · intro hphase id row _ hbehind
    exact absurd (hbusy hphase).2.1 hbehind.1
  · rintro hphase _ pass ⟨⟩ hsome
    exact nomatch (hbusy hphase).1.symm.trans hsome

/-- A row that a write leaves: its source is what the user wrote now or what was there, and its
shadow is of the target kind or was there. -/
structure WrittenRow (field : String) (q : PinnedPlan) (h : Handle) (staged : StagedWrite) (id : Id)
    (old : Option FieldMap) (last last' : Option Value) (row : FieldMap) : Prop where
  mem : (id, some row) ∈ staged.rows
  source : row.lookup field = last' ∧ (id, last') ∈ staged.written ∨
    last' = last ∧ ∃ before, old = some before ∧ row.lookup field = before.lookup field
  shadows : ∀ w, row.lookup (shadowName field) = some w →
    valueToKind w = some q.targetKind ∨
      ∃ before, old = some before ∧ before.lookup (shadowName field) = some w
  bare : h.hook = none → (∀ before, old = some before → Unshadowed field before) →
    Unshadowed field row

theorem hook_adds {fields blob : FieldMap}
    (hhook : ∀ k, h.hook = some k → ∃ resolved, k = hookOf converter q resolved)
    (hblob : applyMigratingFieldHook field h.hook id fields = .ok blob) :
    blob = fields ∨ h.hook ≠ none ∧ ∃ w, valueToKind w = some q.targetKind ∧
      blob = withShadow field fields w q.converterVersion := by
  rcases applyMigratingFieldHook_eq_ok hblob with ⟨-, hsame⟩ |
    ⟨k, _, _, w, hk, -, -, -, -, htarget, hblob⟩
  · exact .inl hsame
  · obtain ⟨_, rfl⟩ := hhook k hk
    exact .inr ⟨fun h => (nomatch hk.symm.trans h), w, htarget, hblob⟩

theorem WriteFate.writtenRow {staged : StagedWrite} {old new : Option FieldMap}
    {last' : Option Value} (hfate : WriteFate field h staged id old last new last')
    (hhook : ∀ k, h.hook = some k → ∃ resolved, k = hookOf converter q resolved)
    (hrow : new = some row) :
    old = some row ∧ last' = last ∨ WrittenRow field q h staged id old last last' row := by
  cases hfate with
  | kept => exact .inl ⟨hrow, rfl⟩
  | @created scalars blob hbare _ hblob hmem hwritten =>
    cases hrow
    right
    rcases hook_adds hhook hblob with rfl | ⟨hset, w, htarget, rfl⟩
    · exact ⟨hmem, .inl ⟨rfl, hwritten⟩, fun w hw => (nomatch hw.symm.trans hbare.1),
        fun _ _ => hbare⟩
    · refine ⟨hmem, .inl ⟨lookup_withShadow_field, hwritten⟩, fun w' hw' => ?_,
        fun hnone => absurd hnone hset⟩
      rw [lookup_withShadow_shadow] at hw'
      cases hw'
      exact .inl htarget
  | @updated before merged blob update hbefore hfield hshadow hcv _ hblob hmem hwritten =>
    cases hrow
    right
    have hsource : ∀ blob : FieldMap, blob.lookup field = merged.lookup field →
        blob.lookup field = update.or last ∧ (id, update.or last) ∈ staged.written ∨
          update.or last = last ∧
            ∃ before, old = some before ∧ blob.lookup field = before.lookup field := by
      intro blob hsame
      rw [hsame, hfield]
      cases update with
      | none => exact .inr ⟨rfl, before, hbefore, rfl⟩
      | some v => exact .inl ⟨rfl, hwritten v rfl⟩
    rcases hook_adds hhook hblob with rfl | ⟨hset, w, htarget, rfl⟩
    · refine ⟨hmem, hsource _ rfl, fun w hw => .inr ⟨before, hbefore, hshadow.symm.trans hw⟩, ?_⟩
      intro _ hbare
      exact ⟨hshadow.trans (hbare before hbefore).1, hcv.trans (hbare before hbefore).2⟩
    · refine ⟨hmem, hsource _ lookup_withShadow_field, fun w' hw' => ?_,
        fun hnone => absurd hnone hset⟩
      rw [lookup_withShadow_shadow] at hw'
      cases hw'
      exact .inl htarget
  | deleted => cases hrow

theorem rollback_moved {high : Id}
    (hbase : base.lookup id = some old) (hbehind : Behind cursor id → Unshadowed field old)
    (hfate : PassFate field .rollback q base id cursor high more old new) :
    new.lookup field = old.lookup field ∧ (new = old ∨ Unshadowed field new) ∧
      (Behind high id ∨ more = false → Unshadowed field new) := by
  cases hfate with
  | behind h _ => exact ⟨rfl, .inl rfl, fun _ => hbehind h⟩
  | ahead hmore hlt _ =>
    refine ⟨rfl, .inl rfl, fun h => ?_⟩
    rcases h with h | hnone
    · exact absurd h.2 (UInt64.not_le.mpr hlt)
    · exact nomatch hmore.symm.trans hnone
  | left _ hnone => exact ⟨rfl, .inl rfl, fun _ => rollbackRow_eq_none hnone⟩
  | shadowed _ hbefore hconvertible _ hsince =>
    obtain ⟨_, _, _, _, hcurrent⟩ := hconvertible
    cases hbefore.symm.trans hbase
    rw [hsince] at hcurrent
    exact absurd hasCurrentShadow_withShadow hcurrent
  | moved _ hmoved =>
    obtain rfl := rollbackRow_eq_some hmoved
    exact ⟨lookup_stripShadow_field, .inr unshadowed_stripShadow, fun _ => unshadowed_stripShadow⟩

theorem cutover_moved {high : Id}
    (hshadows : ∀ w, old.lookup (shadowName field) = some w → valueToKind w = some q.targetKind)
    (hfate : PassFate field .cutover q base id cursor high more old new) :
    new = old ∨ AtTarget field q new ∧ Unshadowed field new := by
  cases hfate with
  | behind => exact .inl rfl
  | ahead => exact .inl rfl
  | left => exact .inl rfl
  | shadowed => exact .inl rfl
  | moved _ hmoved =>
    obtain ⟨w, hw, rfl⟩ := cutoverRow_eq_some hmoved
    refine .inr ⟨⟨w, ?_, hshadows w hw⟩, unshadowed_stripShadow⟩
    rw [lookup_stripShadow_field, AList.lookup_insert]

theorem LosslessAt.step (hp : s.data.plan = some p)
    (hloss : LosslessAt field converter p s.data.kind s.data.rows s.written s.handle)
    (hfresh : RollbackFresh s) (heffect : Effect field spec converter s e s')
    (hcond : KeepsLossless field s e) :
    PlannedLossless field converter s'.data s'.written s'.handle := by
  -- a plan record rewritten by a commit that writes neither a row nor the kind
  have hrecord : ∀ {c : Commit} {p' : MigrationPlan} {handle : Option Handle}, c.plan = some p' →
      c.rows = [] → c.kind = none →
      LosslessAt field converter p' s.data.kind s.data.rows s.written handle →
      PlannedLossless field converter (s.commit c).data s.written handle := by
    intro c p' handle hc hrows hkind hloss'
    rw [Sys.data_commit]
    refine plannedLossless_of (Data.apply_plan hc) ?_
    rw [Data.apply_rows_nil hrows, Data.apply_kind_none hkind]
    exact hloss'
  -- a commit that leaves the plan record alone
  have hrows : ∀ {c : Commit} {handle : Option Handle}, c.plan = none → c.kind = none →
      LosslessAt field converter p s.data.kind (applyWrites s.data.rows c.rows) s.written handle →
      PlannedLossless field converter (s.commit c).data s.written handle := by
    intro c handle hc hkind hloss'
    rw [Sys.data_commit]
    refine plannedLossless_of ((Data.apply_plan_none hc).trans hp) ?_
    rw [Data.apply_kind_none hkind]
    exact hloss'
  have hsame : ∀ {p' : MigrationPlan}, s.data.plan = some p' → p' = p :=
    fun hp' => Option.some.inj (hp'.symm.trans hp)
  cases heffect with
  | same => exact plannedLossless_of hp hloss
  | stopped => exact plannedLossless_of hp (hloss.release fun _ h => nomatch h)
  | @opened _ h hnone hopen =>
    refine plannedLossless_of hp ?_
    have hruns : ∀ idx w, ¬ h.Runs idx w := by
      rintro idx w ⟨_, _, hd, -⟩
      exact nomatch hopen.driver.symm.trans hd
    have hpass : ∀ pass, h.pass = some pass → pass = terminalPass .opening p s.data.rows :=
      fun pass hpass => (hopen.pass p pass hp hpass).1
    refine ⟨hloss.kinds, hloss.flipped, hloss.shadows, ?_, hloss.source, hloss.behind, ?_, ?_, ?_⟩
    · rintro _ k ⟨⟩ hk
      by_cases hunsettled : p.status.quiesces = true ∧ p.dryRun = false
      · have hhook := hopen.hook p hp hunsettled.1 hunsettled.2
        exact ⟨false, (Option.some.inj (hhook.symm.trans hk)).symm⟩
      · exact nomatch (hopen.settled p hp hunsettled).1.symm.trans hk
    · rintro _ _ pass ⟨⟩ hsome hfinal
      rw [hpass pass hsome] at hfinal
      exact absurd hfinal terminalPass_ne_finalize
    · rintro _ _ ⟨⟩ _
      exact hruns
    · intro hsettling
      obtain ⟨hphase, hquiesces, hbare, -⟩ :=
        hloss.settling (.inl (hsettling.of_terminalPass _ _ hpass))
      refine ⟨hphase, hquiesces, hbare, ?_⟩
      rintro _ ⟨⟩
      exact (hopen.settled p hp fun h => nomatch hquiesces.symm.trans h.1).1
  | quiet hh hfollows =>
    rw [hh] at hloss
    exact plannedLossless_of hp (hloss.rehandle hfollows.hook hfollows.pass hfollows.runs)
  | due hh _ _ hhook hpass hruns =>
    rw [hh] at hloss
    exact plannedLossless_of hp (hloss.rehandle hhook hpass fun idx w h => ⟨w, hruns idx w h⟩)
  | @drives _ h h' _ hh hp' hhook hpass _ hcursor hwhen =>
    -- workers start while the plan is converting
    have hconverting : p.phase = .converting := by
      rw [hsame hp'] at hwhen
      rcases hwhen with hconverting | ⟨i, r, plan, rfl, hr, hphase⟩
      · exact hconverting
      · have hresume := hcond h hh r hr p hp
        rw [hphase] at hresume
        exact hresume
    rw [hh] at hloss
    refine plannedLossless_of hp ⟨hloss.kinds, hloss.flipped, hloss.shadows, ?_, hloss.source,
      hloss.behind, ?_, ?_, ?_⟩
    · rintro _ k ⟨⟩ hk
      exact hloss.hook h k rfl (hhook.symm.trans hk)
    · exact fun hphase => nomatch hconverting.symm.trans hphase
    · exact fun hphase => nomatch hconverting.symm.trans hphase
    · intro hsettling
      exact nomatch hconverting.symm.trans (hloss.settling (hsettling.of_pass_eq hpass)).1
  | joined hh _ _ hhook hpass _ hruns =>
    rw [hh] at hloss
    exact plannedLossless_of hp (hloss.rehandle hhook hpass fun idx w h => ⟨w, hruns idx w h⟩)
  | @parked _ h h' _ hh _ hkeeps hruns =>
    rw [hh] at hloss
    have hafter := hloss.rehandle hkeeps.hook hkeeps.pass fun idx w h => ⟨w, hkeeps.runs idx w h⟩
    refine hrecord (planRecord_plan hp) rfl rfl (hafter.restatus nofun ?_)
    -- no worker runs beside a settling pass
    intro hsettling
    obtain ⟨_, pass, ⟨⟩, hsome, hstatus⟩ := hsettling.resolve_left nofun
    have hsome := hkeeps.pass.symm.trans hsome
    have hphase := (hloss.settling (.inr ⟨h, pass, rfl, hsome, hstatus⟩)).1
    obtain ⟨idx, w, hrun⟩ := hruns
    exact (hloss.idle hphase h rfl (.inl (by rw [hsome]; rfl)) idx w hrun).elim
  | dryRunFinalized hh _ _ hkeeps =>
    rw [hh] at hloss
    have hafter := hloss.rehandle hkeeps.hook hkeeps.pass fun idx w h => ⟨w, hkeeps.runs idx w h⟩
    exact hrecord (planRecord_plan hp) rfl rfl (hafter.restatus nofun fun _ => rfl)
  | @armed i h h' _ r plan hh hp' hr hphase hnone hhook hpass _ hruns =>
    have hquiesces := hcond h hh r hr p hp
    rw [hphase] at hquiesces
    rw [hsame hp'] at hhook
    rw [hh] at hloss
    refine plannedLossless_of hp ⟨hloss.kinds, hloss.flipped, hloss.shadows, ?_, hloss.source,
      hloss.behind, ?_, ?_, ?_⟩
    · rintro _ k ⟨⟩ hk
      exact ⟨_, (Option.some.inj (hhook.symm.trans hk)).symm⟩
    · rintro _ _ pass ⟨⟩ hsome
      exact nomatch hpass.symm.trans hsome
    · rintro hrolling _ ⟨⟩ hbusy idx w hrun
      rw [hpass] at hbusy
      exact hloss.idle hrolling h rfl (hbusy.imp_left fun h => nomatch h) idx w (hruns idx w hrun)
    · intro hsettling
      have hquiesces : p.status.quiesces = true := hquiesces
      exact nomatch hquiesces.symm.trans
        (congrArg MigrationStatus.quiesces (hsettling.of_no_pass hpass))
  | markedDone hh _ _ _ _ hfollows =>
    rw [hh] at hloss
    exact hrows rfl rfl (hloss.rehandle hfollows.hook hfollows.pass hfollows.runs)
  | backfilled hh hp' hrun hstaged hno hfollows =>
    rw [hsame hp'] at hstaged
    obtain ⟨_, _, _, -, hstage⟩ := id hstaged
    have hspec := stageBackfill_spec hstage
    rw [hh] at hloss
    have hafter := hloss.backfilled hrun fun id => hstaged.fate hno id
    exact hrows hspec.plan hspec.kind (hafter.rehandle hfollows.hook hfollows.pass hfollows.runs)
  | @wrote i h w hh hi hw hpass hno =>
    obtain ⟨hvalues, hshadows⟩ := hcond h hh w hi p hp
    rw [hh] at hloss
    have hrow : ∀ {id row}, (applyWrites s.data.rows w.staged.rows).lookup id = some row →
        s.data.rows.lookup id = some row ∧
          w.staged.written.foldl (fun f e => Function.update f e.1 e.2) s.written id =
            s.written id ∨
        WrittenRow field p.toPinnedPlan h w.staged id (s.data.rows.lookup id) (s.written id)
          (w.staged.written.foldl (fun f e => Function.update f e.1 e.2) s.written id) row :=
      fun hrow => (hw.fate hno s.written _).writtenRow (fun k hk => hloss.hook h k rfl hk) hrow
    have hafter : PlannedLossless field converter (s.data.apply { rows := w.staged.rows })
        (w.staged.written.foldl (fun f e => Function.update f e.1 e.2) s.written)
        (some { h with writers := h.writers.eraseIdx i }) := by
      refine plannedLossless_of (d := s.data.apply { rows := w.staged.rows }) hp
        ⟨hloss.kinds, hloss.flipped, ?_, ?_, ?_, ?_, ?_, ?_, ?_⟩
      · intro id row v hlive hv
        rcases hrow hlive with ⟨hold, -⟩ | hwritten
        · exact hloss.shadows id row v hold hv
        · rcases hwritten.shadows v hv with htarget | ⟨before, hbefore, hv'⟩
          · exact htarget
          · exact hloss.shadows id before v hbefore hv'
      · rintro _ k ⟨⟩ hk
        exact hloss.hook h k rfl hk
      · intro hkind id row hlive
        have hkind : s.data.kind = p.srcKind := hkind
        rcases hrow hlive with ⟨hold, hlast⟩ | hwritten
        · rw [hlast]
          exact hloss.source hkind id row hold
        · rcases hwritten.source with ⟨hlast, hmem⟩ | ⟨hlast, before, hbefore, hfield⟩
          · exact .inl ⟨hlast, hvalues hkind _ hmem⟩
          · rw [hlast]
            exact (hloss.source hkind id before hbefore).imp (fun h => h.of_eq hfield)
              fun h => ⟨h.1, h.2.of_eq hfield⟩
      · intro hphase id row hlive hbehind
        rcases hrow hlive with ⟨hold, -⟩ | hwritten
        · exact hloss.behind hphase id row hold hbehind
        · exact hshadows hphase _ hwritten.mem row rfl hbehind
      · rintro _ _ pass ⟨⟩ hsome
        exact nomatch hpass.symm.trans hsome
      · rintro hphase _ ⟨⟩ hbusy
        exact hloss.idle hphase h rfl hbusy
      · intro hsettling
        obtain ⟨hphase, hquiesces, hbare, hnone⟩ :=
          hloss.settled (.inl (hsettling.of_no_pass hpass)) (rfl : h.hook = h.hook)
        refine ⟨hphase, hquiesces, fun id row hlive => ?_, ?_⟩
        · rcases hrow hlive with ⟨hold, -⟩ | hwritten
          · exact hbare id row hold
          · exact hwritten.bare (hnone h rfl) fun before hbefore => hbare id before hbefore
        · rintro _ ⟨⟩
          exact hnone h rfl
    rw [← Sys.data_commit] at hafter
    exact hafter
  | created _ hnone => exact nomatch hnone.symm.trans hp
  | @cancelMarked h h' _ hh hp' hnone hconverting hhook hpass hruns =>
    rw [hsame hp'] at hconverting
    rw [hh] at hloss
    have hkind : s.data.kind = p.srcKind := by
      by_contra hne
      exact nomatch hconverting.symm.trans (hloss.flipped hne)
    have hstatus : p.status ≠ .cancelled :=
      fun h => nomatch hconverting.symm.trans (hloss.settling (.inl h)).1
    refine hrecord (planRecord_plan hp) rfl rfl ⟨hloss.kinds, fun h => absurd hkind h,
      hloss.shadows, ?_, ?_, ?_, ?_, ?_, ?_⟩
    · rintro _ k ⟨⟩ hk
      exact hloss.hook h k rfl (hhook.symm.trans hk)
    · intro _ id row hlive
      refine .inl ((hloss.source hkind id row hlive).resolve_right ?_)
      exact fun h => nomatch hconverting.symm.trans h.1
    · exact fun _ _ _ _ hbehind => absurd rfl hbehind.1
    · rintro _ _ pass ⟨⟩ hsome
      exact nomatch hpass.symm.trans hsome
    · rintro _ _ ⟨⟩ hbusy
      rw [hpass] at hbusy
      rcases hbusy with hsome | hcursor | hcancelled
      · cases hsome
      · exact absurd rfl hcursor
      · exact absurd hcancelled hstatus
    · exact fun hsettling => absurd (hsettling.of_no_pass hpass) hstatus
  | @taken _ h h' p' owner hh hp' hnone _ htakes hhook hpass _ hruns =>
    rw [hsame hp'] at hpass htakes
    have hidle : p.phase = .rollingBack → ∀ idx w, ¬ h.Runs idx w := by
      intro hphase
      cases htakes with
      | cutover _ hrolling => exact absurd hphase hrolling
      | driver _ hidle => exact hidle
      | terminalPass =>
        exact Handle.not_runs_of_backfill? (hcond h hh p hp hphase)
    rw [hh] at hloss
    refine plannedLossless_of hp ⟨hloss.kinds, hloss.flipped, hloss.shadows, ?_, hloss.source,
      hloss.behind, ?_, ?_, ?_⟩
    · rintro _ k ⟨⟩ hk
      exact hloss.hook h k rfl (hhook.symm.trans hk)
    · rintro _ _ pass ⟨⟩ hsome hfinal
      cases hpass.symm.trans hsome
      exact absurd hfinal terminalPass_ne_finalize
    · rintro hphase _ ⟨⟩ _ idx w hrun
      exact hidle hphase idx w (hruns idx w hrun)
    · intro hsettling
      refine hloss.settled (.inl (hsettling.of_terminalPass owner s.data.rows fun pass hsome => ?_)) hhook
      exact (Option.some.inj (hpass.symm.trans hsome)).symm
  | gateOpened hh _ hpass =>
    rw [hh] at hloss
    exact plannedLossless_of hp (hloss.setPass hpass rfl fun _ h => nomatch h)
  | gateReaped hh _ hpass =>
    rw [hh] at hloss
    exact hrows rfl rfl (hloss.setPass hpass rfl fun _ h => nomatch h)
  | @gateParked _ h _ pass o hh hp' hpass _ hreleased =>
    cases hsame hp'
    have hafter : PlannedLossless field converter
        ((s.data.apply (reapResolved s.data field p.toPinnedPlan)).apply
          (parkMigrationFailedKeepCursors s.data)) s.written o := by
      refine plannedLossless_of (Data.apply_plan (planRecord_plan hp)) ?_
      refine (hloss.release (Released.of_handle hh hreleased)).restatus nofun ?_
      rintro (hcancelled | ⟨h', pass, hh', hsome, -⟩)
      · cases hcancelled
      · exact nomatch (hreleased h' hh').2.1.symm.trans hsome
    rw [← Sys.data_commit, ← Sys.data_commit] at hafter
    exact hafter
  | @passMoved _ h _ pass phase hh hp' hpass _ _ _ _ _ _ hbehind _ =>
    rw [hsame hp'] at hbehind
    rw [hh] at hloss
    refine plannedLossless_of hp (hloss.setPass hpass rfl fun hphase hfinal id row hlive => ?_)
    exact hloss.behind hphase id row hlive (hbehind hfinal id row hlive)
  | @marked _ h _ pass hh hp' hpass hpok _ hconverting =>
    rw [hsame hp'] at hpok hconverting
    rw [hh] at hloss
    have hstatus : pass.plan.status ≠ .cancelled := fun h' =>
      nomatch hconverting.symm.trans (hloss.settling (.inr ⟨h, pass, rfl, hpass, h'⟩)).1
    have hplan := hpok.plan_eq
    generalize pass.plan.status = status at hplan hstatus
    rw [hplan]
    refine hrecord rfl rfl rfl ⟨hloss.kinds, fun _ => rfl, hloss.shadows, ?_, ?_,
      nofun, nofun, nofun, ?_⟩
    · rintro _ k ⟨⟩ hk
      exact hloss.hook h k rfl hk
    · intro hkind id row hlive
      exact (hloss.source hkind id row hlive).imp_right fun h => ⟨rfl, h.2⟩
    · rintro (hcancelled | ⟨_, _, ⟨⟩, ⟨⟩, hcancelled⟩)
      · exact absurd hcancelled hstatus
      · exact absurd hcancelled hstatus
  | @refused layers h _ pass o hh _ hpass _ _ hrefused hreleased =>
    obtain ⟨hkind, hnone⟩ := hcond hrefused p hp
    have hafter := hloss.release (Released.of_handle hh hreleased)
    refine hrecord (planRecord_plan hp) rfl rfl ⟨hloss.kinds, fun h => absurd hkind h,
      hloss.shadows, hafter.hook, ?_, nofun, nofun,
      nofun, ?_⟩
    · intro _ id row hlive
      refine .inl ((hloss.source hkind id row hlive).resolve_right ?_)
      rintro ⟨-, v, hv, htarget⟩
      exact hnone _ (AList.mem_lookup_iff.mp hlive) v hv htarget
    · rintro (hcancelled | ⟨h', pass, hh', hsome, -⟩)
      · cases hcancelled
      · exact nomatch (hreleased h' hh').2.1.symm.trans hsome
  | dropped hh _ _ _ _ _ hreleased =>
    exact plannedLossless_of hp (hloss.release (Released.of_handle hh hreleased))
  | @moved _ h _ pass attempts snapshot commit after more hh hp' hpass hpok hphase hno =>
    rw [hsame hp'] at hpok
    have hstaged := hpok.staged _ _ _ _ _ hphase
    obtain ⟨hgone, hfate⟩ := hstaged.fate hno
    obtain ⟨_, high, rows, rfl, rfl, -⟩ := hstaged.visits
    rw [hpok.pinned, hpok.cursor] at hfate
    have hbase : pass.kind = .rollback →
        (s.history.stateAt Data.apply snapshot).rows = s.data.rows := fun hkind =>
      hfresh h pass _ _ _ _ _ hh hpass hkind hphase
    have hphase' : p.phase = .cuttingOver ∨ p.phase = .rollingBack ∧ pass.kind = .rollback := by
      cases hkind : pass.kind with
      | cutover => exact .inl (hpok.cutting hkind (fun h => nomatch hphase.symm.trans h)
          fun h => nomatch hphase.symm.trans h)
      | rollback => exact .inr ⟨hpok.kind.mp hkind, rfl⟩
    have hkind : p.phase = .cuttingOver → pass.kind = .cutover :=
      fun hcut => hpok.kind_cutover fun h => nomatch hcut.symm.trans h
    rw [hh] at hloss
    -- each row that is there comes from one that was there
    have hrow : ∀ {id row}, (applyWrites s.data.rows rows).lookup id = some row →
        ∃ old, s.data.rows.lookup id = some old ∧
          (p.phase = .cuttingOver → row = old ∨
            AtTarget field p.toPinnedPlan row ∧ Unshadowed field row) ∧
          (p.phase = .rollingBack → row.lookup field = old.lookup field ∧
            (row = old ∨ Unshadowed field row) ∧
            (Behind high id ∨ more = false → Unshadowed field row)) := by
      intro id row hlive
      cases hold : s.data.rows.lookup id with
      | none => exact nomatch (hgone id hold).symm.trans hlive
      | some old =>
        obtain ⟨new, hnew, hfate⟩ := hfate id old hold
        cases hnew.symm.trans hlive
        refine ⟨old, rfl, fun hcut => ?_, fun hroll => ?_⟩
        · rw [hkind hcut] at hfate
          exact cutover_moved (fun w hw => hloss.shadows id old w hold hw) hfate
        · have hkind := hpok.kind.mpr hroll
          rw [hbase hkind, hkind] at hfate
          exact rollback_moved hold (hloss.behind hroll id old hold) hfate
    have hbare : ∀ {id row}, (applyWrites s.data.rows rows).lookup id = some row →
        ∃ old, s.data.rows.lookup id = some old ∧ (row = old ∨ Unshadowed field row) := by
      intro id row hlive
      obtain ⟨old, hold, hcut, hroll⟩ := hrow hlive
      refine ⟨old, hold, ?_⟩
      rcases hphase' with hphase | ⟨hphase, -⟩
      · exact (hcut hphase).imp_right And.right
      · exact (hroll hphase).2.1
    have hsettling : pass.plan.status = .cancelled → p.phase = .rollingBack ∧
        AllUnshadowed field (applyWrites s.data.rows rows) ∧ h.hook = none := by
      intro hstatus
      obtain ⟨hphase, -, hall, hnone⟩ := hloss.settling (.inr ⟨h, pass, rfl, hpass, hstatus⟩)
      refine ⟨hphase, fun id row hlive => ?_, hnone h rfl⟩
      obtain ⟨old, hold, rfl | hrow⟩ := hbare hlive
      · exact hall id _ hold
      · exact hrow
    have hplan := hpok.plan_eq
    generalize hstatus : pass.plan.status = status at hplan hsettling
    have hafter : LosslessAt field converter { p with status, cutoverCursor := high } s.data.kind
        (applyWrites s.data.rows rows) s.written (some (h.setPass
          { pass with
            plan := { pass.plan with cutoverCursor := high }
            phase := if more then .scan 0 else .finalize })) := by
      refine ⟨hloss.kinds, hloss.flipped, ?_, ?_, ?_, ?_, ?_, ?_, ?_⟩
      · intro id row w hlive hw
        obtain ⟨old, hold, rfl | hrow⟩ := hbare hlive
        · exact hloss.shadows id _ w hold hw
        · exact nomatch hw.symm.trans hrow.1
      · rintro _ k ⟨⟩ hk
        exact hloss.hook h k rfl hk
      · intro hkind id row hlive
        obtain ⟨old, hold, hcut, hroll⟩ := hrow hlive
        have hold := hloss.source hkind id old hold
        rcases hphase' with hphase | ⟨hphase, -⟩
        · rcases hcut hphase with rfl | ⟨htarget, -⟩
          · exact hold
          · exact .inr ⟨hphase, htarget⟩
        · refine .inl ((hold.resolve_right ?_).of_eq (hroll hphase).1)
          exact fun h => nomatch hphase.symm.trans h.1
      · intro hphase id row hlive hbehind
        obtain ⟨old, -, -, hroll⟩ := hrow hlive
        exact (hroll hphase).2.2 (.inl hbehind)
      · rintro hphase _ _ ⟨⟩ ⟨⟩ hfinal id row hlive
        obtain ⟨old, -, -, hroll⟩ := hrow hlive
        refine (hroll hphase).2.2 (.inr ?_)
        cases more with
        | true => cases hfinal
        | false => rfl
      · rintro hphase _ ⟨⟩ _
        exact hloss.idle hphase h rfl (.inl (by rw [hpass]; rfl))
      · intro h'
        have hcancelled : status = .cancelled := by
          rcases h' with hcancelled | ⟨_, _, ⟨⟩, ⟨⟩, hcancelled⟩
          · exact hcancelled
          · exact hstatus.symm.trans hcancelled
        obtain ⟨hphase, hall, hnone⟩ := hsettling hcancelled
        refine ⟨hphase, ?_, hall, ?_⟩
        · rw [hcancelled]
          rfl
        · rintro _ ⟨⟩
          exact hnone
    have hend : PlannedLossless field converter
        (s.data.apply { rows, plan := some { pass.plan with cutoverCursor := high } }) s.written
        (some (h.setPass { pass with
            plan := { pass.plan with cutoverCursor := high }
            phase := if more then .scan 0 else .finalize })) := by
      refine plannedLossless_of (p := { p with status, cutoverCursor := high })
        (Data.apply_plan ?_) hafter
      rw [hplan]
    rw [← Sys.data_commit] at hend
    exact hend
  | @cutOver layers h _ pass o hh hp' hpass _ _ hcutting hreleased =>
    rw [hsame hp'] at hcutting
    have hafter : PlannedLossless field converter
        (s.data.apply (finalizeMigrationCutover s.data)) s.written o := by
      have hkind : (s.data.apply (finalizeMigrationCutover s.data)).kind = p.targetKind := by
        unfold Data.apply finalizeMigrationCutover
        rw [hp]
        rfl
      refine plannedLossless_of (Data.apply_plan (planRecord_plan hp)) ?_
      rw [hkind]
      refine ⟨hloss.kinds, fun _ => hcutting, hloss.shadows, ?_, ?_, ?_, ?_, ?_, ?_⟩
      · intro h' k hh' hk
        exact nomatch (hreleased h' hh').1.symm.trans hk
      · exact fun h => absurd h.symm hloss.kinds
      · exact fun h => nomatch hcutting.symm.trans h
      · exact fun h => nomatch hcutting.symm.trans h
      · exact fun h => nomatch hcutting.symm.trans h
      · rintro (hcancelled | ⟨h', pass, hh', hsome, -⟩)
        · cases hcancelled
        · exact nomatch (hreleased h' hh').2.1.symm.trans hsome
    rw [← Sys.data_commit] at hafter
    exact hafter
  | @cancelled _ h _ pass o hh hp' hpass _ hfinal hrolling hreleased =>
    rw [hsame hp'] at hrolling
    have hbare := hloss.finalize hrolling h pass hh hpass hfinal
    have hkind : s.data.kind = p.srcKind := by
      by_contra hne
      exact nomatch hrolling.symm.trans (hloss.flipped hne)
    refine hrecord (planRecord_plan hp) rfl rfl ⟨hloss.kinds, fun h => absurd hkind h,
      hloss.shadows, ?_, hloss.source, hloss.behind, fun _ _ _ _ _ _ => hbare, ?_, fun _ => ?_⟩
    · intro h' k hh' hk
      exact nomatch (hreleased h' hh').1.symm.trans hk
    · intro _ h' hh' _ idx w hrun
      exact hloss.idle hrolling h hh (.inl (by rw [hpass]; rfl)) idx w
        ((hreleased h' hh').2.2.2 idx w hrun)
    · exact ⟨hrolling, rfl, hbare, fun h' hh' => (hreleased h' hh').1⟩
  | retried => exact hcond.elim
  | cleared => exact hcond.elim

theorem RollbackFresh.step (hs : WellStaged field converter s) (hp : s.data.plan = some p)
    (hloss : LosslessAt field converter p s.data.kind s.data.rows s.written s.handle)
    (hfresh : RollbackFresh s) (heffect : Effect field spec converter s e s') :
    RollbackFresh s' := by
  have hsame : ∀ {p' : MigrationPlan}, s.data.plan = some p' → p' = p :=
    fun hp' => Option.some.inj (hp'.symm.trans hp)
  -- the pass is the one before, and no row is written
  have hkept : ∀ {h : Handle} {c : Commit}, s.handle = some h → c.rows = [] →
      ∀ pass attempts snapshot commit after more, h.pass = some pass → pass.kind = .rollback →
        pass.phase = .staged attempts snapshot commit after more →
          ((s.commit c).dataAt snapshot).rows = (s.commit c).data.rows := by
    intro h c hh hc pass attempts snapshot commit after more hpass hkind hphase
    have hpok := (hs h hh).pass p hp pass hpass
    have hle := (hpok.staged _ _ _ _ _ hphase).1
    rw [Sys.data_commit, Data.apply_rows_nil hc]
    unfold Sys.dataAt Sys.commit
    rw [SnapshotHistory.stateAt_commit hle]
    exact hfresh h pass _ _ _ _ _ hh hpass hkind hphase
  -- no worker runs beside a rollback
  have hidle : ∀ {h : Handle} {idx : Nat} {w : WorkerPhase}, s.handle = some h → h.Runs idx w →
      ∀ pass, h.pass = some pass → pass.kind ≠ .rollback := by
    intro h idx w hh hrun pass hpass hkind
    have hpok := (hs h hh).pass p hp pass hpass
    exact hloss.idle (hpok.kind.mp hkind) h hh (.inl (by rw [hpass]; rfl)) idx w hrun
  have hend : ∀ {s' : Sys}, (∀ h', s'.handle = some h' → h'.pass = none) → RollbackFresh s' :=
    fun hnone h' pass _ _ _ _ _ hh' hpass => nomatch (hnone h' hh').symm.trans hpass
  cases heffect with
  | same => exact hfresh
  | stopped => exact hend fun _ h => nomatch h
  | opened _ hopen =>
    rintro _ pass _ _ _ _ _ ⟨⟩ hpass _ hphase
    rw [(hopen.pass p pass hp hpass).1] at hphase
    unfold terminalPass at hphase
    split_ifs at hphase
  | quiet hh hfollows =>
    rintro _ pass _ _ _ _ _ ⟨⟩ hpass
    exact hfresh _ pass _ _ _ _ _ hh (hfollows.pass.symm.trans hpass)
  | due hh _ _ _ hpass' =>
    rintro _ pass _ _ _ _ _ ⟨⟩ hpass
    exact hfresh _ pass _ _ _ _ _ hh (hpass'.symm.trans hpass)
  | drives hh _ _ hpass' =>
    rintro _ pass _ _ _ _ _ ⟨⟩ hpass
    exact hfresh _ pass _ _ _ _ _ hh (hpass'.symm.trans hpass)
  | joined hh _ _ _ hpass' =>
    rintro _ pass _ _ _ _ _ ⟨⟩ hpass
    exact hfresh _ pass _ _ _ _ _ hh (hpass'.symm.trans hpass)
  | parked hh _ hkeeps hruns =>
    obtain ⟨idx, w, hrun⟩ := hruns
    rintro _ pass _ _ _ _ _ ⟨⟩ hpass hkind
    exact absurd hkind (hidle hh hrun pass (hkeeps.pass.symm.trans hpass))
  | dryRunFinalized hh _ _ hkeeps =>
    rintro _ pass _ _ _ _ _ ⟨⟩ hpass hkind hphase
    exact hkept hh rfl pass _ _ _ _ _ (hkeeps.pass.symm.trans hpass) hkind hphase
  | armed _ _ _ _ _ _ hpass' =>
    refine hend ?_
    rintro _ ⟨⟩
    exact hpass'
  | markedDone hh _ hrun _ _ hfollows =>
    rintro _ pass _ _ _ _ _ ⟨⟩ hpass hkind
    exact absurd hkind (hidle hh hrun pass (hfollows.pass.symm.trans hpass))
  | backfilled hh _ hrun _ _ hfollows =>
    rintro _ pass _ _ _ _ _ ⟨⟩ hpass hkind
    exact absurd hkind (hidle hh hrun pass (hfollows.pass.symm.trans hpass))
  | wrote hh _ _ hpass =>
    refine hend ?_
    rintro _ ⟨⟩
    exact hpass
  | created _ hnone => exact nomatch hnone.symm.trans hp
  | cancelMarked _ _ _ _ _ hpass' =>
    refine hend ?_
    rintro _ ⟨⟩
    exact hpass'
  | taken _ _ _ _ _ _ hpass' =>
    rintro _ pass _ _ _ _ _ ⟨⟩ hpass _ hphase
    cases hpass'.symm.trans hpass
    unfold terminalPass at hphase
    split_ifs at hphase
  | gateOpened =>
    rintro _ _ _ _ _ _ _ ⟨⟩ ⟨⟩ _ hphase
    cases hphase
  | gateReaped =>
    rintro _ _ _ _ _ _ _ ⟨⟩ ⟨⟩ _ hphase
    cases hphase
  | gateParked _ _ _ _ hreleased => exact hend fun h' hh' => (hreleased h' hh').2.1
  | passMoved _ _ _ _ _ _ _ _ _ _ hsnapshot =>
    rintro _ _ _ _ _ _ _ ⟨⟩ ⟨⟩ _ hphase
    rw [hsnapshot _ _ _ _ _ hphase]
    exact congrArg Data.rows SnapshotHistory.stateAt_version
  | marked =>
    rintro _ _ _ _ _ _ _ ⟨⟩ ⟨⟩ _ hphase
    cases hphase
  | refused _ _ _ _ _ _ hreleased => exact hend fun h' hh' => (hreleased h' hh').2.1
  | dropped _ _ _ _ _ _ hreleased => exact hend fun h' hh' => (hreleased h' hh').2.1
  | @moved _ _ _ _ _ _ _ _ more =>
    rintro _ _ _ _ _ _ _ ⟨⟩ ⟨⟩ _ hphase
    cases more with
    | true => cases hphase
    | false => cases hphase
  | cutOver _ _ _ _ _ _ hreleased => exact hend fun h' hh' => (hreleased h' hh').2.1
  | cancelled _ _ _ _ _ _ hreleased => exact hend fun h' hh' => (hreleased h' hh').2.1
  | retried hh _ hpass =>
    refine hend fun h' hh' => ?_
    cases hh.symm.trans hh'
    exact hpass
  | cleared hh hpass =>
    refine hend fun h' hh' => ?_
    cases hh.symm.trans hh'
    exact hpass

theorem Created.lossless (hcreated : Created spec converter s e s' p h h')
    (hs : HandleOk field converter s.history h) (hplan : s.data.plan = none)
    (hbefore : BeforePlan field s.data s.written s.handle) :
    LosslessAt field converter p s'.data.kind s'.data.rows s'.written s'.handle := by
  have hplanned := hcreated.plan
  have hkinds := hcreated.kinds
  have hhook := hcreated.hook
  rw [hcreated.handle, hcreated.written, hcreated.data]
  subst hplanned
  refine ⟨hkinds, fun h => absurd rfl h, ?_, ?_, ?_, nofun, nofun,
    nofun, ?_⟩
  · intro id row w hrow hw
    exact nomatch hw.symm.trans (hbefore.rows id row hrow).2.2.1
  · rintro _ k ⟨⟩ hk
    rw [hhook, (hs.unplanned hplan).1] at hk
    split_ifs at hk
    exact ⟨true, (Option.some.inj hk).symm⟩
  · intro _ id row hrow
    obtain ⟨hlast, hkind, -⟩ := hbefore.rows id row hrow
    exact .inl ⟨hlast, hlast ▸ hkind⟩
  · rintro (hcancelled | ⟨_, pass, ⟨⟩, hsome, -⟩)
    · cases hcancelled
    · exact nomatch hcreated.pass.symm.trans hsome

theorem LosslessInv.step (hinv : LosslessInv field converter s) (hcond : KeepsLossless field s e) :
    LosslessInv field converter (Migration.step field spec converter s e) := by
  obtain ⟨heffect, hstaged⟩ := step_spec spec hinv.staged e
  have hbefore := fun hnone => (hinv.before (heffect.plan_none hnone)).step hinv.staged heffect hnone
  cases hplan : s.data.plan with
  | some p =>
    have hloss := hinv.planned p hplan
    exact ⟨hstaged, hbefore, hloss.step hplan hinv.fresh heffect hcond,
      hinv.fresh.step hinv.staged hplan hloss heffect⟩
  | none =>
    have hidle : ∀ h', (Migration.step field spec converter s e).handle = some h' →
        h'.pass = none := by
      intro h' hh'
      cases hplan' : (Migration.step field spec converter s e).data.plan with
      | none => exact ((hstaged h' hh').unplanned hplan').2.2.2.1
      | some p =>
        obtain ⟨_, _, hcreated⟩ := heffect.created_of hplan hplan'
        cases hcreated.handle.symm.trans hh'
        exact hcreated.pass
    refine ⟨hstaged, hbefore, fun p hp => ?_, fun h' pass _ _ _ _ _ hh' hpass =>
      nomatch (hidle h' hh').symm.trans hpass⟩
    obtain ⟨h, h', hcreated⟩ := heffect.created_of hplan hp
    exact hcreated.lossless (hinv.staged h hcreated.before) hplan (hinv.before hplan)

theorem start_losslessInv {rows : Rows} {kind : ScalarType}
    (hrows : ∀ id row, rows.lookup id = some row →
      OfKind kind (row.lookup field) ∧ Unshadowed field row) :
    LosslessInv field converter (start field rows kind) :=
  ⟨start_wellStaged, fun _ => start_beforePlan hrows, fun _ h => (nomatch h),
    fun _ _ _ _ _ _ _ h => nomatch h⟩

end

variable {field spec converter}

/-- Each run that keeps to the conditions restores a cancelled migration. -/
theorem cancelled_restored {rows : Rows} {kind : ScalarType}
    (hrows : ∀ id row, rows.lookup id = some row →
      OfKind kind (row.lookup field) ∧ Unshadowed field row)
    {run : List Event}
    (hrun : Run.Along (step field spec converter) (KeepsLossless field) (start field rows kind) run)
    (hcancelled : Cancelled (Run.exec (step field spec converter) (start field rows kind) run)) :
    ∃ p, (Run.exec (step field spec converter) (start field rows kind) run).data.plan = some p ∧
      Restored field p.srcKind
        (Run.exec (step field spec converter) (start field rows kind) run) := by
  have hinv : LosslessInv field converter
      (Run.exec (step field spec converter) (start field rows kind) run) :=
    Run.exec_invariant (fun _ _ hinv hcond => hinv.step hcond) (start_losslessInv hrows) hrun
  obtain ⟨p, hp, hstatus⟩ := hcancelled
  have hloss := hinv.planned p hp
  obtain ⟨hphase, -, hbare, hnone⟩ := hloss.settling (.inl hstatus)
  have hkind : (Run.exec (step field spec converter) (start field rows kind) run).data.kind =
      p.srcKind := by
    by_contra hne
    exact nomatch hphase.symm.trans (hloss.flipped hne)
  refine ⟨p, hp, hkind, fun id row hlive => ?_, hnone⟩
  have horiginal := (hloss.source hkind id row hlive).resolve_right
    fun h => nomatch hphase.symm.trans h.1
  exact ⟨horiginal.1, horiginal.2, hbare id row hlive⟩

def cancelledRun : List Event :=
  [.openDatabase (sampleType .u32) 0, .registerConverter, .createMigration, .spawnDriver,
    .driver] ++ List.replicate 4 (.worker 0 noLayers) ++
  [setField 1 (.u32 9), .commitWrite 0, .cancel] ++ List.replicate 8 (.worker 0 noLayers) ++
    List.replicate 8 (.worker 1 noLayers) ++ [.driver, .driver, .driver] ++
    List.replicate 7 (.pass noLayers)

theorem cancelled_restored_written :
    ∃ p, (Run.exec (step "n" (sampleSpec .stop 2) widen) (start "n" sampleRows .u32)
        cancelledRun).data.plan = some p ∧
      Restored "n" p.srcKind (Run.exec (step "n" (sampleSpec .stop 2) widen)
        (start "n" sampleRows .u32) cancelledRun) :=
  cancelled_restored sampleRows_plain (by decide +kernel) (by decide +kernel)

/-- A cutover ahead of the backfill promotes one row and is refused at the next. -/
def refusedRun : List Event :=
  [.openDatabase (sampleType .u32) 0, .registerConverter, .createMigration, .spawnDriver,
    .driver] ++ List.replicate 4 (.worker 0 noLayers) ++
  [.stop, .openDatabase (sampleType .u64) 0, .cutover] ++ List.replicate 5 (.pass noLayers) ++
  [.cancel, .terminalPass] ++ List.replicate 5 (.pass noLayers)

/-- The migration is cancelled, and the promoted row stays at the target kind. -/
theorem promoted_row_cancelled :
    Cancelled (Run.exec (step "n" (sampleSpec .stop 2) widen) (start "n" sampleRows .u32)
      refusedRun) ∧
    (Run.exec (step "n" (sampleSpec .stop 2) widen) (start "n" sampleRows .u32) refusedRun).written
      1 = some (.u32 5) ∧
    ∃ row ∈ (Run.exec (step "n" (sampleSpec .stop 2) widen) (start "n" sampleRows .u32)
      refusedRun).data.rows.lookup 1, row.lookup "n" = some (.u64 5) := by
  decide +kernel

end RhypeDb.Migration
