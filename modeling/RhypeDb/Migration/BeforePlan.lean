import RhypeDb.Migration.PassSteps

/-! What holds before there is a plan, and what the effects leave of the committed data. -/

namespace RhypeDb.Migration

open Engine Storage Fallible

variable {field : String} {spec : MigrationPlanSpec} {converter : Converter} {kind : ScalarType}
  {p : MigrationPlan} {hist : History} {pass : Pass}

section

variable {s : Sys} {d : Data} {c : Commit}

theorem Data.apply_kind_none (h : c.kind = none) : (d.apply c).kind = d.kind := by
  unfold Data.apply
  rw [h]
  rfl

theorem Data.apply_rows_nil (h : c.rows = []) : (d.apply c).rows = d.rows := by
  unfold Data.apply
  rw [h]
  rfl

end

theorem PassOk.plan_eq
    (h : PassOk field hist p pass) : pass.plan = { p with status := pass.plan.status } := by
  have hpinned := h.pinned
  have hphase := h.phase
  have hcursor := h.cursor
  cases hplan : pass.plan with
  | mk pinned status phase cursor =>
    rw [hplan] at hpinned hphase hcursor
    subst hpinned
    subst hphase
    subst hcursor
    rfl

theorem PassOk.kind_cutover
    (h : PassOk field hist p pass) (hphase : p.phase ≠ .rollingBack) : pass.kind = .cutover := by
  cases hkind : pass.kind with
  | cutover => rfl
  | rollback => exact absurd (h.kind.mp hkind) hphase

theorem OfKind.or {a b : Option Value} (ha : OfKind kind a)
    (hb : OfKind kind b) : OfKind kind (a.or b) := by
  cases a with
  | none => exact hb
  | some v => exact ha

section

structure BeforePlan (field : String) (d : Data) (written : Id → Option Value)
    (handle : Option Handle) : Prop where
  rows : ∀ id row, d.rows.lookup id = some row →
    row.lookup field = written id ∧ OfKind d.kind (row.lookup field) ∧ Unshadowed field row
  typed : ∀ h, handle = some h → declaredKind field h.type = some d.kind
  cursors : d.cursors = ∅

variable {s s' : Sys} {e : Event} {rows : Rows}

theorem Data.plan_of_apply {d : Data} {c : Commit} (h : (d.apply c).plan = none) :
    d.plan = none := (Option.or_eq_none_iff.mp h).2

theorem Effect.plan_none (heffect : Effect field spec converter s e s')
    (hnone : s'.data.plan = none) : s.data.plan = none := by
  have hcommit : ∀ c, (s.commit c).data.plan = none → s.data.plan = none := by
    intro c hc
    rw [Sys.data_commit] at hc
    exact Data.plan_of_apply hc
  cases heffect with
  | same | stopped | opened | quiet | due | drives | joined | armed | taken | gateOpened |
    passMoved | dropped => exact hnone
  | gateParked =>
    have hreaped := hnone
    exact hcommit _ (Data.plan_of_apply (Sys.data_commit ▸ hreaped))
  | _ => exact hcommit _ hnone

theorem WriteFate.plain {h : Handle} {staged : StagedWrite} {id : Id} {old new : Option FieldMap}
    {last last' : Option Value}
    (hfate : WriteFate field h staged id old last new last') (hhook : h.hook = none)
    (hkind : declaredKind field h.type = some kind)
    (hold : ∀ row, old = some row → row.lookup field = last ∧ OfKind kind (row.lookup field) ∧
      Unshadowed field row) {row : FieldMap} (hrow : new = some row) :
    row.lookup field = last' ∧ OfKind kind (row.lookup field) ∧ Unshadowed field row := by
  cases hfate with
  | kept => exact hold row hrow
  | created hunshadowed htyped hblob _ _ =>
    cases hrow
    rw [hhook] at hblob
    cases hblob
    exact ⟨rfl, htyped kind hkind, hunshadowed⟩
  | updated hbefore hfield hshadow hcv htyped hblob _ _ =>
    cases hrow
    rw [hhook] at hblob
    cases hblob
    obtain ⟨hlast, hof, hunshadowed⟩ := hold _ hbefore
    rw [hfield, hlast]
    rw [hlast] at hof
    exact ⟨rfl, (htyped kind hkind).or hof, hshadow.trans hunshadowed.1, hcv.trans hunshadowed.2⟩
  | deleted => cases hrow

theorem start_beforePlan (hrows : ∀ id row, rows.lookup id = some row →
      OfKind kind (row.lookup field) ∧ Unshadowed field row) :
    BeforePlan field (start field rows kind).data (start field rows kind).written none := by
  refine ⟨fun id row hrow => ?_, fun _ h => (nomatch h), rfl⟩
  obtain ⟨hkind, hunshadowed⟩ := hrows id row hrow
  refine ⟨?_, hkind, hunshadowed⟩
  have hrow : rows.lookup id = some row := hrow
  unfold start
  dsimp only
  rw [hrow]
  rfl

theorem start_wellStaged :
    WellStaged field converter (start field rows kind) := wellStaged_none rfl

theorem BeforePlan.step (hs : WellStaged field converter s)
    (hbefore : BeforePlan field s.data s.written s.handle)
    (heffect : Effect field spec converter s e s') (hnone : s'.data.plan = none) :
    BeforePlan field s'.data s'.written s'.handle := by
  have hplan := heffect.plan_none hnone
  have hnever : ∀ {p : MigrationPlan} {P : Prop}, s.data.plan = some p → P :=
    fun hp => nomatch hplan.symm.trans hp
  cases heffect with
  | same => exact hbefore
  | stopped => exact ⟨hbefore.rows, fun _ h => (nomatch h), hbefore.cursors⟩
  | opened _ hopen =>
    refine ⟨hbefore.rows, ?_, hbefore.cursors⟩
    rintro _ ⟨⟩
    exact (hopen.unplanned hplan).2.2
  | quiet hh hfollows =>
    refine ⟨hbefore.rows, ?_, hbefore.cursors⟩
    rintro _ ⟨⟩
    rw [hfollows.type]
    exact hbefore.typed _ hh
  | @wrote i h w hh hi hw hpass hno =>
    have hhook : h.hook = none := ((hs h hh).unplanned hplan).1
    have hkind := hbefore.typed h hh
    have hafter : BeforePlan field (s.data.apply { rows := w.staged.rows })
        (w.staged.written.foldl (fun f e => Function.update f e.1 e.2) s.written)
        (some { h with writers := h.writers.eraseIdx i }) := by
      refine ⟨fun id row hrow => ?_, ?_, hbefore.cursors⟩
      · exact (hw.fate hno s.written id).plain hhook hkind (fun row => hbefore.rows id row) hrow
      · rintro _ ⟨⟩
        exact hkind
    rw [← Sys.data_commit] at hafter
    exact hafter
  | @created h =>
    have hsome : (s.commit { plan := some (planOf spec s.data.kind h.nextObjectId) }).data.plan =
        none := hnone
    rw [Sys.data_commit] at hsome
    cases hsome
  | cleared hh =>
    have hafter : BeforePlan field (s.data.apply (clearQuarantine s.data)) s.written s.handle :=
      ⟨hbefore.rows, hbefore.typed, hbefore.cursors⟩
    rw [← Sys.data_commit] at hafter
    exact hafter
  | _ => exact hnever (by assumption)

structure Created (spec : MigrationPlanSpec) (converter : Converter) (s : Sys) (e : Event)
    (s' : Sys) (p : MigrationPlan) (h h' : Handle) : Prop where
  before : s.handle = some h
  plan : p = planOf spec s.data.kind h.nextObjectId
  kinds : p.srcKind ≠ p.targetKind
  hook : h'.hook = if p.dryRun then h.hook else some (hookOf converter p.toPinnedPlan true)
  pass : h'.pass = none
  due : ¬ h'.Due
  runs : ∀ idx w, ¬ h'.Runs idx w
  data : s'.data = s.data.apply { plan := some p }
  handle : s'.handle = some h'
  written : s'.written = s.written
  converters : s'.converters = converter :: s.converters
  event : e = .createMigration

theorem Effect.created_of {p : MigrationPlan} (heffect : Effect field spec converter s e s')
    (hplan : s.data.plan = none) (hp : s'.data.plan = some p) :
    ∃ h h', Created spec converter s e s' p h h' := by
  have hnever : ∀ {p : MigrationPlan} {P : Prop}, s.data.plan = some p → P :=
    fun hp => nomatch hplan.symm.trans hp
  have hcommit : ∀ {c : Commit} {P : Prop}, c.plan = none → (s.commit c).data.plan = some p → P := by
    intro c P hc hsome
    rw [Sys.data_commit, Data.apply_plan_none hc] at hsome
    exact hnever hsome
  cases heffect with
  | same | stopped | opened | quiet => exact hnever hp
  | wrote => exact hcommit rfl hp
  | cleared => exact hcommit rfl hp
  | @created h h' hh _ hpass hwriters hkind hhook hpass' hdue hruns =>
    have hdata : (s.commit { plan := some (planOf spec s.data.kind h.nextObjectId) }).data =
        s.data.apply { plan := some (planOf spec s.data.kind h.nextObjectId) } := Sys.data_commit
    have hsome : (s.commit { plan := some (planOf spec s.data.kind h.nextObjectId) }).data.plan =
        some p := hp
    rw [hdata] at hsome
    cases hsome
    exact ⟨h, h', hh, rfl, hkind, hhook, hpass', hdue, hruns, hdata, rfl, rfl, rfl, rfl⟩
  | _ => exact hnever (by assumption)

end

/-! A type with one field, widened from 32 to 64 bits, for runs on fixed inputs. -/

def sampleField (kind : ScalarType) : FieldDef where
  name := "n"
  fieldType := .scalar kind
  directives := []
  fieldId := 1
  relId := 0

theorem sampleField_checked : ∀ f ∈ [sampleField kind], checkIdentifier f.name = true := by
  intro f hf
  rw [List.mem_singleton.mp hf]
  exact (by decide : checkIdentifier "n" = true)

def sampleType (kind : ScalarType) : CheckedType where
  t := { name := "T", typeId := 1, fields := [sampleField kind] }
  checked := sampleField_checked

def widen : Converter := fun _ v =>
  match v with
  | .u32 n => .ok (.u64 n.toUInt64)
  | _ => .error .storage

def sampleSpec (errorPolicy : ErrorPolicy) (parallelDegree : Nat) : MigrationPlanSpec where
  targetFieldType := .u64
  converterVersion := 1
  chunkSize := 1
  parallelDegree := parallelDegree
  errorPolicy := errorPolicy
  dryRun := false
  quarantineCap := 0

def sampleRow (n : UInt32) : FieldMap := (∅ : FieldMap).insert "n" (.u32 n)

def sampleRows : Rows := ((∅ : Rows).insert 1 (sampleRow 5)).insert 2 (sampleRow 7)

def noLayers : Layers := { dead := [], saturated := false }

def setField (id : Id) (value : Value) : Event :=
  .write (.update id ((∅ : FieldMap).insert "n" value))

theorem sampleRows_plain : ∀ id row, sampleRows.lookup id = some row →
    OfKind .u32 (row.lookup "n") ∧ Unshadowed "n" row := by
  intro id row hrow
  have hall : ∀ e ∈ sampleRows.entries, OfKind .u32 (e.2.lookup "n") ∧ Unshadowed "n" e.2 := by
    decide +kernel
  exact hall _ (AList.mem_lookup_iff.mp hrow)

end RhypeDb.Migration
