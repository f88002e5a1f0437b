import RhypeDb.Basic.Run
import RhypeDb.SchemaCatalog.Reconcile

/-! Histories of a stored catalog. Every step is one commit, or none where it fails, so a process
that stops between two commits leaves a state between two steps. -/

namespace RhypeDb.SchemaCatalog

open Engine Fallible Lineage Run

/-- An opening, a verb, a commit of an online migration, or writes that leave the catalog alone:
those of clients to objects, and a migration's entry in the log. -/
inductive Step
  | open (schema : Schema) (allowSchemaShrink : Bool)
  | rename (verb : RenameVerb)
  | changeFieldType (schema : Schema) (verb : FieldTypeChangeVerb)
  | createPlan (schema : Schema) (typeName fieldName : String) (targetKind : Kind) (dryRun : Bool)
  | setPlanStatus (planId : Nat) (status : Migration.MigrationStatus)
  | finalizeCutover (planId : Nat)
  | writeObjects (objects : SortedMap ObjectKey FieldMap) (versions : SortedMap ObjectKey Nat)
  | logApplied (ordinal : Nat) (name : String)

/-- `run_migrations` persists a migration's entry with the count of those applied. -/
def logMigration (st : Stored) (ordinal : Nat) (name : String) : Stored :=
  { st with
    migrationLog := st.migrationLog.insert ordinal name
    migrationVersion := some (ordinal + 1) }

def attempt (st : Stored) : Step → Except CatalogError Stored
  | .open schema shrink => (loadOrInitialize st schema shrink).map Prod.snd
  | .rename verb => applyMigration st verb
  | .changeFieldType schema verb => applyFieldTypeChange st schema verb
  | .createPlan schema typeName fieldName kind dryRun =>
    createMigrationPlan st schema typeName fieldName kind dryRun
  | .setPlanStatus planId status => setPlanStatus st planId status
  | .finalizeCutover planId => finalizeMigrationCutover st planId
  | .writeObjects objects versions => .ok { st with objects := objects, versions := versions }
  | .logApplied ordinal name => .ok (logMigration st ordinal name)

/-- A failed step leaves all as it was. -/
def step (st : Stored) (a : Step) : Stored :=
  match attempt st a with
  | .ok st' => st'
  | .error _ => st

theorem step_cases (st : Stored) (a : Step) : attempt st a = .ok (step st a) ∨ step st a = st := by
  unfold step
  cases attempt st a with
  | ok st' => exact .inl rfl
  | error e => exact .inr rfl

theorem step_of_attempt {st st' : Stored} {a : Step} (h : attempt st a = .ok st') :
    step st a = st' := by
  unfold step
  rw [h]

/-- A store that the code wrote: what marks it initialized, and whose rows each have their own id
below the stored counter. -/
structure Sound (st : Stored) : Prop where
  marks : st.initialized = st.format.isSome
  blank : st.format = none → (∀ p, st.row p = none) ∧ ∀ k, st.counter k = 0
  identified : Identified reading st.row st.counter
  parents : Parents st.row
  relations : Relations st.row

section

variable {st : Stored} {format : Nat} {cat : Catalog}

theorem le_selfHealCounter (onDisk : Nat) (maxAssigned : Option Nat) :
    onDisk ≤ selfHealCounter onDisk maxAssigned := by
  cases maxAssigned with
  | none => exact le_max_left _ _
  | some m => exact le_max_left _ _

theorem readCounter_ok {key : String} {counter : Option Nat} {n : Nat}
    (h : readCounter key counter = .ok n) : counter = some n := by
  cases counter with
  | none => cases h
  | some m =>
    cases h
    rfl

theorem loadExisting_ok (h : loadExisting st format = .ok cat) :
    cat.row = st.row ∧ (∀ k, st.counter k ≤ cat.next k) ∧ cat.formatVersion = format := by
  obtain ⟨_, -, h⟩ := bind_eq_ok.mp h
  obtain ⟨_, -, h⟩ := bind_eq_ok.mp h
  obtain ⟨_, -, h⟩ := bind_eq_ok.mp h
  obtain ⟨nextType, htype, h⟩ := bind_eq_ok.mp h
  obtain ⟨nextField, hfield, h⟩ := bind_eq_ok.mp h
  obtain ⟨nextRel, hrel, h⟩ := bind_eq_ok.mp h
  cases pure_eq_ok.mp h
  refine ⟨?_, ?_, rfl⟩
  · funext p
    cases p <;> rfl
  · intro k
    cases k with
    | type =>
      change st.nextType.getD 0 ≤ _
      rw [readCounter_ok htype]
      exact le_selfHealCounter _ _
    | field =>
      change st.nextField.getD 0 ≤ _
      rw [readCounter_ok hfield]
      exact le_selfHealCounter _ _
    | relation =>
      change st.nextRel.getD 0 ≤ _
      rw [readCounter_ok hrel]
      exact le_selfHealCounter _ _

theorem loadFormatted_ok (h : loadFormatted st = .ok cat) :
    cat.row = st.row ∧ st.format = some cat.formatVersion := by
  unfold loadFormatted at h
  cases hformat : st.format with
  | none =>
    rw [hformat] at h
    cases h
  | some format =>
    rw [hformat] at h
    obtain ⟨hrow, -, hversion⟩ := loadExisting_ok h
    exact ⟨hrow, by rw [hversion]⟩

theorem Sound.identified_next (hst : Sound st) (h : loadExisting st format = .ok cat) :
    Identified reading cat.row cat.next := by
  obtain ⟨hrow, hnext, -⟩ := loadExisting_ok h
  rw [hrow]
  exact ⟨hst.identified.distinct, fun hp => (hst.identified.below hp).trans_le (hnext _)⟩

end

variable {schema : Schema} {plans : SortedMap Nat PlanRow} {cat grown cat' : Catalog} {p : Path}

theorem Reconciled.source (h : Reconciled schema plans cat grown cat') {e' : IdEntry}
    (hp : cat'.row p = some e') : ∃ e, grown.row p = some e ∧ e'.id = e.id ∧
      (e.status = .tombstoned → e'.status = .tombstoned) ∧ (¬ Retires schema cat p → e' = e) := by
  by_cases hret : Retires schema cat p
  · obtain ⟨reason, hrow⟩ := h.retired hret
    rw [hrow] at hp
    obtain ⟨e, he, rfl⟩ := Option.map_eq_some_iff.mp hp
    exact ⟨e, he, rfl, fun _ => rfl, fun hnot => absurd hret hnot⟩
  · rw [h.same hret] at hp
    exact ⟨e', hp, rfl, fun hdead => hdead, fun _ => rfl⟩

theorem Reconciled.kept (h : Reconciled schema plans cat grown cat') {e : IdEntry}
    (hp : cat.row p = some e) : ∃ e', cat'.row p = some e' ∧ e'.id = e.id ∧
      (e.status = .tombstoned → e'.status = .tombstoned) := by
  have hgrown := h.grows.old hp
  by_cases hret : Retires schema cat p
  · obtain ⟨reason, hrow⟩ := h.retired hret
    rw [hgrown] at hrow
    exact ⟨_, hrow, rfl, fun _ => rfl⟩
  · exact ⟨e, (h.same hret).trans hgrown, rfl, fun hdead => hdead⟩

theorem Reconciled.carries (h : Reconciled schema plans cat grown cat') :
    Carries reading id cat.row cat'.row cat.next cat'.next where
  space _ := rfl
  kept hp := h.kept hp
  born hp := by
    obtain ⟨e, he, hid, -⟩ := h.source hp
    rcases h.grows.carries.born he with hold | hfresh
    · exact .inl hold
    · refine .inr (hfresh.trans ?_)
      exact hid.ge
  mono k := by
    rw [h.next]
    exact h.grows.carries.mono k

theorem Reconciled.identified (h : Reconciled schema plans cat grown cat') :
    Identified reading cat'.row cat'.next where
  distinct hp hq hs hf := by
    obtain ⟨e, he, hide, -⟩ := h.source hp
    obtain ⟨f, hf', hidf, -⟩ := h.source hq
    refine h.grows.identified.distinct he hf' hs ?_
    exact hide.symm.trans (hf.trans hidf)
  below hp := by
    obtain ⟨e, he, hid, -⟩ := h.source hp
    rw [h.next]
    exact hid.trans_lt (h.grows.identified.below he)

theorem Schema.Names.type {t : String} (h : schema.Names p) (hp : p.parent = some t) :
    schema.Names (.type t) := by
  by_contra hnot
  exact Schema.not_names_of_type hp hnot h

theorem Reconciled.parents (h : Reconciled schema plans cat grown cat') : Parents cat'.row := by
  intro p e' t hp ht
  obtain ⟨e, he, -, hdead, hsame⟩ := h.source hp
  obtain ⟨te, hte, htdead⟩ := h.grows.parents p e t he ht
  by_cases hret : Retires schema cat (.type t)
  · obtain ⟨reason, hrow⟩ := h.retired hret
    rw [hte] at hrow
    refine ⟨_, hrow, fun _ => ?_⟩
    obtain ⟨_, -, -, hunnamed⟩ := hret
    by_cases hretp : Retires schema cat p
    · obtain ⟨reason', hrow'⟩ := h.retired hretp
      rw [he] at hrow'
      rw [hp] at hrow'
      cases hrow'
      rfl
    · -- a live row that is not retired would be named, and its type with it
      cases hst : e.status with
      | tombstoned => exact hdead hst
      | live =>
        rcases h.grows.new he with hold | ⟨-, -, hdecl⟩
        · have hnamed : schema.Names p := by
            by_contra hnot
            exact hretp ⟨e, hold, hst, hnot⟩
          exact absurd (hnamed.type ht) hunnamed
        · exact absurd (hdecl.names.type ht) hunnamed
  · rw [← h.same hret] at hte
    exact ⟨te, hte, fun hd => hdead (htdead hd)⟩

theorem Reconciled.relations (h : Reconciled schema plans cat grown cat') : Relations cat'.row := by
  intro qual e' f' he hf hdead
  obtain ⟨e, hrow, -, hdeadE, hsameE⟩ := h.source he
  obtain ⟨f, hrowF, -, -, hsameF⟩ := h.source hf
  have hunnamed : f.status = .tombstoned ∨ Retires schema cat (.field qual) := by
    by_cases hret : Retires schema cat (.field qual)
    · exact .inr hret
    · rw [← hsameF hret]
      exact .inl hdead
  cases hst : e.status with
  | tombstoned => exact hdeadE hst
  | live =>
    have hnamed : ¬ schema.Names (.relation qual) := by
      intro hnamed
      have hfield : schema.Names (.field qual) := by
        obtain ⟨d, hd, -⟩ := (Option.any_eq_true _ _).mp hnamed
        exact Option.isSome_of_eq_some hd
      rcases hunnamed with hdeadF | ⟨-, -, -, hnot⟩
      · rcases h.grows.new hrowF with hold | ⟨-, hlive, -⟩
        · rw [h.live hfield hold] at hdeadF
          cases hdeadF
        · rw [hlive] at hdeadF
          cases hdeadF
      · exact hnot hfield
    rcases h.grows.new hrow with hold | ⟨-, -, hdecl⟩
    · obtain ⟨reason, hrow'⟩ := h.retired (p := .relation qual) ⟨e, hold, hst, hnamed⟩
      rw [he, hrow] at hrow'
      cases hrow'
      rfl
    · exact absurd hdecl.names hnamed

end RhypeDb.SchemaCatalog
