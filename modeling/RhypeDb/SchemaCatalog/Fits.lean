import RhypeDb.SchemaCatalog.Identity

/-! Whether an opened catalog fits the schema it was opened with. A reconciliation makes it fit; the
stored digest only says that it did when the digest was written, and verbs leave the digest as it
is. -/

namespace RhypeDb.SchemaCatalog

open Fallible Lineage List Option Run

section

variable {schema schema' : Schema}

def Digest.field? (digest : Digest) (qual : Qualified) : Option FieldDigest :=
  ((digest.find? fun e => decide (e.1 = (splitQualified qual).1)).map Prod.snd).bind fun fields =>
    fields.find? fun f => decide (f.name = (splitQualified qual).2)

theorem Schema.digest_type (schema : Schema) (name : String) :
    (schema.digest.find? fun e => decide (e.1 = name)).map Prod.snd =
      (schema.types.lookup name).map (List.map FieldDef.digest) := by
  unfold Schema.digest SortedMap.lookup
  rw [find?_map, Option.map_map, Option.map_map]
  rfl

theorem Schema.digest_field (schema : Schema) (qual : Qualified) :
    schema.digest.field? qual = (schema.field? qual).map FieldDef.digest := by
  unfold Digest.field? Schema.field?
  rw [Schema.digest_type, bind_map, Option.map_bind]
  congr 1
  funext fields
  rw [Function.comp_apply, find?_map]
  rfl

theorem Schema.declares_of_digest (h : schema.digest = schema'.digest) {p : Path} {kind : Kind}
    (hp : schema.Declares p kind) : schema'.Declares p kind := by
  have hfield : ∀ {qual f}, schema.field? qual = some f →
      ∃ f', schema'.field? qual = some f' ∧ f.digest = f'.digest := by
    intro qual f hf
    have hdigest := schema.digest_field qual
    rw [h, schema'.digest_field, hf] at hdigest
    obtain ⟨f', hf', heq⟩ := map_eq_some_iff.mp hdigest
    exact ⟨f', hf', heq.symm⟩
  have hkind : ∀ {f f' : FieldDef}, f.digest = f'.digest →
      schemaKind f.fieldType = schemaKind f'.fieldType := fun heq =>
    congrArg FieldDigest.kind heq
  cases p with
  | type name =>
    have hname := schema.digest_type name
    rw [h, schema'.digest_type] at hname
    have hsome := congrArg Option.isSome hname
    rw [isSome_map, isSome_map] at hsome
    exact hsome.trans hp
  | field qual =>
    obtain ⟨f, hf, rfl⟩ := hp
    obtain ⟨f', hf', heq⟩ := hfield hf
    exact ⟨f', hf', hkind heq⟩
  | relation qual =>
    obtain ⟨f, hf, hrel⟩ := hp
    obtain ⟨f', hf', heq⟩ := hfield hf
    refine ⟨f', hf', ?_⟩
    unfold FieldDef.isRelation at hrel ⊢
    rw [← hkind heq]
    exact hrel

def Licensed (plans : SortedMap Nat PlanRow) (qual : Qualified) (src target : Kind) :
    Prop :=
  ∃ id plan, plans.lookup id = some plan ∧ plan.status.quiesces ∧ plan.dryRun = false ∧
    qualified plan.typeName plan.fieldName = qual ∧ plan.srcKind = src ∧ plan.targetKind = target

def IsLive (row : Path → Option IdEntry) (p : Path) : Prop :=
  ∃ e, row p = some e ∧ e.status = .live

/-- The live rows are those that the schema names, and each field's kind is the schema's, unless a
migration is under way from the one to the other. -/
structure Fits (row : Path → Option IdEntry) (plans : SortedMap Nat PlanRow) (schema : Schema) :
    Prop where
  named : ∀ p, schema.Names p → IsLive row p
  kinds : ∀ qual e f, row (.field qual) = some e → schema.field? qual = some f →
    e.kind = schemaKind f.fieldType ∨ Licensed plans qual e.kind (schemaKind f.fieldType)
  only : ∀ p, IsLive row p → schema.Names p

variable {row : Path → Option IdEntry} {plans : SortedMap Nat PlanRow} {cat : Catalog}

theorem Schema.Names.declares {p : Path} (h : schema.Names p) : ∃ kind, schema.Declares p kind := by
  cases p with
  | type name => exact ⟨.unset, h⟩
  | field qual =>
    obtain ⟨f, hf⟩ := isSome_iff_exists.mp h
    exact ⟨_, f, hf, rfl⟩
  | relation qual =>
    obtain ⟨f, hf, hrel⟩ := (Option.any_eq_true _ _).mp h
    exact ⟨.relation, f, hf, hrel⟩

theorem Fits.of_digest (h : Fits row plans schema) (hdigest : schema.digest = schema'.digest) :
    Fits row plans schema' where
  named p hp := by
    obtain ⟨kind, hdecl⟩ := hp.declares
    exact h.named p (Schema.declares_of_digest hdigest.symm hdecl).names
  kinds qual e f hrow hf := by
    have hdecl : schema'.Declares (.field qual) (schemaKind f.fieldType) := ⟨f, hf, rfl⟩
    obtain ⟨f', hf', hkind⟩ := Schema.declares_of_digest hdigest.symm hdecl
    rw [hkind]
    exact h.kinds qual e f' hrow hf'
  only p hp := by
    obtain ⟨kind, hdecl⟩ := (h.only p hp).declares
    exact (Schema.declares_of_digest hdigest hdecl).names

theorem fits_of_backfill (hgrown : Grown schema .empty cat)
    (hcovers : Covers schema cat) : Fits cat.row plans schema := by
  have hnew : ∀ {p e}, cat.row p = some e → e.status = .live ∧ schema.Declares p e.kind := by
    intro p e hp
    rcases hgrown.new hp with hold | ⟨-, hlive, hdecl⟩
    · cases p <;> cases hold
    · exact ⟨hlive, hdecl⟩
  constructor
  · intro p hp
    obtain ⟨e, he⟩ := isSome_iff_exists.mp (hcovers.row hp)
    exact ⟨e, he, (hnew he).1⟩
  · intro qual e f hrow hf
    obtain ⟨f', hf', hkind⟩ := (hnew hrow).2
    rw [hf] at hf'
    cases hf'
    exact .inl hkind
  · rintro p ⟨e, he, -⟩
    exact (hnew he).2.names

def NoDryRunExcuse (plans : SortedMap Nat PlanRow) (schema : Schema) : Prop :=
  ∀ id plan f, plans.lookup id = some plan → plan.status.quiesces → plan.dryRun →
    schema.field? (qualified plan.typeName plan.fieldName) = some f →
      schemaKind f.fieldType ≠ plan.targetKind

theorem licensed_of_resumable {qual : Qualified} {f : FieldDef} {kind : Kind}
    (hdry : NoDryRunExcuse plans schema) (hf : schema.field? qual = some f)
    (h : (resumablePlanForKindChange plans qual kind (schemaKind f.fieldType)).isSome) :
    Licensed plans qual kind (schemaKind f.fieldType) := by
  unfold resumablePlanForKindChange at h
  rw [isSome_map] at h
  obtain ⟨⟨id, plan⟩, hfind⟩ := isSome_iff_exists.mp h
  have hplan := SortedMap.lookup_eq_some.mpr (mem_of_find?_eq_some hfind)
  have hmatch := find?_some hfind
  simp only [Bool.and_eq_true, decide_eq_true_eq] at hmatch
  obtain ⟨⟨⟨⟨hst, htype⟩, hfield⟩, hsrc⟩, htarget⟩ := hmatch
  have hqual : qualified plan.typeName plan.fieldName = qual := by
    rw [htype, hfield, qualified_split]
  refine ⟨id, plan, hplan, hst, ?_, hqual, hsrc, htarget⟩
  cases hdryRun : plan.dryRun with
  | false => rfl
  | true =>
    rw [← hqual] at hf
    exact absurd htarget.symm (hdry id plan f hplan hst hdryRun hf)

theorem fits_of_reconciled {grown cat' : Catalog} (h : Reconciled schema plans cat grown cat')
    (hdry : NoDryRunExcuse plans schema) : Fits cat'.row plans schema := by
  have hkept : ∀ {p}, schema.Names p → cat'.row p = grown.row p := fun hp =>
    h.same fun hret => by
      obtain ⟨-, -, -, hnot⟩ := hret
      exact hnot hp
  constructor
  · intro p hp
    obtain ⟨e, he⟩ := isSome_iff_exists.mp (h.covers.row hp)
    refine ⟨e, (hkept hp).trans he, ?_⟩
    rcases h.grows.new he with hold | ⟨-, hlive, -⟩
    · exact h.live hp hold
    · exact hlive
  · intro qual e f hrow hf
    rw [hkept (p := .field qual) (isSome_of_eq_some hf)] at hrow
    rcases h.grows.new hrow with hold | ⟨-, -, f', hf', hkind⟩
    · rcases h.kinds hold hf with hsame | hplan
      · exact .inl hsame
      · exact .inr (licensed_of_resumable hdry hf hplan)
    · rw [hf] at hf'
      cases hf'
      exact .inl hkind
  · rintro p ⟨e', he', hlive⟩
    obtain ⟨e, he, -, -, hsame⟩ := h.source he'
    by_contra hnot
    have hret : ¬ Retires schema cat p := by
      intro hret
      obtain ⟨reason, hrow⟩ := h.retired hret
      rw [he, he'] at hrow
      cases hrow
      cases hlive
    cases hsame hret
    rcases h.grows.new he with hold | ⟨-, -, hdecl⟩
    · exact hret ⟨_, hold, hlive, hnot⟩
    · exact hnot hdecl.names

end

/-- Since the digest was written, no live name has come or gone, no kind has moved but to the
schema's, and each plan that was under way still is, or has brought its field to its target. -/
structure Undisturbed (written now : Stored) (schema : Schema) : Prop where
  names : ∀ p, IsLive written.row p ↔ IsLive now.row p
  kinds : ∀ qual e e', written.row (.field qual) = some e → now.row (.field qual) = some e' →
    e'.kind = e.kind ∨ ∃ f, schema.field? qual = some f ∧ e'.kind = schemaKind f.fieldType
  plans : ∀ id plan, written.plans.lookup id = some plan → plan.status.quiesces →
    plan.dryRun = false →
      (∃ status, now.plans.lookup id = some { plan with status := status } ∧ status.quiesces) ∨
        ∀ e, now.row (.field (qualified plan.typeName plan.fieldName)) = some e →
          e.kind = plan.targetKind

theorem Undisturbed.refl (st : Stored) (schema : Schema) : Undisturbed st st schema where
  names _ := Iff.rfl
  kinds qual e e' he he' := by
    rw [he] at he'
    exact .inl (congrArg IdEntry.kind (Option.some.inj he').symm)
  plans id plan hplan hst _ := .inl ⟨plan.status, hplan, hst⟩

theorem Fits.of_undisturbed {written now : Stored} {schema : Schema}
    (h : Fits written.row written.plans schema) (hsame : Undisturbed written now schema) :
    Fits now.row now.plans schema := by
  constructor
  · intro p hp
    exact (hsame.names p).mp (h.named p hp)
  · intro qual e' f hrow hf
    obtain ⟨e, he, -⟩ := h.named (.field qual) (isSome_of_eq_some hf)
    rcases hsame.kinds qual e e' he hrow with hkind | ⟨f', hf', hkind⟩
    · rcases h.kinds qual e f he hf with hfit | ⟨id, plan, hplan, hst, hdry, hqual, hsrc, htarget⟩
      · exact .inl (hkind.trans hfit)
      · rcases hsame.plans id plan hplan hst hdry with ⟨status, hplan', hst'⟩ | hdone
        · right
          rw [hkind]
          exact ⟨id, _, hplan', hst', hdry, hqual, hsrc, htarget⟩
        · rw [hqual] at hdone
          exact .inl ((hdone e' hrow).trans htarget)
    · rw [hf] at hf'
      cases hf'
      exact .inl hkind
  · intro p hp
    exact h.only p ((hsame.names p).mpr hp)

section

variable {st st' : Stored} {schema : Schema} {shrink : Bool} {cat : Catalog}

theorem loadOrInitialize_fits (hst : Sound st)
    (h : loadOrInitialize st schema shrink = .ok (cat, st'))
    (hne : st.digest ≠ some schema.digest) (hdry : NoDryRunExcuse st.plans schema) :
    Fits cat.row st.plans schema ∧ st'.row = cat.row ∧ st'.plans = st.plans ∧
      st'.digest = some schema.digest := by
  rcases loadOrInitialize_cases hst h with ⟨-, hback, rfl⟩ | ⟨_, -, -, hsame, -⟩ |
    ⟨format, loaded, -, hload, -, hrec, rfl⟩
  · obtain ⟨hgrown, hcovers⟩ := backfill_ok hback
    exact ⟨fits_of_backfill hgrown hcovers, funext fun p => by cases p <;> rfl, rfl, rfl⟩
  · exact absurd hsame hne
  · obtain ⟨hrow, -, -⟩ := loadExisting_ok hload
    have hparents := hst.parents
    rw [← hrow] at hparents
    obtain ⟨grown, hrec⟩ := reconcile_ok (hst.identified_next hload) hparents hrec
    exact ⟨fits_of_reconciled hrec hdry, funext fun p => by cases p <;> rfl, rfl, rfl⟩

theorem loadOrInitialize_marks (hst : Sound st)
    (h : loadOrInitialize st schema shrink = .ok (cat, st')) : st'.initialized := by
  have hmarks := hst.marks
  rcases loadOrInitialize_cases hst h with ⟨-, -, rfl⟩ | ⟨format, hformat, -, -, rfl⟩ |
    ⟨format, _, hformat, -, -, -, rfl⟩
  · rfl
  · rw [hformat] at hmarks
    exact hmarks
  · rw [hformat] at hmarks
    exact hmarks

theorem loadOrInitialize_trusts (hst : Sound st)
    (h : loadOrInitialize st schema shrink = .ok (cat, st'))
    (hsame : st.digest = some schema.digest) (hformat : st.format.isSome) :
    cat.row = st.row ∧ st' = st := by
  rcases loadOrInitialize_cases hst h with ⟨hnone, -, -⟩ | ⟨_, -, hload, -, rfl⟩ |
    ⟨_, _, -, -, hne, -, -⟩
  · rw [hnone] at hformat
    cases hformat
  · exact ⟨(loadExisting_ok hload).1, rfl⟩
  · exact absurd hsame hne

theorem attempt_verb {a : Step} (hverb : ∀ schema shrink, a ≠ .open schema shrink)
    (hst : Sound st) (h : attempt st a = .ok st') :
    st'.digest = st.digest ∧ st'.initialized = st.initialized := by
  have hrewrites : ∀ {follow}, Rewrites follow st st' →
      st'.digest = st.digest ∧ st'.initialized = st.initialized := fun hr =>
    ⟨hr.digest, hr.initialized⟩
  cases a with
  | «open» schema shrink => exact absurd rfl (hverb schema shrink)
  | rename verb => exact hrewrites (applyMigration_rewrites hst.parents h)
  | changeFieldType schema verb => exact hrewrites (applyFieldTypeChange_rewrites h)
  | createPlan schema typeName fieldName kind dryRun =>
    rw [createMigrationPlan_frame h]
    exact ⟨rfl, rfl⟩
  | setPlanStatus planId status =>
    rw [setPlanStatus_frame h]
    exact ⟨rfl, rfl⟩
  | finalizeCutover planId => exact hrewrites (finalizeMigrationCutover_rewrites h)
  | writeObjects objects versions =>
    cases h
    exact ⟨rfl, rfl⟩
  | logApplied ordinal name =>
    cases h
    exact ⟨rfl, rfl⟩

end

structure Traced where
  now : Stored
  written : Stored

def Traced.start : Traced := { now := .empty, written := .empty }

def writesDigest (st : Stored) : Step → Bool
  | .open schema shrink =>
    (loadOrInitialize st schema shrink).isOk && decide (st.digest ≠ some schema.digest)
  | _ => false

def Traced.step (t : Traced) (a : Step) : Traced where
  now := SchemaCatalog.step t.now a
  written := if writesDigest t.now a then SchemaCatalog.step t.now a else t.written

/-- Where the digest is believed, nothing has disturbed the catalog since it was written; and where
it is not, no dry run excuses a mismatch. -/
def Trusted (t : Traced) : Step → Prop
  | .open schema _ =>
    if t.now.digest = some schema.digest then Undisturbed t.written t.now schema
    else NoDryRunExcuse t.now.plans schema
  | _ => True

variable {t : Traced} {schema : Schema}

theorem trusted_open (shrink : Bool)
    (hundisturbed : t.now.digest = some schema.digest → Undisturbed t.written t.now schema)
    (hdry : NoDryRunExcuse t.now.plans schema) : Trusted t (.open schema shrink) := by
  dsimp only [Trusted]
  split_ifs with hsame
  · exact hundisturbed hsame
  · exact hdry

theorem traced_now (t : Traced) (steps : List Step) :
    (exec Traced.step t steps).now = exec SchemaCatalog.step t.now steps := by
  induction steps generalizing t with
  | nil => rfl
  | cons a steps ih => exact ih (t.step a)

/-- The digest stands for a catalog that fitted every schema with that digest. -/
structure Vouched (t : Traced) : Prop where
  sound : Sound t.now
  digest : t.now.digest = t.written.digest
  marked : t.now.digest.isSome → t.now.initialized
  fits : ∀ schema, t.written.digest = some schema.digest →
    Fits t.written.row t.written.plans schema

theorem vouched_start : Vouched .start := ⟨sound_empty, rfl, nofun, nofun⟩

theorem Vouched.formatted (h : Vouched t) (hsame : t.now.digest = some schema.digest) :
    t.now.format.isSome := by
  rw [← h.sound.marks]
  exact h.marked (isSome_of_eq_some hsame)

theorem Vouched.keep (h : Vouched t) {a : Step} (hwrites : writesDigest t.now a = false)
    (hdigest : (SchemaCatalog.step t.now a).digest = t.now.digest)
    (hmark : (SchemaCatalog.step t.now a).initialized = t.now.initialized) :
    Vouched (t.step a) := by
  obtain ⟨-, hsound⟩ := step_carries h.sound a
  have hwritten : (t.step a).written = t.written := if_neg (by rw [hwrites]; exact Bool.false_ne_true)
  refine ⟨hsound, ?_, ?_, ?_⟩
  · rw [hwritten, ← h.digest]
    exact hdigest
  · intro hsome
    have hsome' : (SchemaCatalog.step t.now a).digest.isSome := hsome
    rw [hdigest] at hsome'
    exact hmark.trans (h.marked hsome')
  · rw [hwritten]
    exact h.fits

theorem Vouched.step_open (h : Vouched t) {shrink : Bool} (ha : Trusted t (.open schema shrink)) :
    Vouched (t.step (.open schema shrink)) := by
  obtain ⟨-, hsound⟩ := step_carries h.sound (.open schema shrink)
  cases hload : loadOrInitialize t.now schema shrink with
  | error e =>
    have hattempt : attempt t.now (.open schema shrink) = .error e :=
      congrArg (Except.map Prod.snd) hload
    have hstep : SchemaCatalog.step t.now (.open schema shrink) = t.now := by
      unfold SchemaCatalog.step
      rw [hattempt]
    refine h.keep ?_ (congrArg Stored.digest hstep) (congrArg Stored.initialized hstep)
    dsimp only [writesDigest]
    rw [hload]
    rfl
  | ok r =>
    obtain ⟨cat, st'⟩ := r
    have hstep : SchemaCatalog.step t.now (.open schema shrink) = st' :=
      step_of_attempt (congrArg (Except.map Prod.snd) hload)
    by_cases hsame : t.now.digest = some schema.digest
    · obtain ⟨-, hst⟩ := loadOrInitialize_trusts h.sound hload hsame (h.formatted hsame)
      rw [hst] at hstep
      refine h.keep ?_ (congrArg Stored.digest hstep) (congrArg Stored.initialized hstep)
      simp only [writesDigest, hsame, ne_eq, not_true_eq_false, decide_false, Bool.and_false]
    · have hdry : NoDryRunExcuse t.now.plans schema := by
        dsimp only [Trusted] at ha
        rw [if_neg hsame] at ha
        exact ha
      obtain ⟨hfits, hrow, hplans, hdigest⟩ := loadOrInitialize_fits h.sound hload hsame hdry
      have hwrites : writesDigest t.now (.open schema shrink) = true := by
        dsimp only [writesDigest]
        rw [hload, decide_eq_true hsame]
        rfl
      have hwritten : (t.step (.open schema shrink)).written = st' := by
        unfold Traced.step
        rw [hwrites]
        exact hstep
      have hnow : (t.step (.open schema shrink)).now = st' := hstep
      refine ⟨hsound, by rw [hnow, hwritten], fun _ => ?_, ?_⟩
      · rw [hnow]
        exact loadOrInitialize_marks h.sound hload
      · intro schema' hdigest'
        rw [hwritten] at hdigest' ⊢
        rw [hrow, hplans]
        rw [hdigest] at hdigest'
        exact hfits.of_digest (Option.some.inj hdigest')

theorem Vouched.step (h : Vouched t) {a : Step} (ha : Trusted t a) : Vouched (t.step a) := by
  have hverb : (∀ schema shrink, a ≠ .open schema shrink) → Vouched (t.step a) := by
    intro hne
    have hwrites : writesDigest t.now a = false := by
      cases a with
      | «open» schema shrink => exact absurd rfl (hne schema shrink)
      | _ => rfl
    rcases step_cases t.now a with hok | hsame
    · obtain ⟨hdigest, hmark⟩ := attempt_verb hne h.sound hok
      exact h.keep hwrites hdigest hmark
    · exact h.keep hwrites (congrArg Stored.digest hsame) (congrArg Stored.initialized hsame)
  cases a with
  | «open» schema shrink => exact h.step_open ha
  | _ => exact hverb nofun

theorem run_vouched {steps : List Step} (h : Along Traced.step Trusted .start steps) :
    Vouched (exec Traced.step .start steps) :=
  exec_invariant (fun _ _ ht ha => ht.step ha) vouched_start h

/-- Where every open of a history can believe the digest or writes it anew, an open that succeeds
gives a catalog that fits its schema. -/
theorem opened_fits (steps : List Step) (schema : Schema) (shrink : Bool) {cat : Catalog}
    {st' : Stored} (htrusted : Along Traced.step Trusted .start (steps ++ [.open schema shrink]))
    (h : loadOrInitialize (exec SchemaCatalog.step .empty steps) schema shrink = .ok (cat, st')) :
    Fits cat.row (exec SchemaCatalog.step .empty steps).plans schema := by
  obtain ⟨hsteps, hopen, -⟩ := along_append.mp htrusted
  have hvouched := run_vouched hsteps
  have hnow : (exec Traced.step .start steps).now = exec SchemaCatalog.step .empty steps :=
    traced_now .start steps
  rw [← hnow] at h ⊢
  dsimp only [Trusted] at hopen
  by_cases hsame : (exec Traced.step .start steps).now.digest = some schema.digest
  · rw [if_pos hsame] at hopen
    have hfits := hvouched.fits schema (hvouched.digest.symm.trans hsame)
    obtain ⟨hrow, -⟩ := loadOrInitialize_trusts hvouched.sound h hsame (hvouched.formatted hsame)
    rw [hrow]
    exact hfits.of_undisturbed hopen
  · rw [if_neg hsame] at hopen
    obtain ⟨hfits, -⟩ := loadOrInitialize_fits hvouched.sound h hsame hopen
    exact hfits

/-- A type is renamed, and the schema with it: the reopening after that believes the digest. -/
theorem opened_fits_renamed :
    let steps := [.open (bareSchema "User") false, .rename (.type "User" "Account"),
      .open (bareSchema "Account") false]
    ∃ cat st', loadOrInitialize (exec SchemaCatalog.step .empty steps) (bareSchema "Account") false =
        .ok (cat, st') ∧
      Fits cat.row (exec SchemaCatalog.step .empty steps).plans (bareSchema "Account") := by
  intro steps
  have hdry : ∀ schema, NoDryRunExcuse .empty schema := by
    intro schema id plan f hplan
    cases hplan
  have htrusted : Along Traced.step Trusted .start
      (steps ++ [.open (bareSchema "Account") false]) := by
    refine ⟨hdry _, trivial, trusted_open false (fun hsame => ?_) (hdry _),
      trusted_open false (fun _ => .refl _ _) (hdry _), trivial⟩
    have hne : (exec SchemaCatalog.step .empty (steps.take 2)).digest ≠
        some (bareSchema "Account").digest := by decide +kernel
    exact absurd hsame hne
  cases hload : loadOrInitialize (exec SchemaCatalog.step .empty steps) (bareSchema "Account")
      false with
  | error e =>
    have hok : (loadOrInitialize (exec SchemaCatalog.step .empty steps) (bareSchema "Account")
        false).isOk = true := by decide +kernel
    rw [hload] at hok
    cases hok
  | ok r => exact ⟨r.1, r.2, rfl, opened_fits steps (bareSchema "Account") false htrusted hload⟩

/-- After a rename the schema before it is still believed, and the catalog has no row for its type. -/
theorem renamed_not_fits : ¬ ∀ (steps : List Step) (schema : Schema) (shrink : Bool) (cat : Catalog)
    (st' : Stored),
    loadOrInitialize (exec SchemaCatalog.step .empty steps) schema shrink = .ok (cat, st') →
      Fits cat.row (exec SchemaCatalog.step .empty steps).plans schema := by
  intro hclaim
  let steps : List Step := [.open (bareSchema "User") false, .rename (.type "User" "Account")]
  have hopened : (loadOrInitialize (exec SchemaCatalog.step .empty steps) (bareSchema "User")
      false).map (fun r => r.1.row (.type "User")) = .ok none := by decide +kernel
  obtain ⟨⟨cat, st'⟩, hload, hrow⟩ := map_eq_ok.mp hopened
  have hfits := hclaim steps (bareSchema "User") false cat st' hload
  obtain ⟨e, he, -⟩ := hfits.named (.type "User") rfl
  rw [hrow] at he
  cases he

end RhypeDb.SchemaCatalog
