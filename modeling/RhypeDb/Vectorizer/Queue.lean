import RhypeDb.SchemaCatalog.Entries

/-! The persistent queue of embedding jobs, and how a worker claims a batch from it. -/

namespace RhypeDb.Vectorizer

open Engine List
open SchemaCatalog (ObjectKey)

section

/-- A `@vectorize` field: a vector field, the field whose text it embeds, and the model. -/
structure VectorizeField where
  typeId : Nat
  fieldId : Nat
  sourceField : String
  model : String
  deriving DecidableEq, Repr

/-- The `@vectorize` fields of a schema, under the ids that the catalog gave them. -/
structure VectorSchema where
  fields : List VectorizeField
  ids : ∀ f ∈ fields, ∀ g ∈ fields, f.typeId = g.typeId → f.fieldId = g.fieldId → f = g

variable {schema : VectorSchema}

/-- The object and the field of a `v:` row and of a `s:` row. -/
abbrev Slot := Lex (ObjectKey × Nat)

structure VectorizeJob (schema : VectorSchema) where
  field : { f // f ∈ schema.fields }
  objectId : Id
  deriving DecidableEq

instance : LawfulBEq (VectorizeJob schema) := inferInstance

def VectorizeJob.object (job : VectorizeJob schema) : ObjectKey :=
  ⟨job.field.1.typeId, job.objectId⟩

def VectorizeJob.slot (job : VectorizeJob schema) : Slot := toLex (job.object, job.field.1.fieldId)

theorem VectorizeJob.eq_of_slot {job job' : VectorizeJob schema} (h : job.slot = job'.slot) :
    job = job' := by
  obtain ⟨⟨f, hf⟩, o⟩ := job
  obtain ⟨⟨g, hg⟩, o'⟩ := job'
  have hpair : ((⟨f.typeId, o⟩, f.fieldId) : ObjectKey × Nat) = (⟨g.typeId, o'⟩, g.fieldId) := h
  obtain ⟨hkey, hfield⟩ := Prod.mk.inj hpair
  obtain ⟨htype, rfl⟩ := ObjectKey.mk.inj hkey
  have heq := schema.ids f hf g hg htype hfield
  subst heq
  rfl

def jobsOf (schema : VectorSchema) (key : ObjectKey) : List (VectorizeJob schema) :=
  schema.fields.attach.filterMap fun f =>
    if f.1.typeId = key.typeId then some ⟨f, key.objectId⟩ else none

theorem mem_jobsOf (job : VectorizeJob schema) : job ∈ jobsOf schema job.object := by
  unfold jobsOf
  rw [mem_filterMap]
  exact ⟨job.field, mem_attach _ _, if_pos rfl⟩

theorem object_of_mem_jobsOf {key : ObjectKey} {job : VectorizeJob schema}
    (h : job ∈ jobsOf schema key) : job.object = key := by
  obtain ⟨f, -, hf⟩ := mem_filterMap.mp h
  split_ifs at hf with htype
  cases hf
  unfold VectorizeJob.object
  rw [htype]

/-- The job that a slot is of, where its field is a `@vectorize` field. -/
def jobAt (schema : VectorSchema) (slot : Slot) : Option (VectorizeJob schema) :=
  (jobsOf schema (ofLex slot).1).find? fun job => decide (job.field.1.fieldId = (ofLex slot).2)

theorem jobAt_slot (job : VectorizeJob schema) : jobAt schema job.slot = some job := by
  have hsome : (jobAt schema job.slot).isSome := by
    unfold jobAt
    rw [find?_isSome]
    exact ⟨job, mem_jobsOf job, decide_eq_true rfl⟩
  obtain ⟨job', hjob'⟩ := Option.isSome_iff_exists.mp hsome
  rw [hjob']
  have hobject := object_of_mem_jobsOf (mem_of_find?_eq_some hjob')
  have hfield := find?_some hjob'
  rw [decide_eq_true_eq] at hfield
  have hslot : job'.slot = job.slot := by
    unfold VectorizeJob.slot
    rw [hobject, hfield]
    rfl
  rw [VectorizeJob.eq_of_slot hslot]

end

variable {α : Type}

def claimWindow : Nat := 256

/-- The walk over the live entries of a window, from the cursor on, with the jobs taken so far and
the last of them that is of this window. -/
def takeLive (cursor bound batchSize : Nat) :
    List (Nat × α) → Option Nat → List (Nat × α) → List (Nat × α) × Option Nat
  | jobs, lastLive, [] => (jobs, lastLive)
  | jobs, lastLive, (id, job) :: entries =>
    if id < cursor then takeLive cursor bound batchSize jobs lastLive entries
    else if bound ≤ id ∨ batchSize ≤ jobs.length then (jobs, lastLive)
    else takeLive cursor bound batchSize (jobs ++ [(id, job)]) (some id) entries

def windowEntries (queue : SortedMap Nat α) (window : Nat) : List (Nat × α) :=
  queue.entries.filter fun e => decide (e.1 / claimWindow = window)

/-- The cursor after a window: behind the last job taken if the batch is full, else at the next
window. -/
def nextCursor (batchSize window : Nat) (jobs : List (Nat × α)) (lastLive : Option Nat) : Nat :=
  match lastLive with
  | some id => if batchSize ≤ jobs.length then id + 1 else (window + 1) * claimWindow
  | none => (window + 1) * claimWindow

/-- The walk over the windows; `fuel` bounds their number. -/
def claimLoop (queue : SortedMap Nat α) (bound batchSize : Nat) :
    Nat → Nat → List (Nat × α) → List (Nat × α) × Nat
  | 0, cursor, jobs => (jobs, cursor)
  | fuel + 1, cursor, jobs =>
    if cursor < bound ∧ jobs.length < batchSize then
      let window := cursor / claimWindow
      let taken := takeLive cursor bound batchSize jobs none (windowEntries queue window)
      claimLoop queue bound batchSize fuel (nextCursor batchSize window taken.1 taken.2) taken.1
    else (jobs, cursor)

def claimJobs (queue : SortedMap Nat α) (cursor bound batchSize : Nat) : List (Nat × α) × Nat :=
  let walk := claimLoop queue bound batchSize (bound - cursor) cursor []
  (walk.1, min walk.2 bound)

variable {queue : SortedMap Nat α} {cursor bound batchSize : Nat}

theorem takeLive_spec {jobs entries : List (Nat × α)} {lastLive : Option Nat} :
    (∀ e ∈ (takeLive cursor bound batchSize jobs lastLive entries).1, e ∈ jobs ∨ e ∈ entries) ∧
      ((∀ id ∈ lastLive, cursor ≤ id) →
        ∀ id ∈ (takeLive cursor bound batchSize jobs lastLive entries).2, cursor ≤ id) := by
  induction entries generalizing jobs lastLive with
  | nil => exact ⟨fun e he => .inl he, fun h => h⟩
  | cons e entries ih =>
    obtain ⟨id, job⟩ := e
    unfold takeLive
    split_ifs with hbehind hfull
    · obtain ⟨hmem, hlast⟩ := @ih jobs lastLive
      refine ⟨fun e he => ?_, hlast⟩
      exact (hmem e he).imp_right (mem_cons_of_mem _)
    · exact ⟨fun e he => .inl he, fun h => h⟩
    · obtain ⟨hmem, hlast⟩ := @ih (jobs ++ [(id, job)]) (some id)
      constructor
      · intro e he
        rcases hmem e he with hold | hrest
        · rcases mem_append.mp hold with hold | hnew
          · exact .inl hold
          · rw [mem_singleton.mp hnew]
            exact .inr mem_cons_self
        · exact .inr (mem_cons_of_mem _ hrest)
      · intro _
        apply hlast
        intro id' hid'
        cases hid'
        exact not_lt.mp hbehind

variable {jobs : List (Nat × α)} {e : Nat × α}

theorem lt_nextCursor {lastLive : Option Nat} (hlast : ∀ id ∈ lastLive, cursor ≤ id) :
    cursor < nextCursor batchSize (cursor / claimWindow) jobs lastLive := by
  have hwindow : cursor < (cursor / claimWindow + 1) * claimWindow :=
    Nat.lt_mul_of_div_lt (Nat.lt_succ_self _) (by decide)
  unfold nextCursor
  cases lastLive with
  | none => exact hwindow
  | some id =>
    split_ifs
    · exact Nat.lt_succ_of_le (hlast id rfl)
    · exact hwindow

theorem claimLoop_mem {fuel : Nat} (he : e ∈ (claimLoop queue bound batchSize fuel cursor jobs).1) :
    e ∈ jobs ∨ e ∈ queue.entries := by
  induction fuel generalizing cursor jobs with
  | zero => exact .inl he
  | succ fuel ih =>
    unfold claimLoop at he
    split_ifs at he
    · rcases ih he with htaken | hqueue
      · rcases takeLive_spec.1 e htaken with hjobs | hwindow
        · exact .inl hjobs
        · exact .inr (mem_of_mem_filter hwindow)
      · exact .inr hqueue
    · exact .inl he

theorem claimLoop_ends {fuel : Nat} (hfuel : bound - cursor ≤ fuel) :
    bound ≤ (claimLoop queue bound batchSize fuel cursor jobs).2 ∨
      batchSize ≤ (claimLoop queue bound batchSize fuel cursor jobs).1.length := by
  induction fuel generalizing cursor jobs with
  | zero =>
    left
    unfold claimLoop
    omega
  | succ fuel ih =>
    unfold claimLoop
    split_ifs with hmore
    · apply ih
      generalize hwalk : takeLive cursor bound batchSize jobs none
        (windowEntries queue (cursor / claimWindow)) = walk
      have hlast : ∀ id ∈ walk.2, cursor ≤ id := by
        rw [← hwalk]
        exact takeLive_spec.2 nofun
      have hmoves : cursor < nextCursor batchSize (cursor / claimWindow) walk.1 walk.2 :=
        lt_nextCursor hlast
      omega
    · rw [not_and_or, not_lt, not_lt] at hmore
      exact hmore

theorem mem_claimJobs (he : e ∈ (claimJobs queue cursor bound batchSize).1) :
    e ∈ queue.entries := by
  rcases claimLoop_mem he with hnil | hqueue
  · cases hnil
  · exact hqueue

end RhypeDb.Vectorizer
