import RhypeDb.Vectorizer.UnderWay

/-! Embeddings follow their source text: each object's text is embedded, or a job for it is under
way, as long as no job is lost and none is stored late. -/

namespace RhypeDb.Vectorizer

open Engine List Run SortedMap
open SchemaCatalog (ObjectKey)

variable {schema : VectorSchema} {ν : Type}

section

variable {embed : String → Bytes → ν} {st : Server schema ν} {job : VectorizeJob schema}

theorem mem_orphans : job ∈ st.orphans ↔
    st.states.lookup job.slot = some .pending ∧ ∀ id, st.queue.lookup id ≠ some job := by
  have hqueued : job ∈ st.queue.entries.map Prod.snd ↔ ∃ id, st.queue.lookup id = some job := by
    rw [mem_map]
    constructor
    · rintro ⟨⟨id, _⟩, hmem, rfl⟩
      exact ⟨id, lookup_eq_some.mpr hmem⟩
    · rintro ⟨id, hid⟩
      exact ⟨(id, job), lookup_eq_some.mp hid, rfl⟩
  unfold Server.orphans
  rw [mem_filterMap]
  constructor
  · rintro ⟨⟨slot, state⟩, hmem, h⟩
    split_ifs at h with hpending
    obtain ⟨job', hjob', h⟩ := Option.bind_eq_some_iff.mp h
    split_ifs at h with hin
    cases h
    obtain rfl : slot = job.slot := by
      have hfield := find?_some hjob'
      rw [decide_eq_true_eq] at hfield
      have hobject := object_of_mem_jobsOf (mem_of_find?_eq_some hjob')
      unfold VectorizeJob.slot
      rw [hobject, hfield]
      rfl
    have hstate : state = .pending := hpending
    rw [hstate] at hmem
    refine ⟨lookup_eq_some.mpr hmem, fun id hid => ?_⟩
    exact hin (hqueued.mpr ⟨id, hid⟩)
  · rintro ⟨hstate, hnot⟩
    refine ⟨(job.slot, .pending), lookup_eq_some.mp hstate, ?_⟩
    have hin : job ∉ st.queue.entries.map Prod.snd := fun hmem => by
      obtain ⟨id, hid⟩ := hqueued.mp hmem
      exact hnot id hid
    rw [if_pos rfl, jobAt_slot, Option.bind_some, if_neg hin]

theorem clearStale_recoverable (h : Recoverable embed st job) :
    Recoverable embed st.clearStale job := by
  cases hsource : sourceText st.objects job with
  | none => exact .inl hsource
  | some text =>
    rcases h with hnone | hdone | hqueued | hpending
    · exact .inl hnone
    · exact .inr (.inl hdone)
    · exact .inr (.inr (.inl hqueued))
    · refine .inr (.inr (.inr ?_))
      unfold Server.clearStale
      rw [lookup_eraseAll, if_neg]
      · exact hpending
      · intro hmem
        obtain ⟨job', hjob', hslot⟩ := mem_map.mp hmem
        rw [VectorizeJob.eq_of_slot hslot] at hjob'
        have htextless := (mem_filter.mp hjob').2
        rw [hsource] at htextless
        cases htextless

theorem lt_recoveredJobId {id : Nat} (h : st.queue.lookup id = some job) :
    id < st.recoveredJobId := by
  have hmem : id ∈ st.queue.entries.map Prod.fst :=
    mem_map_of_mem (f := Prod.fst) (lookup_eq_some.mp h)
  exact Nat.lt_succ_of_le (le_max?_getD_of_mem hmem)

theorem requeue_ids (jobs : List (VectorizeJob schema)) (n : Nat) :
    ((jobs.zipIdx n).map Prod.swap).map Prod.fst = List.range' n jobs.length := by
  rw [map_map]
  exact zipIdx_map_snd n jobs

theorem requeue_covered (h : Recoverable embed st job) : Covered embed st.requeue job := by
  have hqueued : (∃ id, st.queue.lookup id = some job) → Covered embed st.requeue job := by
    rintro ⟨id, hid⟩
    refine .inr (.inr (.queued id ?_))
    unfold Server.requeue
    rw [lookup_insertAll_of_notMem]
    · exact hid
    · rw [requeue_ids, List.mem_range'_1]
      have hlt := lt_recoveredJobId hid
      omega
  rcases h with hnone | hdone | hin | hpending
  · exact .inl hnone
  · exact .inr (.inl hdone)
  · exact hqueued hin
  · cases hsource : sourceText st.objects job with
    | none => exact .inl hsource
    | some text =>
      by_cases hin : ∃ id, st.queue.lookup id = some job
      · exact hqueued hin
      · have horphan : job ∈ st.orphans.filter fun job => (sourceText st.objects job).isSome := by
          rw [mem_filter, mem_orphans, hsource]
          exact ⟨⟨hpending, fun id hid => hin ⟨id, hid⟩⟩, rfl⟩
        obtain ⟨i, hi⟩ := mem_iff_getElem?.mp horphan
        refine .inr (.inr (.queued (st.recoveredJobId + i) ?_))
        refine lookup_insertAll_of_mem (e := (st.recoveredJobId + i, job)) _ ?_ ?_
        · rw [requeue_ids]
          exact nodup_range'
        · refine mem_map.mpr ⟨(job, st.recoveredJobId + i), ?_, rfl⟩
          exact mk_add_mem_zipIdx_iff_getElem?.mpr hi

theorem requeue_idsOk (h : st.requests = .empty) : Ids st.requeue := by
  have hrequests : st.requeue.requests = .empty := h
  have hnone : ∀ r, st.requeue.requests.lookup r = none := by
    rw [hrequests]
    exact fun r => rfl
  refine ⟨fun id job hid => ?_, fun r jobs txn hr => ?_, fun r r' jobs jobs' txn txn' hr => ?_⟩
  · unfold Server.requeue at hid ⊢
    dsimp only at hid ⊢
    by_cases hnew : id ∈ (((st.orphans.filter fun job =>
        (sourceText st.objects job).isSome).zipIdx st.recoveredJobId).map Prod.swap).map Prod.fst
    · rw [requeue_ids, List.mem_range'_1] at hnew
      exact hnew.2
    · rw [lookup_insertAll_of_notMem _ hnew] at hid
      have hlt := lt_recoveredJobId hid
      omega
  · rw [hnone] at hr
    cases hr
  · rw [hnone] at hr
    cases hr

end

variable {embed : String → Bytes → ν} {st : Server schema ν} {a : Step}

structure Careful (embed : String → Bytes → ν) (st : Server schema ν) (a : Step) : Prop where
  answers : ∀ r mutation updated returned, a = .request r →
    st.requests.lookup r = some (.executing mutation updated returned) →
      Answers st updated returned mutation
  enqueues : ∀ r job jobs txn, a = .request r →
    st.requests.lookup r = some (.enqueuing (job :: jobs) (some txn)) →
      st.conflicts txn.began [job.slot] → txn.attempt < Server.maxConflictRetries
  stores : ∀ w i worker job text rest began, a = .worker w i → st.workers.lookup w = some worker →
    worker.clearing = [] → worker.texts = (job, text) :: rest → worker.began = some began →
      ¬ st.conflicts began [job.slot] ∧ (sourceText st.objects job = none ∨
        sourceText st.objects job = some text ∨ UnderWay st job)
  stops : a = .stop → ∀ job, (∃ r request, st.requests.lookup r = some request ∧
      request.Awaits job) ∨ (∃ w worker, st.workers.lookup w = some worker ∧
        worker.Carries st.objects job) → Recoverable embed st job

/-- Each job is done, under way or has nothing to embed; and between a stop and the end of the
next open, what is not done can be recovered. -/
structure Sound (embed : String → Bytes → ν) (st : Server schema ν) : Prop where
  covered : st.phase = .running → ∀ job, Covered embed st job
  recoverable : st.phase ≠ .running → ∀ job, Recoverable embed st job
  idle : st.phase ≠ .running → st.requests = .empty ∧ st.workers = .empty
  ids : Ids st

theorem sound_empty : Sound embed (Server.empty schema ν) where
  covered _ _ := .inl rfl
  recoverable h := absurd rfl h
  idle h := absurd rfl h
  ids := ids_empty

variable {request : Request schema} {r : Nat}

theorem running_of_request (h : Sound embed st) (hr : st.requests.lookup r = some request) :
    st.phase = .running := by
  by_contra hphase
  rw [(h.idle hphase).1] at hr
  cases hr

variable {worker : Worker schema} {w : Nat}

theorem running_of_worker (h : Sound embed st) (hw : st.workers.lookup w = some worker) :
    st.phase = .running := by
  by_contra hphase
  rw [(h.idle hphase).2] at hw
  cases hw

theorem sound_of_running (hphase : st.phase = .running) (hcovered : ∀ job, Covered embed st job)
    (hids : Ids st) : Sound embed st where
  covered _ := hcovered
  recoverable h := absurd hphase h
  idle h := absurd hphase h
  ids := hids

theorem commitRow_phase (st : Server schema ν) (r : Nat) (mutation : Mutation)
    (updated : List ObjectKey) (returned : Bool) :
    (st.commitRow r mutation updated returned).phase = st.phase := by
  cases mutation with
  | create key row => rfl
  | createBatch rows => rfl
  | update keys changes =>
    cases keys with
    | nil => rfl
    | cons key keys =>
      change (st.updateRow r key keys changes updated returned).phase = st.phase
      unfold Server.updateRow
      cases st.objects.lookup key with
      | none => rfl
      | some row => rfl
  | delete rows =>
    cases rows with
    | nil => rfl
    | cons row rows => rfl

theorem reply_phase (st : Server schema ν) (r : Nat) (output : Output) :
    (st.reply r output).phase = st.phase := by
  cases output with
  | single key => rfl
  | _ => rfl

theorem enqueueCommit_phase (st : Server schema ν) (r : Nat) (job : VectorizeJob schema)
    (jobs : List (VectorizeJob schema)) (txn : EnqueueTxn) :
    (st.enqueueCommit r job jobs txn).phase = st.phase := by
  unfold Server.enqueueCommit
  split_ifs
  · rfl
  · rfl
  · rfl

theorem stepRequest_sound (h : Sound embed st) (hr : st.requests.lookup r = some request)
    (hcare : Careful embed st (.request r)) : Sound embed (st.stepRequest r request) := by
  have hphase := running_of_request h hr
  have hcovered := h.covered hphase
  cases request with
  | executing mutation updated returned =>
    refine sound_of_running ((commitRow_phase st r mutation updated returned).trans hphase)
      (fun job => ?_) (h.ids.commitRow r mutation updated returned)
    exact commitRow_covered (hcovered job) hr (hcare.answers r _ _ _ rfl hr)
  | replying output =>
    refine sound_of_running ((reply_phase st r output).trans hphase)
      (fun job => reply_covered (hcovered job) hr) ?_
    cases output with
    | single key => exact h.ids.setRequest rfl rfl rfl nofun
    | _ => exact h.ids.endRequest r
  | enqueuing jobs txn =>
    cases jobs with
    | nil =>
      refine sound_of_running hphase (fun job => ?_) (h.ids.endRequest r)
      exact (hcovered job).of_request hr
        (fun r' hne => (lookup_erase _ _ _).trans (if_neg hne)) rfl rfl rfl rfl nofun
    | cons job jobs =>
      cases txn with
      | none =>
        refine sound_of_running hphase (fun job' => ?_) (h.ids.enqueueBegin r (job :: jobs))
        refine (hcovered job').of_request hr
          (fun r' hne => (lookup_insert _ _ _ _).trans (if_neg hne)) rfl rfl rfl rfl
          fun hawaits => ?_
        exact .awaited r _ ((lookup_insert _ _ _ _).trans (if_pos rfl)) hawaits
      | some txn =>
        refine sound_of_running ((enqueueCommit_phase st r job jobs txn).trans hphase)
          (fun job' => ?_) (h.ids.enqueueCommit hr)
        exact enqueueCommit_covered (hcovered job') h.ids hr (hcare.enqueues r job jobs txn rfl hr)

theorem stepWorker_frame (embed : String → Bytes → ν) (st : Server schema ν) (w i : Nat)
    (worker : Worker schema) :
    (st.stepWorker embed w i worker).queue = st.queue ∧
      (st.stepWorker embed w i worker).nextJobId = st.nextJobId ∧
      (st.stepWorker embed w i worker).requests = st.requests ∧
      (st.stepWorker embed w i worker).phase = st.phase := by
  obtain ⟨groups, clearing, retried, texts, began⟩ := worker
  unfold Server.stepWorker
  cases clearing with
  | cons keys rest =>
    cases began with
    | none => exact ⟨rfl, rfl, rfl, rfl⟩
    | some began =>
      dsimp only [Server.clearCommit]
      split_ifs <;> exact ⟨rfl, rfl, rfl, rfl⟩
  | nil =>
    cases texts with
    | nil =>
      dsimp only [Server.readTexts]
      cases groups[i]? with
      | none => exact ⟨rfl, rfl, rfl, rfl⟩
      | some group => exact ⟨rfl, rfl, rfl, rfl⟩
    | cons e rest =>
      cases began with
      | none => exact ⟨rfl, rfl, rfl, rfl⟩
      | some began =>
        dsimp only [Server.storeCommit]
        split_ifs <;> exact ⟨rfl, rfl, rfl, rfl⟩

theorem stepWorker_sound (h : Sound embed st) {i : Nat} (hw : st.workers.lookup w = some worker)
    (hcare : Careful embed st (.worker w i)) : Sound embed (st.stepWorker embed w i worker) := by
  have hphase := running_of_worker h hw
  have hcovered := h.covered hphase
  obtain ⟨hqueue, hnext, hrequests, hsame⟩ := stepWorker_frame embed st w i worker
  refine sound_of_running (hsame.trans hphase) (fun job => ?_)
    (h.ids.of_eq (fun id job hid => by rw [hqueue] at hid; exact hid) hnext hrequests)
  obtain ⟨groups, clearing, retried, texts, began⟩ := worker
  cases clearing with
  | cons keys rest =>
    cases began with
    | none => exact setWorker_covered (hcovered job) hw rfl rfl
    | some began => exact clearCommit_covered (hcovered job) hw
  | nil =>
    cases texts with
    | nil => exact readTexts_covered (hcovered job) hw rfl
    | cons e rest =>
      cases began with
      | none => exact setWorker_covered (hcovered job) hw rfl rfl
      | some began =>
        obtain ⟨hconflict, hlate⟩ := hcare.stores w i _ e.1 e.2 rest began rfl hw rfl rfl rfl
        exact storeCommit_covered (hcovered job) hw rfl hconflict hlate

theorem stop_sound (h : Sound embed st) (hcare : Careful embed st .stop) : Sound embed st.stop := by
  have hrecoverable : ∀ job, Recoverable embed st job := by
    intro job
    by_cases hphase : st.phase = .running
    · rcases h.covered hphase job with hnone | hdone | hway
      · exact .inl hnone
      · exact .inr (.inl hdone)
      · cases hway with
        | queued id hid => exact .inr (.inr (.inl ⟨id, hid⟩))
        | awaited r request hr hawaits => exact hcare.stops rfl job (.inl ⟨r, request, hr, hawaits⟩)
        | carried w worker hw hcarries => exact hcare.stops rfl job (.inr ⟨w, worker, hw, hcarries⟩)
    · exact h.recoverable hphase job
  refine ⟨nofun, fun _ => hrecoverable, fun _ => ⟨rfl, rfl⟩, ?_⟩
  exact ⟨h.ids.below, nofun, nofun⟩

theorem step_sound {batchSize : Nat} (h : Sound embed st) (hcare : Careful embed st a) :
    Sound embed (step embed batchSize st a) := by
  cases a with
  | arrive r mutation returned =>
    dsimp only [step]
    split_ifs with hfree
    · obtain ⟨hphase, hnone⟩ := hfree
      rw [Option.isNone_iff_eq_none] at hnone
      exact sound_of_running hphase (fun job => arrive_covered (h.covered hphase job) hnone)
        (h.ids.setRequest rfl rfl rfl nofun)
    · exact h
  | request r =>
    dsimp only [step]
    cases hr : st.requests.lookup r with
    | none => exact h
    | some request => exact stepRequest_sound h hr hcare
  | fail r =>
    dsimp only [step]
    cases hr : st.requests.lookup r with
    | none => exact h
    | some request =>
      have hphase := running_of_request h hr
      cases request with
      | executing mutation updated returned =>
        refine sound_of_running hphase (fun job => ?_) (h.ids.setRequest rfl rfl rfl nofun)
        exact (h.covered hphase job).of_request hr
          (fun r' hne => (lookup_insert _ _ _ _).trans (if_neg hne)) rfl rfl rfl rfl nofun
      | _ => exact h
  | claim w =>
    dsimp only [step]
    split_ifs with hfree
    · obtain ⟨hphase, hnone⟩ := hfree
      rw [Option.isNone_iff_eq_none] at hnone
      refine sound_of_running hphase (fun job => claim_covered (h.covered hphase job) hnone) ?_
      refine h.ids.of_eq (fun id job hid => ?_) rfl rfl
      have herased : (st.queue.eraseAll ((claimJobs st.queue st.claimCursor st.claimBound
          batchSize).1.map Prod.fst)).lookup id = some job := hid
      rw [lookup_eraseAll] at herased
      split_ifs at herased
      exact herased
    · exact h
  | worker w i =>
    dsimp only [step]
    cases hw : st.workers.lookup w with
    | none => exact h
    | some worker => exact stepWorker_sound h hw hcare
  | stop => exact stop_sound h hcare
  | reopen =>
    dsimp only [step]
    cases hphase : st.phase with
    | running => exact h
    | clearing =>
      have hdown : st.phase ≠ .running := by
        rw [hphase]
        exact nofun
      refine ⟨nofun, fun _ job => clearStale_recoverable (h.recoverable hdown job),
        fun _ => h.idle hdown, h.ids.of_eq (fun _ _ hid => hid) rfl rfl⟩
    | requeuing =>
      have hdown : st.phase ≠ .running := by
        rw [hphase]
        exact nofun
      exact sound_of_running rfl (fun job => requeue_covered (h.recoverable hdown job))
        (requeue_idsOk (h.idle hdown).1)

/-- No request is between its commit and its reply, no batch is in progress, and the queue of the
open database is empty. -/
structure Quiescent (st : Server schema ν) : Prop where
  running : st.phase = .running
  queue : st.queue = .empty
  requests : st.requests = .empty
  workers : st.workers = .empty

/-- Embeddings follow their source text. In every run in which no job is lost and no embedding
stored late, each live object's text has its embedding stored whenever nothing is under way. -/
theorem embeddings_follow (batchSize : Nat) (steps : List Step)
    (h : Along (step embed batchSize) (Careful embed) (Server.empty schema ν) steps)
    (hquiescent : Quiescent (exec (step embed batchSize) (Server.empty schema ν) steps))
    (job : VectorizeJob schema) (text : Bytes)
    (htext : sourceText (exec (step embed batchSize) (Server.empty schema ν) steps).objects job =
      some text) :
    (exec (step embed batchSize) (Server.empty schema ν) steps).vectors.lookup job.slot =
      some (embed job.field.1.model text) := by
  have hsound : Sound embed (exec (step embed batchSize) (Server.empty schema ν) steps) :=
    exec_invariant (C := Careful embed) (I := Sound embed) (fun _ _ hs hc => step_sound hs hc)
      sound_empty h
  rcases hsound.covered hquiescent.running job with hnone | ⟨text', htext', hvector⟩ | hway
  · rw [hnone] at htext
    cases htext
  · rw [htext] at htext'
    cases htext'
    exact hvector
  · cases hway with
    | queued id hid =>
      rw [hquiescent.queue] at hid
      cases hid
    | awaited r request hr _ =>
      rw [hquiescent.requests] at hr
      cases hr
    | carried w worker hw _ =>
      rw [hquiescent.workers] at hw
      cases hw

theorem careful_arrive (r : Nat) (mutation : Mutation) (returned : Bool) :
    Careful embed st (.arrive r mutation returned) := by
  constructor <;> intros <;> contradiction

theorem careful_claim (w : Nat) : Careful embed st (.claim w) := by
  constructor <;> intros <;> contradiction

theorem careful_request (hr : st.requests.lookup r = some request)
    (hanswers : ∀ mutation updated returned, request = .executing mutation updated returned →
      Answers st updated returned mutation)
    (henqueues : ∀ job jobs txn, request = .enqueuing (job :: jobs) (some txn) → ¬ st.conflicts
      txn.began [job.slot]) : Careful embed st (.request r) := by
  refine ⟨?_, ?_, nofun, nofun⟩
  · intro r' mutation updated returned ha hr'
    cases ha
    rw [hr] at hr'
    exact hanswers mutation updated returned (Option.some.inj hr')
  · intro r' job jobs txn ha hr' hconflict
    cases ha
    rw [hr] at hr'
    exact absurd hconflict (henqueues job jobs txn (Option.some.inj hr'))

theorem careful_worker {i : Nat} (hw : st.workers.lookup w = some worker)
    (hstores : ∀ job text rest began, worker.texts = (job, text) :: rest → worker.began = some began
      → ¬ st.conflicts began [job.slot] ∧ sourceText st.objects job = some text) :
    Careful embed st (.worker w i) := by
  refine ⟨nofun, nofun, ?_, nofun⟩
  intro w' i' worker' job text rest began ha hw' _ htexts hbegan
  cases ha
  rw [hw] at hw'
  cases hw'
  obtain ⟨hconflict, hsource⟩ := hstores job text rest began htexts hbegan
  exact ⟨hconflict, .inr (.inl hsource)⟩

theorem noteSchema_ids : ∀ f ∈ [(⟨1, 2, "body", "mini"⟩ : VectorizeField)],
    ∀ g ∈ [(⟨1, 2, "body", "mini"⟩ : VectorizeField)],
      f.typeId = g.typeId → f.fieldId = g.fieldId → f = g := by
  intro f hf g hg _ _
  rw [mem_singleton.mp hf, mem_singleton.mp hg]

def noteSchema : VectorSchema where
  fields := [⟨1, 2, "body", "mini"⟩]
  ids := noteSchema_ids

theorem mem_noteSchema : ⟨1, 2, "body", "mini"⟩ ∈ noteSchema.fields := mem_cons_self

def noteJob : VectorizeJob noteSchema := ⟨⟨⟨1, 2, "body", "mini"⟩, mem_noteSchema⟩, 7⟩

def noteRow : FieldMap := (∅ : FieldMap).insert "body" (.string [104, 105])

def lengthEmbedder (_model : String) (text : Bytes) : List UInt32 := [text.length.toUInt32]

/-- A note is created, claimed, embedded and stored. -/
theorem embeddings_follow_note :
    let steps : List Step := [.arrive 0 (.create ⟨1, 7⟩ noteRow) true, .request 0, .request 0,
      .request 0, .request 0, .request 0, .claim 0, .worker 0 0, .worker 0 0, .worker 0 0]
    (exec (step lengthEmbedder 32) (Server.empty noteSchema (List UInt32)) steps).vectors.lookup
      noteJob.slot = some (lengthEmbedder "mini" [104, 105]) := by
  intro steps
  refine embeddings_follow 32 steps ?_ ⟨?_, ?_, ?_, ?_⟩ noteJob [104, 105] ?_
  · refine ⟨careful_arrive _ _ _, careful_request rfl ?_ nofun, careful_request rfl nofun nofun,
      careful_request rfl nofun nofun, careful_request rfl nofun ?_, careful_request rfl nofun nofun,
      careful_claim _, careful_worker rfl nofun, careful_worker rfl nofun, careful_worker rfl ?_,
      trivial⟩
    · intro mutation updated returned heq
      cases heq
      exact .inl rfl
    · intro job jobs txn heq
      cases heq
      decide +kernel
    · intro job text rest began htexts hbegan
      cases htexts
      cases hbegan
      exact ⟨by decide +kernel, by decide +kernel⟩
  · decide +kernel
  · rfl
  · rfl
  · rfl
  · decide +kernel

/-- The rows of a batch are answered with as a list, and no job is enqueued for them. -/
theorem batch_not_embedded : ¬ ∀ (schema : VectorSchema) (embed : String → Bytes → List UInt32)
    (batchSize : Nat) (steps : List Step) (job : VectorizeJob schema) (text : Bytes),
    Quiescent (exec (step embed batchSize) (Server.empty schema (List UInt32)) steps) →
    sourceText (exec (step embed batchSize) (Server.empty schema (List UInt32)) steps).objects job =
      some text →
    (exec (step embed batchSize) (Server.empty schema (List UInt32)) steps).vectors.lookup job.slot =
      some (embed job.field.1.model text) := by
  intro hclaim
  have hvector := hclaim noteSchema lengthEmbedder 32
    [.arrive 0 (.createBatch [(⟨1, 7⟩, noteRow)]) true, .request 0, .request 0] noteJob [104, 105]
    ⟨by decide +kernel, rfl, rfl, rfl⟩ (by decide +kernel)
  exact absurd hvector (by decide +kernel)

end RhypeDb.Vectorizer
