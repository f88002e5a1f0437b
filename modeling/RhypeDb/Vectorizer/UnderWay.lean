import RhypeDb.Vectorizer.JobIds

/-! Where a job is on its way from a query's commit to its embedding, and that requests and workers
pass it on. -/

namespace RhypeDb.Vectorizer

open Engine List SortedMap
open SchemaCatalog (ObjectKey)

variable {schema : VectorSchema} {ν : Type}

def Request.Awaits (job : VectorizeJob schema) : Request schema → Prop
  | .executing _ _ _ => False
  | .replying output => output = .single job.object
  | .enqueuing jobs _ => job ∈ jobs

def Worker.Carries (objects : SortedMap ObjectKey FieldMap) (job : VectorizeJob schema)
    (worker : Worker schema) : Prop :=
  (∃ group ∈ worker.groups, job ∈ group) ∨
    ∃ text, (job, text) ∈ worker.texts ∧ sourceText objects job = some text

inductive UnderWay (st : Server schema ν) (job : VectorizeJob schema) : Prop
  | queued (id : Nat) (h : st.queue.lookup id = some job)
  | awaited (r : Nat) (request : Request schema) (h : st.requests.lookup r = some request)
      (hawaits : request.Awaits job)
  | carried (w : Nat) (worker : Worker schema) (h : st.workers.lookup w = some worker)
      (hcarries : worker.Carries st.objects job)

def Embedded (embed : String → Bytes → ν) (st : Server schema ν) (job : VectorizeJob schema) : Prop :=
  ∃ text, sourceText st.objects job = some text ∧
    st.vectors.lookup job.slot = some (embed job.field.1.model text)

def Covered (embed : String → Bytes → ν) (st : Server schema ν) (job : VectorizeJob schema) : Prop :=
  sourceText st.objects job = none ∨ Embedded embed st job ∨ UnderWay st job

/-- What a stop may take away without loss: the job is done, or its slot is marked pending or in
the queue. -/
def Recoverable (embed : String → Bytes → ν) (st : Server schema ν) (job : VectorizeJob schema) :
    Prop :=
  sourceText st.objects job = none ∨ Embedded embed st job ∨
    (∃ id, st.queue.lookup id = some job) ∨ st.states.lookup job.slot = some .pending

section

variable {embed : String → Bytes → ν} {st st' : Server schema ν} {job : VectorizeJob schema}
  {r : Nat}

theorem Covered.of_request {old : Request schema} (h : Covered embed st job)
    (hold : st.requests.lookup r = some old)
    (hrequests : ∀ r', r' ≠ r → st'.requests.lookup r' = st.requests.lookup r')
    (htext : sourceText st'.objects job = sourceText st.objects job)
    (hvectors : st'.vectors = st.vectors) (hqueue : st'.queue = st.queue)
    (hworkers : st'.workers = st.workers) (hnew : old.Awaits job → UnderWay st' job) :
    Covered embed st' job := by
  rcases h with hnone | ⟨text, hsome, hvector⟩ | hway
  · exact .inl (htext.trans hnone)
  · refine .inr (.inl ⟨text, htext.trans hsome, ?_⟩)
    rw [hvectors]
    exact hvector
  · refine .inr (.inr ?_)
    cases hway with
    | queued id hid =>
      rw [← hqueue] at hid
      exact .queued id hid
    | awaited r' request hr hawaits =>
      by_cases hrr : r' = r
      · subst hrr
        rw [hold] at hr
        cases hr
        exact hnew hawaits
      · refine .awaited r' request ?_ hawaits
        rw [hrequests r' hrr]
        exact hr
    | carried w worker hw hcarries =>
      rw [← hworkers] at hw
      refine .carried w worker hw ?_
      unfold Worker.Carries at hcarries ⊢
      rw [htext]
      exact hcarries

theorem arrive_covered {new : Request schema} (h : Covered embed st job)
    (hnone : st.requests.lookup r = none) : Covered embed (st.setRequest r new) job := by
  rcases h with htext | hdone | hway
  · exact .inl htext
  · exact .inr (.inl hdone)
  · refine .inr (.inr ?_)
    cases hway with
    | queued id hid => exact .queued id hid
    | awaited r' request hr hawaits =>
      have hne : r' ≠ r := by
        rintro rfl
        rw [hnone] at hr
        cases hr
      exact .awaited r' request ((lookup_insert _ _ _ _).trans ((if_neg hne).trans hr))
        hawaits
    | carried w worker hw hcarries => exact .carried w worker hw hcarries

/-- A commit that changes a source text is of an object that the query answers with, alone. -/
def Answers (st : Server schema ν) (updated : List ObjectKey) (returned : Bool) : Mutation → Prop
  | .create key row =>
    returned ∨ ∀ job : VectorizeJob schema, job.object = key → rowText row job = none
  | .createBatch rows =>
    ∀ row ∈ rows, ∀ job : VectorizeJob schema, job.object = row.1 → rowText row.2 job = none
  | .update [] _ => True
  | .update (key :: keys) changes =>
    keys = [] ∧ updated = [] ∧ returned ∨
      ∀ row, st.objects.lookup key = some row → ∀ job : VectorizeJob schema, job.object = key →
        rowText (row.merge changes) job = rowText row job
  | .delete _ => True

theorem sourceText_insert (objects : SortedMap ObjectKey FieldMap) (key : ObjectKey) (row : FieldMap)
    (job : VectorizeJob schema) :
    sourceText (objects.insert key row) job =
      if job.object = key then rowText row job else sourceText objects job := by
  unfold sourceText
  rw [lookup_insert]
  split_ifs
  · rfl
  · rfl

theorem sourceText_insertAll {rows : List (ObjectKey × FieldMap)}
    (hrows : ∀ row ∈ rows, job.object = row.1 → rowText row.2 job = none)
    (objects : SortedMap ObjectKey FieldMap) :
    sourceText (objects.insertAll rows) job = none ∨
      sourceText (objects.insertAll rows) job = sourceText objects job := by
  induction rows generalizing objects with
  | nil => exact .inr rfl
  | cons row rows ih =>
    rw [forall_mem_cons] at hrows
    change sourceText ((objects.insert row.1 row.2).insertAll rows) job = none ∨
      sourceText ((objects.insert row.1 row.2).insertAll rows) job = sourceText objects job
    rcases ih hrows.2 (objects.insert row.1 row.2) with hnone | hsame
    · exact .inl hnone
    · rw [hsame, sourceText_insert]
      split_ifs with hkey
      · exact .inl (hrows.1 hkey)
      · exact .inr rfl

theorem sourceText_eraseAll (keys : List ObjectKey) (objects : SortedMap ObjectKey FieldMap) :
    sourceText (objects.eraseAll keys) job = none ∨
      sourceText (objects.eraseAll keys) job = sourceText objects job := by
  unfold sourceText
  rw [lookup_eraseAll]
  split_ifs
  · exact .inl rfl
  · exact .inr rfl

theorem commitRow_covered {mutation : Mutation} {updated : List ObjectKey}
    {returned : Bool} (h : Covered embed st job)
    (hold : st.requests.lookup r = some (.executing mutation updated returned))
    (hanswers : Answers st updated returned mutation) :
    Covered embed (st.commitRow r mutation updated returned) job := by
  have hother : ∀ new r', r' ≠ r →
      (st.requests.insert r new).lookup r' = st.requests.lookup r' := by
    intro new r' hne
    rw [lookup_insert, if_neg hne]
  have hself : ∀ new, (st.requests.insert r new).lookup r = some new := by
    intro new
    rw [lookup_insert, if_pos rfl]
  cases mutation with
  | create key row =>
    by_cases hkey : job.object = key
    · rcases hanswers with hreturned | hnone
      · refine .inr (.inr (.awaited r _ (hself _) ?_))
        rw [hreturned, ← hkey]
        rfl
      · refine .inl ?_
        unfold Server.commitRow
        rw [sourceText_insert, if_pos hkey]
        exact hnone job hkey
    · refine h.of_request hold (hother _) ?_ rfl rfl rfl False.elim
      unfold Server.commitRow
      rw [sourceText_insert, if_neg hkey]
  | createBatch rows =>
    rcases sourceText_insertAll (fun row hrow => hanswers row hrow job) st.objects with hnone | hsame
    · exact .inl hnone
    · exact h.of_request hold (hother _) hsame rfl rfl rfl False.elim
  | update keys changes =>
    cases keys with
    | nil => exact h.of_request hold (hother _) rfl rfl rfl rfl False.elim
    | cons key keys =>
      change Covered embed (st.updateRow r key keys changes updated returned) job
      unfold Server.updateRow
      cases hrow : st.objects.lookup key with
      | none => exact h.of_request hold (hother _) rfl rfl rfl rfl False.elim
      | some row =>
        by_cases hkey : job.object = key
        · rcases hanswers with ⟨rfl, rfl, hreturned⟩ | hsame
          · refine .inr (.inr (.awaited r _ (hself _) ?_))
            rw [hreturned, ← hkey]
            rfl
          · refine h.of_request hold (hother _) ?_ rfl rfl rfl False.elim
            rw [sourceText_insert, if_pos hkey, hsame row hrow job hkey]
            unfold sourceText
            rw [hkey, hrow]
            rfl
        · refine h.of_request hold (hother _) ?_ rfl rfl rfl False.elim
          rw [sourceText_insert, if_neg hkey]
  | delete rows =>
    cases rows with
    | nil => exact h.of_request hold (hother _) rfl rfl rfl rfl False.elim
    | cons row rows =>
      rcases sourceText_eraseAll row st.objects with hnone | hsame
      · exact .inl hnone
      · exact h.of_request hold (hother _) hsame rfl rfl rfl False.elim

theorem reply_covered {output : Output} (h : Covered embed st job)
    (hold : st.requests.lookup r = some (.replying output)) :
    Covered embed (st.reply r output) job := by
  have hend : output ≠ .single job.object → Covered embed (st.endRequest r) job := fun hne =>
    h.of_request hold (fun r' hr => (lookup_erase _ _ _).trans (if_neg hr)) rfl rfl rfl rfl
      fun hawaits => absurd hawaits hne
  cases output with
  | single key =>
    refine h.of_request hold (fun r' hr => (lookup_insert _ _ _ _).trans (if_neg hr))
      rfl rfl rfl rfl fun hawaits => ?_
    have hkey : key = job.object := Output.single.inj hawaits
    refine .awaited r (.enqueuing (jobsOf schema key) none) ?_ ?_
    · exact (lookup_insert _ _ _ _).trans (if_pos rfl)
    · rw [hkey]
      exact mem_jobsOf job
  | _ => exact hend nofun

theorem enqueueCommit_covered {head : VectorizeJob schema}
    {jobs : List (VectorizeJob schema)} {txn : EnqueueTxn} (h : Covered embed st job) (hids : Ids st)
    (hold : st.requests.lookup r = some (.enqueuing (head :: jobs) (some txn)))
    (hcare : st.conflicts txn.began [head.slot] → txn.attempt < Server.maxConflictRetries) :
    Covered embed (st.enqueueCommit r head jobs txn) job := by
  have hother : ∀ new r', r' ≠ r →
      (st.requests.insert r new).lookup r' = st.requests.lookup r' := fun new r' hne =>
    (lookup_insert _ _ _ _).trans (if_neg hne)
  have hself : ∀ new, (st.requests.insert r new).lookup r = some new := fun new =>
    (lookup_insert _ _ _ _).trans (if_pos rfl)
  unfold Server.enqueueCommit
  split_ifs with hconflict hretry
  · exact h.of_request hold (hother _) rfl rfl rfl rfl fun hawaits => .awaited r _ (hself _) hawaits
  · exact absurd (hcare hconflict) hretry
  · obtain ⟨-, hfree⟩ := hids.fresh r _ txn hold
    have hqueue : ∀ id job', st.queue.lookup id = some job' →
        (st.queue.insert txn.firstId head).lookup id = some job' := by
      intro id job' hid
      rw [lookup_insert, if_neg]
      · exact hid
      · rintro rfl
        rw [hfree] at hid
        cases hid
    rcases h with hnone | hembedded | hway
    · exact .inl hnone
    · exact .inr (.inl hembedded)
    · refine .inr (.inr ?_)
      cases hway with
      | queued id hid => exact .queued id (hqueue id job hid)
      | awaited r' request hr hawaits =>
        by_cases hrr : r' = r
        · subst hrr
          rw [hold] at hr
          cases hr
          rcases mem_cons.mp hawaits with rfl | hrest
          · exact .queued txn.firstId ((lookup_insert _ _ _ _).trans (if_pos rfl))
          · exact .awaited r' _ (hself _) hrest
        · exact .awaited r' request ((hother _ r' hrr).trans hr) hawaits
      | carried w worker hw hcarries => exact .carried w worker hw hcarries

end

variable {embed : String → Bytes → ν} {st st' : Server schema ν} {job : VectorizeJob schema}
  {w : Nat} {worker new : Worker schema} {began : Nat}

theorem setWorker_lookup (st : Server schema ν) (w w' : Nat) (new : Worker schema) (hne : w' ≠ w) :
    (st.setWorker w new).workers.lookup w' = st.workers.lookup w' := by
  unfold Server.setWorker
  split_ifs
  · exact (lookup_erase _ _ _).trans (if_neg hne)
  · exact (lookup_insert _ _ _ _).trans (if_neg hne)

theorem setWorker_carries (st : Server schema ν) (w : Nat) {objects : SortedMap ObjectKey FieldMap}
    (hcarries : new.Carries objects job) : (st.setWorker w new).workers.lookup w = some new := by
  have hbusy : ¬ (new.groups = [] ∧ new.clearing = [] ∧ new.texts = []) := by
    rintro ⟨hgroups, -, htexts⟩
    rcases hcarries with ⟨group, hgroup, -⟩ | ⟨text, htext, -⟩
    · rw [hgroups] at hgroup
      cases hgroup
    · rw [htexts] at htext
      cases htext
  unfold Server.setWorker
  rw [if_neg hbusy]
  exact (lookup_insert _ _ _ _).trans (if_pos rfl)

theorem Covered.of_worker (h : Covered embed st job) (hold : st.workers.lookup w = some worker)
    (hworkers : ∀ w', w' ≠ w → st'.workers.lookup w' = st.workers.lookup w')
    (hobjects : st'.objects = st.objects) (hqueue : st'.queue = st.queue)
    (hrequests : st'.requests = st.requests)
    (hembedded : Embedded embed st job → Covered embed st' job)
    (hnew : worker.Carries st.objects job → Covered embed st' job) : Covered embed st' job := by
  rcases h with hnone | hdone | hway
  · left
    rw [hobjects]
    exact hnone
  · exact hembedded hdone
  · cases hway with
    | queued id hid =>
      rw [← hqueue] at hid
      exact .inr (.inr (.queued id hid))
    | awaited r request hr hawaits =>
      rw [← hrequests] at hr
      exact .inr (.inr (.awaited r request hr hawaits))
    | carried w' worker' hw hcarries =>
      by_cases hww : w' = w
      · subst hww
        rw [hold] at hw
        cases hw
        exact hnew hcarries
      · rw [← hworkers w' hww] at hw
        rw [← hobjects] at hcarries
        exact .inr (.inr (.carried w' worker' hw hcarries))

theorem setWorker_covered (h : Covered embed st job) (hold : st.workers.lookup w = some worker)
    (hgroups : new.groups = worker.groups) (htexts : new.texts = worker.texts) :
    Covered embed (st.setWorker w new) job := by
  refine h.of_worker hold (fun w' hne => setWorker_lookup st w w' new hne) rfl rfl rfl
    (fun hdone => .inr (.inl hdone)) fun hcarries => ?_
  have hcarries' : new.Carries st.objects job := by
    unfold Worker.Carries at hcarries ⊢
    rw [hgroups, htexts]
    exact hcarries
  exact .inr (.inr (.carried w new (setWorker_carries _ _ hcarries') hcarries'))

theorem clearCommit_covered {keys : List Slot} {rest : List (List Slot)}
    (h : Covered embed st job) (hold : st.workers.lookup w = some worker) :
    Covered embed (st.clearCommit w worker keys rest began) job := by
  unfold Server.clearCommit
  by_cases hconflict : st.conflicts began keys
  · rw [if_pos hconflict]
    exact setWorker_covered h hold rfl rfl
  · rw [if_neg hconflict]
    have hsame : Covered embed (st.setWorker w { worker with clearing := rest, began := none }) job :=
      setWorker_covered h hold rfl rfl
    -- states and stamps take no part in what is covered
    rcases hsame with hnone | hdone | hway
    · exact .inl hnone
    · exact .inr (.inl hdone)
    · cases hway with
      | queued id hid => exact .inr (.inr (.queued id hid))
      | awaited r request hr hawaits => exact .inr (.inr (.awaited r request hr hawaits))
      | carried w' worker' hw hcarries => exact .inr (.inr (.carried w' worker' hw hcarries))

theorem readTexts_covered {i : Nat} (h : Covered embed st job)
    (hold : st.workers.lookup w = some worker) (htexts : worker.texts = []) :
    Covered embed (st.readTexts w worker i) job := by
  unfold Server.readTexts
  cases hgroup : worker.groups[i]? with
  | none => exact h
  | some group =>
    refine h.of_worker hold (fun w' hne => setWorker_lookup st w w' _ hne) rfl rfl rfl
      (fun hdone => .inr (.inl hdone)) fun hcarries => ?_
    have hcase : (∃ g ∈ worker.groups.eraseIdx i, job ∈ g) ∨ job ∈ group := by
      rcases hcarries with ⟨g, hg, hjob⟩ | ⟨text, htext, -⟩
      · rcases mem_iff_getElem?.mp hg with ⟨k, hk⟩
        by_cases hki : k = i
        · subst hki
          rw [hgroup] at hk
          cases hk
          exact .inr hjob
        · exact .inl ⟨g, mem_eraseIdx_iff_getElem?.mpr ⟨k, hki, hk⟩, hjob⟩
      · rw [htexts] at htext
        cases htext
    cases hsource : sourceText st.objects job with
    | none => exact .inl hsource
    | some text =>
      have hcarries' : (Worker.Carries st.objects job { worker with
          groups := worker.groups.eraseIdx i
          clearing := if group.filter (fun job => (sourceText st.objects job).isNone) = [] then []
            else [(group.filter fun job => (sourceText st.objects job).isNone).map VectorizeJob.slot]
          retried := false
          texts := group.filterMap fun job =>
            (sourceText st.objects job).map fun text => (job, text) }) := by
        rcases hcase with hrest | hread
        · exact .inl hrest
        · refine .inr ⟨text, mem_filterMap.mpr ⟨job, hread, ?_⟩, hsource⟩
          rw [hsource]
          rfl
      exact .inr (.inr (.carried w _ (setWorker_carries _ _ hcarries') hcarries'))

theorem storeCommit_covered {head : VectorizeJob schema} {text : Bytes}
    {rest : List (VectorizeJob schema × Bytes)} (h : Covered embed st job)
    (hold : st.workers.lookup w = some worker) (htexts : worker.texts = (head, text) :: rest)
    (hconflict : ¬ st.conflicts began [head.slot])
    (hlate : sourceText st.objects head = none ∨ sourceText st.objects head = some text ∨
      UnderWay st head) :
    Covered embed (st.storeCommit embed w worker head text rest began) job := by
  unfold Server.storeCommit
  rw [if_neg hconflict]
  -- what is stored is the job's embedding, or nothing of the job changes
  have hrest : worker.Carries st.objects job →
      ¬ (job = head ∧ sourceText st.objects head = some text) →
      Worker.Carries st.objects job { worker with texts := rest, began := none } := by
    intro hcarries hnot
    rcases hcarries with hgroup | ⟨text', hmem, hsource⟩
    · exact .inl hgroup
    · rw [htexts] at hmem
      rcases mem_cons.mp hmem with heq | hmem
      · cases heq
        exact absurd ⟨rfl, hsource⟩ hnot
      · exact .inr ⟨text', hmem, hsource⟩
  have hway : ¬ (job = head ∧ sourceText st.objects head = some text) → UnderWay st job →
      @UnderWay schema ν
        { (st.touch [head.slot]).setWorker w { worker with texts := rest, began := none } with
          vectors := st.vectors.insert head.slot (embed head.field.1.model text)
          states := st.states.insert head.slot .indexed } job := by
    intro hnot hway
    cases hway with
    | queued id hid => exact .queued id hid
    | awaited r request hr hawaits => exact .awaited r request hr hawaits
    | carried w' worker' hw hcarries =>
      by_cases hww : w' = w
      · subst hww
        rw [hold] at hw
        cases hw
        have hcarries' := hrest hcarries hnot
        have hbusy := setWorker_carries (st.touch [head.slot]) w' hcarries'
        exact .carried w' _ hbusy hcarries'
      · exact .carried w' worker' ((setWorker_lookup _ w w' _ hww).trans hw) hcarries
  by_cases hdone : job = head ∧ sourceText st.objects head = some text
  · obtain ⟨rfl, hsource⟩ := hdone
    exact .inr (.inl ⟨text, hsource, (lookup_insert _ _ _ _).trans (if_pos rfl)⟩)
  · by_cases hjob : job = head
    · subst hjob
      rcases hlate with hnone | hsource | hunder
      · exact .inl hnone
      · exact absurd ⟨rfl, hsource⟩ hdone
      · exact .inr (.inr (hway hdone hunder))
    · rcases h with hnone | ⟨text', hsource, hvector⟩ | hunder
      · exact .inl hnone
      · refine .inr (.inl ⟨text', hsource, ?_⟩)
        have hslot : job.slot ≠ head.slot := fun heq => hjob (VectorizeJob.eq_of_slot heq)
        exact (lookup_insert _ _ _ _).trans ((if_neg hslot).trans hvector)
      · exact .inr (.inr (hway hdone hunder))

theorem mem_groupByModel {jobs : List (VectorizeJob schema)} (hjob : job ∈ jobs) :
    ∃ group ∈ Server.groupByModel jobs, job ∈ group := by
  refine ⟨_, mem_map_of_mem (mem_dedup.mpr (mem_map_of_mem hjob)), ?_⟩
  exact mem_filter.mpr ⟨hjob, decide_eq_true rfl⟩

theorem claim_covered {batchSize : Nat} (h : Covered embed st job)
    (hidle : st.workers.lookup w = none) : Covered embed (st.claim batchSize w) job := by
  rcases h with hnone | hdone | hway
  · exact .inl hnone
  · exact .inr (.inl hdone)
  · refine .inr (.inr ?_)
    cases hway with
    | queued id hid =>
      by_cases hclaimed : id ∈ ((claimJobs st.queue st.claimCursor st.claimBound batchSize).1.map
          Prod.fst)
      · obtain ⟨e, he, rfl⟩ := mem_map.mp hclaimed
        have hentry := lookup_eq_some.mpr (mem_claimJobs he)
        rw [hid] at hentry
        cases hentry
        obtain ⟨group, hgroup, hjob⟩ := mem_groupByModel (mem_map_of_mem (f := Prod.snd) he)
        have hcarries : Worker.Carries st.objects e.2
            ⟨Server.groupByModel
              ((claimJobs st.queue st.claimCursor st.claimBound batchSize).1.map Prod.snd),
              [], false, [], none⟩ := .inl ⟨group, hgroup, hjob⟩
        exact .carried w _ (setWorker_carries _ _ hcarries) hcarries
      · refine .queued id ?_
        exact (lookup_eraseAll _ _ _).trans ((if_neg hclaimed).trans hid)
    | awaited r request hr hawaits => exact .awaited r request hr hawaits
    | carried w' worker' hw hcarries =>
      have hww : w' ≠ w := by
        rintro rfl
        rw [hidle] at hw
        cases hw
      exact .carried w' worker' ((setWorker_lookup st w w' _ hww).trans hw) hcarries

end RhypeDb.Vectorizer
