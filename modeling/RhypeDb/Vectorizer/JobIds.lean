import RhypeDb.Vectorizer.Pipeline

/-! The ids of jobs: no enqueue takes the entry of another. -/

namespace RhypeDb.Vectorizer

open Engine SortedMap
open SchemaCatalog (ObjectKey)

variable {schema : VectorSchema} {ν : Type} {st st' : Server schema ν} {r : Nat}

/-- Job ids are drawn in order: those of the queue and of the enqueues under way are below the
counter, and no two are the same. -/
structure Ids (st : Server schema ν) : Prop where
  below : ∀ id job, st.queue.lookup id = some job → id < st.nextJobId
  fresh : ∀ r jobs txn, st.requests.lookup r = some (.enqueuing jobs (some txn)) →
    txn.firstId < st.nextJobId ∧ st.queue.lookup txn.firstId = none
  distinct : ∀ r r' jobs jobs' txn txn', st.requests.lookup r = some (.enqueuing jobs (some txn)) →
    st.requests.lookup r' = some (.enqueuing jobs' (some txn')) → txn.firstId = txn'.firstId → r = r'

theorem ids_empty : Ids (Server.empty schema ν) := ⟨nofun, nofun, nofun⟩

theorem Ids.of_request (h : Ids st) (hqueue : st'.queue = st.queue)
    (hnext : st'.nextJobId = st.nextJobId)
    (hother : ∀ r', r' ≠ r → st'.requests.lookup r' = st.requests.lookup r')
    (hself : ∀ jobs txn, st'.requests.lookup r ≠ some (.enqueuing jobs (some txn))) : Ids st' := by
  have hne : ∀ {r' jobs txn}, st'.requests.lookup r' = some (.enqueuing jobs (some txn)) →
      st.requests.lookup r' = some (.enqueuing jobs (some txn)) := by
    intro r' jobs txn hr
    by_cases hrr : r' = r
    · subst hrr
      exact absurd hr (hself jobs txn)
    · exact (hother r' hrr).symm.trans hr
  constructor
  · intro id job hid
    rw [hqueue] at hid
    rw [hnext]
    exact h.below id job hid
  · intro r' jobs txn hr
    rw [hqueue, hnext]
    exact h.fresh r' jobs txn (hne hr)
  · intro r' r'' jobs jobs' txn txn' hr hr' hid
    exact h.distinct r' r'' jobs jobs' txn txn' (hne hr) (hne hr') hid

theorem Ids.setRequest (h : Ids st) {request : Request schema}
    (hqueue : st'.queue = st.queue) (hnext : st'.nextJobId = st.nextJobId)
    (hrequests : st'.requests = st.requests.insert r request)
    (hclosed : ∀ jobs txn, request ≠ .enqueuing jobs (some txn)) : Ids st' := by
  refine h.of_request (r := r) hqueue hnext (fun r' hne => ?_) (fun jobs txn hr => ?_)
  · rw [hrequests, lookup_insert, if_neg hne]
  · rw [hrequests, lookup_insert, if_pos rfl] at hr
    exact hclosed jobs txn (Option.some.inj hr)

theorem Ids.endRequest (h : Ids st) (r : Nat) : Ids (st.endRequest r) := by
  refine h.of_request (r := r) rfl rfl (fun r' hne => ?_) (fun jobs txn hr => ?_)
  · exact (lookup_erase _ _ _).trans (if_neg hne)
  · have herased : (st.endRequest r).requests.lookup r = none :=
      (lookup_erase _ _ _).trans (if_pos rfl)
    rw [herased] at hr
    cases hr

theorem nextUpdate_closed (keys : List ObjectKey) (changes : FieldMap) (updated : List ObjectKey)
    (returned : Bool) (jobs : List (VectorizeJob schema)) (txn : EnqueueTxn) :
    Server.nextUpdate keys changes updated returned ≠ .enqueuing jobs (some txn) := by
  unfold Server.nextUpdate
  split_ifs
  · exact nofun
  · exact nofun

theorem Ids.commitRow (h : Ids st) (r : Nat) (mutation : Mutation) (updated : List ObjectKey)
    (returned : Bool) : Ids (st.commitRow r mutation updated returned) := by
  cases mutation with
  | create key row => exact h.setRequest rfl rfl rfl nofun
  | createBatch rows => exact h.setRequest rfl rfl rfl nofun
  | update keys changes =>
    cases keys with
    | nil => exact h.setRequest rfl rfl rfl nofun
    | cons key keys =>
      change Ids (st.updateRow r key keys changes updated returned)
      unfold Server.updateRow
      cases st.objects.lookup key with
      | none => exact h.setRequest rfl rfl rfl nofun
      | some row => exact h.setRequest rfl rfl rfl (nextUpdate_closed _ _ _ _)
  | delete rows =>
    cases rows with
    | nil => exact h.setRequest rfl rfl rfl nofun
    | cons row rows => exact h.setRequest rfl rfl rfl nofun

theorem Ids.enqueueBegin (h : Ids st) (r : Nat) (jobs : List (VectorizeJob schema)) :
    Ids (st.enqueueBegin r jobs) := by
  have hfree : st.queue.lookup st.nextJobId = none := by
    cases hid : st.queue.lookup st.nextJobId with
    | none => rfl
    | some job => exact absurd (h.below _ job hid) (lt_irrefl _)
  have hcase : ∀ {r' jobs' txn}, (st.requests.insert r (.enqueuing jobs
      (some ⟨st.nextJobId, st.clock, 0⟩))).lookup r' = some (.enqueuing jobs' (some txn)) →
      r' = r ∧ txn.firstId = st.nextJobId ∨
        r' ≠ r ∧ st.requests.lookup r' = some (.enqueuing jobs' (some txn)) := by
    intro r' jobs' txn hr
    rw [lookup_insert] at hr
    split_ifs at hr with hrr
    · cases hr
      exact .inl ⟨hrr, rfl⟩
    · exact .inr ⟨hrr, hr⟩
  constructor
  · intro id job hid
    exact (h.below id job hid).trans (Nat.lt_succ_self _)
  · intro r' jobs' txn hr
    rcases hcase hr with ⟨-, hid⟩ | ⟨-, hr⟩
    · rw [hid]
      exact ⟨Nat.lt_succ_self _, hfree⟩
    · obtain ⟨hlt, hnone⟩ := h.fresh r' jobs' txn hr
      exact ⟨hlt.trans (Nat.lt_succ_self _), hnone⟩
  · intro r' r'' jobs' jobs'' txn txn' hr hr' hid
    rcases hcase hr with ⟨hrr, hnew⟩ | ⟨-, hr⟩
    · rcases hcase hr' with ⟨hrr', -⟩ | ⟨-, hr'⟩
      · exact hrr.trans hrr'.symm
      · obtain ⟨hlt, -⟩ := h.fresh r'' jobs'' txn' hr'
        omega
    · rcases hcase hr' with ⟨-, hnew⟩ | ⟨-, hr'⟩
      · obtain ⟨hlt, -⟩ := h.fresh r' jobs' txn hr
        omega
      · exact h.distinct r' r'' jobs' jobs'' txn txn' hr hr' hid

theorem Ids.enqueueCommit (h : Ids st) {job : VectorizeJob schema}
    {jobs : List (VectorizeJob schema)} {txn : EnqueueTxn}
    (hold : st.requests.lookup r = some (.enqueuing (job :: jobs) (some txn))) :
    Ids (st.enqueueCommit r job jobs txn) := by
  unfold Server.enqueueCommit
  split_ifs
  · -- a retry keeps its id
    have hcase : ∀ {r' jobs' txn'}, (st.requests.insert r (.enqueuing (job :: jobs)
        (some ⟨txn.firstId, st.clock, txn.attempt + 1⟩))).lookup r' =
          some (.enqueuing jobs' (some txn')) →
        ∃ jobs'' txn'', st.requests.lookup r' = some (.enqueuing jobs'' (some txn'')) ∧
          txn''.firstId = txn'.firstId := by
      intro r' jobs' txn' hr
      rw [lookup_insert] at hr
      split_ifs at hr with hrr
      · cases hr
        rw [hrr]
        exact ⟨_, txn, hold, rfl⟩
      · exact ⟨jobs', txn', hr, rfl⟩
    refine ⟨h.below, fun r' jobs' txn' hr => ?_, fun r' r'' jobs' jobs'' txn' txn'' hr hr' hid => ?_⟩
    · obtain ⟨_, txn₀, hr₀, hid₀⟩ := hcase hr
      rw [← hid₀]
      exact h.fresh r' _ txn₀ hr₀
    · obtain ⟨_, txn₀, hr₀, hid₀⟩ := hcase hr
      obtain ⟨_, txn₁, hr₁, hid₁⟩ := hcase hr'
      exact h.distinct r' r'' _ _ txn₀ txn₁ hr₀ hr₁ (hid₀.trans (hid.trans hid₁.symm))
  · exact h.setRequest rfl rfl rfl nofun
  · obtain ⟨hlt, -⟩ := h.fresh r _ txn hold
    have hcase : ∀ {r' jobs' txn'}, (st.requests.insert r (.enqueuing jobs none)).lookup r' =
        some (.enqueuing jobs' (some txn')) →
          r' ≠ r ∧ st.requests.lookup r' = some (.enqueuing jobs' (some txn')) := by
      intro r' jobs' txn' hr
      rw [lookup_insert] at hr
      split_ifs at hr with hrr
      · cases hr
      · exact ⟨hrr, hr⟩
    constructor
    · intro id job' hid
      have hinsert : (st.queue.insert txn.firstId job).lookup id = some job' := hid
      rw [lookup_insert] at hinsert
      split_ifs at hinsert with hfirst
      · rw [hfirst]
        exact hlt
      · exact h.below id job' hinsert
    · intro r' jobs' txn' hr
      obtain ⟨hne, hr⟩ := hcase hr
      obtain ⟨hlt', hnone⟩ := h.fresh r' jobs' txn' hr
      refine ⟨hlt', ?_⟩
      have hids : txn'.firstId ≠ txn.firstId := fun heq =>
        hne (h.distinct r' r _ _ txn' txn hr hold heq)
      exact (lookup_insert _ _ _ _).trans ((if_neg hids).trans hnone)
    · intro r' r'' jobs' jobs'' txn' txn'' hr hr' hid
      exact h.distinct r' r'' jobs' jobs'' txn' txn'' (hcase hr).2 (hcase hr').2 hid

theorem Ids.of_eq (h : Ids st) (hqueue : ∀ id job, st'.queue.lookup id = some job →
      st.queue.lookup id = some job) (hnext : st'.nextJobId = st.nextJobId)
    (hrequests : st'.requests = st.requests) : Ids st' := by
  constructor
  · intro id job hid
    rw [hnext]
    exact h.below id job (hqueue id job hid)
  · intro r jobs txn hr
    rw [hrequests] at hr
    obtain ⟨hlt, hnone⟩ := h.fresh r jobs txn hr
    rw [hnext]
    refine ⟨hlt, ?_⟩
    cases hid : st'.queue.lookup txn.firstId with
    | none => rfl
    | some job =>
      rw [hqueue _ job hid] at hnone
      cases hnone
  · rw [hrequests]
    exact h.distinct

end RhypeDb.Vectorizer
