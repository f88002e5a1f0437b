import RhypeDb.Basic.Run
import RhypeDb.Basic.SnapshotHistory
import RhypeDb.Vectorizer.Queue

/-! The queue of embedding jobs under concurrent `enqueue_many` and `claim_batch` calls, each in its
atomic steps. Ids are allocated before they are visible; a claim reads its bound before it begins. -/

namespace RhypeDb.Vectorizer

open List Option

section

variable {α : Type} {queue : SortedMap Nat α} {cursor bound batchSize : Nat} {start : Nat}
  {jobs : List (Nat × α)}

theorem takeLive_covers {entries : List (Nat × α)} {lastLive : Option Nat}
    (hsorted : entries.Pairwise fun a b => a.1 < b.1) :
    ∃ taken, (takeLive cursor bound batchSize jobs lastLive entries).1 = jobs ++ taken ∧
      (takeLive cursor bound batchSize jobs lastLive entries).2 =
        (taken.getLast?.map Prod.fst).or lastLive ∧
      taken.Sublist entries ∧ (∀ e ∈ taken, cursor ≤ e.1 ∧ e.1 < bound) ∧
      ∀ e ∈ entries, cursor ≤ e.1 → e.1 < bound → e ∈ taken ∨
        (batchSize ≤ (jobs ++ taken).length ∧ ∀ x ∈ taken, x.1 < e.1) := by
  induction entries generalizing jobs lastLive with
  | nil => exact ⟨[], (append_nil _).symm, rfl, .slnil, nofun, nofun⟩
  | cons e entries ih =>
    obtain ⟨id, job⟩ := e
    rw [pairwise_cons] at hsorted
    unfold takeLive
    split_ifs with hbehind hfull
    · obtain ⟨taken, hjobs, hlast, hsub, hbetween, hcovers⟩ := @ih jobs lastLive hsorted.2
      refine ⟨taken, hjobs, hlast, hsub.cons _, hbetween, fun e he hlow hhigh => ?_⟩
      rcases mem_cons.mp he with rfl | he
      · exact absurd hlow (not_le.mpr hbehind)
      · exact hcovers e he hlow hhigh
    · refine ⟨[], (append_nil _).symm, rfl, nil_sublist _, nofun, ?_⟩
      intro e he hlow hhigh
      right
      rcases hfull with hbound | hfull
      · rcases mem_cons.mp he with rfl | he
        · exact absurd hhigh (not_lt.mpr hbound)
        · have hlt := hsorted.1 e he
          exact absurd (hbound.trans_lt hlt) (not_lt.mpr hhigh.le)
      · exact ⟨by rwa [append_nil], nofun⟩
    · obtain ⟨taken, hjobs, hlast, hsub, hbetween, hcovers⟩ :=
        @ih (jobs ++ [(id, job)]) (some id) hsorted.2
      rw [not_or, not_le, not_le] at hfull
      refine ⟨(id, job) :: taken, ?_, ?_, hsub.cons_cons _, ?_, ?_⟩
      · rw [hjobs, append_assoc]
        rfl
      · rw [hlast, getLast?_cons]
        cases taken.getLast? with
        | none => rfl
        | some x => rfl
      · rw [forall_mem_cons]
        exact ⟨⟨not_lt.mp hbehind, hfull.1⟩, hbetween⟩
      · intro e he hlow hhigh
        rcases mem_cons.mp he with rfl | he
        · exact .inl mem_cons_self
        · rcases hcovers e he hlow hhigh with htaken | ⟨hlen, hbefore⟩
          · exact .inl (mem_cons_of_mem _ htaken)
          · right
            refine ⟨?_, ?_⟩
            · rw [append_assoc] at hlen
              exact hlen
            · rw [forall_mem_cons]
              exact ⟨hsorted.1 e he, hbefore⟩

structure Walked (queue : SortedMap Nat α) (start bound cursor : Nat) (jobs : List (Nat × α)) :
    Prop where
  le : start ≤ cursor
  sorted : jobs.Pairwise fun a b => a.1 < b.1
  between : ∀ e ∈ jobs, e ∈ queue.entries ∧ start ≤ e.1 ∧ e.1 < bound ∧ e.1 < cursor
  covers : ∀ e ∈ queue.entries, start ≤ e.1 → e.1 < cursor → e.1 < bound → e ∈ jobs

theorem mem_windowEntries {window : Nat} {e : Nat × α} :
    e ∈ windowEntries queue window ↔ e ∈ queue.entries ∧ e.1 / claimWindow = window := by
  unfold windowEntries
  rw [mem_filter, decide_eq_true_iff]

theorem Walked.window (h : Walked queue start bound cursor jobs) (hmore : jobs.length < batchSize) :
    Walked queue start bound
      (nextCursor batchSize (cursor / claimWindow)
        (takeLive cursor bound batchSize jobs none (windowEntries queue (cursor / claimWindow))).1
        (takeLive cursor bound batchSize jobs none (windowEntries queue (cursor / claimWindow))).2)
      (takeLive cursor bound batchSize jobs none (windowEntries queue (cursor / claimWindow))).1 := by
  have hsorted : (windowEntries queue (cursor / claimWindow)).Pairwise fun a b => a.1 < b.1 :=
    queue.sorted.sublist filter_sublist
  have hlive : ∀ id ∈ (takeLive cursor bound batchSize jobs none
      (windowEntries queue (cursor / claimWindow))).2, cursor ≤ id := takeLive_spec.2 nofun
  obtain ⟨taken, hjobs, hlast, hsub, hbetween, hcovers⟩ :=
    @takeLive_covers α cursor bound batchSize jobs _ none hsorted
  rw [hlast, or_none] at hlive
  rw [hjobs, hlast, or_none]
  have hmoves : cursor < nextCursor batchSize (cursor / claimWindow) (jobs ++ taken)
      (taken.getLast?.map Prod.fst) := lt_nextCursor hlive
  have hwindow : ∀ e ∈ taken, e ∈ queue.entries ∧ e.1 < (cursor / claimWindow + 1) * claimWindow := by
    intro e he
    obtain ⟨hqueue, heq⟩ := mem_windowEntries.mp (hsub.subset he)
    exact ⟨hqueue, Nat.lt_mul_of_div_lt (heq ▸ Nat.lt_succ_self _) (by decide)⟩
  -- The cursor is behind everything taken, and what it passes was taken.
  have hlast_lt : ∀ e ∈ taken, ∀ id ∈ taken.getLast?.map Prod.fst, e.1 ≤ id := by
    intro e he id hid
    obtain ⟨x, hx, rfl⟩ := map_eq_some_iff.mp hid
    obtain ⟨init, rfl⟩ := getLast?_eq_some_iff.mp hx
    have hpair := hsorted.sublist hsub
    rw [pairwise_append] at hpair
    rcases mem_append.mp he with he | he
    · exact (hpair.2.2 e he x mem_cons_self).le
    · rw [mem_singleton.mp he]
  have hnext : (∀ e ∈ taken, e.1 < nextCursor batchSize (cursor / claimWindow) (jobs ++ taken)
      (taken.getLast?.map Prod.fst)) ∧ ∀ e ∈ queue.entries, cursor ≤ e.1 →
      e.1 < nextCursor batchSize (cursor / claimWindow) (jobs ++ taken)
        (taken.getLast?.map Prod.fst) → e.1 < bound → e ∈ taken := by
    have hin : ∀ e ∈ queue.entries, cursor ≤ e.1 →
        e.1 < (cursor / claimWindow + 1) * claimWindow →
        e ∈ windowEntries queue (cursor / claimWindow) := by
      intro e he hlow hhigh
      refine mem_windowEntries.mpr ⟨he, le_antisymm ?_ (Nat.div_le_div_right hlow)⟩
      exact Nat.le_of_lt_succ ((Nat.div_lt_iff_lt_mul (by decide)).mpr hhigh)
    unfold nextCursor
    cases hlast_eq : taken.getLast?.map Prod.fst with
    | none =>
      have hnil : taken = [] := getLast?_eq_none_iff.mp (map_eq_none_iff.mp hlast_eq)
      refine ⟨fun e he => (hwindow e he).2, fun e he hlow hhigh hbound => ?_⟩
      rcases hcovers e (hin e he hlow hhigh) hlow hbound with htaken | ⟨hlen, -⟩
      · exact htaken
      · rw [hnil, append_nil] at hlen
        exact absurd hmore (not_lt.mpr hlen)
    | some last =>
      split_ifs with hfull
      · have hmem : ∃ x ∈ taken, x.1 = last := by
          obtain ⟨x, hx, heq⟩ := map_eq_some_iff.mp hlast_eq
          exact ⟨x, mem_of_getLast? hx, heq⟩
        obtain ⟨x, hx, rfl⟩ := hmem
        refine ⟨fun e he => Nat.lt_succ_of_le (hlast_lt e he _ hlast_eq), ?_⟩
        intro e he hlow hhigh hbound
        have hle := Nat.le_of_lt_succ hhigh
        have hhigh' := hle.trans_lt (hwindow x hx).2
        rcases hcovers e (hin e he hlow hhigh') hlow hbound with htaken | ⟨-, hbefore⟩
        · exact htaken
        · exact absurd (hbefore x hx) (not_lt.mpr hle)
      · refine ⟨fun e he => (hwindow e he).2, fun e he hlow hhigh hbound => ?_⟩
        rcases hcovers e (hin e he hlow hhigh) hlow hbound with htaken | ⟨hlen, -⟩
        · exact htaken
        · exact absurd hlen hfull
  constructor
  · exact h.le.trans hmoves.le
  · rw [pairwise_append]
    refine ⟨h.sorted, hsorted.sublist hsub, fun a ha b hb => ?_⟩
    exact (h.between a ha).2.2.2.trans_le (hbetween b hb).1
  · intro e he
    rcases mem_append.mp he with he | he
    · obtain ⟨hqueue, hlow, hhigh, hlt⟩ := h.between e he
      exact ⟨hqueue, hlow, hhigh, hlt.trans hmoves⟩
    · obtain ⟨hlow, hhigh⟩ := hbetween e he
      exact ⟨(hwindow e he).1, h.le.trans hlow, hhigh, hnext.1 e he⟩
  · intro e he hlow hhigh hbound
    rw [mem_append]
    by_cases hold : e.1 < cursor
    · exact .inl (h.covers e he hlow hold hbound)
    · exact .inr (hnext.2 e he (not_lt.mp hold) hhigh hbound)

theorem Walked.loop {fuel : Nat} (h : Walked queue start bound cursor jobs) :
    Walked queue start bound (claimLoop queue bound batchSize fuel cursor jobs).2
      (claimLoop queue bound batchSize fuel cursor jobs).1 := by
  induction fuel generalizing cursor jobs with
  | zero => exact h
  | succ fuel ih =>
    unfold claimLoop
    split_ifs with hmore
    · exact ih (h.window hmore.2)
    · exact h

theorem claimJobs_spec (hcursor : cursor ≤ bound) :
    ((claimJobs queue cursor bound batchSize).1.Pairwise fun a b => a.1 < b.1) ∧
      (∀ e ∈ (claimJobs queue cursor bound batchSize).1, e ∈ queue.entries ∧ e.1 < bound) ∧
      (∀ e ∈ queue.entries, cursor ≤ e.1 → e.1 < (claimJobs queue cursor bound batchSize).2 →
        e ∈ (claimJobs queue cursor bound batchSize).1) ∧
      cursor ≤ (claimJobs queue cursor bound batchSize).2 ∧
      (claimJobs queue cursor bound batchSize).2 ≤ bound ∧
      ((claimJobs queue cursor bound batchSize).2 = bound ∨
        batchSize ≤ (claimJobs queue cursor bound batchSize).1.length) := by
  have hstart : Walked queue cursor bound cursor [] :=
    ⟨le_rfl, .nil, nofun, fun e _ hlow hhigh => absurd hhigh (not_lt.mpr hlow)⟩
  have hwalked : Walked queue cursor bound
      (claimLoop queue bound batchSize (bound - cursor) cursor []).2
      (claimLoop queue bound batchSize (bound - cursor) cursor []).1 := hstart.loop
  have hends : bound ≤ (claimLoop queue bound batchSize (bound - cursor) cursor []).2 ∨ _ :=
    claimLoop_ends le_rfl
  refine ⟨hwalked.sorted, ?_, ?_, le_min hwalked.le hcursor, min_le_right _ _, ?_⟩
  · intro e he
    obtain ⟨hqueue, -, hhigh, -⟩ := hwalked.between e he
    exact ⟨hqueue, hhigh⟩
  · intro e he hlow hhigh
    obtain ⟨hwalk, hbound⟩ := lt_min_iff.mp hhigh
    exact hwalked.covers e he hlow hwalk hbound
  · exact hends.imp_left min_eq_right

end

variable {J V S : Type}

structure JobRows (J V S : Type) where
  serialize : J → V
  deserialize : V → Option J
  stateKey : J → S

inductive QueueKey (S : Type)
  | entry (id : Nat)
  | state (key : S)
  deriving DecidableEq

structure QueueTxn (V S : Type) where
  puts : List (Nat × V)
  deletes : List Nat
  states : List S

def QueueTxn.keys (txn : QueueTxn V S) : List (QueueKey S) :=
  txn.puts.map (fun e => .entry e.1) ++ txn.deletes.map .entry ++ txn.states.map .state

def QueueTxn.apply (queue : SortedMap Nat V) (txn : QueueTxn V S) : SortedMap Nat V :=
  (queue.insertAll txn.puts).eraseAll txn.deletes

/-- Where an `enqueue_many` is: between two attempts, in one, or about to unregister. -/
inductive EnqueueStage
  | registered (attempt : Nat)
  | begun (attempt snapshot : Nat)
  | finished
  deriving DecidableEq, Repr

structure Enqueue (J : Type) where
  first : Nat
  jobs : List J
  stage : EnqueueStage

/-- Where the `claim_batch` that has the mutex is. -/
inductive Claim (J : Type)
  | bounded (bound : Nat)
  | begun (bound snapshot : Nat)
  | scanned (snapshot : Nat) (jobs : List (Nat × J))

/-- The queue, the calls on it, and what the claims returned. The registered calls are
`inflight_enqueues`, in the order of their ids. -/
structure JobQueue (J V S : Type) where
  hist : SnapshotHistory (SortedMap Nat V) (QueueTxn V S)
  nextJobId : Nat
  enqueues : List (Enqueue J)
  cursor : Nat
  claim : Option (Claim J)
  returned : List (List (Nat × J))

/-- The rows of an `enqueue_many`, from its first id on. -/
def Enqueue.rows (rows : JobRows J V S) (e : Enqueue J) : List (Nat × V) :=
  (e.jobs.map rows.serialize).zipIdx e.first |>.map Prod.swap

def Enqueue.txn (rows : JobRows J V S) (e : Enqueue J) : QueueTxn V S :=
  { puts := e.rows rows, deletes := [], states := e.jobs.map rows.stateKey }

def claimTxn (jobs : List (Nat × J)) : QueueTxn V S :=
  { puts := [], deletes := jobs.map Prod.fst, states := [] }

def decodable (rows : JobRows J V S) (queue : SortedMap Nat V) : SortedMap Nat J where
  entries := queue.entries.filterMap fun e => (rows.deserialize e.2).map fun job => (e.1, job)
  sorted := by
    rw [List.pairwise_filterMap]
    apply queue.sorted.imp
    intro a b hlt x hx y hy
    obtain ⟨_, -, rfl⟩ := Option.map_eq_some_iff.mp hx
    obtain ⟨_, -, rfl⟩ := Option.map_eq_some_iff.mp hy
    exact hlt

namespace JobQueue

def opened (base : SortedMap Nat V) : JobQueue J V S :=
  { hist := { base, commits := [] }
    nextJobId := (base.entries.map Prod.fst).max?.getD 0 + 1
    enqueues := []
    cursor := 0
    claim := none
    returned := [] }

variable (rows : JobRows J V S) (q : JobQueue J V S)

def latest : SortedMap Nat V := q.hist.latest QueueTxn.apply

def claimBound : Nat := (q.enqueues.map Enqueue.first).foldl min q.nextJobId

def allocate (jobs : List J) : JobQueue J V S :=
  if jobs.isEmpty then q
  else
    { q with
      enqueues := q.enqueues ++ [{ first := q.nextJobId, jobs, stage := .registered 0 }]
      nextJobId := q.nextJobId + jobs.length }

def setStage (i : Nat) (e : Enqueue J) (stage : EnqueueStage) : JobQueue J V S :=
  { q with enqueues := q.enqueues.set i { e with stage } }

def maxConflictRetries : Nat := 8

variable [DecidableEq S]

def commitEnqueue (i : Nat) (e : Enqueue J) (attempt snapshot : Nat) : JobQueue J V S :=
  if q.hist.Conflicts QueueTxn.keys snapshot (e.txn rows).keys then
    if attempt < maxConflictRetries then q.setStage i e (.registered (attempt + 1))
    else q.setStage i e .finished
  else { q.setStage i e .finished with hist := q.hist.commit (e.txn rows) }

/-- The next step of an `enqueue_many`. -/
def stepEnqueue (i : Nat) : JobQueue J V S :=
  match q.enqueues[i]? with
  | none => q
  | some e =>
    match e.stage with
    | .registered attempt => q.setStage i e (.begun attempt q.hist.version)
    | .begun attempt snapshot => q.commitEnqueue rows i e attempt snapshot
    | .finished => { q with enqueues := q.enqueues.eraseIdx i }

def stepClaim (batchSize : Nat) : JobQueue J V S :=
  match q.claim with
  | none => { q with claim := some (.bounded q.claimBound) }
  | some (.bounded bound) => { q with claim := some (.begun bound q.hist.version) }
  | some (.begun bound snapshot) =>
    let queue := decodable rows (q.hist.stateAt QueueTxn.apply snapshot)
    let claimed := claimJobs queue q.cursor bound batchSize
    { q with
      cursor := claimed.2
      claim := if claimed.1.isEmpty then none else some (.scanned snapshot claimed.1) }
  | some (.scanned snapshot jobs) =>
    if q.hist.Conflicts QueueTxn.keys snapshot (claimTxn jobs : QueueTxn V S).keys then
      { q with claim := none }
    else
      { q with
        hist := q.hist.commit (claimTxn jobs)
        claim := none
        returned := q.returned ++ [jobs] }

end JobQueue

inductive QueueAction (J S : Type)
  | enqueueMany (jobs : List J)
  | enqueueStep (i : Nat)
  | foreground (states : List S)
  | claimStep

def JobQueue.step [DecidableEq S] (rows : JobRows J V S) (batchSize : Nat) (q : JobQueue J V S) :
    QueueAction J S → JobQueue J V S
  | .enqueueMany jobs => q.allocate jobs
  | .enqueueStep i => q.stepEnqueue rows i
  | .foreground states =>
    { q with hist := q.hist.commit { puts := [], deletes := [], states } }
  | .claimStep => q.stepClaim rows batchSize

end RhypeDb.Vectorizer
