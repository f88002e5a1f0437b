import RhypeDb.Vectorizer.ClaimOnce

/-! The claim's own steps keep the invariant, and once the enqueues have ended every four of them
take at least one of the jobs that are left. -/

namespace RhypeDb.Vectorizer

open JobQueue List Run SortedMap

variable {J V S : Type} {rows : JobRows J V S} {q q' : JobQueue J V S}

section

theorem le_foldl_min {m n : Nat} {xs : List Nat} :
    m ≤ xs.foldl min n ↔ m ≤ n ∧ ∀ x ∈ xs, m ≤ x := by
  induction xs generalizing n with
  | nil => simp
  | cons x xs ih =>
    rw [foldl_cons, ih, le_min_iff, forall_mem_cons, and_assoc]

theorem le_claimBound {m : Nat} :
    m ≤ q.claimBound ↔ m ≤ q.nextJobId ∧ ∀ e ∈ q.enqueues, m ≤ e.first := by
  unfold claimBound
  rw [le_foldl_min, forall_mem_map]

theorem mem_decodable {queue : SortedMap Nat V} {id : Nat} {job : J} :
    (id, job) ∈ (decodable rows queue).entries ↔
      ∃ row, queue.lookup id = some row ∧ rows.deserialize row = some job := by
  unfold decodable
  rw [mem_filterMap]
  constructor
  · rintro ⟨⟨id', row⟩, he, heq⟩
    obtain ⟨job', hjob, hpair⟩ := Option.map_eq_some_iff.mp heq
    cases hpair
    exact ⟨row, lookup_eq_some.mpr he, hjob⟩
  · rintro ⟨row, hrow, hjob⟩
    exact ⟨(id, row), lookup_eq_some.mp hrow, by rw [hjob]; rfl⟩

theorem JobQueue.Exact.of_claim (h : q.Exact rows) {cursor : Nat} {claim : Option (Claim J)}
    (hnext : cursor ≤ q.nextJobId) (hfirst : ∀ e ∈ q.enqueues, cursor ≤ e.first)
    (hholds : ({ q with cursor, claim } : JobQueue J V S).ClaimHolds rows claim) :
    ({ q with cursor, claim } : JobQueue J V S).Exact rows :=
  { h with cursor_next := hnext, cursor_first := hfirst, claim := hholds }

variable {snapshot : Nat}

theorem JobQueue.Exact.scan (h : q.Exact rows) {bound : Nat} (batchSize : Nat)
    (hclaim : q.claim = some (.begun bound snapshot)) {claimed : List (Nat × J) × Nat}
    (hclaimed : claimed = claimJobs (decodable rows (q.hist.stateAt QueueTxn.apply snapshot))
      q.cursor bound batchSize) :
    ({ q with
        cursor := claimed.2
        claim := if claimed.1.isEmpty then none else some (.scanned snapshot claimed.1) } :
      JobQueue J V S).Exact rows := by
  have hholds := h.claim
  rw [hclaim] at hholds
  cases hholds with
  | begun behind le_bound le_next le_first le_version same untouched =>
    obtain ⟨hsorted, hmem, hcovers, -, hle, -⟩ :=
      @claimJobs_spec J (decodable rows (q.hist.stateAt QueueTxn.apply snapshot)) q.cursor bound
        batchSize le_bound
    rw [← hclaimed] at hsorted hmem hcovers hle
    -- What the cursor passes is in the batch.
    have hpassed : ∀ id row job, q.latest.lookup id = some row → rows.deserialize row = some job →
        claimed.2 ≤ id ∨ (id, job) ∈ claimed.1 := by
      intro id row job hrow hjob
      rcases Nat.lt_or_ge id claimed.2 with hlt | hge
      · right
        have hbound := hlt.trans_le hle
        refine hcovers (id, job) (mem_decodable.mpr ⟨row, ?_, hjob⟩) (behind id row job hrow hjob)
          hlt
        rw [same id hbound]
        exact hrow
      · exact .inl hge
    refine h.of_claim (hle.trans le_next) (fun e he => hle.trans (le_first e he)) ?_
    split_ifs with hempty
    · refine .none fun id row job hrow hjob => ?_
      rcases hpassed id row job hrow hjob with hge | htaken
      · exact hge
      · rw [List.isEmpty_iff.mp hempty] at htaken
        cases htaken
    · refine .scanned (fun hnil => hempty (List.isEmpty_iff.mpr hnil)) le_version hsorted ?_ ?_ ?_
      · rintro ⟨id, job⟩ he
        obtain ⟨hlive, hlt⟩ := hmem _ he
        obtain ⟨row, hrow, hjob⟩ := mem_decodable.mp hlive
        rw [same id hlt] at hrow
        exact ⟨row, hrow, hjob⟩
      · intro id row job hrow hjob
        exact (hpassed id row job hrow hjob).imp_right mem_map_of_mem
      · intro e he
        exact untouched e.1 (hmem e he).2

theorem lookup_claimed (jobs : List (Nat × J)) (queue : SortedMap Nat V) (id : Nat) :
    ((claimTxn jobs : QueueTxn V S).apply queue).lookup id =
      if id ∈ jobs.map Prod.fst then none else queue.lookup id := by
  exact lookup_eraseAll _ _ _

variable {jobs : List (Nat × J)}

theorem JobQueue.Exact.claimed (h : q.Exact rows)
    (hclaim : q.claim = some (.scanned snapshot jobs)) :
    ({ q with
        hist := q.hist.commit (claimTxn jobs)
        claim := none
        returned := q.returned ++ [jobs] } : JobQueue J V S).Exact rows := by
  have hholds := h.claim
  rw [hclaim] at hholds
  cases hholds with
  | scanned some_taken le_version sorted live behind untouched =>
    set q' : JobQueue J V S :=
      { q with
        hist := q.hist.commit (claimTxn jobs)
        claim := none
        returned := q.returned ++ [jobs] } with hq'
    have hcommitted : ∀ id row, q'.Committed id row ↔ q.Committed id row := by
      intro id row
      have hiff : q'.Committed id row ↔
          q.Committed id row ∨ (id, row) ∈ (claimTxn jobs : QueueTxn V S).puts :=
        committed_commit rfl
      rw [hiff]
      exact or_iff_left not_mem_nil
    have hlookup : ∀ id, q'.latest.lookup id =
        if id ∈ jobs.map Prod.fst then none else q.latest.lookup id := by
      intro id
      have hlatest : q'.latest = (claimTxn jobs).apply q.latest := latest_commit rfl
      rw [hlatest]
      exact lookup_claimed jobs q.latest id
    have hsome : ∀ id row, q'.latest.lookup id = some row →
        id ∉ jobs.map Prod.fst ∧ q.latest.lookup id = some row := by
      intro id row hrow
      rw [hlookup] at hrow
      split_ifs at hrow with hid
      exact ⟨hid, hrow⟩
    have hflatten : q'.returned.flatten = q.returned.flatten ++ jobs := by
      change (q.returned ++ [jobs]).flatten = _
      rw [flatten_append, flatten_singleton]
    constructor
    · exact h.ranges
    · exact h.next
    · intro id row hrow
      exact h.committed_lt id row ((hcommitted id row).mp hrow)
    · intro e he hstage id row hrow
      exact h.pending e he hstage id row ((hcommitted id row).mp hrow)
    · intro id row hrow
      exact (hcommitted id row).mpr (h.live id row (hsome id row hrow).2)
    · exact h.cursor_next
    · exact h.cursor_first
    · intro id row job hrow hjob
      rw [hflatten, mem_append, hlookup]
      rcases h.accounted id row job ((hcommitted id row).mp hrow) hjob with hlive | hreturned
      · split_ifs with hid
        · right
          right
          obtain ⟨⟨id', job'⟩, he, rfl⟩ := mem_map.mp hid
          obtain ⟨row', hrow', hjob'⟩ := live _ he
          rw [hlive] at hrow'
          cases hrow'
          rw [hjob] at hjob'
          cases hjob'
          exact he
        · exact .inl hlive
      · exact .inr (.inl hreturned)
    · rw [hflatten, map_append, nodup_append']
      refine ⟨h.once, ?_, ?_⟩
      · exact List.Pairwise.imp (fun hlt => Nat.ne_of_lt hlt) (pairwise_map.mpr sorted)
      · intro id hold hnew
        obtain ⟨e, he, rfl⟩ := mem_map.mp hold
        obtain ⟨e', he', heq⟩ := mem_map.mp hnew
        obtain ⟨row, hrow, -⟩ := live e' he'
        rw [heq, (h.gone e he).1] at hrow
        cases hrow
    · intro e he
      rw [hflatten, mem_append] at he
      rcases he with hold | hnew
      · obtain ⟨hgone, row, hrow, hjob⟩ := h.gone e hold
        refine ⟨?_, row, (hcommitted e.1 row).mpr hrow, hjob⟩
        rw [hlookup, hgone, ite_self]
      · obtain ⟨row, hrow, hjob⟩ := live e hnew
        refine ⟨?_, row, (hcommitted e.1 row).mpr (h.live e.1 row hrow), hjob⟩
        rw [hlookup, if_pos (mem_map_of_mem hnew)]
    · refine .none fun id row job hrow hjob => ?_
      obtain ⟨hid, hold⟩ := hsome id row hrow
      rcases behind id row job hold hjob with hge | htaken
      · exact hge
      · exact absurd htaken hid

theorem JobQueue.Exact.not_conflicts [DecidableEq S] (h : q.Exact rows)
    (hclaim : q.claim = some (.scanned snapshot jobs)) :
    ¬ q.hist.Conflicts QueueTxn.keys snapshot (claimTxn jobs : QueueTxn V S).keys := by
  have hholds := h.claim
  rw [hclaim] at hholds
  cases hholds with
  | scanned some_taken le_version sorted live behind untouched =>
    rintro ⟨key, hkey, hwritten⟩
    unfold QueueTxn.keys claimTxn at hkey
    simp only [map_nil, nil_append, append_nil, map_map, mem_map] at hkey
    obtain ⟨e, he, rfl⟩ := hkey
    exact untouched e he hwritten

theorem JobQueue.Exact.stepClaim [DecidableEq S] (h : q.Exact rows) (batchSize : Nat) :
    (q.stepClaim rows batchSize).Exact rows := by
  unfold JobQueue.stepClaim
  split
  · rename_i hclaim
    have hholds := h.claim
    rw [hclaim] at hholds
    cases hholds with
    | none behind =>
      obtain ⟨hnext, hfirst⟩ := le_claimBound.mp (le_refl q.claimBound)
      refine h.of_claim h.cursor_next h.cursor_first (.bounded behind ?_ hnext hfirst)
      exact le_claimBound.mpr ⟨h.cursor_next, h.cursor_first⟩
  · rename_i bound hclaim
    have hholds := h.claim
    rw [hclaim] at hholds
    cases hholds with
    | bounded behind le_bound le_next le_first =>
      refine h.of_claim h.cursor_next h.cursor_first
        (.begun behind le_bound le_next le_first le_rfl ?_ ?_)
      · intro id _
        change (q.hist.stateAt QueueTxn.apply q.hist.version).lookup id = q.latest.lookup id
        rw [SnapshotHistory.stateAt_version]
        rfl
      · intro id _
        exact SnapshotHistory.not_writtenSince_version
  · rename_i bound snapshot hclaim
    exact h.scan batchSize hclaim rfl
  · rename_i snapshot jobs hclaim
    rw [if_neg (h.not_conflicts hclaim)]
    exact h.claimed hclaim

theorem JobQueue.exact_opened (base : SortedMap Nat V) :
    (JobQueue.opened base : JobQueue J V S).Exact rows := by
  have hcommitted : ∀ id row, (opened base : JobQueue J V S).Committed id row ↔
      (id, row) ∈ base.entries := by
    intro id row
    exact or_iff_left fun ⟨_, htxn, _⟩ => not_mem_nil htxn
  have hlive : ∀ id row, (opened base : JobQueue J V S).latest.lookup id = some row ↔
      (id, row) ∈ base.entries := fun id row => lookup_eq_some
  constructor
  · exact List.Pairwise.nil
  · exact nofun
  · intro id row hrow
    have hid : id ∈ base.entries.map Prod.fst := mem_map_of_mem ((hcommitted id row).mp hrow)
    exact Nat.lt_succ_of_le (le_max?_getD_of_mem hid)
  · exact nofun
  · intro id row hrow
    exact (hcommitted id row).mpr ((hlive id row).mp hrow)
  · exact Nat.zero_le _
  · exact nofun
  · intro id row job hrow _
    exact .inl ((hlive id row).mpr ((hcommitted id row).mp hrow))
  · exact nodup_nil
  · exact nofun
  · exact .none fun _ _ _ _ _ => Nat.zero_le _

variable [DecidableEq S] {batchSize : Nat}

theorem JobQueue.Exact.step (h : q.Exact rows) (a : QueueAction J S) :
    (q.step rows batchSize a).Exact rows := by
  cases a with
  | enqueueMany jobs => exact h.allocate jobs
  | enqueueStep i => exact h.stepEnqueue i
  | foreground states => exact h.foreground states
  | claimStep => exact h.stepClaim batchSize

theorem JobQueue.Exact.run (h : q.Exact rows) (actions : List (QueueAction J S)) :
    (exec (JobQueue.step rows batchSize) q actions).Exact rows :=
  exec_invariant (I := fun q : JobQueue J V S => q.Exact rows)
    (fun _ a hq _ => JobQueue.Exact.step hq a) h
    (along_of_forall (P := fun _ => True) fun _ _ => trivial)

end

section

def QueueAction.isClaim : QueueAction J S → Bool
  | .claimStep => true
  | _ => false

def QueueAction.isEnqueue : QueueAction J S → Bool
  | .enqueueMany _ => true
  | _ => false

variable (rows q) in
def JobQueue.left : Nat := (decodable rows q.latest).entries.length

/-- The steps to the end of the claim, and those of one that a bound from before the last enqueue
may send away with nothing. -/
def JobQueue.phase (q : JobQueue J V S) : Nat :=
  match q.claim with
  | none => 3
  | some (.bounded bound) => (if bound < q.nextJobId then 4 else 0) + 2
  | some (.begun bound _) => (if bound < q.nextJobId then 4 else 0) + 1
  | some (.scanned _ _) => 0

variable (rows q) in
def JobQueue.rank : Nat := 4 * q.left rows + q.phase

theorem left_of_hist (hhist : q'.hist = q.hist) : q'.left rows = q.left rows := by
  unfold JobQueue.left latest
  rw [hhist]

theorem decodable_nodup (queue : SortedMap Nat V) : (decodable rows queue).entries.Nodup := by
  refine (decodable rows queue).sorted.imp ?_
  rintro a b hlt rfl
  exact lt_irrefl _ hlt

theorem JobQueue.Exact.left_claimed (h : q.Exact rows) {snapshot : Nat} {jobs : List (Nat × J)}
    (hclaim : q.claim = some (.scanned snapshot jobs))
    (hhist : q'.hist = q.hist.commit (claimTxn jobs)) : q'.left rows < q.left rows := by
  have hholds := h.claim
  rw [hclaim] at hholds
  cases hholds with
  | scanned some_taken le_version sorted live behind untouched =>
    obtain ⟨⟨id, job⟩, he⟩ := exists_mem_of_ne_nil jobs some_taken
    have hlookup : ∀ id, q'.latest.lookup id =
        if id ∈ jobs.map Prod.fst then none else q.latest.lookup id := by
      intro id
      rw [latest_commit hhist]
      exact lookup_claimed jobs q.latest id
    have hfirst : (id, job) ∈ (decodable rows q.latest).entries := mem_decodable.mpr (live _ he)
    have hgone : (id, job) ∉ (decodable rows q'.latest).entries := by
      intro hmem
      obtain ⟨row, hrow, -⟩ := mem_decodable.mp hmem
      rw [hlookup, if_pos (mem_map_of_mem he)] at hrow
      cases hrow
    have hsub : (id, job) :: (decodable rows q'.latest).entries ⊆
        (decodable rows q.latest).entries := by
      refine cons_subset.mpr ⟨hfirst, ?_⟩
      rintro ⟨id', job'⟩ hmem
      obtain ⟨row, hrow, hjob⟩ := mem_decodable.mp hmem
      rw [hlookup] at hrow
      split_ifs at hrow
      exact mem_decodable.mpr ⟨row, hrow, hjob⟩
    have hnodup := nodup_cons.mpr ⟨hgone, decodable_nodup q'.latest⟩
    exact (hnodup.subperm hsub).length_le

theorem JobQueue.Exact.scans_some (h : q.Exact rows) {batchSize bound snapshot : Nat}
    (hbatch : 1 ≤ batchSize) (hclaim : q.claim = some (.begun bound snapshot))
    (hfresh : q.nextJobId ≤ bound) (hleft : 0 < q.left rows) :
    (claimJobs (decodable rows (q.hist.stateAt QueueTxn.apply snapshot)) q.cursor bound
      batchSize).1 ≠ [] := by
  have hholds := h.claim
  rw [hclaim] at hholds
  cases hholds with
  | begun behind le_bound le_next le_first le_version same untouched =>
    intro hnil
    obtain ⟨-, -, hcovers, -, -, hends⟩ :=
      @claimJobs_spec J (decodable rows (q.hist.stateAt QueueTxn.apply snapshot)) q.cursor bound
        batchSize le_bound
    rw [hnil] at hcovers hends
    obtain ⟨⟨id, job⟩, hmem⟩ := exists_mem_of_length_pos hleft
    obtain ⟨row, hrow, hjob⟩ := mem_decodable.mp hmem
    have hlt := (h.committed_lt id row (h.live id row hrow)).trans_le hfresh
    rcases hends with hall | hfull
    · rw [hall] at hcovers
      have htaken : (id, job) ∈ [] := by
        refine hcovers (id, job) (mem_decodable.mpr ⟨row, ?_, hjob⟩) (behind id row job hrow hjob)
          hlt
        rw [same id hlt]
        exact hrow
      cases htaken
    · exact absurd hbatch (not_le.mpr (Nat.lt_succ_of_le hfull))

variable [DecidableEq S] {batchSize : Nat}

theorem JobQueue.Exact.rank_stepClaim (h : q.Exact rows) (hbatch : 1 ≤ batchSize)
    (hquiet : q.enqueues = []) (hleft : 0 < q.left rows) :
    (q.stepClaim rows batchSize).rank rows < q.rank rows := by
  have hsame : ∀ cursor claim,
      ({ q with cursor, claim } : JobQueue J V S).left rows = q.left rows :=
    fun _ _ => left_of_hist rfl
  have hbound : q.claimBound = q.nextJobId := by
    unfold claimBound
    rw [hquiet]
    rfl
  unfold JobQueue.stepClaim
  split
  · rename_i hclaim
    unfold JobQueue.rank phase
    rw [hsame, hclaim]
    dsimp only
    rw [hbound, if_neg (lt_irrefl _)]
    omega
  · rename_i bound hclaim
    unfold JobQueue.rank phase
    rw [hsame, hclaim]
    dsimp only
    omega
  · rename_i bound snapshot hclaim
    have hsome := h.scans_some hbatch hclaim
    unfold JobQueue.rank phase
    rw [hsame, hclaim]
    dsimp only
    split_ifs with hempty hstale
    · dsimp only
      omega
    · exact absurd (List.isEmpty_iff.mp hempty) (hsome (not_lt.mp hstale) hleft)
    · dsimp only
      omega
    · dsimp only
      omega
  · rename_i snapshot jobs hclaim
    rw [if_neg (h.not_conflicts hclaim)]
    have hfewer : ({ q with
        hist := q.hist.commit (claimTxn jobs)
        claim := none
        returned := q.returned ++ [jobs] } : JobQueue J V S).left rows < q.left rows :=
      h.left_claimed hclaim rfl
    unfold JobQueue.rank phase
    dsimp only
    omega

theorem JobQueue.Exact.left_stepClaim (h : q.Exact rows) :
    (q.stepClaim rows batchSize).left rows ≤ q.left rows := by
  unfold JobQueue.stepClaim
  split
  · exact (left_of_hist rfl).le
  · exact (left_of_hist rfl).le
  · exact (left_of_hist rfl).le
  · rename_i snapshot jobs hclaim
    rw [if_neg (h.not_conflicts hclaim)]
    exact (h.left_claimed hclaim rfl).le

theorem enqueues_stepClaim : (q.stepClaim rows batchSize).enqueues = q.enqueues := by
  unfold stepClaim
  split
  · rfl
  · rfl
  · rfl
  · split_ifs <;> rfl

theorem rest_quiet {a : QueueAction J S} (hquiet : q.enqueues = []) (hno : a.isEnqueue = false)
    (hother : a.isClaim = false) :
    (q.step rows batchSize a).enqueues = [] ∧
      (q.step rows batchSize a).left rows = q.left rows ∧
      (q.step rows batchSize a).phase = q.phase := by
  cases a with
  | enqueueMany jobs => cases hno
  | claimStep => cases hother
  | enqueueStep i =>
    have hnone : q.enqueues[i]? = none := by
      rw [hquiet]
      rfl
    have hstays : q.step rows batchSize (.enqueueStep i) = q := by
      change q.stepEnqueue rows i = q
      unfold stepEnqueue
      rw [hnone]
    rw [hstays]
    exact ⟨hquiet, rfl, rfl⟩
  | foreground states =>
    refine ⟨hquiet, ?_, rfl⟩
    unfold JobQueue.left
    have hlatest : (q.step rows batchSize (.foreground states)).latest =
        ({ puts := [], deletes := [], states } : QueueTxn V S).apply q.latest := latest_commit rfl
    rw [hlatest]
    rfl

variable {more : List (QueueAction J S)}

theorem JobQueue.Exact.stays_drained (h : q.Exact rows) (hquiet : q.enqueues = [])
    (hleft : q.left rows = 0) (hno : ∀ a ∈ more, a.isEnqueue = false) :
    (exec (JobQueue.step rows batchSize) q more).left rows = 0 := by
  induction more generalizing q with
  | nil => exact hleft
  | cons a more ih =>
    rw [forall_mem_cons] at hno
    by_cases hclaim : a.isClaim
    · cases a with
      | claimStep =>
        refine ih (h.stepClaim batchSize) (enqueues_stepClaim.trans hquiet) ?_ hno.2
        exact Nat.le_zero.mp (h.left_stepClaim.trans hleft.le)
      | _ => cases hclaim
    · obtain ⟨hquiet', hleft', -⟩ :=
        @rest_quiet J V S rows q _ batchSize a hquiet hno.1 (Bool.eq_false_of_not_eq_true hclaim)
      exact ih (h.step a) hquiet' (hleft'.trans hleft) hno.2

theorem JobQueue.Exact.drained (h : q.Exact rows) (hbatch : 1 ≤ batchSize)
    (hquiet : q.enqueues = []) (hno : ∀ a ∈ more, a.isEnqueue = false)
    (hmany : q.rank rows ≤ more.countP QueueAction.isClaim) :
    (exec (JobQueue.step rows batchSize) q more).left rows = 0 := by
  induction more generalizing q with
  | nil =>
    unfold JobQueue.rank at hmany
    rw [countP_nil] at hmany
    change q.left rows = 0
    omega
  | cons a more ih =>
    rcases Nat.eq_zero_or_pos (q.left rows) with hnone | hleft
    · exact h.stays_drained hquiet hnone hno
    · rw [forall_mem_cons] at hno
      by_cases hclaim : a.isClaim
      · cases a with
        | claimStep =>
          have hcloser := h.rank_stepClaim hbatch hquiet hleft
          rw [countP_cons_of_pos hclaim] at hmany
          refine ih (h.stepClaim batchSize) (enqueues_stepClaim.trans hquiet) hno.2 ?_
          change (q.stepClaim rows batchSize).rank rows ≤ _
          omega
        | _ => cases hclaim
      · obtain ⟨hquiet', hleft', hphase⟩ :=
          @rest_quiet J V S rows q _ batchSize a hquiet hno.1 (Bool.eq_false_of_not_eq_true hclaim)
        rw [countP_cons_of_neg hclaim] at hmany
        refine ih (h.step a) hquiet' hno.2 ?_
        unfold JobQueue.rank at hmany ⊢
        rw [hleft', hphase]
        exact hmany

end

variable [DecidableEq S]

def JobQueue.after (rows : JobRows J V S) (batchSize : Nat) (base : SortedMap Nat V)
    (actions : List (QueueAction J S)) : JobQueue J V S :=
  exec (JobQueue.step rows batchSize) (JobQueue.opened base) actions

theorem claimed_once (rows : JobRows J V S) {batchSize : Nat} (hbatch : 1 ≤ batchSize)
    (base : SortedMap Nat V) (actions : List (QueueAction J S)) :
    ((JobQueue.after rows batchSize base actions).claim = none →
      (JobQueue.after rows batchSize base actions).Behind rows) ∧
    ((JobQueue.after rows batchSize base actions).returned.flatten.map Prod.fst).Nodup ∧
    (∀ e ∈ (JobQueue.after rows batchSize base actions).returned.flatten, ∃ row,
      (JobQueue.after rows batchSize base actions).Committed e.1 row ∧
        rows.deserialize row = some e.2) ∧
    ((JobQueue.after rows batchSize base actions).enqueues = [] →
      ∀ more : List (QueueAction J S), (∀ a ∈ more, a.isEnqueue = false) →
      4 * (JobQueue.after rows batchSize base actions).left rows + 7 ≤
        more.countP QueueAction.isClaim →
      ∀ id row job, (JobQueue.after rows batchSize base (actions ++ more)).Committed id row →
        rows.deserialize row = some job →
        (id, job) ∈ (JobQueue.after rows batchSize base (actions ++ more)).returned.flatten) := by
  have hexact : (after rows batchSize base actions).Exact rows :=
    (exact_opened base).run actions
  refine ⟨?_, hexact.once, fun e he => (hexact.gone e he).2, ?_⟩
  · intro hclaim
    have hholds := hexact.claim
    rw [hclaim] at hholds
    cases hholds with
    | none behind => exact behind
  · intro hquiet more hno hmany id row job hrow hjob
    have hend : (after rows batchSize base (actions ++ more)).Exact rows :=
      (exact_opened base).run (actions ++ more)
    have hdrained : (after rows batchSize base (actions ++ more)).left rows = 0 := by
      unfold JobQueue.after
      rw [exec_append]
      refine hexact.drained hbatch hquiet hno (le_trans ?_ hmany)
      unfold JobQueue.rank phase
      split <;> (try split_ifs) <;> omega
    rcases hend.accounted id row job hrow hjob with hlive | hreturned
    · have hmem := mem_decodable.mpr ⟨row, hlive, hjob⟩
      rw [length_eq_zero_iff.mp hdrained] at hmem
      cases hmem
    · exact hreturned

/-- Numbers as jobs; from 100 on a row does not decode. -/
def numberRows : JobRows Nat Nat Nat where
  serialize := id
  deserialize row := if row < 100 then some row else none
  stateKey := id

def claimedEarly : List (QueueAction Nat Nat) :=
  [.enqueueMany [7, 100, 9], .claimStep, .enqueueStep 0, .claimStep, .enqueueStep 0, .claimStep,
    .enqueueStep 0]

theorem claimed_once_early :
    ((JobQueue.after numberRows 1 .empty
      (claimedEarly ++ List.replicate 15 .claimStep)).returned.flatten.map Prod.fst).Nodup ∧
    (3, 9) ∈ (JobQueue.after numberRows 1 .empty
      (claimedEarly ++ List.replicate 15 .claimStep)).returned.flatten := by
  have honce := claimed_once numberRows le_rfl .empty
    (claimedEarly ++ List.replicate 15 .claimStep)
  have hall := claimed_once numberRows le_rfl .empty claimedEarly
  refine ⟨honce.2.1, hall.2.2.2 (by decide) (List.replicate 15 .claimStep) ?_ (by decide) 3 9 9
    ?_ (by decide)⟩
  · intro a ha
    rw [eq_of_mem_replicate ha]
    rfl
  · right
    exact ⟨_, mem_cons_self, by decide⟩

end RhypeDb.Vectorizer
