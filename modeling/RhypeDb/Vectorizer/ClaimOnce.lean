import RhypeDb.Vectorizer.Claims

/-! No job is stranded and none is claimed twice. Every id below a claim's bound was settled before
its snapshot, so what the cursor passes is claimed or dead, and nothing lands behind it. -/

namespace RhypeDb.Vectorizer

open List Run SnapshotHistory

variable {J V S : Type}

section

variable (rows : JobRows J V S) (e : Enqueue J)

theorem rows_ids : (e.rows rows).map Prod.fst = List.range' e.first e.jobs.length := by
  unfold Enqueue.rows
  rw [map_map]
  change ((e.jobs.map rows.serialize).zipIdx e.first).map Prod.snd = _
  rw [zipIdx_map_snd, length_map]

theorem mem_rows_bounds {rows : JobRows J V S} {e : Enqueue J} {x : Nat × V}
    (hx : x ∈ e.rows rows) : e.first ≤ x.1 ∧ x.1 < e.first + e.jobs.length := by
  have hid : x.1 ∈ (e.rows rows).map Prod.fst := mem_map_of_mem hx
  rw [rows_ids, List.mem_range'_1] at hid
  exact hid

theorem rows_nodup : ((e.rows rows).map Prod.fst).Nodup := by
  rw [rows_ids]
  exact nodup_range'

end

def JobQueue.Committed (q : JobQueue J V S) (id : Nat) (row : V) : Prop :=
  (id, row) ∈ q.hist.base.entries ∨ ∃ txn ∈ q.hist.commits, (id, row) ∈ txn.puts

def JobQueue.Behind (rows : JobRows J V S) (q : JobQueue J V S) : Prop :=
  ∀ id row job, q.latest.lookup id = some row → rows.deserialize row = some job → q.cursor ≤ id

inductive JobQueue.ClaimHolds (rows : JobRows J V S) (q : JobQueue J V S) : Option (Claim J) → Prop
  | none (behind : q.Behind rows) : ClaimHolds rows q none
  | bounded {bound : Nat} (behind : q.Behind rows) (le_bound : q.cursor ≤ bound)
      (le_next : bound ≤ q.nextJobId) (le_first : ∀ e ∈ q.enqueues, bound ≤ e.first) :
      ClaimHolds rows q (some (.bounded bound))
  | begun {bound snapshot : Nat} (behind : q.Behind rows) (le_bound : q.cursor ≤ bound)
      (le_next : bound ≤ q.nextJobId) (le_first : ∀ e ∈ q.enqueues, bound ≤ e.first)
      (le_version : snapshot ≤ q.hist.version)
      (same : ∀ id < bound, (q.hist.stateAt QueueTxn.apply snapshot).lookup id = q.latest.lookup id)
      (untouched : ∀ id < bound, ¬ q.hist.WrittenSince QueueTxn.keys snapshot (.entry id)) :
      ClaimHolds rows q (some (.begun bound snapshot))
  | scanned {snapshot : Nat} {jobs : List (Nat × J)} (some_taken : jobs ≠ [])
      (le_version : snapshot ≤ q.hist.version)
      (sorted : jobs.Pairwise fun a b => a.1 < b.1)
      (live : ∀ e ∈ jobs, ∃ row, q.latest.lookup e.1 = some row ∧ rows.deserialize row = some e.2)
      (behind : ∀ id row job, q.latest.lookup id = some row → rows.deserialize row = some job →
        q.cursor ≤ id ∨ id ∈ jobs.map Prod.fst)
      (untouched : ∀ e ∈ jobs, ¬ q.hist.WrittenSince QueueTxn.keys snapshot (.entry e.1)) :
      ClaimHolds rows q (some (.scanned snapshot jobs))

/-- The invariant: the ids of the calls under way are apart from each other and from the committed
ones until they commit, and every committed job is in the queue or returned, never both. -/
structure JobQueue.Exact (rows : JobRows J V S) (q : JobQueue J V S) : Prop where
  ranges : (q.enqueues.map fun e => (e.first, e.jobs.length)).Pairwise fun a b => a.1 + a.2 ≤ b.1
  next : ∀ e ∈ q.enqueues, e.first + e.jobs.length ≤ q.nextJobId
  committed_lt : ∀ id row, q.Committed id row → id < q.nextJobId
  pending : ∀ e ∈ q.enqueues, e.stage ≠ .finished → ∀ id row, q.Committed id row →
    id < e.first ∨ e.first + e.jobs.length ≤ id
  live : ∀ id row, q.latest.lookup id = some row → q.Committed id row
  cursor_next : q.cursor ≤ q.nextJobId
  cursor_first : ∀ e ∈ q.enqueues, q.cursor ≤ e.first
  accounted : ∀ id row job, q.Committed id row → rows.deserialize row = some job →
    q.latest.lookup id = some row ∨ (id, job) ∈ q.returned.flatten
  once : (q.returned.flatten.map Prod.fst).Nodup
  gone : ∀ e ∈ q.returned.flatten, q.latest.lookup e.1 = none ∧
    ∃ row, q.Committed e.1 row ∧ rows.deserialize row = some e.2
  claim : q.ClaimHolds rows q.claim

variable {rows : JobRows J V S} {q q' : JobQueue J V S}

variable {txn : QueueTxn V S}

variable {id : Nat}

theorem committed_commit {row : V} (hhist : q'.hist = q.hist.commit txn) :
    q'.Committed id row ↔ q.Committed id row ∨ (id, row) ∈ txn.puts := by
  unfold JobQueue.Committed
  rw [hhist]
  simp only [SnapshotHistory.commit, mem_append, mem_singleton]
  constructor
  · rintro (hbase | ⟨t, ht | rfl, hput⟩)
    · exact .inl (.inl hbase)
    · exact .inl (.inr ⟨t, ht, hput⟩)
    · exact .inr hput
  · rintro ((hbase | ⟨t, ht, hput⟩) | hput)
    · exact .inl hbase
    · exact .inr ⟨t, .inl ht, hput⟩
    · exact .inr ⟨txn, .inr rfl, hput⟩

theorem latest_commit (hhist : q'.hist = q.hist.commit txn) : q'.latest = txn.apply q.latest := by
  unfold JobQueue.latest
  rw [hhist, SnapshotHistory.latest_commit]

theorem JobQueue.Exact.of_enqueues (h : q.Exact rows) (hhist : q'.hist = q.hist)
    (hcursor : q'.cursor = q.cursor) (hclaim : q'.claim = q.claim)
    (hreturned : q'.returned = q.returned) (hnext : q.nextJobId ≤ q'.nextJobId)
    (hranges : (q'.enqueues.map fun e => (e.first, e.jobs.length)).Pairwise
      fun a b => a.1 + a.2 ≤ b.1)
    (hle : ∀ e ∈ q'.enqueues, e.first + e.jobs.length ≤ q'.nextJobId)
    (henqueues : ∀ e ∈ q'.enqueues, q.nextJobId ≤ e.first ∨
      ∃ e₀ ∈ q.enqueues, e₀.first = e.first ∧ e₀.jobs = e.jobs ∧
        (e.stage ≠ .finished → e₀.stage ≠ .finished)) : q'.Exact rows := by
  have hlatest : q'.latest = q.latest := by
    unfold JobQueue.latest
    rw [hhist]
  have hcommitted : ∀ id row, q'.Committed id row ↔ q.Committed id row := by
    intro id row
    unfold JobQueue.Committed
    rw [hhist]
  have hfirst : ∀ n ≤ q.nextJobId, (∀ e ∈ q.enqueues, n ≤ e.first) →
      ∀ e ∈ q'.enqueues, n ≤ e.first := by
    intro n hn hall e he
    rcases henqueues e he with hnew | ⟨e₀, he₀, hsame, -⟩
    · exact hn.trans hnew
    · rw [← hsame]
      exact hall e₀ he₀
  have hbehind : q.Behind rows → q'.Behind rows := by
    intro hbehind id row job
    rw [hlatest, hcursor]
    exact hbehind id row job
  constructor
  · exact hranges
  · exact hle
  · intro id row hrow
    exact (h.committed_lt id row ((hcommitted id row).mp hrow)).trans_le hnext
  · intro e he hstage id row hrow
    rw [hcommitted] at hrow
    rcases henqueues e he with hnew | ⟨e₀, he₀, hsame, hjobs, hopen⟩
    · exact .inl ((h.committed_lt id row hrow).trans_le hnew)
    · rw [← hsame, ← hjobs]
      exact h.pending e₀ he₀ (hopen hstage) id row hrow
  · intro id row
    rw [hlatest, hcommitted]
    exact h.live id row
  · rw [hcursor]
    exact h.cursor_next.trans hnext
  · rw [hcursor]
    exact hfirst q.cursor h.cursor_next h.cursor_first
  · intro id row job
    rw [hlatest, hcommitted, hreturned]
    exact h.accounted id row job
  · rw [hreturned]
    exact h.once
  · rw [hreturned, hlatest]
    intro e he
    obtain ⟨hgone, row, hrow, hjob⟩ := h.gone e he
    exact ⟨hgone, row, (hcommitted e.1 row).mpr hrow, hjob⟩
  · rw [hclaim]
    have hholds := h.claim
    generalize q.claim = claim at hholds ⊢
    cases hholds with
    | none behind => exact .none (hbehind behind)
    | bounded behind le_bound le_next le_first =>
      exact .bounded (hbehind behind) (hcursor ▸ le_bound) (le_next.trans hnext)
        (hfirst _ le_next le_first)
    | begun behind le_bound le_next le_first le_version same untouched =>
      refine .begun (hbehind behind) (hcursor ▸ le_bound) (le_next.trans hnext)
        (hfirst _ le_next le_first) (hhist ▸ le_version) ?_ (hhist ▸ untouched)
      rw [hlatest, hhist]
      exact same
    | scanned some_taken le_version sorted live behind untouched =>
      refine .scanned some_taken (hhist ▸ le_version) sorted (hlatest ▸ live) ?_ (hhist ▸ untouched)
      rw [hlatest, hcursor]
      exact behind

theorem JobQueue.Exact.allocate (h : q.Exact rows) (jobs : List J) :
    (q.allocate jobs).Exact rows := by
  unfold JobQueue.allocate
  split_ifs with hempty
  · exact h
  · refine h.of_enqueues rfl rfl rfl rfl (Nat.le_add_right _ _) ?_ ?_ ?_
    · change ((q.enqueues ++ [_]).map _).Pairwise _
      rw [map_append, pairwise_append]
      refine ⟨h.ranges, pairwise_singleton _ _, fun a ha b hb => ?_⟩
      obtain ⟨e, he, rfl⟩ := mem_map.mp ha
      rw [map_singleton, mem_singleton] at hb
      rw [hb]
      exact h.next e he
    · intro e he
      rcases mem_append.mp he with he | he
      · exact (h.next e he).trans (Nat.le_add_right _ _)
      · rw [mem_singleton.mp he]
    · intro e he
      rcases mem_append.mp he with he | he
      · exact .inr ⟨e, he, rfl, rfl, id⟩
      · rw [mem_singleton.mp he]
        exact .inl le_rfl

variable {e : Enqueue J} {i : Nat} {stage : EnqueueStage} {e' : Enqueue J}

theorem map_setStage (hget : q.enqueues[i]? = some e) (stage : EnqueueStage) :
    ((q.setStage i e stage).enqueues.map fun e => (e.first, e.jobs.length)) =
      q.enqueues.map fun e => (e.first, e.jobs.length) := by
  unfold JobQueue.setStage
  apply ext_getElem?
  intro j
  simp only [getElem?_map, getElem?_set]
  split_ifs with hij hlt
  · subst hij
    rw [hget]
    rfl
  · subst hij
    obtain ⟨hi, -⟩ := List.getElem?_eq_some_iff.mp hget
    exact absurd hi hlt
  · rfl

theorem mem_setStage {e : Enqueue J}
    (he' : e' ∈ (q.setStage i e stage).enqueues) : e' = { e with stage } ∨ e' ∈ q.enqueues := by
  rcases mem_or_eq_of_mem_set he' with hmem | heq
  · exact .inr hmem
  · exact .inl heq

theorem JobQueue.Exact.setStage (h : q.Exact rows) (hget : q.enqueues[i]? = some e)
    (hstage : stage ≠ .finished → e.stage ≠ .finished) :
    (q.setStage i e stage).Exact rows := by
  have he := mem_of_getElem? hget
  refine h.of_enqueues rfl rfl rfl rfl le_rfl ?_ ?_ ?_
  · rw [map_setStage hget]
    exact h.ranges
  · intro e' he'
    rcases mem_setStage he' with rfl | he'
    · exact h.next e he
    · exact h.next e' he'
  · intro e' he'
    right
    rcases mem_setStage he' with rfl | he'
    · exact ⟨e, he, rfl, rfl, hstage⟩
    · exact ⟨e', he', rfl, rfl, id⟩

theorem JobQueue.Exact.unregister (h : q.Exact rows) (i : Nat) :
    ({ q with enqueues := q.enqueues.eraseIdx i } : JobQueue J V S).Exact rows := by
  have hsub := eraseIdx_sublist q.enqueues i
  refine h.of_enqueues rfl rfl rfl rfl le_rfl (h.ranges.sublist (hsub.map _)) ?_ ?_
  · exact fun e he => h.next e (hsub.subset he)
  · exact fun e he => .inr ⟨e, hsub.subset he, rfl, rfl, id⟩

theorem lookup_apply (hdeletes : txn.deletes = []) (queue : SortedMap Nat V)
    (hid : id ∉ txn.puts.map Prod.fst) : (txn.apply queue).lookup id = queue.lookup id := by
  unfold QueueTxn.apply
  rw [hdeletes]
  exact SortedMap.lookup_insertAll_of_notMem queue hid

theorem lookup_apply_put (hdeletes : txn.deletes = []) (hnodup : (txn.puts.map Prod.fst).Nodup)
    (queue : SortedMap Nat V) {x : Nat × V} (hx : x ∈ txn.puts) :
    (txn.apply queue).lookup x.1 = some x.2 := by
  unfold QueueTxn.apply
  rw [hdeletes]
  exact SortedMap.lookup_insertAll_of_mem queue hnodup hx

theorem entry_mem_keys : .entry id ∈ txn.keys ↔ id ∈ txn.puts.map Prod.fst ∨ id ∈ txn.deletes := by
  unfold QueueTxn.keys
  simp only [mem_append, mem_map, QueueKey.entry.injEq, reduceCtorEq, and_false,
    exists_false, or_false, exists_eq_right]

theorem JobQueue.Exact.commit (h : q.Exact rows) (hdeletes : txn.deletes = [])
    (hnodup : (txn.puts.map Prod.fst).Nodup) (hlt : ∀ x ∈ txn.puts, x.1 < q.nextJobId)
    (hfirst : ∀ x ∈ txn.puts, ∃ e ∈ q.enqueues, e.first ≤ x.1)
    (hfresh : ∀ x ∈ txn.puts, ∀ row, ¬ q.Committed x.1 row)
    (hapart : ∀ e ∈ q.enqueues, e.stage ≠ .finished → ∀ x ∈ txn.puts, x.1 < e.first ∨ e.first +
      e.jobs.length ≤ x.1) :
    ({ q with hist := q.hist.commit txn } : JobQueue J V S).Exact rows := by
  set q' : JobQueue J V S := { q with hist := q.hist.commit txn } with hq'
  have hcommitted : ∀ id row, q'.Committed id row ↔ q.Committed id row ∨ (id, row) ∈ txn.puts :=
    fun id row => committed_commit rfl
  have hlatest : q'.latest = txn.apply q.latest := latest_commit rfl
  have hold : ∀ id, id ∉ txn.puts.map Prod.fst → q'.latest.lookup id = q.latest.lookup id := by
    intro id hid
    rw [hlatest]
    exact lookup_apply hdeletes q.latest hid
  have hnot_put : ∀ id row, q.Committed id row → id ∉ txn.puts.map Prod.fst := by
    intro id row hrow hid
    obtain ⟨x, hx, rfl⟩ := mem_map.mp hid
    exact hfresh x hx row hrow
  have hnew : ∀ x ∈ txn.puts, q.cursor ≤ x.1 := by
    intro x hx
    obtain ⟨e, he, hle⟩ := hfirst x hx
    exact (h.cursor_first e he).trans hle
  -- A row in the queue now was there before, or was just put.
  have hcases : ∀ id row, q'.latest.lookup id = some row →
      q.latest.lookup id = some row ∨ (id, row) ∈ txn.puts := by
    intro id row hrow
    by_cases hid : id ∈ txn.puts.map Prod.fst
    · right
      obtain ⟨x, hx, rfl⟩ := mem_map.mp hid
      rw [hlatest, lookup_apply_put hdeletes hnodup q.latest hx] at hrow
      cases hrow
      exact hx
    · left
      rw [hold id hid] at hrow
      exact hrow
  have hbehind : q.Behind rows → q'.Behind rows := by
    intro hbehind id row job hrow hjob
    rcases hcases id row hrow with hrow | hput
    · exact hbehind id row job hrow hjob
    · exact hnew (id, row) hput
  have hno : ∀ bound, (∀ e ∈ q.enqueues, bound ≤ e.first) → ∀ id < bound,
      id ∉ txn.puts.map Prod.fst := by
    intro bound hall id hid hmem
    obtain ⟨x, hx, rfl⟩ := mem_map.mp hmem
    obtain ⟨e, he, hle⟩ := hfirst x hx
    exact absurd hid (not_lt.mpr ((hall e he).trans hle))
  have huntouched : ∀ snapshot ≤ q.hist.version, ∀ id, id ∉ txn.puts.map Prod.fst →
      ¬ q.hist.WrittenSince QueueTxn.keys snapshot (.entry id) →
      ¬ (q.hist.commit txn).WrittenSince QueueTxn.keys snapshot (.entry id) := by
    intro snapshot hsnapshot id hid hnone
    rw [writtenSince_commit hsnapshot, entry_mem_keys, hdeletes]
    rintro (hwritten | hput | hdelete)
    · exact hnone hwritten
    · exact hid hput
    · cases hdelete
  have hversion : ∀ snapshot, snapshot ≤ q.hist.version → snapshot ≤ q'.hist.version := by
    intro snapshot hsnapshot
    change snapshot ≤ (q.hist.commit txn).version
    rw [version_commit]
    exact hsnapshot.trans (Nat.le_succ _)
  constructor
  · exact h.ranges
  · exact h.next
  · intro id row hrow
    rcases (hcommitted id row).mp hrow with hrow | hput
    · exact h.committed_lt id row hrow
    · exact hlt (id, row) hput
  · intro e he hstage id row hrow
    rcases (hcommitted id row).mp hrow with hrow | hput
    · exact h.pending e he hstage id row hrow
    · exact hapart e he hstage (id, row) hput
  · intro id row hrow
    rw [hcommitted]
    exact (hcases id row hrow).imp_left (h.live id row)
  · exact h.cursor_next
  · exact h.cursor_first
  · intro id row job hrow hjob
    rcases (hcommitted id row).mp hrow with hrow | hput
    · rw [hold id (hnot_put id row hrow)]
      exact h.accounted id row job hrow hjob
    · left
      rw [hlatest]
      exact lookup_apply_put hdeletes hnodup q.latest hput
  · exact h.once
  · intro e he
    obtain ⟨hgone, row, hrow, hjob⟩ := h.gone e he
    rw [hold e.1 (hnot_put e.1 row hrow)]
    exact ⟨hgone, row, (hcommitted e.1 row).mpr (.inl hrow), hjob⟩
  · have hholds := h.claim
    change q'.ClaimHolds rows q.claim
    generalize q.claim = claim at hholds ⊢
    cases hholds with
    | none behind => exact .none (hbehind behind)
    | bounded behind le_bound le_next le_first =>
      exact .bounded (hbehind behind) le_bound le_next le_first
    | begun behind le_bound le_next le_first le_version same untouched =>
      refine .begun (hbehind behind) le_bound le_next le_first (hversion _ le_version) ?_ ?_
      · intro id hid
        rw [hold id (hno _ le_first id hid)]
        change ((q.hist.commit txn).stateAt _ _).lookup id = _
        rw [stateAt_commit le_version]
        exact same id hid
      · intro id hid
        exact huntouched _ le_version id (hno _ le_first id hid) (untouched id hid)
    | scanned some_taken le_version sorted live behind untouched =>
      rename_i snapshot jobs
      have hkept : ∀ e ∈ jobs, e.1 ∉ txn.puts.map Prod.fst := by
        intro e he
        obtain ⟨row, hrow, -⟩ := live e he
        exact hnot_put e.1 row (h.live e.1 row hrow)
      refine .scanned some_taken (hversion _ le_version) sorted ?_ ?_ ?_
      · intro e he
        rw [hold e.1 (hkept e he)]
        exact live e he
      · intro id row job hrow hjob
        rcases hcases id row hrow with hrow | hput
        · exact behind id row job hrow hjob
        · exact .inl (hnew (id, row) hput)
      · intro e he
        exact huntouched _ le_version e.1 (hkept e he) (untouched e he)

theorem JobQueue.Exact.apart (h : q.Exact rows) (hget : q.enqueues[i]? = some e)
    (he' : e' ∈ (q.setStage i e .finished).enqueues) (hstage : e'.stage ≠ .finished)
    (hlow : e.first ≤ id) (hhigh : id < e.first + e.jobs.length) :
    id < e'.first ∨ e'.first + e'.jobs.length ≤ id := by
  obtain ⟨j, hj⟩ := getElem?_of_mem he'
  change (q.enqueues.set i _)[j]? = some e' at hj
  rw [getElem?_set] at hj
  split_ifs at hj with hij hlt
  · cases hj
    exact absurd rfl hstage
  · have hranges := h.ranges
    rw [pairwise_map, pairwise_iff_getElem] at hranges
    obtain ⟨hi, hei⟩ := List.getElem?_eq_some_iff.mp hget
    obtain ⟨hj', hej⟩ := List.getElem?_eq_some_iff.mp hj
    rcases Nat.lt_or_gt_of_ne hij with hlt | hgt
    · have hle := hranges i j hi hj' hlt
      rw [hei, hej] at hle
      exact .inl (hhigh.trans_le hle)
    · have hle := hranges j i hj' hi hgt
      rw [hei, hej] at hle
      exact .inr (hle.trans hlow)

theorem JobQueue.Exact.stepEnqueue [DecidableEq S] (h : q.Exact rows) (i : Nat) :
    (q.stepEnqueue rows i).Exact rows := by
  unfold JobQueue.stepEnqueue
  split
  · exact h
  · rename_i e hget
    split
    · rename_i attempt hstage
      exact h.setStage hget fun _ => by rw [hstage]; exact nofun
    · rename_i attempt snapshot hstage
      unfold JobQueue.commitEnqueue
      have hopen : e.stage ≠ .finished := by
        rw [hstage]
        exact nofun
      split_ifs
      · exact h.setStage hget fun _ => hopen
      · exact h.setStage hget fun hne => absurd rfl hne
      · have he := mem_of_getElem? hget
        have hfinished : (q.setStage i e .finished).Exact rows :=
          h.setStage hget fun hne => absurd rfl hne
        refine hfinished.commit rfl (rows_nodup rows e) ?_ ?_ ?_ ?_
        · intro x hx
          exact (mem_rows_bounds hx).2.trans_le (h.next e he)
        · intro x hx
          have hi := (List.getElem?_eq_some_iff.mp hget).1
          refine ⟨{ e with stage := .finished }, ?_, (mem_rows_bounds hx).1⟩
          exact mem_set hi _
        · intro x hx row hrow
          obtain ⟨hlow, hhigh⟩ := mem_rows_bounds hx
          rcases h.pending e he hopen x.1 row hrow with hbefore | hafter
          · exact absurd hlow (not_le.mpr hbefore)
          · exact absurd hhigh (not_lt.mpr hafter)
        · intro e' he' hstage' x hx
          obtain ⟨hlow, hhigh⟩ := mem_rows_bounds hx
          exact h.apart hget he' hstage' hlow hhigh
    · exact h.unregister i

theorem JobQueue.Exact.foreground (h : q.Exact rows) (states : List S) :
    ({ q with hist := q.hist.commit { puts := [], deletes := [], states } } :
      JobQueue J V S).Exact rows :=
  h.commit rfl nodup_nil nofun nofun nofun fun _ _ _ => nofun

end RhypeDb.Vectorizer
