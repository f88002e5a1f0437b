import RhypeDb.Basic.ByteOrder
import Mathlib.Data.List.TakeWhile
import RhypeDb.Basic.Run
import RhypeDb.Storage.Mvcc

/-! Runs of one transaction manager by any number of transaction handles, each call
atomic. The conflict log keeps what a committing transaction needs as long as it
still holds its snapshot and no more commits than the log's capacity were published
since: `trimActive` drops nothing newer than a held snapshot, and `trimSize` only
what lies behind a full log. -/

namespace RhypeDb.Storage

open List Nat
open AList hiding mem_keys

namespace ActiveSnapshots

theorem holds_acquire (active : ActiveSnapshots) (v w : Nat) :
    (active.acquire v).holds w = active.holds w + if w = v then 1 else 0 := by
  unfold acquire holds
  by_cases h : w = v
  · subst h
    simp [lookup_insert]
  · simp [lookup_insert_ne h, h]

theorem holds_releaseHold (active : ActiveSnapshots) (v w : Nat) :
    (active.releaseHold v).holds w = active.holds w - if w = v then 1 else 0 := by
  unfold releaseHold holds
  cases hv : active.lookup v with
  | none =>
    by_cases h : w = v
    · subst h
      simp [hv]
    · simp [h]
  | some count =>
    by_cases h : w = v
    · subst h
      by_cases h0 : count - 1 = 0
      · simp [h0, hv, lookup_erase]
      · simp [h0, hv, lookup_insert]
    · by_cases h0 : count - 1 = 0
      · simp [h0, h, lookup_erase_ne h]
      · simp [h0, h, lookup_insert_ne h]

variable {active : ActiveSnapshots}

theorem minActive_le {v : Nat} (h : 0 < active.holds v) : active.minActive ≤ v := by
  have hmem : v ∈ active.keys := by
    rw [← AList.mem_keys, ← AList.lookup_isSome]
    cases hv : active.lookup v with
    | none => simp [holds, hv] at h
    | some c => rfl
  unfold minActive
  cases hm : active.keys.min? with
  | none => simp [min?_eq_none_iff.mp hm] at hmem
  | some m => exact (min?_eq_some_iff.mp hm).2 v hmem

theorem releaseHold_acquire {v : Nat} (h : v ∉ active) :
    (active.acquire v).releaseHold v = active := by
  have hnone : active.lookup v = none := lookup_eq_none.mpr h
  have hkeys : v ∉ active.entries.keys := h
  simp only [acquire, releaseHold, hnone, Option.getD_none, lookup_insert]
  refine AList.ext ?_
  show List.kerase v (List.kinsert v 1 active.entries) = active.entries
  simp [List.kinsert, kerase_of_notMem_keys hkeys]

end ActiveSnapshots

namespace TransactionManager

variable {K V : Type}

theorem trim_split (minActive max : Nat) (log : List (CommittedTxn K)) :
    ∃ dropped, log = dropped ++ trimSize max (trimActive minActive log) ∧
      ∀ c ∈ dropped, c.commitVersion < minActive ∨
        (trimSize max (trimActive minActive log)).length = max := by
  set rest := trimActive minActive log with hrest
  refine ⟨(log.takeWhile fun front => decide (front.commitVersion < minActive)) ++
    rest.take (rest.length - max), ?_, ?_⟩
  · rw [append_assoc, trimSize, take_append_drop, hrest, trimActive,
      takeWhile_append_dropWhile]
  · intro c hc
    rcases mem_append.mp hc with hc | hc
    · exact .inl (by simpa using mem_takeWhile_imp hc)
    · have hlt : max < rest.length := by
        by_contra hle
        simp [Nat.sub_eq_zero_of_le (Nat.le_of_not_lt hle)] at hc
      refine .inr ?_
      simp only [trimSize, length_drop]
      omega

theorem conflicts_iff [DecidableEq K] (tm : TransactionManager K) (txn : Transaction K V) :
    tm.conflicts txn = true ↔ ∃ c ∈ tm.committedLog, txn.snapshot < c.commitVersion ∧
      ∃ k ∈ txn.keys, k ∈ c.writeSet := by
  simp only [conflicts, any_eq_true, Bool.and_eq_true, Bool.not_eq_true',
    decide_eq_false_iff_not, not_le, decide_eq_true_eq, Transaction.keys, mem_map]
  constructor
  · rintro ⟨c, hc, hv, w, hw, hk⟩
    exact ⟨c, hc, hv, w.1, ⟨w, hw, rfl⟩, hk⟩
  · rintro ⟨c, hc, hv, k, ⟨w, hw, rfl⟩, hk⟩
    exact ⟨c, hc, hv, w, hw, hk⟩

end TransactionManager

namespace Mvcc

open TransactionManager

variable {K V : Type}

/-- The calls on one manager. A transaction is named by the position of its `begin`. -/
inductive Call (K V : Type)
  | begin
  | put (i : Nat) (key : K) (value : V)
  | delete (i : Nat) (key : K)
  | commit (i : Nat)
  | abort (i : Nat)
  | drop (i : Nat)

/-- A commit with buffered writes that returned `Ok`. -/
structure Published (K : Type) where
  txn : Nat
  snapshot : Nat
  version : Nat
  keys : List K
  deriving DecidableEq

/-- The manager, the handles it gave out (`none` once dropped), and, as a record of the
run, the writing commits that returned `Ok`. -/
structure Sys (K V : Type) where
  tm : TransactionManager K
  txns : List (Option (Transaction K V))
  published : List (Published K)

namespace Sys

variable [DecidableEq K]

def new : Sys K V := { tm := TransactionManager.new, txns := [], published := [] }

def handle (s : Sys K V) (i : Nat) : Option (Transaction K V) := (s.txns[i]?).join

/-- An apply callback that returns `Ok`. -/
def applyOk (_ : Nat) (_ : Writes K V) (_ : Unit) : Except Error Unit × Unit := (.ok (), ())

/-- What the manager's `commit` returns for a handle. -/
def commitResult (s : Sys K V) (i : Nat) : Option (Except Error Nat) :=
  (s.handle i).map fun t => (s.tm.commit t applyOk ()).1

def buffer (s : Sys K V) (i : Nat) (f : Transaction K V → Transaction K V) : Sys K V :=
  match s.handle i with
  | none => s
  | some t => { s with txns := s.txns.set i (some (f t)) }

def commit (s : Sys K V) (i : Nat) : Sys K V :=
  match s.handle i with
  | none => s
  | some t =>
    match s.tm.commit t applyOk () with
    | (.error _, tm', t', _) => { s with tm := tm', txns := s.txns.set i (some t') }
    | (.ok v, tm', t', _) =>
      { tm := tm', txns := s.txns.set i (some t'),
        published := if t.writes.isEmpty then s.published
          else s.published ++ [{ txn := i, snapshot := t.snapshot, version := v, keys := t.keys }] }

/-- `abort` keeps the handle, `drop` consumes it; both release the snapshot. -/
def finish (s : Sys K V) (i : Nat) (keep : Bool) : Sys K V :=
  match s.handle i with
  | none => s
  | some t =>
    let (tm', t') := s.tm.release t
    { s with tm := tm', txns := s.txns.set i (if keep then some t' else none) }

def step (s : Sys K V) : Call K V → Sys K V
  | .begin =>
    let (tm', t) := s.tm.begin
    { s with tm := tm', txns := s.txns ++ [some t] }
  | .put i key value => s.buffer i (·.recordPut key value)
  | .delete i key => s.buffer i (·.recordDelete key)
  | .commit i => s.commit i
  | .abort i => s.finish i true
  | .drop i => s.finish i false

end Sys

/-- A writing commit is made while the handle still holds its snapshot and at most
`max_committed_log_size` versions were published since that snapshot. -/
def CommitsInWindow (s : Sys K V) : Call K V → Prop
  | .commit i => ∀ t ∈ s.handle i, t.writes ≠ [] →
      t.hold = true ∧ s.tm.visibleVersion ≤ t.snapshot + s.tm.maxCommittedLogSize
  | _ => True

instance [DecidableEq K] (s : Sys K V) (c : Call K V) : Decidable (CommitsInWindow s c) :=
  match c with
  | .commit i => inferInstanceAs (Decidable (∀ t ∈ s.handle i, t.writes ≠ [] →
      t.hold = true ∧ s.tm.visibleVersion ≤ t.snapshot + s.tm.maxCommittedLogSize))
  | .begin | .put .. | .delete .. | .abort _ | .drop _ => inferInstanceAs (Decidable True)

/-- The slot holds snapshot `v`. -/
def holding (v : Nat) : Option (Transaction K V) → Bool
  | none => false
  | some t => t.hold && decide (t.snapshot = v)

def Published.entry (p : Published K) : CommittedTxn K :=
  { commitVersion := p.version, writeSet := p.keys }

def NoLostUpdate (published : List (Published K)) : Prop :=
  ∀ p ∈ published, ∀ q ∈ published, (∃ k ∈ p.keys, k ∈ q.keys) →
    p.version < q.version → p.version ≤ q.snapshot

/-- A published commit may leave the conflict log once no held snapshot predates it, or
once the log's capacity of later commits has been published. -/
def Forgettable (s : Sys K V) (p : Published K) : Prop :=
  (∀ t, some t ∈ s.txns → t.hold = true → p.version ≤ t.snapshot) ∨
    p.version + s.tm.maxCommittedLogSize ≤ s.tm.visibleVersion

structure Inv (s : Sys K V) : Prop where
  next : s.tm.nextVersion = s.tm.visibleVersion + 1
  counted : ∀ v, s.tm.activeSnapshots.holds v = s.txns.countP (holding v)
  snapshot_le : ∀ t, some t ∈ s.txns → t.snapshot ≤ s.tm.visibleVersion
  sorted : s.published.Pairwise fun p q => p.version < q.version
  version_le : ∀ p ∈ s.published, p.version ≤ s.tm.visibleVersion
  log : ∃ dropped kept, s.published = dropped ++ kept ∧
    s.tm.committedLog = kept.map Published.entry ∧ ∀ p ∈ dropped, Forgettable s p
  ordered : NoLostUpdate s.published

variable {t : Transaction K V} {i : Nat}

variable {s : Sys K V} {p : Published K}

theorem handle_eq_some (h : s.handle i = some t) :
    ∃ hi : i < s.txns.length, s.txns[i] = some t := by
  unfold Sys.handle at h
  cases hi : s.txns[i]? with
  | none => simp [hi] at h
  | some x =>
    obtain ⟨hlt, hx⟩ := List.getElem?_eq_some_iff.mp hi
    exact ⟨hlt, by simpa [hi, hx] using h⟩

theorem handle_mem (h : s.handle i = some t) : some t ∈ s.txns := by
  obtain ⟨hi, ht⟩ := handle_eq_some h
  exact ht ▸ getElem_mem hi

theorem inv_new : Inv (Sys.new : Sys K V) where
  next := rfl
  counted := fun v => by simp [Sys.new, TransactionManager.new, ActiveSnapshots.holds]
  snapshot_le := by simp [Sys.new]
  sorted := List.Pairwise.nil
  version_le := by simp [Sys.new]
  log := ⟨[], [], rfl, rfl, by simp⟩
  ordered := by simp [Sys.new, NoLostUpdate]

theorem Inv.conflicts [DecidableEq K] (hs : Inv s) (ht : s.handle i = some t)
    (hhold : t.hold = true) (hwin : s.tm.visibleVersion ≤ t.snapshot + s.tm.maxCommittedLogSize)
    (hp : p ∈ s.published) (hlt : t.snapshot < p.version)
    (hk : ∃ k ∈ t.keys, k ∈ p.keys) : s.tm.conflicts t = true := by
  obtain ⟨dropped, kept, hsplit, hlog, hdrop⟩ := hs.log
  rw [hsplit, mem_append] at hp
  rw [conflicts_iff, hlog]
  rcases hp with hp | hp
  · rcases hdrop p hp with h | h
    · exact absurd (h t (handle_mem ht) hhold) (not_le.mpr hlt)
    · omega
  · exact ⟨p.entry, mem_map_of_mem hp, hlt, hk⟩

variable {x : Option (Transaction K V)}

theorem mem_set_some {l : List (Option (Transaction K V))} (h : some t ∈ l.set i x) :
    some t ∈ l ∨ x = some t := by
  rcases mem_or_eq_of_mem_set h with h | h
  · exact .inl h
  · exact .inr h.symm

variable {txns : List (Option (Transaction K V))} {t' : Transaction K V}

theorem countP_holding_same (hi : i < txns.length)
    (hget : txns[i] = some t) (hsnap : t'.snapshot = t.snapshot) (hhold : t'.hold = t.hold)
    (v : Nat) : (txns.set i (some t')).countP (holding v) = txns.countP (holding v) := by
  have hmem : some t ∈ txns := hget ▸ getElem_mem hi
  have hpos : holding v (some t) = true → 0 < txns.countP (holding v) := fun h =>
    countP_pos_iff.mpr ⟨some t, hmem, h⟩
  have hsame : holding v (some t') = holding v (some t) := by
    simp only [holding, hsnap, hhold]
  rw [countP_set hi, hget, hsame]
  split
  · have := hpos ‹_›
    omega
  · omega

variable {tm : TransactionManager K}

theorem holding_release (hx : x = none ∨ x = some (tm.release t).2) (v : Nat) :
    holding v x = false := by
  rcases hx with rfl | rfl
  · rfl
  · cases hh : t.hold <;> simp [holding, TransactionManager.release, hh]

theorem release_tm (tm : TransactionManager K) (t : Transaction K V) :
    (tm.release t).1 = { tm with
      activeSnapshots := if t.hold then tm.activeSnapshots.releaseHold t.snapshot
        else tm.activeSnapshots } := by
  cases hh : t.hold <;> simp [TransactionManager.release, hh]

theorem counted_release (hcounted : ∀ v, tm.activeSnapshots.holds v = txns.countP (holding v))
    (hi : i < txns.length) (hget : txns[i] = some t) (hx : x = none ∨ x = some (tm.release t).2)
    (v : Nat) : (tm.release t).1.activeSnapshots.holds v = (txns.set i x).countP (holding v) := by
  have hmem : some t ∈ txns := hget ▸ getElem_mem hi
  have hpos : holding v (some t) = true → 0 < txns.countP (holding v) := fun h =>
    countP_pos_iff.mpr ⟨some t, hmem, h⟩
  rw [countP_set hi, hget, holding_release hx, release_tm]
  cases hh : t.hold with
  | false => simp [holding, hh, hcounted v]
  | true =>
    simp only [if_true, ActiveSnapshots.holds_releaseHold, hcounted v, holding, hh,
      Bool.true_and, decide_eq_true_eq, Bool.false_eq_true, if_false, add_zero,
      eq_comm (a := v)]

theorem mem_release {u : Transaction K V} (hx : x = none ∨ x = some (tm.release t).2)
    (hu : some u ∈ txns.set i x) : some u ∈ txns ∨ u.snapshot = t.snapshot ∧ u.hold = false := by
  rcases mem_set_some hu with hu | rfl
  · exact .inl hu
  · refine .inr ?_
    rcases hx with hx | hx
    · cases hx
    · cases hx
      cases hh : t.hold <;> simp [TransactionManager.release, hh]

theorem Inv.set_same (hs : Inv s) (ht : s.handle i = some t)
    (hsnap : t'.snapshot = t.snapshot) (hhold : t'.hold = t.hold) :
    Inv { s with txns := s.txns.set i (some t') } := by
  obtain ⟨hi, hget⟩ := handle_eq_some ht
  have hmem := handle_mem ht
  refine { hs with counted := ?_, snapshot_le := ?_, log := ?_ }
  · intro v
    rw [countP_holding_same hi hget hsnap hhold, hs.counted v]
  · intro u hu
    rcases mem_set_some hu with hu | hu
    · exact hs.snapshot_le u hu
    · cases hu
      exact hsnap ▸ hs.snapshot_le t hmem
  · obtain ⟨dropped, kept, hsplit, hlog, hdrop⟩ := hs.log
    refine ⟨dropped, kept, hsplit, hlog, fun p hp => ?_⟩
    rcases hdrop p hp with h | h
    · refine .inl fun u hu hhu => ?_
      rcases mem_set_some hu with hu | hu
      · exact h u hu hhu
      · cases hu
        exact hsnap ▸ h t hmem (hhold ▸ hhu)
    · exact .inr h

theorem Inv.release (hs : Inv s) (ht : s.handle i = some t)
    (hx : x = none ∨ x = some (s.tm.release t).2) :
    Inv { s with tm := (s.tm.release t).1, txns := s.txns.set i x } := by
  obtain ⟨hi, hget⟩ := handle_eq_some ht
  have hmem := handle_mem ht
  have hcounted := counted_release hs.counted hi hget hx
  rw [release_tm] at hcounted ⊢
  refine { hs with counted := hcounted, snapshot_le := ?_, log := ?_ }
  · intro u hu
    rcases mem_release hx hu with hu | hu
    · exact hs.snapshot_le u hu
    · exact hu.1 ▸ hs.snapshot_le t hmem
  · obtain ⟨dropped, kept, hsplit, hlog, hdrop⟩ := hs.log
    refine ⟨dropped, kept, hsplit, hlog, fun p hp => ?_⟩
    rcases hdrop p hp with h | h
    · refine .inl fun u hu hhu => ?_
      rcases mem_release hx hu with hu | hu
      · exact h u hu hhu
      · simp [hu.2] at hhu
    · exact .inr h

theorem add_length_le {kept : List (Published K)} {v : Nat}
    (hpair : (p :: kept).Pairwise fun p q => p.version < q.version)
    (hle : ∀ q ∈ p :: kept, q.version ≤ v) : p.version + kept.length ≤ v := by
  induction kept generalizing p with
  | nil => simpa using hle p
  | cons q kept ih =>
    have hpq : p.version < q.version := (pairwise_cons.mp hpair).1 q (by simp)
    have hq := ih (pairwise_cons.mp hpair).2 fun r hr => hle r (mem_cons_of_mem p hr)
    simp only [length_cons]
    omega

def publish (s : Sys K V) (i : Nat) (t : Transaction K V) : Sys K V :=
  { s with
    tm := { s.tm with
      nextVersion := s.tm.nextVersion + 1
      visibleVersion := s.tm.nextVersion
      committedLog := trimSize s.tm.maxCommittedLogSize (trimActive s.tm.activeSnapshots.minActive
        (s.tm.committedLog ++ [{ commitVersion := s.tm.nextVersion, writeSet := t.keys }])) }
    published := s.published ++
      [{ txn := i, snapshot := t.snapshot, version := s.tm.nextVersion, keys := t.keys }] }

theorem Inv.publish (hs : Inv s)
    (hno : ∀ p ∈ s.published, (∃ k ∈ t.keys, k ∈ p.keys) → p.version ≤ t.snapshot) :
    Inv (publish s i t) := by
  obtain ⟨dropped, kept, hsplit, hlog, hdrop⟩ := hs.log
  have hnext := hs.next
  set new : Published K :=
    { txn := i, snapshot := t.snapshot, version := s.tm.nextVersion, keys := t.keys } with hnew
  have hbelow : ∀ p ∈ s.published, p.version < new.version := fun p hp => by
    have := hs.version_le p hp
    simp only [hnew]
    omega
  have hsorted : (s.published ++ [new]).Pairwise fun p q => p.version < q.version := by
    refine pairwise_append.mpr ⟨hs.sorted, pairwise_singleton _ _, fun p hp q hq => ?_⟩
    rw [mem_singleton.mp hq]
    exact hbelow p hp
  have hle : ∀ p ∈ s.published ++ [new], p.version ≤ s.tm.nextVersion := fun p hp => by
    rcases mem_append.mp hp with hp | hp
    · exact (hbelow p hp).le
    · rw [mem_singleton.mp hp]
  refine ⟨rfl, hs.counted, ?_, hsorted, hle, ?_, ?_⟩
  · intro u hu
    have := hs.snapshot_le u hu
    simp only [Mvcc.publish]
    omega
  · obtain ⟨gone, hgone, hold⟩ := trim_split s.tm.activeSnapshots.minActive
      s.tm.maxCommittedLogSize (s.tm.committedLog ++ [new.entry])
    have hpushed : s.tm.committedLog ++ [new.entry] = (kept ++ [new]).map Published.entry := by
      rw [hlog, map_append, map_singleton]
    rw [hpushed] at hgone hold
    obtain ⟨gone', kept', hkept, hg, hk⟩ := map_eq_append_iff.mp hgone
    refine ⟨dropped ++ gone', kept', ?_, ?_, fun p hp => ?_⟩
    · simp only [Mvcc.publish]
      rw [hsplit, append_assoc, hkept, append_assoc]
    · simp only [Mvcc.publish]
      rw [hk, ← hpushed]
      rfl
    · rcases mem_append.mp hp with hp | hp
      · refine (hdrop p hp).imp id fun h => ?_
        simp only [Mvcc.publish]
        omega
      · rcases hold p.entry (hg ▸ mem_map_of_mem hp) with h | h
        · refine .inl fun u hu hhu => ?_
          have hpos : 0 < s.tm.activeSnapshots.holds u.snapshot := by
            rw [hs.counted, countP_pos_iff]
            exact ⟨some u, hu, by simp [holding, hhu]⟩
          have := ActiveSnapshots.minActive_le hpos
          simp only [Published.entry] at h
          omega
        · refine .inr ?_
          have hlen : kept'.length = s.tm.maxCommittedLogSize := by
            rw [← h, ← hk, length_map]
          have hall : s.published ++ [new] = dropped ++ (gone' ++ kept') := by
            rw [hsplit, append_assoc, hkept]
          rw [hall] at hsorted hle
          have htail := pairwise_append.mp (pairwise_append.mp hsorted).2.1
          have := add_length_le (pairwise_cons.mpr ⟨htail.2.2 p hp, htail.2.1⟩)
            fun q hq => hle q <| by
              rcases mem_cons.mp hq with rfl | hq
              · simp [hp]
              · simp [hq]
          simp only [Mvcc.publish]
          omega
  · intro p hp q hq hk hlt
    rcases mem_append.mp hp with hp | hp <;> rcases mem_append.mp hq with hq | hq
    · exact hs.ordered p hp q hq hk hlt
    · rw [mem_singleton.mp hq] at hk ⊢
      obtain ⟨k, hkp, hkt⟩ := hk
      exact hno p hp ⟨k, hkt, hkp⟩
    · rw [mem_singleton.mp hp] at hlt
      exact absurd hlt (not_lt.mpr (hbelow q hq).le)
    · rw [mem_singleton.mp hp, mem_singleton.mp hq] at hlt
      exact absurd hlt (lt_irrefl _)

section

variable [DecidableEq K]

theorem commit_cases (s : Sys K V) {i : Nat} {t : Transaction K V} (ht : s.handle i = some t) :
    (t.writes = [] ∧ s.commitResult i = some (.ok t.snapshot) ∧
      s.commit i = { s with tm := (s.tm.release t).1
                            txns := s.txns.set i (some (s.tm.release t).2) }) ∨
    (t.writes ≠ [] ∧ s.tm.conflicts t = true ∧
      s.commitResult i = some (.error .writeConflict) ∧
      s.commit i = { s with txns := s.txns.set i (some t) }) ∨
    (t.writes ≠ [] ∧ s.tm.conflicts t = false ∧
      s.commitResult i = some (.ok s.tm.nextVersion) ∧
      s.commit i = { publish s i t with
        tm := ((publish s i t).tm.release t).1
        txns := (publish s i t).txns.set i (some ((publish s i t).tm.release t).2) }) := by
  simp only [Sys.commit, Sys.commitResult, ht, Option.map_some]
  by_cases hw : t.writes = []
  · exact .inl ⟨hw, by simp [TransactionManager.commit, hw], by simp [TransactionManager.commit, hw]⟩
  · have hw' : t.writes.isEmpty = false := by simpa using hw
    cases hc : s.tm.conflicts t with
    | true =>
      exact .inr (.inl ⟨hw, rfl, by simp [TransactionManager.commit, hw', hc],
        by simp [TransactionManager.commit, hw', hc]⟩)
    | false =>
      exact .inr (.inr ⟨hw, rfl, by simp [TransactionManager.commit, hw', hc, Sys.applyOk],
        by simp [TransactionManager.commit, hw', hc, Sys.applyOk, publish]⟩)

theorem upsert_snapshot (t : Transaction K V) (k : K) (v : Option V) :
    (t.upsert k v).snapshot = t.snapshot ∧ (t.upsert k v).hold = t.hold := by
  unfold Transaction.upsert
  split <;> exact ⟨rfl, rfl⟩

theorem Inv.buffer (hs : Inv s) (i : Nat) (k : K) (v : Option V) :
    Inv (s.buffer i (·.upsert k v)) := by
  unfold Sys.buffer
  cases ht : s.handle i with
  | none => exact hs
  | some t => exact hs.set_same ht (upsert_snapshot t k v).1 (upsert_snapshot t k v).2

omit [DecidableEq K] in
theorem Inv.finish (hs : Inv s) (i : Nat) (keep : Bool) : Inv (s.finish i keep) := by
  unfold Sys.finish
  cases ht : s.handle i with
  | none => exact hs
  | some t =>
    refine hs.release ht ?_
    cases keep
    · exact .inl rfl
    · exact .inr rfl

theorem Inv.begin (hs : Inv s) : Inv (s.step .begin) := by
  refine ⟨hs.next, ?_, ?_, hs.sorted, hs.version_le, ?_, hs.ordered⟩
  · intro v
    simp only [Sys.step, TransactionManager.begin, ActiveSnapshots.holds_acquire, hs.counted v,
      countP_append, countP_singleton, holding, Bool.true_and, decide_eq_true_eq,
      eq_comm (a := v)]
  · intro t ht
    rcases mem_append.mp ht with ht | ht
    · exact hs.snapshot_le t ht
    · cases mem_singleton.mp ht
      exact le_rfl
  · obtain ⟨dropped, kept, hsplit, hlog, hdrop⟩ := hs.log
    refine ⟨dropped, kept, hsplit, hlog, fun p hp => (hdrop p hp).imp (fun h t ht hh => ?_) id⟩
    rcases mem_append.mp ht with ht | ht
    · exact h t ht hh
    · cases mem_singleton.mp ht
      exact hs.version_le p (hsplit ▸ mem_append_left kept hp)

theorem Inv.commit (hs : Inv s) {i : Nat} (hC : CommitsInWindow s (.commit i)) :
    Inv (s.commit i) := by
  cases ht : s.handle i with
  | none => simpa only [Sys.commit, ht] using hs
  | some t =>
    rcases commit_cases s ht with ⟨-, -, h⟩ | ⟨-, -, -, h⟩ | ⟨hw, hc, -, h⟩
    · exact h ▸ hs.release ht (.inr rfl)
    · exact h ▸ hs.set_same ht rfl rfl
    · obtain ⟨hhold, hwin⟩ := hC t ht hw
      have hpub : Inv (Mvcc.publish s i t) := hs.publish fun p hp hk => by
        by_contra hlt
        have := hs.conflicts ht hhold hwin hp (not_le.mp hlt) hk
        simp [hc] at this
      exact h ▸ hpub.release ht (.inr rfl)

theorem Inv.step {c : Call K V} (hs : Inv s) (hC : CommitsInWindow s c) : Inv (s.step c) := by
  cases c with
  | begin => exact hs.begin
  | put i key value => exact hs.buffer i key (some value)
  | delete i key => exact hs.buffer i key none
  | commit i => exact hs.commit hC
  | abort i => exact hs.finish i true
  | drop i => exact hs.finish i false

end

/-- In every run whose writing commits stay inside the conflict log's window, commits that
share a key are ordered by their snapshots, and a commit that would break that order is
refused. -/
theorem no_lost_update [DecidableEq K] (calls : List (Call K V))
    (hC : Run.Along Sys.step CommitsInWindow Sys.new calls) :
    NoLostUpdate (Run.exec Sys.step Sys.new calls).published ∧
    ∀ i t, (Run.exec Sys.step Sys.new calls).handle i = some t →
      CommitsInWindow (Run.exec Sys.step Sys.new calls) (.commit i) →
      (∃ p ∈ (Run.exec Sys.step Sys.new calls).published,
        (∃ k ∈ t.keys, k ∈ p.keys) ∧ t.snapshot < p.version) →
      (Run.exec Sys.step Sys.new calls).commitResult i = some (.error .writeConflict) := by
  have hs : Inv (Run.exec Sys.step Sys.new calls) :=
    Run.exec_invariant (fun _ _ hs hC => hs.step hC) inv_new hC
  refine ⟨hs.ordered, ?_⟩
  rintro i t ht hwin ⟨p, hp, hk, hlt⟩
  have hw : t.writes ≠ [] := by
    rintro hw
    simp [Transaction.keys, hw] at hk
  obtain ⟨hhold, hle⟩ := hwin t ht hw
  have hconf := hs.conflicts ht hhold hle hp hlt hk
  rcases commit_cases _ ht with ⟨hw', -⟩ | ⟨-, -, h, -⟩ | ⟨-, hno, -⟩
  · exact absurd hw' hw
  · exact h
  · simp [hconf] at hno

theorem no_lost_update_two :
    (Run.exec Sys.step (Sys.new : Sys (List (Fin 256)) (List (Fin 256)))
      [.begin, .begin, .put 0 [107] [1], .put 1 [107] [2], .commit 0]).commitResult 1 =
        some (.error .writeConflict) :=
  (no_lost_update [.begin, .begin, .put 0 [107] [1], .put 1 [107] [2], .commit 0] (by decide)).2
    1 ⟨0, [([107], some [2])], true⟩ (by decide) (by decide) ⟨⟨0, 0, 1, [[107]]⟩, by decide⟩

section

/-- A transaction that begins before `key` is written and outlives the conflict log. -/
def overrunStart : List (Call (List (Fin 256)) (List (Fin 256))) :=
  [.begin, .begin, .put 1 [107] [1], .commit 1]

def overrunFill (n : Nat) : List (Call (List (Fin 256)) (List (Fin 256))) :=
  [.begin, .put (n + 2) [120] [0], .commit (n + 2)]

def overrun (n : Nat) : List (Call (List (Fin 256)) (List (Fin 256))) :=
  overrunStart ++ (List.range n).flatMap overrunFill

/-- The state after `n` fillers, as far as the reader's commit depends on it. -/
structure Filled (n : Nat) (s : Sys (List (Fin 256)) (List (Fin 256))) : Prop where
  visible : s.tm.visibleVersion = n + 1
  next : s.tm.nextVersion = n + 2
  size : s.tm.maxCommittedLogSize = 1024
  active : s.tm.activeSnapshots = AList.insert 0 1 ∅
  log : ∃ rest : List (CommittedTxn (List (Fin 256))),
    s.tm.committedLog = (⟨1, [[107]]⟩ :: rest).drop (n + 1 - 1024) ∧ rest.length = n ∧
      ∀ c ∈ rest, c.commitVersion ≤ n + 1 ∧ c.writeSet = [[120]]
  txns : s.txns.length = n + 2
  reader : s.txns[0]? = some (some ⟨0, [], true⟩)
  first : ⟨1, 0, 1, [[107]]⟩ ∈ s.published

theorem filled_start : Filled 0 (Run.exec Sys.step Sys.new overrunStart) where
  visible := by decide
  next := by decide
  size := by decide
  active := AList.ext (by decide)
  log := ⟨[], by decide, rfl, by simp⟩
  txns := by decide
  reader := by decide
  first := by decide

def filler (n : Nat) : Transaction (List (Fin 256)) (List (Fin 256)) :=
  ⟨n + 1, [([120], some [0])], true⟩

def fillerState (n : Nat) (s : Sys (List (Fin 256)) (List (Fin 256))) :
    Sys (List (Fin 256)) (List (Fin 256)) :=
  { s with
    tm := { s.tm with activeSnapshots := s.tm.activeSnapshots.acquire (n + 1) }
    txns := s.txns ++ [some (filler n)] }

variable {s : Sys (List (Fin 256)) (List (Fin 256))} {n : Nat}

theorem Filled.exec_fill (hs : Filled n s) :
    Run.exec Sys.step s (overrunFill n) = (fillerState n s).commit (n + 2) := by
  have hset : ∀ x : Option (Transaction (List (Fin 256)) (List (Fin 256))),
      (s.txns ++ [x]).set (n + 2) (some (filler n)) = s.txns ++ [some (filler n)] := by
    intro x
    rw [← hs.txns, set_append_right _ _ le_rfl, Nat.sub_self, set_cons_zero]
  have hget : ∀ x : Option (Transaction (List (Fin 256)) (List (Fin 256))),
      (s.txns ++ [x])[n + 2]? = some x := by
    intro x
    rw [← hs.txns, getElem?_concat_length]
  simp only [overrunFill, Run.exec_cons, Run.exec_nil, Sys.step, TransactionManager.begin,
    hs.visible, Sys.buffer, Sys.handle, hget, Option.join_some, fillerState]
  rw [show Transaction.recordPut _ _ _ = filler n from rfl, hset]

theorem Filled.handle_filler (hs : Filled n s) :
    (fillerState n s).handle (n + 2) = some (filler n) := by
  simp only [Sys.handle, fillerState, ← hs.txns, getElem?_concat_length, Option.join_some]

theorem Filled.fill (hs : Filled n s) : Filled (n + 1) (Run.exec Sys.step s (overrunFill n)) := by
  obtain ⟨rest, hlog, hlen, hrest⟩ := hs.log
  have hbelow : ∀ c ∈ s.tm.committedLog, c.commitVersion ≤ n + 1 := by
    intro c hc
    rcases mem_cons.mp (mem_of_mem_drop (hlog ▸ hc)) with rfl | hc
    · exact le_add_left 1 n
    · exact (hrest c hc).1
  rw [hs.exec_fill]
  rcases commit_cases (fillerState n s) hs.handle_filler with ⟨hw, -⟩ | ⟨-, hc, -⟩ | ⟨-, -, -, h⟩
  · cases hw
  · obtain ⟨c, hc, hlt, -⟩ := (conflicts_iff _ _).mp hc
    exact absurd (hbelow c hc) (not_le.mpr hlt)
  · rw [h]
    have hmin : (s.tm.activeSnapshots.acquire (n + 1)).minActive = 0 := by
      refine le_zero.mp (ActiveSnapshots.minActive_le ?_)
      rw [ActiveSnapshots.holds_acquire, hs.active]
      exact succ_pos _
    refine ⟨?_, ?_, ?_, ?_, ?_, ?_, ?_, ?_⟩
    · simp [TransactionManager.release, filler, publish, fillerState, hs.next]
    · simp [TransactionManager.release, filler, publish, fillerState, hs.next]
    · simp [TransactionManager.release, filler, publish, fillerState, hs.size]
    · simp only [TransactionManager.release, filler, publish, fillerState, if_true]
      rw [ActiveSnapshots.releaseHold_acquire, hs.active]
      rw [hs.active, mem_insert, not_or]
      exact ⟨succ_ne_zero n, notMem_empty _⟩
    · refine ⟨rest ++ [⟨n + 2, [[120]]⟩], ?_, by simp [hlen], ?_⟩
      · simp only [TransactionManager.release, filler, publish, fillerState, if_true, hmin, hs.next,
          hs.size, hlog, trimActive, trimSize, Transaction.keys, map_cons, map_nil,
          not_lt_zero, decide_false]
        rw [dropWhile_eq_self_iff.mpr (by simp), ← cons_append,
          ← drop_append_of_le_length (by simp; omega), drop_drop]
        simp only [length_drop, length_append, length_cons, hlen, length_nil]
        have hcount : n + 1 - 1024 + (n + 1 + (0 + 1) - (n + 1 - 1024) - 1024) =
          n + 1 + 1 - 1024 := by omega
        rw [hcount]
      · intro c hc
        rcases mem_append.mp hc with hc | hc
        · exact ⟨(hrest c hc).1.trans (le_succ _), (hrest c hc).2⟩
        · rw [mem_singleton.mp hc]
          exact ⟨le_rfl, rfl⟩
    · simp [TransactionManager.release, filler, publish, fillerState, hs.txns]
    · have hpos : 0 < s.txns.length := by rw [hs.txns]; omega
      simp only [publish, fillerState]
      rw [getElem?_set_ne (by omega), getElem?_append_left hpos, hs.reader]
    · simp [filler, publish, fillerState, hs.first]

theorem filled_overrun (n : Nat) : Filled n (Run.exec Sys.step Sys.new (overrun n)) := by
  induction n with
  | zero => exact filled_start
  | succ n ih =>
    have h : overrun (n + 1) = overrun n ++ overrunFill n := by
      simp [overrun, range_succ]
    rw [h, Run.exec_append]
    exact ih.fill

theorem Filled.lost (hs : Filled 1024 s) :
    ¬ NoLostUpdate (Run.exec Sys.step s [.put 0 [107] [2], .commit 0]).published := by
  obtain ⟨-, hnext, -, -, ⟨rest, hlog, -, hrest⟩, htxns, hreader, hfirst⟩ := hs
  set t : Transaction (List (Fin 256)) (List (Fin 256)) := ⟨0, [([107], some [2])], true⟩
  set s₁ : Sys (List (Fin 256)) (List (Fin 256)) := { s with txns := s.txns.set 0 (some t) } with hs₁
  have hput : s.step (.put 0 [107] [2]) = s₁ := by
    simp only [Sys.step, Sys.buffer, Sys.handle, hreader, Option.join_some]
    rfl
  have ht : s₁.handle 0 = some t := by
    simp only [Sys.handle, hs₁]
    rw [getElem?_set_self (by omega), Option.join_some]
  rw [Run.exec_cons, hput, Run.exec_cons, Run.exec_nil]
  rcases commit_cases s₁ ht with ⟨hw, -⟩ | ⟨-, hc, -⟩ | ⟨-, -, -, h⟩
  · cases hw
  · obtain ⟨c, hc, -, k, hk, hkc⟩ := (conflicts_iff _ _).mp hc
    have hx : c.writeSet = [[120]] := (hrest c (by simpa [hs₁, hlog] using hc)).2
    rw [hx, mem_singleton.mp hk] at hkc
    simp at hkc
  · rw [Sys.step, h]
    intro hall
    have hlast : (⟨0, 0, s.tm.nextVersion, [[107]]⟩ : Published (List (Fin 256))) ∈
        (publish s₁ 0 t).published := mem_append_right _ (mem_singleton.mpr rfl)
    have := hall ⟨1, 0, 1, [[107]]⟩ (mem_append_left _ hfirst) _ hlast
      ⟨[107], mem_singleton_self _, mem_singleton_self _⟩
    simp only [hnext] at this
    omega

theorem lost_update : ¬ ∀ calls : List (Call (List (Fin 256)) (List (Fin 256))),
    NoLostUpdate (Run.exec Sys.step Sys.new calls).published := by
  intro hall
  have h := hall (overrun 1024 ++ [.put 0 [107] [2], .commit 0])
  rw [Run.exec_append] at h
  exact (filled_overrun 1024).lost h

end

end Mvcc
end RhypeDb.Storage
