import Mathlib.Algebra.Group.Nat.Defs
import Mathlib.Data.List.AList
import Mathlib.Data.List.MinMax

/-! The transaction manager of `mvcc.rs`: refcounted snapshots, buffered writes,
and the serialized commit with its conflict log. Versions are unbounded counters
here; the layers that encode them as 64-bit integers carry the bound. -/

namespace RhypeDb.Storage

open List

inductive Error
  | io
  | walCorrupted
  | sstCorrupted
  | notFound
  | writeConflict
  | transactionAborted
  | dataDirLocked
  | dataDirOwnershipLost
  deriving DecidableEq, Repr

/-- `u64::MAX`. -/
def u64Max : Nat := 2 ^ 64 - 1

/-- Buffered writes in insertion order, one entry per key; `none` is a tombstone. -/
abbrev Writes (K V : Type) := List (K × Option V)

def lastWrite {K V : Type} [DecidableEq K] (writes : Writes K V) (k : K) : Option (Option V) :=
  writes.foldl (fun acc w => if w.1 = k then some w.2 else acc) none

section

variable {K V : Type} [DecidableEq K]

@[simp] theorem lastWrite_nil (k : K) : lastWrite ([] : Writes K V) k = none := rfl

theorem lastWrite_concat (writes : Writes K V) (w : K × Option V) (k : K) :
    lastWrite (writes ++ [w]) k = if w.1 = k then some w.2 else lastWrite writes k := by
  rw [lastWrite, foldl_append]
  rfl

variable {writes : Writes K V} {k : K} {v : Option V}

theorem isSome_lastWrite : (lastWrite writes k).isSome ↔ k ∈ writes.map Prod.fst := by
  induction writes using List.reverseRecOn with
  | nil => simp
  | append_singleton writes w ih =>
    rw [lastWrite_concat, map_append, mem_append, ← ih]
    by_cases hk : w.1 = k
    · simp [hk]
    · simp [hk, Ne.symm hk]

theorem lastWrite_mem (h : lastWrite writes k = some v) : (k, v) ∈ writes := by
  induction writes using List.reverseRecOn with
  | nil => cases h
  | append_singleton writes w ih =>
    rw [lastWrite_concat] at h
    split_ifs at h with hk
    · cases h
      subst hk
      exact mem_append_right _ mem_cons_self
    · exact mem_append_left _ (ih h)

theorem lastWrite_append (xs ys : Writes K V) (k : K) :
    lastWrite (xs ++ ys) k = (lastWrite ys k).or (lastWrite xs k) := by
  induction ys using List.reverseRecOn with
  | nil => rw [append_nil, lastWrite_nil, Option.none_or]
  | append_singleton ys w ih =>
    rw [← append_assoc, lastWrite_concat, lastWrite_concat, ih]
    split_ifs <;> rfl

theorem lastWrite_flatMap {α : Type*} (rows : α → Writes K V) (xs : List α) (k : K) :
    lastWrite (xs.flatMap rows) k = xs.reverse.findSome? fun x => lastWrite (rows x) k := by
  induction xs with
  | nil => rfl
  | cons x xs ih =>
    rw [flatMap_cons, lastWrite_append, ih, reverse_cons, findSome?_append,
      findSome?_singleton]

theorem lastWrite_flatMap_of_only {α : Type*} {rows : α → Writes K V} {xs : List α} {x : α}
    (hx : x ∈ xs) (honly : ∀ y ∈ xs, y ≠ x → lastWrite (rows y) k = none) :
    lastWrite (xs.flatMap rows) k = lastWrite (rows x) k := by
  rw [lastWrite_flatMap]
  cases h : lastWrite (rows x) k with
  | none =>
    rw [findSome?_eq_none_iff]
    intro y hy
    by_cases hyx : y = x
    · rw [hyx, h]
    · exact honly y (mem_reverse.mp hy) hyx
  | some v =>
    cases hfound : xs.reverse.findSome? fun y => lastWrite (rows y) k with
    | none =>
      rw [findSome?_eq_none_iff.mp hfound x (mem_reverse.mpr hx)] at h
      cases h
    | some v' =>
      obtain ⟨y, hy, hv'⟩ := exists_of_findSome?_eq_some hfound
      by_cases hyx : y = x
      · rw [← hv', hyx, h]
      · rw [honly y (mem_reverse.mp hy) hyx] at hv'
        cases hv'

theorem lastWrite_eq_none : lastWrite writes k = none ↔ ∀ w ∈ writes, w.1 ≠ k := by
  rw [← Option.not_isSome_iff_eq_none, isSome_lastWrite, mem_map, not_exists]
  exact forall_congr' fun w => not_and

theorem lastWrite_of_agree (hmem : (k, v) ∈ writes)
    (h : ∀ w ∈ writes, w.1 = k → w.2 = v) : lastWrite writes k = some v := by
  have hk : k ∈ writes.map Prod.fst := mem_map_of_mem hmem
  obtain ⟨last, hlast⟩ := Option.isSome_iff_exists.mp (isSome_lastWrite.mpr hk)
  exact hlast.trans (congrArg some (h _ (lastWrite_mem hlast) rfl))

end

abbrev ActiveSnapshots := AList (fun _ : Nat => Nat)

structure CommittedTxn (K : Type) where
  commitVersion : Nat
  writeSet : List K
  deriving DecidableEq

structure TransactionManager (K : Type) where
  visibleVersion : Nat
  nextVersion : Nat
  committedLog : List (CommittedTxn K)
  activeSnapshots : ActiveSnapshots
  maxCommittedLogSize : Nat

/-- A transaction handle; `hold` is the live hold on its snapshot. -/
structure Transaction (K V : Type) where
  snapshot : Nat
  writes : Writes K V
  hold : Bool
  deriving DecidableEq

namespace ActiveSnapshots

/-- `entry(snapshot).or_insert(0) += 1`. -/
def acquire (active : ActiveSnapshots) (snapshot : Nat) : ActiveSnapshots :=
  active.insert snapshot ((active.lookup snapshot).getD 0 + 1)

def releaseHold (active : ActiveSnapshots) (snapshot : Nat) : ActiveSnapshots :=
  match active.lookup snapshot with
  | none => active
  | some count =>
    if count - 1 = 0 then active.erase snapshot else active.insert snapshot (count - 1)

def holds (active : ActiveSnapshots) (snapshot : Nat) : Nat := (active.lookup snapshot).getD 0

def minActive (active : ActiveSnapshots) : Nat := active.keys.min?.getD u64Max

end ActiveSnapshots

namespace Transaction

variable {K V : Type} [DecidableEq K]

def upsert (txn : Transaction K V) (key : K) (value : Option V) : Transaction K V :=
  if key ∈ txn.writes.map Prod.fst then
    { txn with writes := txn.writes.map fun w => if w.1 = key then (key, value) else w }
  else { txn with writes := txn.writes ++ [(key, value)] }

def recordPut (txn : Transaction K V) (key : K) (value : V) : Transaction K V :=
  txn.upsert key (some value)

def recordDelete (txn : Transaction K V) (key : K) : Transaction K V := txn.upsert key none

def recordAll (txn : Transaction K V) (writes : Writes K V) : Transaction K V :=
  writes.foldl (fun txn w => txn.upsert w.1 w.2) txn

def keys (txn : Transaction K V) : List K := txn.writes.map Prod.fst

theorem lastWrite_replace (writes : Writes K V) (key k : K) (value : Option V) :
    lastWrite (writes.map fun w => if w.1 = key then (key, value) else w) k =
      if key = k then (lastWrite writes k).map fun _ => value else lastWrite writes k := by
  induction writes using List.reverseRecOn with
  | nil => simp
  | append_singleton writes w ih =>
    rw [map_append, map_cons, map_nil, lastWrite_concat, lastWrite_concat, ih]
    by_cases hw : w.1 = key
    · subst hw
      by_cases hk : w.1 = k <;> simp [hk]
    · by_cases hk : key = k
      · subst hk
        simp [hw]
      · simp [hw, hk]

theorem lastWrite_upsert (txn : Transaction K V) (key k : K) (value : Option V) :
    lastWrite (txn.upsert key value).writes k =
      if key = k then some value else lastWrite txn.writes k := by
  unfold upsert
  split_ifs with hmem hk hk
  · subst hk
    obtain ⟨old, hold⟩ := Option.isSome_iff_exists.mp (isSome_lastWrite.mpr hmem)
    rw [lastWrite_replace, if_pos rfl, hold]
    rfl
  · rw [lastWrite_replace, if_neg hk]
  · subst hk
    rw [lastWrite_concat, if_pos rfl]
  · rw [lastWrite_concat, if_neg hk]

theorem lastWrite_recordAll (txn : Transaction K V) (writes : Writes K V) (k : K) :
    lastWrite (txn.recordAll writes).writes k = (lastWrite writes k).or (lastWrite txn.writes k) := by
  induction writes using List.reverseRecOn with
  | nil => rfl
  | append_singleton writes w ih =>
    have hstep : txn.recordAll (writes ++ [w]) = (txn.recordAll writes).upsert w.1 w.2 := by
      rw [recordAll, foldl_append]
      rfl
    rw [hstep, lastWrite_upsert, lastWrite_concat, ih]
    split_ifs <;> rfl

theorem recordAll_snapshot (txn : Transaction K V) (writes : Writes K V) :
    (txn.recordAll writes).snapshot = txn.snapshot ∧ (txn.recordAll writes).hold = txn.hold := by
  induction writes generalizing txn with
  | nil => exact ⟨rfl, rfl⟩
  | cons w writes ih =>
    obtain ⟨hs, hh⟩ := ih (txn.upsert w.1 w.2)
    have hupsert : (txn.upsert w.1 w.2).snapshot = txn.snapshot ∧
        (txn.upsert w.1 w.2).hold = txn.hold := by
      unfold upsert
      split <;> exact ⟨rfl, rfl⟩
    exact ⟨hs.trans hupsert.1, hh.trans hupsert.2⟩

end Transaction

namespace TransactionManager

variable {K V σ : Type} [DecidableEq K]

def new : TransactionManager K :=
  { visibleVersion := 0, nextVersion := 1, committedLog := [], activeSnapshots := ∅,
    maxCommittedLogSize := 1024 }

def recoverAtVersion (version : Nat) : TransactionManager K :=
  { visibleVersion := version, nextVersion := version + 1, committedLog := [],
    activeSnapshots := ∅, maxCommittedLogSize := 1024 }

def begin (tm : TransactionManager K) : TransactionManager K × Transaction K V :=
  ({ tm with activeSnapshots := tm.activeSnapshots.acquire tm.visibleVersion },
    { snapshot := tm.visibleVersion, writes := [], hold := true })

/-- `Transaction::release`: exactly once, guarded by the handle's own `hold`. -/
def release (tm : TransactionManager K) (txn : Transaction K V) :
    TransactionManager K × Transaction K V :=
  if txn.hold then
    ({ tm with activeSnapshots := tm.activeSnapshots.releaseHold txn.snapshot },
      { txn with hold := false })
  else (tm, txn)

def conflicts (tm : TransactionManager K) (txn : Transaction K V) : Bool :=
  tm.committedLog.any fun committed =>
    !decide (committed.commitVersion ≤ txn.snapshot) &&
      txn.writes.any fun w => decide (w.1 ∈ committed.writeSet)

def trimActive (minActive : Nat) (log : List (CommittedTxn K)) : List (CommittedTxn K) :=
  log.dropWhile fun front => decide (front.commitVersion < minActive)

/-- The second trim loop: pop the front while the log is longer than `max`. -/
def trimSize (max : Nat) (log : List (CommittedTxn K)) : List (CommittedTxn K) :=
  log.drop (log.length - max)

/-- `TransactionManager::commit`. `apply` runs at the reserved version between the
conflict check and the publication, on a state of its own. -/
def commit (tm : TransactionManager K) (txn : Transaction K V)
    (apply : Nat → Writes K V → σ → Except Error Unit × σ) (s : σ) :
    Except Error Nat × TransactionManager K × Transaction K V × σ :=
  if txn.writes.isEmpty then
    let (tm', txn') := tm.release txn
    (.ok txn.snapshot, tm', txn', s)
  else if tm.conflicts txn then (.error .writeConflict, tm, txn, s)
  else
    let commitVersion := tm.nextVersion
    let reserved := { tm with nextVersion := commitVersion + 1 }
    match apply commitVersion txn.writes s with
    | (.error e, s') => (.error e, reserved, txn, s')
    | (.ok _, s') =>
      let pushed := tm.committedLog ++ [{ commitVersion, writeSet := txn.keys }]
      let trimmed := trimSize tm.maxCommittedLogSize
        (trimActive tm.activeSnapshots.minActive pushed)
      let published := { reserved with committedLog := trimmed, visibleVersion := commitVersion }
      let (tm', txn') := published.release txn
      (.ok commitVersion, tm', txn', s')

def abort (tm : TransactionManager K) (txn : Transaction K V) :
    TransactionManager K × Transaction K V := tm.release txn

def minActiveSnapshot (tm : TransactionManager K) : Nat := tm.activeSnapshots.minActive

def currentVersion (tm : TransactionManager K) : Nat := tm.visibleVersion

end TransactionManager

end RhypeDb.Storage
