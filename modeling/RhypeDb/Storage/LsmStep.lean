import RhypeDb.Storage.LsmHistory

/-! What a commit and a flush can do to a tree. -/

namespace RhypeDb.Storage

variable {V : Type}

def recordCommit (history : History V) (writes : Writes Bytes V) : Except Error Nat → History V
  | .ok version => if writes.isEmpty then history else history ++ [(version, writes)]
  | .error _ => history

namespace LsmTree

def committed (tree : LsmTree V) (tm : TransactionManager Bytes) (writes : Writes Bytes V) :
    LsmTree V :=
  { tree with
    txnManager := tm
    wal := Wal.appendTxn tree.wal writes tree.txnManager.nextVersion
    activeMemtable := applyWrites tree.activeMemtable tree.txnManager.nextVersion writes }

theorem commit_cases (tree : LsmTree V) (txn : Transaction Bytes V) (history : History V) :
    (∃ tm, (tree.commit txn).2.1 = { tree with txnManager := tm } ∧
      tm.visibleVersion = tree.txnManager.visibleVersion ∧
      tm.nextVersion = tree.txnManager.nextVersion ∧
      recordCommit history txn.writes (tree.commit txn).1 = history) ∨
    (∃ tm, (tree.commit txn).2.1 = tree.committed tm txn.writes ∧ txn.writes ≠ [] ∧
      tm.visibleVersion = tree.txnManager.nextVersion ∧
      tm.nextVersion = tree.txnManager.nextVersion + 1 ∧
      recordCommit history txn.writes (tree.commit txn).1 =
        history ++ [(tree.txnManager.nextVersion, txn.writes)]) := by
  unfold commit TransactionManager.commit
  by_cases hw : txn.writes = []
  · left
    cases hh : txn.hold <;> simp [hw, TransactionManager.release, hh, recordCommit]
  · have hw' : txn.writes.isEmpty = false := by simpa using hw
    cases hc : tree.txnManager.conflicts txn with
    | true => exact .inl (by simp [hw', recordCommit])
    | false =>
      right
      cases hh : txn.hold <;>
        simp [hw, hw', TransactionManager.release, hh, recordCommit, committed]

def setTxnManager (tree : LsmTree V) (tm : TransactionManager Bytes) : LsmTree V :=
  { tree with txnManager := tm }

/-- The tree that a commit leaves and the history with its writes; no commit is made once the
versions have run out. -/
def record (tree : LsmTree V) (history : History V) (txn : Transaction Bytes V) :
    LsmTree V × History V :=
  if tree.txnManager.nextVersion ≤ u64Max then
    ((tree.commit txn).2.1, recordCommit history txn.writes (tree.commit txn).1)
  else (tree, history)

theorem record_cases (tree : LsmTree V) (history : History V) (txn : Transaction Bytes V) :
    (∃ tm, tree.record history txn = (tree.setTxnManager tm, history) ∧
      tm.visibleVersion = tree.txnManager.visibleVersion ∧
      tm.nextVersion = tree.txnManager.nextVersion) ∨
    (∃ tm, tree.record history txn = (tree.committed tm txn.writes,
        history ++ [(tree.txnManager.nextVersion, txn.writes)]) ∧
      tree.txnManager.nextVersion ≤ u64Max ∧ txn.writes ≠ [] ∧
      tm.visibleVersion = tree.txnManager.nextVersion ∧
      tm.nextVersion = tree.txnManager.nextVersion + 1) := by
  unfold record
  split_ifs with hroom
  · rcases tree.commit_cases txn history with
      ⟨tm, htree, hv, hn, hrecord⟩ | ⟨tm, htree, hw, hv, hn, hrecord⟩
    · exact .inl ⟨tm, Prod.ext htree hrecord, hv, hn⟩
    · exact .inr ⟨tm, Prod.ext htree hrecord, hroom, hw, hv, hn⟩
  · exact .inl ⟨tree.txnManager, rfl, rfl, rfl⟩

theorem abort_versions (tm : TransactionManager Bytes) (txn : Transaction Bytes V) :
    (tm.abort txn).1.visibleVersion = tm.visibleVersion ∧
      (tm.abort txn).1.nextVersion = tm.nextVersion := by
  unfold TransactionManager.abort TransactionManager.release
  cases txn.hold
  · exact ⟨rfl, rfl⟩
  · exact ⟨rfl, rfl⟩

/-- A flush that fails has moved the active memtable to the immutables. -/
def rotated (tree : LsmTree V) : LsmTree V :=
  { tree with
    activeMemtable := .new
    immutableMemtables := tree.immutableMemtables ++ [tree.activeMemtable]
    nextSstId := tree.nextSstId + 1 }

def registered (tree : LsmTree V) (sst : SstReader V) : LsmTree V :=
  { tree with
    activeMemtable := .new
    sstFiles := tree.sstFiles ++ [sst]
    wal := []
    nextSstId := tree.nextSstId + 1 }

theorem layers_rotated (tree : LsmTree V) : tree.rotated.layers = [] :: tree.layers := by
  simp [rotated, layers, MemTable.new, SortedMap.empty]

theorem layers_registered (tree : LsmTree V) {sst : SstReader V}
    (hdata : sst.file.data = tree.activeMemtable.entries) :
    (tree.registered sst).layers =
      [] :: (tree.immutableMemtables.reverse.map SortedMap.entries ++
        tree.activeMemtable.entries :: tree.sstFiles.reverse.map (·.file.data)) := by
  simp [registered, layers, MemTable.new, SortedMap.empty, hdata]

theorem flushLocked_cases [ByteLen V] (env : StorageEnv V) (tree : LsmTree V) (write : SstWrite) :
    (tree.activeMemtable.isEmpty = true ∧ (tree.flushLocked env write).2 = tree) ∨
    (tree.activeMemtable.isEmpty = false ∧
      (write = .failed ∨ ∃ e, SstReader.open tree.nextSstId
        (SstWriter.writeAll env tree.blockCompression tree.activeMemtable.entries) = .error e) ∧
      (tree.flushLocked env write).2 = tree.rotated) ∨
    (tree.activeMemtable.isEmpty = false ∧ write = .done ∧ ∃ sst,
      SstReader.open tree.nextSstId (SstWriter.writeAll env tree.blockCompression
        tree.activeMemtable.entries) = .ok sst ∧
      (tree.flushLocked env write).2 = tree.registered sst) := by
  unfold flushLocked
  cases hempty : tree.activeMemtable.isEmpty with
  | true =>
    have hnew : tree.activeMemtable = .new := SortedMap.ext (List.isEmpty_iff.mp hempty)
    exact .inl ⟨rfl, by simp [← hnew, hempty]⟩
  | false =>
    right
    cases write with
    | failed => exact .inl ⟨rfl, .inl rfl, by simp [hempty, rotated]⟩
    | done =>
      cases hopen : SstReader.open tree.nextSstId (SstWriter.writeAll env tree.blockCompression
          tree.activeMemtable.entries) with
      | error e => exact .inl ⟨rfl, .inr ⟨e, rfl⟩, by simp [hempty, hopen, rotated]⟩
      | ok sst => exact .inr ⟨rfl, rfl, sst, rfl, by simp [hempty, hopen, registered]⟩

end LsmTree

structure Tracks (tm : TransactionManager Bytes) (history : History V) : Prop where
  next : tm.nextVersion = tm.visibleVersion + 1
  fits64 : tm.visibleVersion ≤ u64Max
  latest_le : ∀ k last, latest history k = some last → last.1 ≤ tm.visibleVersion

namespace Tracks

variable {tm tm' : TransactionManager Bytes} {history : History V}

theorem congr (h : Tracks tm history) (hv : tm'.visibleVersion = tm.visibleVersion)
    (hn : tm'.nextVersion = tm.nextVersion) : Tracks tm' history where
  next := by rw [hv, hn, h.next]
  fits64 := hv ▸ h.fits64
  latest_le := fun k last hlast => hv ▸ h.latest_le k last hlast

theorem lt_next (h : Tracks tm history) (k : Bytes) (last : Nat × Option V)
    (hlast : latest history k = some last) : last.1 < tm.nextVersion := by
  rw [h.next]
  exact Nat.lt_succ_of_le (h.latest_le k last hlast)

theorem publish (h : Tracks tm history) (hroom : tm.nextVersion ≤ u64Max)
    (hv : tm'.visibleVersion = tm.nextVersion) (hn : tm'.nextVersion = tm.nextVersion + 1)
    (writes : Writes Bytes V) : Tracks tm' (history ++ [(tm.nextVersion, writes)]) where
  next := by rw [hn, hv]
  fits64 := hv ▸ hroom
  latest_le := by
    intro k last hlast
    rw [hv]
    rw [latest_concat] at hlast
    cases hw : lastWrite writes k with
    | none =>
      rw [hw, Option.map_none, Option.none_or] at hlast
      exact (h.lt_next k last hlast).le
    | some value =>
      rw [hw] at hlast
      cases hlast
      exact le_rfl

end Tracks

end RhypeDb.Storage
