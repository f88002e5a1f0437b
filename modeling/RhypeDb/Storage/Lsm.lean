import RhypeDb.Storage.Sst
import RhypeDb.Storage.Wal

/-! The LSM tree of `lsm.rs`: commits into the WAL and the active memtable, flushes,
compactions, and the reads over all layers. A flush or compaction that fails while writing
its SST is told so by its outcome; the flush has rotated the memtable by then. -/

namespace RhypeDb.Storage

variable {V : Type}

structure LsmTree (V : Type) where
  blockCompression : SstCompression
  activeMemtable : MemTable V
  immutableMemtables : List (MemTable V)
  sstFiles : List (SstReader V)
  wal : List (WalRecord V)
  txnManager : TransactionManager Bytes
  nextSstId : Nat

inductive SstWrite
  | done
  | failed
  deriving DecidableEq, Repr

structure CompactionJob (V : Type) where
  minSnapshot : Nat
  mergedPaths : List Nat
  allEntries : List (Entry V)

namespace LsmTree

def new (blockCompression : SstCompression) : LsmTree V :=
  { blockCompression, activeMemtable := .new, immutableMemtables := [], sstFiles := [], wal := [],
    txnManager := .new, nextSstId := 1 }

def applyWrites (m : MemTable V) (version : Nat) (writes : Writes Bytes V) : MemTable V :=
  writes.foldl (fun m w =>
    match w.2 with
    | some v => m.put w.1 (UInt64.ofNat version) v
    | none => m.delete w.1 (UInt64.ofNat version)) m

/-- `LsmTree::commit` up to `maybe_flush`, with a WAL append that succeeds. -/
def commit (tree : LsmTree V) (txn : Transaction Bytes V) :
    Except Error Nat × LsmTree V × Transaction Bytes V :=
  let apply := fun version writes (s : List (WalRecord V) × MemTable V) =>
    (Except.ok (), Wal.appendTxn s.1 writes version, applyWrites s.2 version writes)
  let (result, tm, txn, wal, mt) :=
    tree.txnManager.commit txn apply (tree.wal, tree.activeMemtable)
  (result, { tree with txnManager := tm, wal := wal, activeMemtable := mt }, txn)

def readSnapshot (tree : LsmTree V) : Nat := tree.txnManager.currentVersion

section

variable [ByteLen V]

def flushLocked (env : StorageEnv V) (tree : LsmTree V) (write : SstWrite) :
    Except Error Unit × LsmTree V :=
  let old := tree.activeMemtable
  let tree := { tree with activeMemtable := .new }
  if old.isEmpty then (.ok (), tree)
  else
    let sstId := tree.nextSstId
    let staged :=
      { tree with
        immutableMemtables := tree.immutableMemtables ++ [old]
        nextSstId := sstId + 1 }
    match write with
    | .failed => (.error .io, staged)
    | .done =>
      match SstReader.open sstId (SstWriter.writeAll env tree.blockCompression old.entries) with
      | .error e => (.error e, staged)
      | .ok reader =>
        (.ok (),
          { staged with
            sstFiles := tree.sstFiles ++ [reader]
            immutableMemtables := tree.immutableMemtables
            wal := [] })

def mergeEntries (ssts : List (SstReader V)) : Except Error (List (Entry V)) := do
  let all ← ssts.foldlM (fun acc sst => do return acc ++ (← sst.file.tryForEachEntry)) []
  return all.mergeSort fun a b => decide (a.1 ≤ b.1)

def keepNeeded (minSnapshot : Nat) : Option Bytes → Bool → List (Entry V) → List (Entry V)
  | _, _, [] => []
  | prev, floorKept, e :: es =>
    if prev = some e.1.userKey ∧ floorKept = true then keepNeeded minSnapshot prev floorKept es
    else e :: keepNeeded minSnapshot (some e.1.userKey)
      (decide (e.1.version.toNat ≤ minSnapshot)) es

/-- The first half of `compact_inner`, under the read lock on the SST list. -/
def compactBegin (tree : LsmTree V) : Except Error (Option (CompactionJob V)) :=
  if tree.sstFiles.length < 2 then .ok none
  else do
    let allEntries ← mergeEntries tree.sstFiles
    return some
      { minSnapshot := tree.txnManager.minActiveSnapshot
        mergedPaths := tree.sstFiles.map SstReader.id
        allEntries }

def compactFinish (env : StorageEnv V) (tree : LsmTree V) (job : CompactionJob V)
    (write : SstWrite) : Except Error Unit × LsmTree V :=
  let sstId := tree.nextSstId
  let tree := { tree with nextSstId := sstId + 1 }
  let kept := tree.sstFiles.filter fun sst => decide (sst.id ∉ job.mergedPaths)
  let entries := keepNeeded job.minSnapshot none false job.allEntries
  match write with
  | .failed => (.error .io, tree)
  | .done =>
    if entries.isEmpty then (.ok (), { tree with sstFiles := kept })
    else
      match SstReader.open sstId (SstWriter.writeAll env tree.blockCompression entries) with
      | .error e => (.error e, tree)
      | .ok reader => (.ok (), { tree with sstFiles := reader :: kept })

def getFromSsts (env : StorageEnv V) (version : UInt64) (userKey : Bytes) :
    List (SstReader V) → Except Error (Option V)
  | [] => .ok none
  | sst :: ssts => do
    match ← sst.file.getVersioned env userKey version with
    | some value => return value
    | none => getFromSsts env version userKey ssts

def getAt (env : StorageEnv V) (tree : LsmTree V) (version : UInt64) (userKey : Bytes) :
    Except Error (Option V) :=
  match tree.activeMemtable.get userKey version with
  | some value => .ok value
  | none =>
    match tree.immutableMemtables.reverse.findSome? (·.get userKey version) with
    | some value => .ok value
    | none => getFromSsts env version userKey tree.sstFiles.reverse

def mergeLayers (layers : List (List (Bytes × MemValue V))) : List (Bytes × V) :=
  (layers.foldl SortedMap.insertAll (SortedMap.empty : SortedMap Bytes (MemValue V))).entries.filterMap
    fun row => row.2.map fun value => (row.1, value)

def scanPrefixAt (tree : LsmTree V) (version : UInt64) (pre : Bytes) : List (Bytes × V) :=
  mergeLayers (tree.sstFiles.map (·.file.scanPrefix pre version) ++
    tree.immutableMemtables.map (·.scanPrefix pre version) ++
    [tree.activeMemtable.scanPrefix pre version])

def scanPrefixAtLimited (tree : LsmTree V) (version : UInt64) (pre : Bytes) (maxDistinct : Nat) :
    List (Bytes × V) :=
  (mergeLayers (tree.sstFiles.map (·.file.scanPrefixMax pre version maxDistinct) ++
    tree.immutableMemtables.map (·.scanPrefixMax pre version maxDistinct) ++
    [tree.activeMemtable.scanPrefixMax pre version maxDistinct])).take maxDistinct

def scanFromAtLimited (tree : LsmTree V) (version : UInt64) (pre start : Bytes)
    (maxDistinct : Nat) : List (Bytes × V) :=
  (mergeLayers (tree.sstFiles.map (·.file.scanFromMax pre start version maxDistinct) ++
    tree.immutableMemtables.map (·.scanFromMax pre start version maxDistinct) ++
    [tree.activeMemtable.scanFromMax pre start version maxDistinct])).take maxDistinct

end

end LsmTree
end RhypeDb.Storage
