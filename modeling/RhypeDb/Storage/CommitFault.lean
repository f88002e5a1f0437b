import RhypeDb.Basic.Fallible
import RhypeDb.Storage.LsmRun

/-! `LsmTree::commit` with everything in it that can fail: the ownership check, the conflict
check, the log append and its fsync, and the flush and compaction that `maybe_flush` runs once
the version is published. What fails before the publication leaves no trace in any layer; what
fails after it does. -/

namespace RhypeDb.Storage

open Fallible List

variable {V : Type}

structure LsmConfig where
  memtableFlushSize : Nat
  compactTriggerSsts : Nat
  backgroundCompaction : Bool

/-- Where a flush fails, if it does. -/
inductive FlushFault
  | none
  | owner
  | sst
  | wal
  deriving DecidableEq

inductive CompactFault
  | none
  | owner
  | sst
  deriving DecidableEq

/-- The failure points of one commit. A failed log append or fsync leaves the log in some
state. -/
structure CommitFaults (V : Type) where
  fenced : Bool
  wal : Option (List (WalRecord V))
  flush : FlushFault
  compact : CompactFault

section

variable [ByteLen V]

def MemTable.approximateSize (m : MemTable V) : Nat :=
  (m.entries.map fun e => e.1.userKey.length + 8 + (e.2.map ByteLen.byteLen).getD 0).sum

namespace LsmTree

def flush (env : StorageEnv V) (tree : LsmTree V) : FlushFault → Except Error Unit × LsmTree V
  | .none => tree.flushLocked env .done
  | .owner => (.error .dataDirOwnershipLost, tree)
  | .sst => tree.flushLocked env .failed
  | .wal =>
    match tree.flushLocked env .done with
    | (.ok _, flushed) =>
      if tree.activeMemtable.isEmpty then (.ok (), flushed)
      else (.error .io, { flushed with wal := tree.wal })
    | failed => failed

def compact (env : StorageEnv V) (tree : LsmTree V) (fault : CompactFault) :
    Except Error Unit × LsmTree V :=
  match fault, tree.compactBegin with
  | .owner, _ => (.error .dataDirOwnershipLost, tree)
  | _, .error e => (.error e, tree)
  | _, .ok none => (.ok (), tree)
  | .none, .ok (some job) => tree.compactFinish env job .done
  | .sst, .ok (some job) => tree.compactFinish env job .failed

def maybeFlush (env : StorageEnv V) (config : LsmConfig) (tree : LsmTree V)
    (faults : CommitFaults V) : Except Error Unit × LsmTree V :=
  if config.memtableFlushSize ≤ tree.activeMemtable.approximateSize then
    match tree.flush env faults.flush with
    | (.error e, flushed) => (.error e, flushed)
    | (.ok _, flushed) =>
      if config.compactTriggerSsts ≤ flushed.sstFiles.length ∧ ¬ config.backgroundCompaction then
        flushed.compact env faults.compact
      else (.ok (), flushed)
  else (.ok (), tree)

def commitApply (tree : LsmTree V) (txn : Transaction Bytes V) (faults : CommitFaults V) :
    Except Error Nat × LsmTree V :=
  let apply := fun version writes (s : List (WalRecord V) × MemTable V) =>
    match faults.wal with
    | some wal => (Except.error .io, wal, s.2)
    | none => (Except.ok (), Wal.appendTxn s.1 writes version, applyWrites s.2 version writes)
  let (result, tm, _, wal, mt) :=
    tree.txnManager.commit txn apply (tree.wal, tree.activeMemtable)
  (result, { tree with txnManager := tm, wal := wal, activeMemtable := mt })

/-- `LsmTree::commit` from its first check to its last error. -/
def commitFull (env : StorageEnv V) (config : LsmConfig) (tree : LsmTree V)
    (txn : Transaction Bytes V) (faults : CommitFaults V) : Except Error Nat × LsmTree V :=
  if faults.fenced then (.error .dataDirOwnershipLost, tree)
  else
    match tree.commitApply txn faults with
    | (.error e, applied) => (.error e, applied)
    | (.ok version, applied) =>
      match applied.maybeFlush env config faults with
      | (.error e, flushed) => (.error e, flushed)
      | (.ok _, flushed) => (.ok version, flushed)

def Publishes (tree : LsmTree V) (txn : Transaction Bytes V) (faults : CommitFaults V) : Prop :=
  faults.fenced = false ∧ txn.writes ≠ [] ∧ tree.txnManager.conflicts txn = false ∧
    faults.wal = none

end LsmTree

end

def Transaction.WritesValue (x : V) (txn : Transaction Bytes V) : Prop :=
  ∃ w ∈ txn.writes, w.2 = some x

def Holds (x : V) (es : List (Entry V)) : Prop := ∃ e ∈ es, e.2 = some x

theorem not_holds_nil {x : V} : ¬ Holds x ([] : List (Entry V)) := fun ⟨_, he, _⟩ => nomatch he

theorem Holds.mono {x : V} {es es' : List (Entry V)} (h : Holds x es) (hsub : ∀ e ∈ es, e ∈ es') :
    Holds x es' := by
  obtain ⟨e, he, hx⟩ := h
  exact ⟨e, hsub e he, hx⟩

theorem MemTable.holds_of_get {m : MemTable V} {k : Bytes} {version : UInt64} {x : V}
    (h : m.get k version = some (some x)) : Holds x m.entries := by
  unfold MemTable.get at h
  cases hr : m.range ⟨k, version⟩ with
  | nil => simp [hr] at h
  | cons e es =>
    simp only [hr] at h
    split_ifs at h
    refine ⟨e, ?_, Option.some.inj h⟩
    obtain ⟨pre, hsplit, -⟩ := m.range_split ⟨k, version⟩
    rw [hsplit, hr]
    exact mem_append_right _ mem_cons_self

namespace SstFile

variable [ByteLen V] {env : StorageEnv V} {f : SstFile V}

theorem mem_of_mem_block {i : Nat} {blk : List (Entry V)} (h : f.block i = .ok blk) {e : Entry V}
    (he : e ∈ blk) : e ∈ f.data := by
  unfold block at h
  split at h
  · cases h
  · have hdata : ∀ n m, e ∈ (f.data.drop n).take m → e ∈ f.data :=
      fun n m hmem => mem_of_mem_drop (mem_of_mem_take hmem)
    split at h
    · cases h
      exact hdata _ _ he
    · dsimp only at h
      split_ifs at h
      cases h
      exact hdata _ _ he

variable {version : UInt64}

omit [ByteLen V] in
theorem holds_of_probe {k : Bytes} {x : V} {es : List (Entry V)}
    (h : probe k version es = .found (some x)) : Holds x es := by
  induction es with
  | nil => cases h
  | cons e es ih =>
    rw [probe] at h
    split_ifs at h with hk hv hlt
    · exact ⟨e, mem_cons_self, by injection h⟩
    · exact (ih h).mono fun e he => mem_cons_of_mem _ he
    · exact (ih h).mono fun e he => mem_cons_of_mem _ he

theorem holds_of_probeBlocks {k : Bytes} {x : V} {blocks : List Nat}
    (h : f.probeBlocks k version blocks = .ok (some (some x))) : Holds x f.data := by
  induction blocks with
  | nil => cases h
  | cons i blocks ih =>
    cases hblock : f.block i with
    | error e =>
      rw [probeBlocks_error hblock] at h
      cases h
    | ok blk =>
      rw [probeBlocks_ok hblock] at h
      cases hp : probe k version blk with
      | found value =>
        simp only [hp] at h
        obtain rfl : value = some x := by simpa using h
        exact (holds_of_probe hp).mono fun e he => mem_of_mem_block hblock he
      | past =>
        simp only [hp] at h
        cases h
      | next =>
        simp only [hp] at h
        exact ih h

theorem holds_of_getVersioned {k : Bytes} {x : V}
    (h : f.getVersioned env k version = .ok (some (some x))) : Holds x f.data := by
  unfold getVersioned at h
  split_ifs at h
  · cases h
  · exact holds_of_probeBlocks h
  · cases h

theorem mem_of_tryForEachEntry {es : List (Entry V)} (h : f.tryForEachEntry = .ok es)
    {e : Entry V} (he : e ∈ es) : e ∈ f.data := by
  refine @foldlM_induct _ _ _ _ (fun acc : List (Entry V) => ∀ e ∈ acc, e ∈ f.data) _ ?_ []
    es (by simp) h e he
  intro acc acc' i _ hacc hstep
  rw [bind_eq_ok] at hstep
  obtain ⟨blk, hblk, hstep⟩ := hstep
  cases hstep
  rw [forall_mem_append]
  exact ⟨hacc, fun e he => mem_of_mem_block hblk he⟩

end SstFile

namespace LsmTree

variable [ByteLen V] {env : StorageEnv V} {tree : LsmTree V} {x : V}

def Traceless (x : V) (tree : LsmTree V) : Prop := ∀ layer ∈ tree.layers, ¬ Holds x layer

omit [ByteLen V] in
theorem traceless_iff : tree.Traceless x ↔ ¬ Holds x tree.activeMemtable.entries ∧
    (∀ m ∈ tree.immutableMemtables, ¬ Holds x m.entries) ∧
    ∀ sst ∈ tree.sstFiles, ¬ Holds x sst.file.data := by
  simp [Traceless, layers, or_imp, forall_and]

theorem Traceless.getAt_ne (h : tree.Traceless x) (version : UInt64) (k : Bytes) :
    tree.getAt env version k ≠ .ok (some x) := by
  obtain ⟨hactive, himm, hsst⟩ := traceless_iff.mp h
  unfold getAt
  cases ha : tree.activeMemtable.get k version with
  | some value =>
    intro heq
    obtain rfl : value = some x := by simpa using heq
    exact hactive (MemTable.holds_of_get ha)
  | none =>
    cases hi : tree.immutableMemtables.reverse.findSome? fun m => m.get k version with
    | some value =>
      intro heq
      obtain rfl : value = some x := by simpa using heq
      obtain ⟨m, hm, hget⟩ := exists_of_findSome?_eq_some hi
      exact himm m (mem_reverse.mp hm) (MemTable.holds_of_get hget)
    | none =>
      have hwalk : ∀ ssts : List (SstReader V), (∀ sst ∈ ssts, ¬ Holds x sst.file.data) →
          getFromSsts env version k ssts ≠ .ok (some x) := by
        intro ssts hssts
        induction ssts with
        | nil => exact nofun
        | cons sst ssts ih =>
          rw [forall_mem_cons] at hssts
          intro heq
          rw [getFromSsts, bind_eq_ok] at heq
          obtain ⟨_ | value, hget, heq⟩ := heq
          · exact ih hssts.2 heq
          · obtain rfl : value = some x := by simpa [pure, Except.pure] using heq
            exact hssts.1 (SstFile.holds_of_getVersioned hget)
      exact hwalk _ fun sst hmem => hsst sst (mem_reverse.mp hmem)

theorem Traceless.flushLocked (h : tree.Traceless x) (write : SstWrite) :
    (tree.flushLocked env write).2.Traceless x := by
  rcases tree.flushLocked_cases env write with ⟨-, htree⟩ | ⟨-, -, htree⟩ | ⟨-, -, sst, hopen, htree⟩
  · rwa [htree]
  · rw [htree, Traceless, layers_rotated, forall_mem_cons]
    exact ⟨not_holds_nil, h⟩
  · have hdata : sst.file.data = tree.activeMemtable.entries := by
      rw [(SstReader.file_of_open hopen).1, SstWriter.data_writeAll]
    obtain ⟨hactive, himm, hsst⟩ := traceless_iff.mp h
    rw [htree, traceless_iff]
    refine ⟨not_holds_nil, himm, ?_⟩
    show ∀ x' ∈ tree.sstFiles ++ [sst], ¬ Holds x x'.file.data
    rw [forall_mem_append, forall_mem_singleton, hdata]
    exact ⟨hsst, hactive⟩

theorem Traceless.flush (h : tree.Traceless x) (fault : FlushFault) :
    (tree.flush env fault).2.Traceless x := by
  unfold LsmTree.flush
  cases fault with
  | none => exact h.flushLocked .done
  | owner => exact h
  | sst => exact h.flushLocked .failed
  | wal =>
    have hdone := @Traceless.flushLocked V _ env tree x h .done
    generalize tree.flushLocked env .done = flushed at hdone
    obtain ⟨_ | _, flushed⟩ := flushed
    · exact hdone
    · split_ifs
      · exact hdone
      · exact hdone

theorem Traceless.compactBegin (h : tree.Traceless x) {job : CompactionJob V}
    (hjob : tree.compactBegin = .ok (some job)) : ¬ Holds x job.allEntries := by
  obtain ⟨-, -, hsst⟩ := traceless_iff.mp h
  unfold LsmTree.compactBegin at hjob
  split_ifs at hjob
  · cases hjob
  rw [bind_eq_ok] at hjob
  obtain ⟨es, hes, hjob⟩ := hjob
  cases hjob
  rw [mergeEntries, bind_eq_ok] at hes
  obtain ⟨all, hall, hes⟩ := hes
  cases hes
  have hmem : ∀ e ∈ all, e.2 ≠ some x := by
    refine @foldlM_induct _ _ _ _ (fun acc : List (Entry V) => ∀ e ∈ acc, e.2 ≠ some x)
      _ ?_ [] all (by simp) hall
    intro acc acc' sst hin hacc hstep
    rw [bind_eq_ok] at hstep
    obtain ⟨es, hes, hstep⟩ := hstep
    cases hstep
    rw [forall_mem_append]
    exact ⟨hacc, fun e he hx => hsst sst hin ⟨e, SstFile.mem_of_tryForEachEntry hes he, hx⟩⟩
  rintro ⟨e, he, hx⟩
  exact hmem e (mem_mergeSort.mp he) hx

theorem Traceless.compactFinish (h : tree.Traceless x) {job : CompactionJob V}
    (hjob : ¬ Holds x job.allEntries) (write : SstWrite) :
    (tree.compactFinish env job write).2.Traceless x := by
  obtain ⟨hactive, himm, hsst⟩ := traceless_iff.mp h
  have hkept : ∀ sst ∈ tree.sstFiles.filter (fun sst => decide (sst.id ∉ job.mergedPaths)),
      ¬ Holds x sst.file.data := fun sst hmem => hsst sst (mem_filter.mp hmem).1
  rcases tree.compactFinish_cases env job write rfl rfl with
    htree | ⟨-, -, htree⟩ | ⟨-, sst, hopen, htree⟩
  · rw [htree, traceless_iff]
    exact ⟨hactive, himm, hsst⟩
  · rw [htree, traceless_iff]
    exact ⟨hactive, himm, hkept⟩
  · rw [htree, traceless_iff]
    refine ⟨hactive, himm, ?_⟩
    rw [compacted, forall_mem_cons, (SstReader.file_of_open hopen).1, SstWriter.data_writeAll]
    refine ⟨fun hx => hjob (hx.mono ?_), hkept⟩
    exact fun e he => (keepNeeded_sublist job.minSnapshot none false job.allEntries).subset he

theorem Traceless.compact (h : tree.Traceless x) (fault : CompactFault) :
    (tree.compact env fault).2.Traceless x := by
  unfold LsmTree.compact
  split
  · exact h
  · exact h
  · exact h
  · next job hjob => exact h.compactFinish (h.compactBegin hjob) .done
  · next job hjob => exact h.compactFinish (h.compactBegin hjob) .failed

theorem Traceless.maybeFlush (h : tree.Traceless x) (config : LsmConfig)
    (faults : CommitFaults V) : (tree.maybeFlush env config faults).2.Traceless x := by
  unfold LsmTree.maybeFlush
  split_ifs with hsize
  · have hflush := @Traceless.flush V _ env tree x h faults.flush
    generalize tree.flush env faults.flush = flushed at hflush
    obtain ⟨_ | _, flushed⟩ := flushed
    · exact hflush
    · dsimp only
      split_ifs
      · exact hflush.compact faults.compact
      · exact hflush
  · exact h

omit [ByteLen V] in
theorem commitApply_cases (tree : LsmTree V) (txn : Transaction Bytes V) (faults : CommitFaults V) :
    ((txn.writes ≠ [] ∧ tree.txnManager.conflicts txn = false ∧ faults.wal = none) ∧
      ∃ tm wal, tree.commitApply txn faults = (.ok tree.txnManager.nextVersion,
        { tree with
          txnManager := tm
          wal := wal
          activeMemtable :=
            applyWrites tree.activeMemtable tree.txnManager.nextVersion txn.writes })) ∨
    (¬ (txn.writes ≠ [] ∧ tree.txnManager.conflicts txn = false ∧ faults.wal = none) ∧
      ∃ result tm wal, tree.commitApply txn faults =
        (result, { tree with txnManager := tm, wal := wal })) := by
  unfold commitApply TransactionManager.commit
  by_cases hw : txn.writes = []
  · right
    refine ⟨fun h => h.1 hw, ?_⟩
    cases hh : txn.hold <;> simp [hw, TransactionManager.release, hh]
  · have hw' : txn.writes.isEmpty = false := by simpa using hw
    cases hc : tree.txnManager.conflicts txn with
    | true => exact .inr ⟨by simp, by simp [hw']⟩
    | false =>
      cases hwal : faults.wal with
      | some wal => exact .inr ⟨by simp, by simp [hw']⟩
      | none =>
        refine .inl ⟨⟨hw, rfl, rfl⟩, ?_⟩
        cases hh : txn.hold <;> simp [hw', TransactionManager.release, hh]

variable {txn : Transaction Bytes V}

omit [ByteLen V] in
theorem Traceless.commitApply (h : tree.Traceless x) (hx : ¬ txn.WritesValue x)
    (faults : CommitFaults V) : (tree.commitApply txn faults).2.Traceless x := by
  obtain ⟨hactive, himm, hsst⟩ := traceless_iff.mp h
  rcases tree.commitApply_cases txn faults with ⟨-, tm, wal, hcommit⟩ | ⟨-, result, tm, wal, hcommit⟩
  · rw [hcommit, traceless_iff]
    refine ⟨?_, himm, hsst⟩
    rintro ⟨e, he, hvalue⟩
    rcases (mem_applyWrites _ _ _ _).mp he with ⟨-, hwrite⟩ | ⟨hold, -⟩
    · exact hx ⟨_, lastWrite_mem hwrite, hvalue⟩
    · exact hactive ⟨e, hold, hvalue⟩
  · rw [hcommit]
    exact h

theorem Traceless.commitFull (h : tree.Traceless x) (hx : ¬ txn.WritesValue x) (config : LsmConfig)
    (faults : CommitFaults V) : (tree.commitFull env config txn faults).2.Traceless x := by
  unfold LsmTree.commitFull
  split_ifs
  · exact h
  · have happly := h.commitApply hx faults
    generalize tree.commitApply txn faults = applied at happly
    obtain ⟨_ | version, applied⟩ := applied
    · exact happly
    · have hflush := @Traceless.maybeFlush V _ env applied x happly config faults
      dsimp only
      generalize applied.maybeFlush env config faults = flushed at hflush
      obtain ⟨_ | _, flushed⟩ := flushed
      · exact hflush
      · exact hflush

/-- The flush and compaction a commit runs once it has published do not fail. -/
def FlushesAfter (env : StorageEnv V) (config : LsmConfig) (tree : LsmTree V)
    (txn : Transaction Bytes V) (faults : CommitFaults V) : Prop :=
  tree.Publishes txn faults →
    ((tree.commitApply txn faults).2.maybeFlush env config faults).1 = .ok ()

theorem Traceless.failed (h : tree.Traceless x) {config : LsmConfig} {faults : CommitFaults V}
    {e : Error} (herr : (tree.commitFull env config txn faults).1 = .error e)
    (hflush : tree.FlushesAfter env config txn faults) :
    (tree.commitFull env config txn faults).2.Traceless x := by
  unfold LsmTree.commitFull at herr ⊢
  split_ifs at herr ⊢ with hfenced
  · exact h
  · have hfenced : faults.fenced = false := by simpa using hfenced
    rcases tree.commitApply_cases txn faults with
      ⟨hpub, tm, wal, hcommit⟩ | ⟨-, result, tm, wal, hcommit⟩
    · -- published, and the flush went through: the commit did not fail
      have hok := hflush ⟨hfenced, hpub⟩
      rw [hcommit] at hok herr
      dsimp only at herr hok
      rw [show LsmTree.maybeFlush env config _ faults = (.ok (), _) from Prod.ext hok rfl] at herr
      cases herr
    · rw [hcommit]
      cases result with
      | error e => exact h
      | ok version =>
        have hflushed := @Traceless.maybeFlush V _ env { tree with txnManager := tm, wal := wal } x h
          config faults
        dsimp only
        generalize LsmTree.maybeFlush env config _ faults = flushed at hflushed
        obtain ⟨_ | _, flushed⟩ := flushed
        · exact hflushed
        · exact hflushed

end LsmTree

namespace FaultRun

inductive Call (V : Type)
  | begin
  | commit (txn : Transaction Bytes V) (faults : CommitFaults V)
  | abort (txn : Transaction Bytes V)
  | flush (fault : FlushFault)
  | compactBegin
  | compactFinish (write : SstWrite)

structure Sys (V : Type) where
  tree : LsmTree V
  job : Option (CompactionJob V)

variable [ByteLen V]

def Sys.step (env : StorageEnv V) (config : LsmConfig) (s : Sys V) : Call V → Sys V
  | .begin => { s with tree := { s.tree with
      txnManager := (TransactionManager.begin (V := V) s.tree.txnManager).1 } }
  | .commit txn faults => { s with tree := (s.tree.commitFull env config txn faults).2 }
  | .abort txn => { s with tree := { s.tree with txnManager := (s.tree.txnManager.abort txn).1 } }
  | .flush fault => { s with tree := (s.tree.flush env fault).2 }
  | .compactBegin =>
    match s.job, s.tree.compactBegin with
    | none, .ok (some job) => { s with job := some job }
    | _, _ => s
  | .compactFinish write =>
    match s.job with
    | none => s
    | some job => { s with tree := (s.tree.compactFinish env job write).2, job := none }

def Unstored (x : V) (s : Sys V) : Prop :=
  s.tree.Traceless x ∧ ∀ job ∈ s.job, ¬ Holds x job.allEntries

/-- The call does not commit the value. -/
def Spares (x : V) : Call V → Prop
  | .commit txn _ => ¬ txn.WritesValue x
  | _ => True

variable {env : StorageEnv V} {config : LsmConfig} {s : Sys V} {x : V}

theorem Unstored.step (h : Unstored x s) {call : Call V} (hx : Spares x call) :
    Unstored x (s.step env config call) := by
  obtain ⟨htree, hjob⟩ := h
  cases call with
  | begin => exact ⟨htree, hjob⟩
  | commit txn faults => exact ⟨htree.commitFull hx config faults, hjob⟩
  | abort txn => exact ⟨htree, hjob⟩
  | flush fault => exact ⟨htree.flush fault, hjob⟩
  | compactBegin =>
    rw [Sys.step]
    split
    · next job _ hbegin =>
      refine ⟨htree, ?_⟩
      rintro _ ⟨⟩
      exact htree.compactBegin hbegin
    · exact ⟨htree, hjob⟩
  | compactFinish write =>
    rw [Sys.step]
    split
    · exact ⟨htree, hjob⟩
    · next job heq => exact ⟨htree.compactFinish (hjob job heq) write, nofun⟩

/-- From any state, a commit that fails before publishing leaves nothing a later read can
return: a value only this transaction writes is never read. -/
theorem failed_commit_never_read (env : StorageEnv V) (config : LsmConfig) (s : Sys V)
    (txn : Transaction Bytes V) (faults : CommitFaults V) (e : Error)
    (herr : (s.tree.commitFull env config txn faults).1 = .error e)
    (hflush : s.tree.FlushesAfter env config txn faults) (x : V) (hold : Unstored x s)
    (calls : List (Call V)) (hlater : ∀ call ∈ calls, Spares x call) (version : UInt64) (k : Bytes) :
    (Run.exec (Sys.step env config) (s.step env config (.commit txn faults)) calls).tree.getAt env
      version k ≠ .ok (some x) := by
  have hafter : Unstored x (s.step env config (.commit txn faults)) :=
    ⟨hold.1.failed herr hflush, hold.2⟩
  have hend : Unstored x
      (Run.exec (Sys.step env config) (s.step env config (.commit txn faults)) calls) :=
    Run.exec_invariant (fun _ _ hs hcall => hs.step hcall) hafter (Run.along_of_forall hlater)
  exact hend.1.getAt_ne version k

def tinyConfig : LsmConfig := ⟨1, 4, true⟩

/-- One transaction that puts a value, against a failing log. -/
def onePut : Transaction Bytes Bytes := ⟨0, [([1], some [7])], true⟩

def logFails : CommitFaults Bytes := ⟨false, some [], .none, .none⟩

theorem failed_commit_never_read_log :
    ((LsmTree.new .none).commitFull LsmRun.plainEnv tinyConfig onePut logFails).1 = .error .io ∧
      (Run.exec (Sys.step LsmRun.plainEnv tinyConfig)
        ((⟨.new .none, none⟩ : Sys Bytes).step LsmRun.plainEnv tinyConfig (.commit onePut logFails))
        [.begin, .commit ⟨0, [([1], some [8])], true⟩ logFails, .flush .none]).tree.getAt LsmRun.plainEnv
          9 [1] ≠ .ok (some [7]) :=
  ⟨rfl, failed_commit_never_read LsmRun.plainEnv tinyConfig ⟨.new .none, none⟩ onePut logFails .io rfl
    (fun h => nomatch h.2.2.2) [7]
    ⟨LsmTree.traceless_iff.mpr ⟨not_holds_nil, nofun, nofun⟩, nofun⟩ _
    (by simp [Spares, Transaction.WritesValue]) 9 [1]⟩

/-- The flush after the publication fails: the commit reports an error and its value is read. -/
theorem failed_commit_read : ¬ ∀ (env : StorageEnv Bytes) (config : LsmConfig) (s : Sys Bytes)
    (txn : Transaction Bytes Bytes) (faults : CommitFaults Bytes) (e : Error),
    (s.tree.commitFull env config txn faults).1 = .error e → ∀ x, Unstored x s →
    ∀ calls : List (Call Bytes), (∀ call ∈ calls, Spares x call) → ∀ version k,
    (Run.exec (Sys.step env config) (s.step env config (.commit txn faults)) calls).tree.getAt env
      version k ≠ .ok (some x) := by
  intro h
  refine h LsmRun.plainEnv tinyConfig ⟨.new .none, none⟩ onePut ⟨false, none, .sst, .none⟩ .io rfl [7]
    ⟨LsmTree.traceless_iff.mpr ⟨not_holds_nil, nofun, nofun⟩, nofun⟩ [] nofun 1 [1] ?_
  rfl

end FaultRun

end RhypeDb.Storage
