import RhypeDb.Basic.Fallible
import RhypeDb.Storage.MvccRun
import RhypeDb.Storage.SnapshotRead

/-! Runs of one tree by transaction handles. A handle counts a hold on its snapshot until it
commits, aborts or is dropped, and a compaction keeps what the oldest hold at its start reads.
A handle begun during the merge reads past everything the merge has captured. -/

namespace RhypeDb.Storage

open List

variable {V : Type}

namespace LsmTree

variable [ByteLen V]

def get (env : StorageEnv V) (tree : LsmTree V) (txn : Transaction Bytes V) (userKey : Bytes) :
    Except Error (Option V) :=
  tree.getAt env (UInt64.ofNat txn.snapshot) userKey

def scanPrefix (tree : LsmTree V) (txn : Transaction Bytes V) (pre : Bytes) : List (Bytes × V) :=
  tree.scanPrefixAt (UInt64.ofNat txn.snapshot) pre

end LsmTree

def valueAt (history : History V) (version : Nat) (k : Bytes) : Option V :=
  lastValue (history.filter fun c => decide (c.1 ≤ version)) k

section

variable {history : History V} {version : Nat}

theorem valueAt_of_le (h : ∀ c ∈ history, c.1 ≤ version) (k : Bytes) :
    valueAt history version k = lastValue history k := by
  rw [valueAt, filter_eq_self.mpr fun c hc => decide_eq_true (h c hc)]

theorem valueAt_concat {c : Nat × Writes Bytes V} (h : version < c.1) (k : Bytes) :
    valueAt (history ++ [c]) version k = valueAt history version k := by
  have hnew : [c].filter (fun c => decide (c.1 ≤ version)) = [] := by
    simpa using h
  rw [valueAt, valueAt, filter_append, hnew, append_nil]

end

namespace Held

/-- The steps of a run. A transaction is named by the position of its `begin`. -/
inductive Call (V : Type)
  | begin
  | put (i : Nat) (key : Bytes) (value : V)
  | delete (i : Nat) (key : Bytes)
  | commit (i : Nat)
  | abort (i : Nat)
  | drop (i : Nat)
  | flush (write : SstWrite)
  | compactBegin
  | compactFinish (write : SstWrite)

/-- The tree with its record of the run, and the handles given out (`none` once dropped). -/
structure Sys (V : Type) where
  run : LsmRun.Sys V
  txns : List (Option (Transaction Bytes V))

namespace Sys

variable [ByteLen V]

def new (blockCompression : SstCompression) : Sys V := { run := .new blockCompression, txns := [] }

def handle (s : Sys V) (i : Nat) : Option (Transaction Bytes V) := (s.txns[i]?).join

def base (s : Sys V) : Call V → Option (LsmRun.Call V)
  | .begin => some .begin
  | .put _ _ _ => none
  | .delete _ _ => none
  | .commit i => (s.handle i).map .commit
  | .abort i => (s.handle i).map .abort
  | .drop i => (s.handle i).map .abort
  | .flush write => some (.flush write)
  | .compactBegin => some .compactBegin
  | .compactFinish write => some (.compactFinish write)

def update (s : Sys V) (i : Nat) (f : Transaction Bytes V → Option (Transaction Bytes V)) :
    List (Option (Transaction Bytes V)) :=
  match s.handle i with
  | none => s.txns
  | some t => s.txns.set i (f t)

def handles (s : Sys V) : Call V → List (Option (Transaction Bytes V))
  | .begin => s.txns ++ [some s.run.tree.txnManager.begin.2]
  | .put i key value => s.update i fun t => some (t.recordPut key value)
  | .delete i key => s.update i fun t => some (t.recordDelete key)
  | .commit i => s.update i fun t =>
    if s.run.tree.txnManager.nextVersion ≤ u64Max then some (s.run.tree.commit t).2.2 else some t
  | .abort i => s.update i fun t => some (s.run.tree.txnManager.abort t).2
  | .drop i => s.update i fun _ => none
  | .flush _ => s.txns
  | .compactBegin => s.txns
  | .compactFinish _ => s.txns

def step (env : StorageEnv V) (s : Sys V) (call : Call V) : Sys V where
  run := ((s.base call).map (s.run.step env)).getD s.run
  txns := s.handles call

end Sys

variable [ByteLen V] {env : StorageEnv V} {s : Sys V}

def KeepsAge (env : StorageEnv V) (s : Sys V) : Call V → Prop
  | .flush write => LsmRun.KeepsAge env s.run (.flush write)
  | .compactFinish write => LsmRun.KeepsAge env s.run (.compactFinish write)
  | _ => True

/-- The merge under way drops nothing that a snapshot reads: its floor is not above it, or it has
captured nothing newer. -/
def Behind (job : CompactionJob V) (snapshot : Nat) : Prop :=
  job.minSnapshot ≤ snapshot ∨ ∀ x ∈ job.allEntries, x.1.version.toNat ≤ snapshot

structure Inv (env : StorageEnv V) (s : Sys V) : Prop where
  aged : LsmRun.Aged env s.run
  counted : ∀ v, s.run.tree.txnManager.activeSnapshots.holds v = s.txns.countP (Mvcc.holding v)
  history_le : ∀ c ∈ s.run.history, c.1 ≤ s.run.tree.txnManager.visibleVersion
  snapshot_le : ∀ t, some t ∈ s.txns → t.hold = true →
    t.snapshot ≤ s.run.tree.txnManager.visibleVersion
  job : ∀ job ∈ s.run.job, ∀ t, some t ∈ s.txns → t.hold = true → Behind job t.snapshot
  reads : ∀ t, some t ∈ s.txns → t.hold = true → ∀ k,
    readLayers s.run.tree.layers k (UInt64.ofNat t.snapshot) = valueAt s.run.history t.snapshot k

variable {job : CompactionJob V}

omit [ByteLen V] in
theorem Behind.spares {snapshot : Nat} (hfits : snapshot ≤ u64Max) (h : Behind job snapshot) :
    LsmRun.Spares (UInt64.ofNat snapshot) job := by
  intro e _ _ x hx _ hlt
  rw [UInt64.lt_iff_toNat_lt, toNat_ofNat_of_le hfits] at hlt
  rcases h with hfloor | hold
  · exact hfloor.trans_lt hlt
  · exact absurd (hold x hx) (Nat.not_le.mpr hlt)

variable {t : Transaction Bytes V} {i : Nat}

omit [ByteLen V] in
theorem handle_eq_some (h : s.handle i = some t) :
    ∃ hi : i < s.txns.length, s.txns[i] = some t := by
  obtain ⟨hlt, hget⟩ := List.getElem?_eq_some_iff.mp (Option.join_eq_some_iff.mp h)
  exact ⟨hlt, hget⟩

omit [ByteLen V] in
theorem commit_holds (tree : LsmTree V) (t : Transaction Bytes V) :
    ((tree.commit t).2.1.txnManager.activeSnapshots =
        (tree.txnManager.release t).1.activeSnapshots ∧
      (tree.commit t).2.2 = (tree.txnManager.release t).2) ∨
    ((tree.commit t).2.1.txnManager.activeSnapshots = tree.txnManager.activeSnapshots ∧
      (tree.commit t).2.2 = t) := by
  unfold LsmTree.commit TransactionManager.commit
  by_cases hw : t.writes = []
  · left
    simp [hw]
  · have hw' : t.writes.isEmpty = false := by simpa using hw
    cases hc : tree.txnManager.conflicts t with
    | true => exact .inr (by simp [hw'])
    | false =>
      left
      cases hh : t.hold <;> simp [hw', TransactionManager.release, hh]

theorem inv_new (c : SstCompression) : Inv env (Sys.new c : Sys V) where
  aged := LsmRun.aged_new c
  counted := fun _ => rfl
  history_le := forall_mem_nil _
  snapshot_le := fun _ ht => absurd ht not_mem_nil
  job := by intro job hjob; cases hjob
  reads := fun _ ht => absurd ht not_mem_nil

variable {txns : List (Option (Transaction Bytes V))} {x : Option (Transaction Bytes V)}

theorem Inv.frame (hs : Inv env s) {c : LsmRun.Call V} (hage : LsmRun.KeepsAge env s.run c)
    (hfree : PrefixFree (historyKeys s.run.history))
    (hcounted : ∀ v, (s.run.step env c).tree.txnManager.activeSnapshots.holds v = txns.countP
      (Mvcc.holding v))
    (hjob : ∀ job ∈ (s.run.step env c).job, ∀ t, some t ∈ s.txns → t.hold = true → Behind job
      t.snapshot)
    (hheld : ∀ u, some u ∈ txns → u.hold = true → ∃ t, some t ∈ s.txns ∧ t.hold = true ∧ t.snapshot
      = u.snapshot) : Inv env { run := s.run.step env c, txns := txns } := by
  have htracks := hs.aged.tracks
  refine ⟨hs.aged.step hage, hcounted, ?_, ?_, ?_, ?_⟩
  · rcases LsmRun.history_step env s.run c with ⟨hh, hv⟩ | ⟨writes, hh, hv⟩
    · rw [hh, hv]
      exact hs.history_le
    · rw [hh, hv, forall_mem_append, forall_mem_singleton]
      refine ⟨fun e he => (hs.history_le e he).trans ?_, le_rfl⟩
      rw [htracks.next]
      exact Nat.le_succ _
  · intro u hu hhold
    obtain ⟨t, ht, hthold, htu⟩ := hheld u hu hhold
    exact htu ▸ (hs.snapshot_le t ht hthold).trans (hs.aged.visible_le c)
  · intro job hmem u hu hhold
    obtain ⟨t, ht, hthold, htu⟩ := hheld u hu hhold
    exact htu ▸ hjob job hmem t ht hthold
  · intro u hu hhold k
    obtain ⟨t, ht, hthold, htu⟩ := hheld u hu hhold
    have hle := hs.snapshot_le t ht hthold
    have hfits : t.snapshot ≤ u64Max := hle.trans htracks.fits64
    rw [← htu]
    have hsnap : (UInt64.ofNat t.snapshot).toNat ≤ s.run.tree.txnManager.visibleVersion := by
      rwa [toNat_ofNat_of_le hfits]
    have hspares : ∀ job ∈ s.run.finishing c, LsmRun.Spares (UInt64.ofNat t.snapshot) job := by
      intro job hfinish
      have hmem : job ∈ s.run.job := by
        cases c with
        | compactFinish write =>
          cases write with
          | done => exact hfinish
          | failed => cases hfinish
        | _ => cases hfinish
      exact (hs.job job hmem t ht hthold).spares hfits
    rw [hs.aged.readLayers_step hage hfree hsnap hspares k, hs.reads t ht hthold k]
    rcases LsmRun.history_step env s.run c with ⟨hh, -⟩ | ⟨writes, hh, -⟩
    · rw [hh]
    · rw [hh, valueAt_concat]
      rw [htracks.next]
      exact Nat.lt_succ_of_le hle

theorem Inv.same (hs : Inv env s)
    (hcounted : ∀ v, txns.countP (Mvcc.holding v) = s.txns.countP (Mvcc.holding v))
    (hheld : ∀ u, some u ∈ txns → u.hold = true → ∃ t, some t ∈ s.txns ∧ t.hold = true ∧ t.snapshot
      = u.snapshot) :
    Inv env { s with txns := txns } where
  aged := hs.aged
  counted := fun v => (hs.counted v).trans (hcounted v).symm
  history_le := hs.history_le
  snapshot_le := by
    intro u hu hhold
    obtain ⟨t, ht, hthold, htu⟩ := hheld u hu hhold
    exact htu ▸ hs.snapshot_le t ht hthold
  job := by
    intro job hjob u hu hhold
    obtain ⟨t, ht, hthold, htu⟩ := hheld u hu hhold
    exact htu ▸ hs.job job hjob t ht hthold
  reads := by
    intro u hu hhold
    obtain ⟨t, ht, hthold, htu⟩ := hheld u hu hhold
    exact htu ▸ hs.reads t ht hthold

omit [ByteLen V] in
theorem held_of_set {t t' : Transaction Bytes V} (ht : some t ∈ txns)
    (hsnap : t'.snapshot = t.snapshot) (hhold : t'.hold = t.hold) :
    ∀ u, some u ∈ txns.set i (some t') → u.hold = true →
      ∃ w, some w ∈ txns ∧ w.hold = true ∧ w.snapshot = u.snapshot := by
  intro u hu huhold
  rcases Mvcc.mem_set_some hu with hu | hu
  · exact ⟨u, hu, huhold, rfl⟩
  · cases hu
    exact ⟨t, ht, hhold ▸ huhold, hsnap.symm⟩

omit [ByteLen V] in
theorem held_of_release {tm : TransactionManager Bytes}
    (hx : x = none ∨ x = some (tm.release t).2) :
    ∀ u, some u ∈ txns.set i x → u.hold = true →
      ∃ w, some w ∈ txns ∧ w.hold = true ∧ w.snapshot = u.snapshot := by
  intro u hu huhold
  rcases Mvcc.mem_release hx hu with hu | hu
  · exact ⟨u, hu, huhold, rfl⟩
  · rw [hu.2] at huhold
    cases huhold

theorem Inv.buffer (hs : Inv env s) (i : Nat) {f : Transaction Bytes V → Transaction Bytes V}
    (hf : ∀ t, (f t).snapshot = t.snapshot ∧ (f t).hold = t.hold) :
    Inv env { s with txns := s.update i fun t => some (f t) } := by
  unfold Sys.update
  cases ht : s.handle i with
  | none => exact hs
  | some t =>
    obtain ⟨hi, hget⟩ := handle_eq_some ht
    exact hs.same (Mvcc.countP_holding_same hi hget (hf t).1 (hf t).2)
      (held_of_set (hget ▸ getElem_mem hi) (hf t).1 (hf t).2)

theorem Inv.release (hs : Inv env s) (hfree : PrefixFree (historyKeys s.run.history))
    (ht : s.handle i = some t)
    (hx : x = none ∨ x = some (s.run.tree.txnManager.release t).2) :
    Inv env { run := s.run.step env (.abort t), txns := s.txns.set i x } := by
  obtain ⟨hi, hget⟩ := handle_eq_some ht
  have hage : LsmRun.KeepsAge env s.run (.abort t) := trivial
  exact hs.frame hage hfree (Mvcc.counted_release hs.counted hi hget hx) hs.job (held_of_release hx)

theorem Inv.commit (hs : Inv env s) (hfree : PrefixFree (historyKeys s.run.history))
    (ht : s.handle i = some t) :
    Inv env
      { run := s.run.step env (.commit t)
        txns := s.txns.set i (if s.run.tree.txnManager.nextVersion ≤ u64Max then
          some (s.run.tree.commit t).2.2 else some t) } := by
  obtain ⟨hi, hget⟩ := handle_eq_some ht
  have hage : LsmRun.KeepsAge env s.run (.commit t) := trivial
  have hmem : some t ∈ s.txns := hget ▸ getElem_mem hi
  have hjob : ∀ job ∈ (s.run.step env (.commit t)).job, job ∈ s.run.job := by
    intro job hjob
    exact hjob
  by_cases hroom : s.run.tree.txnManager.nextVersion ≤ u64Max
  · rw [if_pos hroom]
    have htree : (s.run.step env (.commit t)).tree = (s.run.tree.commit t).2.1 := by
      simp only [LsmRun.Sys.step, LsmTree.record, if_pos hroom]
    rcases commit_holds s.run.tree t with ⟨hholds, hslot⟩ | ⟨hholds, hslot⟩
    · rw [hslot]
      refine hs.frame hage hfree ?_ (fun job h => hs.job job (hjob job h))
        (held_of_release (.inr rfl))
      rw [htree, hholds]
      exact Mvcc.counted_release hs.counted hi hget (.inr rfl)
    · rw [hslot]
      refine hs.frame hage hfree ?_ (fun job h => hs.job job (hjob job h))
        (held_of_set hmem rfl rfl)
      intro v
      rw [htree, hholds, Mvcc.countP_holding_same hi hget rfl rfl, hs.counted v]
  · rw [if_neg hroom]
    refine hs.frame hage hfree ?_ (fun job h => hs.job job (hjob job h))
      (held_of_set hmem rfl rfl)
    intro v
    simp only [LsmRun.Sys.step, LsmTree.record, if_neg hroom]
    rw [Mvcc.countP_holding_same hi hget rfl rfl, hs.counted v]

theorem Inv.job_le (hs : Inv env s) (hjob : job ∈ s.run.job) {x : Entry V} (hx : x ∈ job.allEntries) :
    x.1.version.toNat ≤ s.run.tree.txnManager.visibleVersion := by
  obtain ⟨inputs, newer, hsplit, -, hentries⟩ := hs.aged.job job hjob
  rw [hentries, LsmRun.mem_merge] at hx
  obtain ⟨sst, hsst, hx⟩ := hx
  have hlayer : sst.file.data ∈ s.run.tree.layers := by
    rw [s.run.tree.layers_eq hsplit]
    exact mem_append_right _ (mem_map_of_mem (mem_reverse.mpr hsst))
  have hlt := hs.aged.version_lt (mem_flatten_of_mem hlayer hx)
  rw [hs.aged.tracks.next] at hlt
  exact Nat.le_of_lt_succ hlt

theorem Inv.begin (hs : Inv env s) : Inv env (s.step env .begin) where
  aged := by
    have hage : LsmRun.KeepsAge env s.run .begin := trivial
    exact hs.aged.step hage
  counted := by
    intro v
    simp only [Sys.step, Sys.base, Sys.handles, Option.map_some, Option.getD_some, LsmRun.Sys.step,
      LsmTree.setTxnManager, TransactionManager.begin, ActiveSnapshots.holds_acquire,
      hs.counted v, countP_append, countP_singleton, Mvcc.holding, Bool.true_and,
      decide_eq_true_eq, eq_comm (a := v)]
  history_le := hs.history_le
  snapshot_le := by
    intro u hu hhold
    rcases mem_append.mp hu with hu | hu
    · exact hs.snapshot_le u hu hhold
    · cases mem_singleton.mp hu
      exact le_rfl
  job := by
    intro job hjob u hu hhold
    rcases mem_append.mp hu with hu | hu
    · exact hs.job job hjob u hu hhold
    · cases mem_singleton.mp hu
      exact .inr fun x hx => hs.job_le hjob hx
  reads := by
    intro u hu hhold k
    rcases mem_append.mp hu with hu | hu
    · exact hs.reads u hu hhold k
    · cases mem_singleton.mp hu
      show readLayers s.run.tree.layers k (UInt64.ofNat s.run.tree.txnManager.visibleVersion) =
        valueAt s.run.history s.run.tree.txnManager.visibleVersion k
      rw [valueAt_of_le hs.history_le]
      exact hs.aged.reflects.read (fun layer h => hs.aged.sorted h) hs.aged.tracks.fits64
        hs.aged.tracks.latest_le k

theorem job_compactBegin (h : job ∈ (s.run.step env .compactBegin).job) :
    job ∈ s.run.job ∨ job.minSnapshot = s.run.tree.txnManager.minActiveSnapshot := by
  simp only [LsmRun.Sys.step] at h
  split at h
  · rename_i job' _ hbegin
    cases h
    unfold LsmTree.compactBegin at hbegin
    split_ifs at hbegin with hlen
    · cases hbegin
    · obtain ⟨entries, -, hbegin⟩ := Fallible.bind_eq_ok.mp hbegin
      cases hbegin
      exact .inr rfl
  · exact .inl h

theorem Inv.step (hs : Inv env s) {call : Call V} (hage : KeepsAge env s call)
    (hfree : PrefixFree (historyKeys s.run.history)) : Inv env (s.step env call) := by
  cases call with
  | begin => exact hs.begin
  | put i key value => exact hs.buffer i fun t => Mvcc.upsert_snapshot t key _
  | delete i key => exact hs.buffer i fun t => Mvcc.upsert_snapshot t key _
  | commit i =>
    simp only [Sys.step, Sys.base, Sys.handles, Sys.update]
    cases ht : s.handle i with
    | none => exact hs
    | some t => exact hs.commit hfree ht
  | abort i =>
    simp only [Sys.step, Sys.base, Sys.handles, Sys.update]
    cases ht : s.handle i with
    | none => exact hs
    | some t => exact hs.release hfree ht (.inr rfl)
  | drop i =>
    simp only [Sys.step, Sys.base, Sys.handles, Sys.update]
    cases ht : s.handle i with
    | none => exact hs
    | some t => exact hs.release hfree ht (.inl rfl)
  | flush write =>
    have hflush : LsmRun.KeepsAge env s.run (.flush write) := hage
    refine hs.frame hflush hfree ?_ hs.job fun u hu hhold => ⟨u, hu, hhold, rfl⟩
    rw [LsmRun.txnManager_flush]
    exact hs.counted
  | compactBegin =>
    have hbegin : LsmRun.KeepsAge env s.run .compactBegin := trivial
    refine hs.frame hbegin hfree ?_ ?_ fun u hu hhold => ⟨u, hu, hhold, rfl⟩
    · rw [LsmRun.tree_compactBegin]
      exact hs.counted
    · intro job hjob t ht hhold
      rcases job_compactBegin hjob with hold | hmin
      · exact hs.job job hold t ht hhold
      · left
        rw [hmin]
        apply ActiveSnapshots.minActive_le
        rw [hs.counted]
        exact countP_pos_iff.mpr ⟨some t, ht, by simp [Mvcc.holding, hhold]⟩
  | compactFinish write =>
    have hfinish : LsmRun.KeepsAge env s.run (.compactFinish write) := hage
    refine hs.frame hfinish hfree ?_ ?_ fun u hu hhold => ⟨u, hu, hhold, rfl⟩
    · rw [LsmRun.txnManager_compactFinish]
      exact hs.counted
    · intro job hjob
      apply hs.job job
      simp only [LsmRun.Sys.step] at hjob
      split at hjob
      · exact hjob
      · cases hjob

theorem historyKeys_subset (env : StorageEnv V) (s : Sys V) (calls : List (Call V)) :
    historyKeys s.run.history ⊆ historyKeys (Run.exec (Sys.step env) s calls).run.history := by
  induction calls generalizing s with
  | nil => exact subset_rfl
  | cons call calls ih =>
    refine subset_trans ?_ (ih (s.step env call))
    rw [Sys.step]
    cases s.base call with
    | none => exact subset_rfl
    | some c => exact LsmRun.historyKeys_subset_step env s.run c

theorem Inv.exec {calls : List (Call V)} (hs : Inv env s)
    (hage : Run.Along (Sys.step env) (KeepsAge env) s calls)
    (hfree : PrefixFree (historyKeys (Run.exec (Sys.step env) s calls).run.history)) :
    Inv env (Run.exec (Sys.step env) s calls) := by
  induction calls generalizing s with
  | nil => exact hs
  | cons call calls ih =>
    have hfree' := hfree.mono (historyKeys_subset env s (call :: calls))
    exact ih (hs.step hage.1 hfree') hage.2 hfree

/-- Every live handle reads the newest value committed at or below its snapshot: point by point,
and in a scan the rows of the prefix in key order. -/
def SnapshotsRead (env : StorageEnv V) (s : Sys V) : Prop :=
  ∀ t, some t ∈ s.txns → t.hold = true →
    (∀ k, s.run.tree.get env t k = .ok (valueAt s.run.history t.snapshot k)) ∧
    ∀ pre, (s.run.tree.scanPrefix t pre).Pairwise (fun a b => a.1 < b.1) ∧
      ∀ k value, (k, value) ∈ s.run.tree.scanPrefix t pre ↔
        pre <+: k ∧ valueAt s.run.history t.snapshot k = some value

/-- In every run whose flushes and merges keep the layers in age order, every live handle reads
at its snapshot, whatever merges have dropped. -/
theorem held_snapshots_read (env : StorageEnv V) (c : SstCompression) (calls : List (Call V))
    (hage : Run.Along (Sys.step env) (KeepsAge env) (Sys.new c) calls)
    (hfree : PrefixFree (historyKeys (Run.exec (Sys.step env) (Sys.new c) calls).run.history)) :
    SnapshotsRead env (Run.exec (Sys.step env) (Sys.new c) calls) := by
  have hs := (inv_new c).exec hage hfree
  intro t ht hhold
  have hread := hs.reads t ht hhold
  refine ⟨fun k => ?_, fun pre => ⟨sorted_mergeLayers _, fun k value => ?_⟩⟩
  · rw [LsmTree.get, hs.aged.getAt_eq_readLayers hfree, hread]
  · rw [LsmTree.scanPrefix, hs.aged.mem_scanPrefixAt hfree, hread]

/-- A reader begins on the first version of a key, which is overwritten; a merge of both versions
begins before the next commit. -/
def overwritten : List (Call Bytes) :=
  [.begin, .put 0 [107] [1], .commit 0, .flush .done, .begin,
    .begin, .put 2 [107] [2], .commit 2, .flush .done, .compactBegin,
    .begin, .put 3 [107] [3], .commit 3]

theorem held_snapshots_read_overwritten :
    (Run.exec (Sys.step LsmRun.plainEnv) (Sys.new .none)
      (overwritten ++ [.compactFinish .done])).run.tree.get LsmRun.plainEnv ⟨1, [], true⟩ [107] =
      .ok (some [1]) := by
  have hfits : ∀ es, (SstWriter.writeAll LsmRun.plainEnv .none es).Fits := nofun
  have hage : Run.Along (Sys.step LsmRun.plainEnv) (KeepsAge LsmRun.plainEnv) (Sys.new .none)
      (overwritten ++ [.compactFinish .done]) :=
    ⟨trivial, trivial, trivial, ⟨forall_mem_nil _, hfits _⟩, trivial, trivial, trivial, trivial,
      ⟨forall_mem_nil _, hfits _⟩, trivial, trivial, trivial, trivial, fun _ _ => hfits _, trivial⟩
  exact (held_snapshots_read LsmRun.plainEnv .none _ hage
    (prefixFree_of_length (n := 1) (by decide)) ⟨1, [], true⟩ (by decide) rfl).1 [107]

/-- The first version of a key is stranded by a failed flush; two SSTs are merged, the newer
version of the key in one of them. -/
def stranded : List (Call Bytes) :=
  [.begin, .put 0 [107] [1], .commit 0, .flush .failed,
    .begin, .put 1 [120] [3], .commit 1, .flush .done,
    .begin, .put 2 [107] [2], .commit 2, .flush .done, .begin, .compactBegin]

theorem held_snapshot_misread : ¬ ∀ (env : StorageEnv Bytes) (c : SstCompression)
    (calls : List (Call Bytes)),
    PrefixFree (historyKeys (Run.exec (Sys.step env) (Sys.new c) calls).run.history) →
    SnapshotsRead env (Run.exec (Sys.step env) (Sys.new c) calls) := by
  intro hall
  have hread := (hall LsmRun.plainEnv .none (stranded ++ [.compactFinish .done])
    (prefixFree_of_length (n := 1) (by decide)) ⟨3, [], true⟩ (by decide) rfl).1 [107]
  have hlt : (⟨[107], 3⟩ : InternalKey) < ⟨[120], 2⟩ := by decide +kernel
  have hjob : (Run.exec (Sys.step LsmRun.plainEnv) (Sys.new .none) stranded).run.job =
      some ⟨3, [2, 3], [(⟨[107], 3⟩, some [2]), (⟨[120], 2⟩, some [3])]⟩ := by
    rw [← LsmRun.mergeSort_pair (a := (⟨[120], 2⟩, some [3])) (b := (⟨[107], 3⟩, some [2])) hlt]
    rfl
  have hrun : (Run.exec (Sys.step LsmRun.plainEnv) (Sys.new .none)
      (stranded ++ [.compactFinish .done])).run = _ :=
    LsmRun.step_compactFinish hjob .done
  rw [hrun] at hread
  exact absurd hread (by decide +kernel)

end Held
end RhypeDb.Storage
