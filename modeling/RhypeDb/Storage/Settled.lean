import RhypeDb.Storage.Recovery
import RhypeDb.Storage.SnapshotRead

/-! Runs in which no flush fails. The log then holds just what the active memtable does, and the
SSTs stand in the order of their versions, which is what `LsmTree::open` goes by. A merge keeps
both, so that the files alone give the tree's contents back. -/

namespace RhypeDb.Storage

open Layered List

variable {V : Type} [ByteLen V]

namespace LsmTree

theorem compactFinish_done (env : StorageEnv V) (tree : LsmTree V) (job : CompactionJob V)
    {kept : List (SstReader V)} {entries : List (Entry V)}
    (hkept : tree.sstFiles.filter (fun sst => decide (sst.id ∉ job.mergedPaths)) = kept)
    (hentries : keepNeeded job.minSnapshot none false job.allEntries = entries)
    (hsorted : entries.Pairwise fun a b => a.1 < b.1)
    (hfits : (SstWriter.writeAll env tree.blockCompression entries).Fits) :
    (entries = [] ∧ tree.compactFinish env job .done = (.ok (), tree.compacted kept)) ∨
    (entries ≠ [] ∧ ∃ sst, SstReader.open tree.nextSstId
        (SstWriter.writeAll env tree.blockCompression entries) = .ok sst ∧
      tree.compactFinish env job .done = (.ok (), tree.compacted (sst :: kept))) := by
  unfold compactFinish
  dsimp only
  rw [hkept, hentries]
  by_cases hnil : entries = []
  · left
    subst hnil
    exact ⟨rfl, rfl⟩
  · right
    have hne : entries.isEmpty = false := by simpa using hnil
    have hwf := SstWriter.wellFormed_writeAll env tree.blockCompression hsorted
    obtain ⟨sst, hopen, -, -⟩ := SstReader.open_of_fits hwf hfits tree.nextSstId
    refine ⟨hnil, sst, hopen, ?_⟩
    rw [hne, hopen]
    rfl

theorem reads_congr {env : StorageEnv V} {tree tree' : LsmTree V} {version version' : UInt64}
    (hfiles : ∀ sst ∈ tree.sstFiles, sst.file.WellFormed env ∧ sst.file.Fits)
    (hkeys : ∀ layer ∈ tree.layers, PrefixFree (userKeys layer))
    (hfiles' : ∀ sst ∈ tree'.sstFiles, sst.file.WellFormed env ∧ sst.file.Fits)
    (hkeys' : ∀ layer ∈ tree'.layers, PrefixFree (userKeys layer))
    (hread : ∀ k, readLayers tree.layers k version = readLayers tree'.layers k version') :
    (∀ k, tree.getAt env version k = tree'.getAt env version' k) ∧
      ∀ pre, tree.scanPrefixAt version pre = tree'.scanPrefixAt version' pre := by
  constructor
  · intro k
    have hlayers : tree.getAt env version k = .ok (readLayers tree.layers k version) :=
      getAt_eq hfiles hkeys k version
    rw [hlayers, hread]
    exact (getAt_eq hfiles' hkeys' k version').symm
  · intro pre
    apply SortedMap.entries_eq_of_mem_iff (sorted_mergeLayers _) (sorted_mergeLayers _)
    rintro ⟨k, value⟩
    refine (mem_scanPrefixAt_iff_readLayers hfiles hkeys).trans ?_
    rw [hread]
    exact (mem_scanPrefixAt_iff_readLayers hfiles' hkeys').symm

end LsmTree

namespace LsmRun

open Recovery (Older topVersion)

def Sys.filed (s : Sys V) : Recovery.Sys V where
  tree := s.tree
  sstDir := s.tree.sstFiles.map fun sst => (sst.id, sst.file)
  history := s.history

/-- No memtable is left over, the log holds the active one, and the SSTs are opened files that
stand in the order of their versions. -/
structure Settled (env : StorageEnv V) (s : Sys V) : Prop extends Inv env s where
  noImmutables : s.tree.immutableMemtables = []
  whole : Wal.Whole s.tree.wal
  logged : ∀ r ∈ Wal.replay s.tree.wal, r.version ≤ s.tree.txnManager.visibleVersion
  replayed : Recovery.replayed s.tree.wal = s.tree.activeMemtable
  opened : ∀ sst ∈ s.tree.sstFiles, SstReader.open sst.id sst.file = .ok sst
  nonempty : ∀ sst ∈ s.tree.sstFiles, sst.file.data ≠ []
  older : s.tree.sstFiles.Pairwise fun a b => Older a.file.data b.file.data
  newer : ∀ sst ∈ s.tree.sstFiles, Older sst.file.data s.tree.activeMemtable.entries

variable {env : StorageEnv V} {s s' : Sys V}

theorem settled_new (c : SstCompression) : Settled env (Sys.new c : Sys V) where
  toInv := inv_new c
  noImmutables := rfl
  whole := Wal.whole_nil
  logged := forall_mem_nil _
  replayed := rfl
  opened := forall_mem_nil _
  nonempty := forall_mem_nil _
  older := List.Pairwise.nil
  newer := forall_mem_nil _

theorem Settled.layers_eq (hs : Settled env s) :
    s.tree.layers = s.tree.activeMemtable.entries :: s.tree.sstFiles.reverse.map (·.file.data) := by
  unfold LsmTree.layers
  rw [hs.noImmutables]
  rfl

theorem Settled.recovery (hs : Settled env s) : Recovery.Inv env s.filed where
  tracks := hs.tracks
  whole := hs.whole
  logged := hs.logged
  sstDir := rfl
  files := hs.files
  opened := hs.opened
  nonempty := hs.nonempty
  reflects := by
    have hreflects := hs.reflects
    rw [hs.layers_eq, ← hs.replayed] at hreflects
    exact hreflects
  active := by
    intro e he
    change e ∈ (Recovery.replayed s.tree.wal).entries
    rw [hs.replayed]
    exact he
  own := by
    intro k last hlast
    have hfirst := hs.reflects.first k last hlast
    exact hfirst.elim .inr fun h => .inl h.1
  older := hs.older
  newer := hs.newer

theorem Settled.of_recovery {r : Recovery.Sys V} (hinv : Inv env s) (hrec : Recovery.Inv env r)
    (htree : r.tree = s.tree) (himm : s.tree.immutableMemtables = [])
    (hreplayed : Recovery.replayed s.tree.wal = s.tree.activeMemtable) : Settled env s := by
  obtain ⟨-, hwhole, hlogged, -, -, hopened, hnonempty, -, -, -, holder, hnewer⟩ := hrec
  rw [htree] at hwhole hlogged hopened hnonempty holder hnewer
  exact ⟨hinv, himm, hwhole, hlogged, hreplayed, hopened, hnonempty, holder, hnewer⟩

theorem Settled.commit (hs : Settled env s) (txn : Transaction Bytes V) :
    Settled env (s.step env (.commit txn)) := by
  have hinv := hs.toInv.commit txn
  have hrec := hs.recovery.commit txn
  refine Settled.of_recovery hinv hrec rfl ?_ ?_
  · simp only [Sys.step]
    obtain ⟨tm, hrecord, -⟩ | ⟨tm, hrecord, -⟩ := s.tree.record_cases s.history txn
    · rw [hrecord]
      exact hs.noImmutables
    · rw [hrecord]
      exact hs.noImmutables
  · simp only [Sys.step]
    obtain ⟨tm, hrecord, -⟩ | ⟨tm, hrecord, -, hw, -⟩ := s.tree.record_cases s.history txn
    · rw [hrecord]
      exact hs.replayed
    · rw [hrecord]
      unfold LsmTree.committed
      rw [Recovery.replayed_appendTxn hs.whole hw, hs.replayed]

theorem Settled.setTxnManager (hs : Settled env s) {tm : TransactionManager Bytes}
    (hv : tm.visibleVersion = s.tree.txnManager.visibleVersion)
    (hn : tm.nextVersion = s.tree.txnManager.nextVersion) :
    Settled env { s with tree := s.tree.setTxnManager tm } :=
  Settled.of_recovery (hs.toInv.setTxnManager hv hn) (hs.recovery.setTxnManager hv hn) rfl
    hs.noImmutables hs.replayed

def Sys.FlushFits (env : StorageEnv V) (s : Sys V) : Prop :=
  (SstWriter.writeAll env s.tree.blockCompression s.tree.activeMemtable.entries).Fits

def Sys.MergeFits (env : StorageEnv V) (s : Sys V) : Prop := ∀ job ∈ s.job,
  (SstWriter.writeAll env s.tree.blockCompression
    (LsmTree.keepNeeded job.minSnapshot none false job.allEntries)).Fits

theorem Sys.FlushFits.flushLocked (hfits : s.FlushFits env) :
    (s.tree.activeMemtable.isEmpty = true ∧ s.tree.flushLocked env .done = (.ok (), s.tree)) ∨
    (s.tree.activeMemtable.isEmpty = false ∧ ∃ sst, SstReader.open s.tree.nextSstId
        (SstWriter.writeAll env s.tree.blockCompression s.tree.activeMemtable.entries) = .ok sst ∧
      s.tree.flushLocked env .done = (.ok (), s.tree.registered sst)) := by
  unfold LsmTree.flushLocked
  dsimp only
  cases hempty : s.tree.activeMemtable.isEmpty with
  | true =>
    have hnew : s.tree.activeMemtable = .new := SortedMap.ext (List.isEmpty_iff.mp hempty)
    left
    refine ⟨rfl, ?_⟩
    rw [if_pos rfl, ← hnew]
  | false =>
    right
    have hwf := SstWriter.wellFormed_writeAll env s.tree.blockCompression
      s.tree.activeMemtable.sorted
    obtain ⟨sst, hopen, -, -⟩ := SstReader.open_of_fits hwf hfits s.tree.nextSstId
    refine ⟨rfl, sst, hopen, ?_⟩
    rw [if_neg Bool.false_ne_true, hopen]
    rfl

theorem Settled.flush (hs : Settled env s) (hfits : s.FlushFits env) :
    Settled env (s.step env (.flush .done)) := by
  have hage : KeepsAge env s (.flush .done) := by
    refine ⟨fun m hm => ?_, hfits⟩
    rw [hs.noImmutables] at hm
    cases hm
  have hcover : Recovery.CoversLog env s.filed (.flush .done) := by
    refine fun _ => ⟨fun e he => ⟨e, ?_, rfl⟩, hfits⟩
    change e ∈ (Recovery.replayed s.tree.wal).entries at he
    rw [hs.replayed] at he
    exact he
  have hinv := hs.toInv.step hage
  have hrec := hs.recovery.step hcover
  refine Settled.of_recovery hinv hrec rfl ?_ ?_
  · change (s.tree.flushLocked env .done).2.immutableMemtables = []
    obtain ⟨-, htree⟩ | ⟨-, sst, -, htree⟩ := hfits.flushLocked
    · rw [htree]
      exact hs.noImmutables
    · rw [htree]
      exact hs.noImmutables
  · change Recovery.replayed (s.tree.flushLocked env .done).2.wal =
      (s.tree.flushLocked env .done).2.activeMemtable
    obtain ⟨-, htree⟩ | ⟨-, sst, -, htree⟩ := hfits.flushLocked
    · rw [htree]
      exact hs.replayed
    · rw [htree]
      rfl

theorem Settled.compactBegin (hs : Settled env s) : Settled env (s.step env .compactBegin) := by
  have hage : KeepsAge env s .compactBegin := trivial
  exact Settled.of_recovery (hs.toInv.step hage) hs.recovery (tree_compactBegin s).symm
    (by rw [tree_compactBegin]; exact hs.noImmutables) (by rw [tree_compactBegin]; exact hs.replayed)

theorem Settled.compacted (hs : Settled env s) {inputs newer merged : List (SstReader V)}
    (hsplit : s.tree.sstFiles = inputs ++ newer)
    (hinv : Inv env { s with tree := s.tree.compacted (merged ++ newer), job := none })
    (hopened : ∀ sst ∈ merged, SstReader.open sst.id sst.file = .ok sst)
    (hnonempty : ∀ sst ∈ merged, sst.file.data ≠ [])
    (hmem : ∀ sst ∈ merged, ∀ e ∈ sst.file.data, ∃ old ∈ inputs, e ∈ old.file.data)
    (hone : merged.length ≤ 1) :
    Settled env { s with tree := s.tree.compacted (merged ++ newer), job := none } := by
  obtain ⟨-, himm, hwhole, hlogged, hreplayed, hopened', hnonempty', holder, hnewer⟩ := hs
  rw [hsplit] at hopened' hnonempty' holder hnewer
  rw [forall_mem_append] at hopened' hnonempty' hnewer
  obtain ⟨-, holder', hcross⟩ := pairwise_append.mp holder
  refine ⟨hinv, himm, hwhole, hlogged, hreplayed, ?_, ?_, ?_, ?_⟩
  · exact forall_mem_append.mpr ⟨hopened, hopened'.2⟩
  · exact forall_mem_append.mpr ⟨hnonempty, hnonempty'.2⟩
  · refine pairwise_append.mpr ⟨?_, holder', ?_⟩
    · cases merged with
      | nil => exact List.Pairwise.nil
      | cons sst rest =>
        have hrest : rest = [] := length_eq_zero_iff.mp (by simpa using hone)
        rw [hrest]
        exact pairwise_singleton _ _
    · intro sst hsst b hb e he e' he'
      obtain ⟨old, hold, he⟩ := hmem sst hsst e he
      exact hcross old hold b hb e he e' he'
  · refine forall_mem_append.mpr ⟨?_, hnewer.2⟩
    intro sst hsst e he e' he'
    obtain ⟨old, hold, he⟩ := hmem sst hsst e he
    exact hnewer.1 old hold e he e' he'

theorem Settled.merge_cases (hs : Settled env s) (hfits : s.MergeFits env) {job : CompactionJob V}
    (hjob : s.job = some job) :
    ∃ inputs newer, s.tree.sstFiles = inputs ++ newer ∧
      job.mergedPaths = inputs.map SstReader.id ∧
      ((LsmTree.keepNeeded job.minSnapshot none false job.allEntries = [] ∧
        s.tree.compactFinish env job .done = (.ok (), s.tree.compacted newer)) ∨
      ∃ sst, LsmTree.keepNeeded job.minSnapshot none false job.allEntries ≠ [] ∧
        SstReader.open s.tree.nextSstId (SstWriter.writeAll env s.tree.blockCompression
          (LsmTree.keepNeeded job.minSnapshot none false job.allEntries)) = .ok sst ∧
        s.tree.compactFinish env job .done = (.ok (), s.tree.compacted (sst :: newer)) ∧
        ∀ e ∈ sst.file.data, ∃ old ∈ inputs, e ∈ old.file.data) := by
  obtain ⟨inputs, newer, hsplit, hpaths, hentries⟩ := hs.job job hjob
  have hkept : s.tree.sstFiles.filter (fun sst => decide (sst.id ∉ job.mergedPaths)) = newer := by
    have hids := hs.ids.1
    rw [hsplit] at hids
    rw [hsplit, hpaths, filter_merged hids]
  have hsub := keepNeeded_sublist job.minSnapshot none false job.allEntries
  have hsorted : (LsmTree.keepNeeded job.minSnapshot none false job.allEntries).Pairwise
      fun a b => a.1 < b.1 := by
    refine List.Pairwise.sublist hsub ?_
    rw [hentries]
    exact hs.sorted_inputs hsplit
  refine ⟨inputs, newer, hsplit, hpaths, ?_⟩
  obtain ⟨hnil, htree⟩ | ⟨hne, sst, hopen, htree⟩ :=
    s.tree.compactFinish_done env job hkept rfl hsorted (hfits job hjob)
  · exact .inl ⟨hnil, htree⟩
  · refine .inr ⟨sst, hne, hopen, htree, fun e he => ?_⟩
    obtain ⟨hfile, -⟩ := SstReader.file_of_open hopen
    rw [hfile, SstWriter.data_writeAll] at he
    exact mem_merge.mp (hentries ▸ hsub.subset he)

theorem Settled.compactFinish (hs : Settled env s) (hfits : s.MergeFits env) :
    Settled env (s.step env (.compactFinish .done)) := by
  have hage : KeepsAge env s (.compactFinish .done) := hfits
  have hinv := hs.toInv.step hage
  cases hjob : s.job with
  | none =>
    unfold Sys.step
    rw [hjob]
    exact hs
  | some job =>
    rw [step_compactFinish hjob] at hinv ⊢
    obtain ⟨inputs, newer, hsplit, -, ⟨-, htree⟩ | ⟨sst, hne, hopen, htree, hmem⟩⟩ :=
      hs.merge_cases hfits hjob
    · rw [htree] at hinv ⊢
      have hinv' : Inv env { s with tree := s.tree.compacted ([] ++ newer), job := none } := hinv
      exact hs.compacted hsplit hinv' (forall_mem_nil _) (forall_mem_nil _)
        (forall_mem_nil _) (Nat.zero_le 1)
    · rw [htree] at hinv ⊢
      obtain ⟨hfile, hid⟩ := SstReader.file_of_open hopen
      have hone : [sst].length ≤ 1 := le_rfl
      refine hs.compacted hsplit hinv ?_ ?_ (forall_mem_singleton.mpr hmem) hone
      · rw [forall_mem_singleton, hfile, hid]
        exact hopen
      · rw [forall_mem_singleton, hfile, SstWriter.data_writeAll]
        exact hne

theorem Inv.readLayers_eq (hs : Inv env s) (k : Bytes) :
    readLayers s.tree.layers k (UInt64.ofNat s.tree.readSnapshot) = lastValue s.history k :=
  hs.reflects.read (fun _ h => hs.sorted h) hs.tracks.fits64 hs.tracks.latest_le k

theorem Inv.prefixFree (hs : Inv env s) (hfree : PrefixFree (historyKeys s.history)) :
    ∀ layer ∈ s.tree.layers, PrefixFree (userKeys layer) :=
  fun _ hlayer => hfree.mono (hs.reflects.userKeys_subset hlayer)

theorem Inv.same_reads (hs : Inv env s) (hs' : Inv env s') (hhistory : s.history = s'.history)
    (hfree : PrefixFree (historyKeys s'.history)) :
    (∀ k, s.tree.getAt env (UInt64.ofNat s.tree.readSnapshot) k =
      s'.tree.getAt env (UInt64.ofNat s'.tree.readSnapshot) k) ∧
    ∀ pre, s.tree.scanPrefixAt (UInt64.ofNat s.tree.readSnapshot) pre =
      s'.tree.scanPrefixAt (UInt64.ofNat s'.tree.readSnapshot) pre := by
  refine LsmTree.reads_congr hs.files (hs.prefixFree (hhistory ▸ hfree)) hs'.files
    (hs'.prefixFree hfree) fun k => ?_
  rw [hs.readLayers_eq, hs'.readLayers_eq, hhistory]

theorem Settled.open_reads (hs : Settled env s) (hfree : PrefixFree (historyKeys s.history))
    (c : SstCompression) {sst : List (Nat × SstFile V)} (hperm : sst.Perm s.filed.sstDir) :
    ∃ tree, LsmTree.open c ⟨sst, s.tree.wal⟩ = .ok tree ∧
      (∀ k, tree.getAt env (UInt64.ofNat tree.readSnapshot) k =
        s.tree.getAt env (UInt64.ofNat s.tree.readSnapshot) k) ∧
      ∀ pre, tree.scanPrefixAt (UInt64.ofNat tree.readSnapshot) pre =
        s.tree.scanPrefixAt (UInt64.ofNat s.tree.readSnapshot) pre := by
  obtain ⟨tree, hopen, hfiles, hkeys, hreads⟩ := hs.recovery.open_reads hfree c hperm
  refine ⟨tree, hopen, LsmTree.reads_congr hfiles hkeys hs.files (hs.prefixFree hfree) fun k => ?_⟩
  rw [hs.readLayers_eq]
  exact hreads k

end LsmRun

end RhypeDb.Storage
