import RhypeDb.Basic.Run
import RhypeDb.Storage.LsmStep

/-! Runs of one tree by commits, flushes and compactions. A point read takes the first
layer that holds the key, so every step has to leave a key's last write in the first layer
that mentions it. A flush that follows a failed one puts newer data behind the memtable the
failed one left over, and keeps that order only for keys the left-over memtable lacks. -/

namespace RhypeDb.Storage

open Layered List

variable {V : Type}

namespace LsmTree

/-- The layers probed before the SSTs in front of which `newer` stand. -/
def layersAbove (tree : LsmTree V) (newer : List (SstReader V)) : List (List (Entry V)) :=
  tree.activeMemtable.entries :: (tree.immutableMemtables.reverse.map SortedMap.entries ++
    newer.reverse.map (·.file.data))

theorem layers_eq (tree : LsmTree V) {inputs newer : List (SstReader V)}
    (h : tree.sstFiles = inputs ++ newer) :
    tree.layers = tree.layersAbove newer ++ inputs.reverse.map (·.file.data) := by
  simp [layers, layersAbove, h]

def compacted (tree : LsmTree V) (ssts : List (SstReader V)) : LsmTree V :=
  { tree with sstFiles := ssts, nextSstId := tree.nextSstId + 1 }

theorem compactFinish_cases [ByteLen V] (env : StorageEnv V) (tree : LsmTree V)
    (job : CompactionJob V) (write : SstWrite) {kept : List (SstReader V)}
    {entries : List (Entry V)}
    (hkept : tree.sstFiles.filter (fun sst => decide (sst.id ∉ job.mergedPaths)) = kept)
    (hentries : keepNeeded job.minSnapshot none false job.allEntries = entries) :
    (tree.compactFinish env job write).2 = tree.compacted tree.sstFiles ∨
    (write = .done ∧ entries = [] ∧
      (tree.compactFinish env job write).2 = tree.compacted kept) ∨
    (write = .done ∧ ∃ sst, SstReader.open tree.nextSstId
        (SstWriter.writeAll env tree.blockCompression entries) = .ok sst ∧
      (tree.compactFinish env job write).2 = tree.compacted (sst :: kept)) := by
  unfold compactFinish
  dsimp only
  rw [hkept, hentries]
  cases write with
  | failed => exact .inl rfl
  | done =>
    by_cases hnil : entries = []
    · exact .inr (.inl ⟨rfl, hnil, by simp [hnil, compacted]⟩)
    · have hne : entries.isEmpty = false := by simpa using hnil
      cases hopen : SstReader.open tree.nextSstId
          (SstWriter.writeAll env tree.blockCompression entries) with
      | error e => exact .inl (by simp [hne, compacted])
      | ok sst => exact .inr (.inr ⟨rfl, sst, rfl, by simp [hne, compacted]⟩)

end LsmTree

section

theorem keepNeeded_sublist (minSnapshot : Nat) (prev : Option Bytes) (floorKept : Bool)
    (es : List (Entry V)) : (LsmTree.keepNeeded minSnapshot prev floorKept es).Sublist es := by
  induction es generalizing prev floorKept with
  | nil => exact List.Sublist.refl []
  | cons e es ih =>
    rw [LsmTree.keepNeeded]
    split_ifs with h
    · exact (ih prev floorKept).cons e
    · exact (ih _ _).cons_cons e

theorem mem_keepNeeded (minSnapshot : Nat) {pre post : List (Entry V)} {e : Entry V}
    (hpre : ∀ x ∈ pre, x.1.userKey ≠ e.1.userKey) {prev : Option Bytes} {floorKept : Bool}
    (hprev : prev ≠ some e.1.userKey) :
    e ∈ LsmTree.keepNeeded minSnapshot prev floorKept (pre ++ e :: post) := by
  induction pre generalizing prev floorKept with
  | nil =>
    rw [nil_append, LsmTree.keepNeeded, if_neg fun h => hprev h.1]
    exact mem_cons_self
  | cons x pre ih =>
    rw [forall_mem_cons] at hpre
    rw [cons_append, LsmTree.keepNeeded]
    split_ifs with h
    · exact ih hpre.2 hprev
    · exact mem_cons_of_mem x (ih hpre.2 fun h => hpre.1 (Option.some.inj h))

variable [ByteLen V] {env : StorageEnv V}

theorem mergeEntries_eq {ssts : List (SstReader V)}
    (hssts : ∀ sst ∈ ssts, sst.file.WellFormed env ∧ sst.file.Fits) :
    LsmTree.mergeEntries ssts = .ok
      ((ssts.flatMap (·.file.data)).mergeSort fun a b => decide (a.1 ≤ b.1)) := by
  have hall : ∀ acc : List (Entry V),
      ssts.foldlM (fun acc sst => do return acc ++ (← sst.file.tryForEachEntry)) acc =
        (Except.ok (acc ++ ssts.flatMap (·.file.data)) : Except Error _) := by
    induction ssts with
    | nil => intro acc; simp [pure, Except.pure]
    | cons sst ssts ih =>
      intro acc
      rw [forall_mem_cons] at hssts
      rw [foldlM_cons, hssts.1.1.tryForEachEntry_eq hssts.1.2, flatMap_cons,
        ← append_assoc]
      exact ih hssts.2 _
  rw [LsmTree.mergeEntries, hall []]
  rfl

end

namespace LsmRun

inductive Call (V : Type)
  | begin
  | commit (txn : Transaction Bytes V)
  | abort (txn : Transaction Bytes V)
  | flush (write : SstWrite)
  | compactBegin
  | compactFinish (write : SstWrite)

structure Sys (V : Type) where
  tree : LsmTree V
  job : Option (CompactionJob V)
  history : History V

namespace Sys

variable [ByteLen V]

def new (blockCompression : SstCompression) : Sys V :=
  { tree := .new blockCompression, job := none, history := [] }

def step (env : StorageEnv V) (s : Sys V) : Call V → Sys V
  | .begin =>
    { s with tree := s.tree.setTxnManager (TransactionManager.begin (V := V) s.tree.txnManager).1 }
  | .commit txn =>
    { s with
      tree := (s.tree.record s.history txn).1
      history := (s.tree.record s.history txn).2 }
  | .abort txn => { s with tree := s.tree.setTxnManager (s.tree.txnManager.abort txn).1 }
  | .flush write => { s with tree := (s.tree.flushLocked env write).2 }
  | .compactBegin =>
    match s.job, s.tree.compactBegin with
    | none, .ok (some job) => { s with job := some job }
    | _, _ => s
  | .compactFinish write =>
    match s.job with
    | none => s
    | some job => { s with tree := (s.tree.compactFinish env job write).2, job := none }

end Sys

variable [ByteLen V]

/-- A flush that succeeds shares no key with a left-over memtable, and what is written as
v6 stays within the block cap. -/
def KeepsAge (env : StorageEnv V) (s : Sys V) : Call V → Prop
  | .flush .done =>
    (∀ m ∈ s.tree.immutableMemtables, ∀ e ∈ s.tree.activeMemtable.entries,
      Lacks e.1.userKey m.entries) ∧
    (SstWriter.writeAll env s.tree.blockCompression s.tree.activeMemtable.entries).Fits
  | .compactFinish .done => ∀ job ∈ s.job,
    (SstWriter.writeAll env s.tree.blockCompression
      (LsmTree.keepNeeded job.minSnapshot none false job.allEntries)).Fits
  | _ => True

def Apart (l l' : List (Entry V)) : Prop := ∀ a ∈ l, ∀ b ∈ l', a.1 ≠ b.1

def JobValid (tree : LsmTree V) (job : CompactionJob V) : Prop :=
  ∃ inputs newer, tree.sstFiles = inputs ++ newer ∧ job.mergedPaths = inputs.map SstReader.id ∧
    job.allEntries = (inputs.flatMap (·.file.data)).mergeSort fun a b => decide (a.1 ≤ b.1)

structure Inv (env : StorageEnv V) (s : Sys V) : Prop where
  tracks : Tracks s.tree.txnManager s.history
  reflects : Reflects s.history s.tree.layers
  apart : s.tree.layers.Pairwise Apart
  files : ∀ sst ∈ s.tree.sstFiles, sst.file.WellFormed env ∧ sst.file.Fits
  ids : (s.tree.sstFiles.map SstReader.id).Nodup ∧ ∀ sst ∈ s.tree.sstFiles, sst.id < s.tree.nextSstId
  job : ∀ job ∈ s.job, JobValid s.tree job

variable {env : StorageEnv V} {s : Sys V} {tm : TransactionManager Bytes}

theorem inv_new (c : SstCompression) : Inv env (Sys.new c : Sys V) where
  tracks := ⟨rfl, Nat.zero_le _, nofun⟩
  reflects := ⟨nofun, by simp [Sys.new, LsmTree.new, LsmTree.layers, MemTable.new, SortedMap.empty]⟩
  apart := by simp [Sys.new, LsmTree.new, LsmTree.layers]
  files := by simp [Sys.new, LsmTree.new]
  ids := by simp [Sys.new, LsmTree.new]
  job := by simp [Sys.new]

theorem Inv.setTxnManager (hs : Inv env s) {tm : TransactionManager Bytes}
    (hv : tm.visibleVersion = s.tree.txnManager.visibleVersion)
    (hn : tm.nextVersion = s.tree.txnManager.nextVersion) :
    Inv env { s with tree := s.tree.setTxnManager tm } :=
  { hs with tracks := hs.tracks.congr hv hn }

theorem Inv.publish (hs : Inv env s) (hroom : s.tree.txnManager.nextVersion ≤ u64Max)
    {tm : TransactionManager Bytes} (hv : tm.visibleVersion = s.tree.txnManager.nextVersion)
    (hn : tm.nextVersion = s.tree.txnManager.nextVersion + 1) (writes : Writes Bytes V) :
    Inv env { s with
      tree := s.tree.committed tm writes
      history := s.history ++ [(s.tree.txnManager.nextVersion, writes)] } := by
  have hle := hs.tracks.lt_next
  refine { hs with tracks := ?_, reflects := ?_, apart := ?_ }
  · exact hs.tracks.publish hroom hv hn writes
  · exact hs.reflects.publish hroom (fun k last h => (hle k last h).le) writes
  · have hold := pairwise_cons.mp hs.apart
    refine pairwise_cons.mpr ⟨?_, hold.2⟩
    intro layer hlayer a ha b hb heq
    rcases (mem_applyWrites _ _ _ _).mp ha with ⟨hver, -⟩ | ⟨ha, -⟩
    · -- the new version is past everything stored
      obtain ⟨last, hlast, hbound⟩ :=
        hs.reflects.bounded layer (mem_cons_of_mem _ hlayer) b hb
      have hlt := hle _ last hlast
      rw [← heq, hver, toNat_ofNat_of_le hroom] at hbound
      exact absurd hlt (not_lt.mpr hbound)
    · exact hold.1 layer hlayer a ha b hb heq

theorem Inv.commit (hs : Inv env s) (txn : Transaction Bytes V) :
    Inv env (s.step env (.commit txn)) := by
  simp only [Sys.step]
  rcases s.tree.record_cases s.history txn with
    ⟨tm, hrecord, hv, hn⟩ | ⟨tm, hrecord, hroom, -, hv, hn⟩
  · rw [hrecord]
    exact hs.setTxnManager hv hn
  · rw [hrecord]
    exact hs.publish hroom hv hn txn.writes

theorem Inv.relayer (hs : Inv env s) {tree : LsmTree V} {job : Option (CompactionJob V)}
    (htm : tree.txnManager = s.tree.txnManager)
    (hfirst : ∀ k last, latest s.history k = some last →
      FirstHit (Lacks k) (HasLatest k last) s.tree.layers →
      FirstHit (Lacks k) (HasLatest k last) tree.layers)
    (hmem : ∀ layer ∈ tree.layers, ∀ e ∈ layer, ∃ old ∈ s.tree.layers, e ∈ old)
    (hapart : tree.layers.Pairwise Apart)
    (hfiles : ∀ sst ∈ tree.sstFiles, sst.file.WellFormed env ∧ sst.file.Fits)
    (hids : (tree.sstFiles.map SstReader.id).Nodup ∧ ∀ sst ∈ tree.sstFiles, sst.id < tree.nextSstId)
    (hjob : ∀ j ∈ job, JobValid tree j) : Inv env { s with tree := tree, job := job } where
  tracks := by rw [htm]; exact hs.tracks
  reflects := by
    refine ⟨fun k last hlast => hfirst k last hlast (hs.reflects.first k last hlast), ?_⟩
    intro layer hlayer e he
    obtain ⟨old, hold, he'⟩ := hmem layer hlayer e he
    exact hs.reflects.bounded old hold e he'
  apart := hapart
  files := hfiles
  ids := hids
  job := hjob

omit [ByteLen V] in
theorem apart_comm {l l' : List (Entry V)} (h : Apart l l') : Apart l' l :=
  fun a ha b hb heq => h b hb a ha heq.symm

variable {ssts : List (SstReader V)} {write : SstWrite} {sst : SstReader V}

omit [ByteLen V] in
theorem nodup_id_concat {n : Nat}
    (hids : (ssts.map SstReader.id).Nodup ∧ ∀ x ∈ ssts, x.id < n) (hid : sst.id = n) :
    ((ssts ++ [sst]).map SstReader.id).Nodup ∧ ∀ x ∈ ssts ++ [sst], x.id < n + 1 := by
  rw [map_append, nodup_append, forall_mem_append]
  refine ⟨⟨hids.1, by simp, ?_⟩, fun x hx => Nat.lt_succ_of_lt (hids.2 x hx), by simp [hid]⟩
  simp only [mem_map, map_cons, map_nil, mem_singleton]
  rintro _ ⟨x, hx, rfl⟩ _ rfl
  exact Nat.ne_of_lt (hid ▸ hids.2 x hx)

theorem Inv.rotated (hs : Inv env s) : Inv env { s with tree := s.tree.rotated } := by
  have hlayers := s.tree.layers_rotated
  refine Inv.relayer hs (show s.tree.rotated.txnManager = s.tree.txnManager from rfl) ?_ ?_ ?_
    hs.files ?_ hs.job
  · intro k last _ h
    rw [hlayers]
    exact .inr ⟨nofun, h⟩
  · rw [hlayers]
    intro layer hlayer e he
    rcases mem_cons.mp hlayer with rfl | hlayer
    · cases he
    · exact ⟨layer, hlayer, he⟩
  · rw [hlayers]
    exact pairwise_cons.mpr ⟨fun _ _ => nofun, hs.apart⟩
  · exact ⟨hs.ids.1, fun sst hsst => Nat.lt_succ_of_lt (hs.ids.2 sst hsst)⟩

theorem Inv.registered (hs : Inv env s)
    (hage : ∀ m ∈ s.tree.immutableMemtables, ∀ e ∈ s.tree.activeMemtable.entries,
      Lacks e.1.userKey m.entries)
    (hdata : sst.file.data = s.tree.activeMemtable.entries)
    (hfile : sst.file.WellFormed env ∧ sst.file.Fits) (hid : sst.id = s.tree.nextSstId) :
    Inv env { s with tree := s.tree.registered sst } := by
  have hlayers := s.tree.layers_registered hdata
  have hperm : (s.tree.immutableMemtables.reverse.map SortedMap.entries ++
      s.tree.activeMemtable.entries :: s.tree.sstFiles.reverse.map (·.file.data)).Perm
      s.tree.layers := perm_middle
  apply Inv.relayer hs (show (s.tree.registered sst).txnManager = s.tree.txnManager from rfl)
  · intro k last _ h
    rw [hlayers]
    refine .inr ⟨forall_mem_nil _, firstHit_append.mpr ?_⟩
    rcases h with h | ⟨hlacks, h⟩
    · refine .inr ⟨?_, .inl h⟩
      intro layer hlayer
      obtain ⟨m, hm, rfl⟩ := mem_map.mp hlayer
      exact hage m (mem_reverse.mp hm) _ h
    · exact (firstHit_append.mp h).imp_right fun h => ⟨h.1, .inr ⟨hlacks, h.2⟩⟩
  · rw [hlayers]
    intro layer hlayer e he
    rcases mem_cons.mp hlayer with rfl | hlayer
    · cases he
    · exact ⟨layer, hperm.mem_iff.mp hlayer, he⟩
  · rw [hlayers]
    refine pairwise_cons.mpr ⟨fun _ _ => forall_mem_nil _, ?_⟩
    exact (hperm.pairwise_iff fun h => apart_comm h).mpr hs.apart
  · rw [LsmTree.registered, forall_mem_append]
    exact ⟨hs.files, by simpa using hfile⟩
  · exact nodup_id_concat hs.ids hid
  · intro job hjob
    obtain ⟨inputs, newer, hsst, hpaths, hentries⟩ := hs.job job hjob
    exact ⟨inputs, newer ++ [sst], by simp [LsmTree.registered, hsst], hpaths, hentries⟩

theorem Inv.flush (hs : Inv env s) (hage : KeepsAge env s (.flush write)) :
    Inv env (s.step env (.flush write)) := by
  unfold Sys.step
  rcases s.tree.flushLocked_cases env write with
    ⟨-, htree⟩ | ⟨-, -, htree⟩ | ⟨-, hdone, sst, hopen, htree⟩
  · dsimp only
    rwa [htree]
  · dsimp only
    rw [htree]
    exact hs.rotated
  · subst hdone
    obtain ⟨hfile, hid⟩ := SstReader.file_of_open hopen
    dsimp only
    rw [htree]
    apply hs.registered hage.1
    · rw [hfile, SstWriter.data_writeAll]
    · rw [hfile]
      exact ⟨SstWriter.wellFormed_writeAll env _ s.tree.activeMemtable.sorted, hage.2⟩
    · exact hid

theorem Inv.compactBegin (hs : Inv env s) : Inv env (s.step env .compactBegin) := by
  unfold Sys.step LsmTree.compactBegin
  cases hjob : s.job with
  | some job => exact hs
  | none =>
    by_cases hlen : s.tree.sstFiles.length < 2
    · simpa only [if_pos hlen] using hs
    · simp only [if_neg hlen, mergeEntries_eq hs.files]
      refine { hs with job := ?_ }
      rintro _ ⟨⟩
      exact ⟨s.tree.sstFiles, [], (append_nil _).symm, rfl, rfl⟩

variable {inputs newer : List (SstReader V)} {e : Entry V}

omit [ByteLen V] in
theorem filter_merged (hids : ((inputs ++ newer).map SstReader.id).Nodup) :
    (inputs ++ newer).filter (fun sst => decide (sst.id ∉ inputs.map SstReader.id)) = newer := by
  rw [map_append, nodup_append] at hids
  rw [filter_append, filter_eq_nil_iff.mpr, nil_append, filter_eq_self]
  · intro sst hsst
    simpa using fun x hx heq => hids.2.2 _ (mem_map_of_mem hx) _ (mem_map_of_mem hsst) heq
  · intro sst hsst
    simpa using ⟨sst, hsst, rfl⟩

omit [ByteLen V] in
theorem sorted_merge (hfiles : ∀ sst ∈ ssts, sst.file.WellFormed env)
    (hapart : (ssts.map (·.file.data)).Pairwise Apart) :
    ((ssts.flatMap (·.file.data)).mergeSort fun a b => decide (a.1 ≤ b.1)).Pairwise
      fun a b => a.1 < b.1 := by
  have hne : (ssts.flatMap (·.file.data)).Pairwise fun a b => a.1 ≠ b.1 := by
    rw [pairwise_flatMap]
    refine ⟨fun sst hsst => (hfiles sst hsst).sorted.imp ne_of_lt, ?_⟩
    exact (pairwise_map.mp hapart).imp id
  have hle := @pairwise_mergeSort (Entry V) (fun a b => decide (a.1 ≤ b.1))
    (fun a b c => by simpa using le_trans) (fun a b => by simpa using le_total a.1 b.1)
    (ssts.flatMap (·.file.data))
  have hne' := ((mergeSort_perm (ssts.flatMap (·.file.data))
    fun a b => decide (a.1 ≤ b.1)).pairwise_iff fun h => Ne.symm h).mpr hne
  refine (hle.and hne').imp fun h => ?_
  exact lt_of_le_of_ne (of_decide_eq_true h.1) h.2

omit [ByteLen V] in
theorem mem_keepNeeded_of_newest {es : List (Entry V)} (minSnapshot : Nat)
    (hsorted : es.Pairwise fun a b => a.1 < b.1) (he : e ∈ es)
    (hmax : ∀ x ∈ es, x.1.userKey = e.1.userKey → x.1.version ≤ e.1.version) :
    e ∈ LsmTree.keepNeeded minSnapshot none false es := by
  obtain ⟨pre, post, rfl⟩ := append_of_mem he
  refine mem_keepNeeded minSnapshot ?_ nofun
  intro x hx hk
  have hlt : x.1 < e.1 := (pairwise_append.mp hsorted).2.2 x hx e mem_cons_self
  exact UInt64.not_lt.mpr (hmax x (mem_append_left _ hx) hk) (lt_version_of_lt hk hlt)

theorem Inv.compacted (hs : Inv env s) {inputs newer merged : List (SstReader V)}
    (hsplit : s.tree.sstFiles = inputs ++ newer)
    (hfirst : ∀ k last, latest s.history k = some last →
      FirstHit (Lacks k) (HasLatest k last) (inputs.reverse.map (·.file.data)) →
      FirstHit (Lacks k) (HasLatest k last) (merged.reverse.map (·.file.data)))
    (hmem : ∀ sst ∈ merged, ∀ e ∈ sst.file.data, ∃ old ∈ inputs, e ∈ old.file.data)
    (hapart : (merged.reverse.map (·.file.data)).Pairwise Apart)
    (hfiles : ∀ sst ∈ merged, sst.file.WellFormed env ∧ sst.file.Fits)
    (hids : ((merged ++ newer).map SstReader.id).Nodup ∧
      ∀ sst ∈ merged ++ newer, sst.id < s.tree.nextSstId + 1) :
    Inv env { s with tree := s.tree.compacted (merged ++ newer), job := none } := by
  have hold := s.tree.layers_eq hsplit
  have hnew : (s.tree.compacted (merged ++ newer)).layers =
      s.tree.layersAbove newer ++ merged.reverse.map (·.file.data) :=
    (s.tree.compacted (merged ++ newer)).layers_eq rfl
  have hpair := hs.apart
  rw [hold, pairwise_append] at hpair
  refine Inv.relayer hs
    (show (s.tree.compacted (merged ++ newer)).txnManager = s.tree.txnManager from rfl)
    ?_ ?_ ?_ ?_ hids nofun
  · intro k last hlast h
    rw [hold, firstHit_append] at h
    rw [hnew, firstHit_append]
    exact h.imp_right fun h => ⟨h.1, hfirst k last hlast h.2⟩
  · intro layer hlayer e he
    rw [hnew, mem_append] at hlayer
    rw [hold]
    rcases hlayer with hlayer | hlayer
    · exact ⟨layer, mem_append_left _ hlayer, he⟩
    · obtain ⟨sst, hsst, rfl⟩ := mem_map.mp hlayer
      obtain ⟨old, hin, he'⟩ := hmem sst (mem_reverse.mp hsst) e he
      exact ⟨old.file.data, mem_append_right _
        (mem_map_of_mem (mem_reverse.mpr hin)), he'⟩
  · rw [hnew, pairwise_append]
    refine ⟨hpair.1, hapart, ?_⟩
    intro above habove layer hlayer a ha b hb
    obtain ⟨sst, hsst, rfl⟩ := mem_map.mp hlayer
    obtain ⟨old, hin, hb'⟩ := hmem sst (mem_reverse.mp hsst) b hb
    exact hpair.2.2 above habove _ (mem_map_of_mem (mem_reverse.mpr hin)) a ha b hb'
  · have hfiles' := hs.files
    rw [hsplit, forall_mem_append] at hfiles'
    exact forall_mem_append.mpr ⟨hfiles, hfiles'.2⟩

omit [ByteLen V] in
theorem mem_merge :
    e ∈ (ssts.flatMap (·.file.data)).mergeSort (fun a b => decide (a.1 ≤ b.1)) ↔
      ∃ sst ∈ ssts, e ∈ sst.file.data := by
  rw [mem_mergeSort, mem_flatMap]

theorem Inv.sorted_inputs (hs : Inv env s) (hsplit : s.tree.sstFiles = inputs ++ newer) :
    ((inputs.flatMap (·.file.data)).mergeSort fun a b => decide (a.1 ≤ b.1)).Pairwise
      fun a b => a.1 < b.1 := by
  have hapart := hs.apart
  rw [s.tree.layers_eq hsplit, pairwise_append, map_reverse, pairwise_reverse]
    at hapart
  refine sorted_merge (fun sst h => (hs.files sst ?_).1) (hapart.2.1.imp fun h => apart_comm h)
  rw [hsplit]
  exact mem_append_left _ h

theorem Inv.hasLatest_merge (hs : Inv env s) (hsplit : s.tree.sstFiles = inputs ++ newer)
    (minSnapshot : Nat) {k : Bytes} {last : Nat × Option V} (hlast : latest s.history k = some last)
    (h : FirstHit (Lacks k) (HasLatest k last) (inputs.reverse.map (·.file.data))) :
    HasLatest k last (LsmTree.keepNeeded minSnapshot none false
      ((inputs.flatMap (·.file.data)).mergeSort fun a b => decide (a.1 ≤ b.1))) := by
  obtain ⟨layer, hlayer, hhit⟩ := h.exists_mem
  obtain ⟨sst, hsst, rfl⟩ := mem_map.mp hlayer
  refine mem_keepNeeded_of_newest minSnapshot (hs.sorted_inputs hsplit)
    (mem_merge.mpr ⟨sst, mem_reverse.mp hsst, hhit⟩) ?_
  intro x hx hk
  obtain ⟨old, hin, hx'⟩ := mem_merge.mp hx
  have hlayer' : old.file.data ∈ s.tree.layers := by
    rw [s.tree.layers_eq hsplit]
    exact mem_append_right _ (mem_map_of_mem (mem_reverse.mpr hin))
  obtain ⟨last', hlast', hle⟩ := hs.reflects.bounded _ hlayer' x hx'
  rw [hk, hlast] at hlast'
  cases hlast'
  have hle := (hs.tracks.latest_le k last hlast).trans hs.tracks.fits64
  rwa [UInt64.le_iff_toNat_le, toNat_ofNat_of_le hle]

theorem Inv.compactFinish (hs : Inv env s) (hage : KeepsAge env s (.compactFinish write)) :
    Inv env (s.step env (.compactFinish write)) := by
  unfold Sys.step
  cases hjob : s.job with
  | none => exact hs
  | some job =>
    obtain ⟨inputs, newer, hsplit, hpaths, hentries⟩ := hs.job job hjob
    have hids := hs.ids
    rw [hsplit] at hids
    have hnodup := nodup_append.mp (map_append (f := SstReader.id) ▸ hids.1)
    have hold : ∀ sst ∈ newer, sst.id < s.tree.nextSstId :=
      fun sst h => hids.2 sst (mem_append_right _ h)
    have hkept : s.tree.sstFiles.filter (fun sst => decide (sst.id ∉ job.mergedPaths)) = newer := by
      rw [hsplit, hpaths, filter_merged hids.1]
    have hlatest : ∀ k last, latest s.history k = some last → _ → _ :=
      fun k last => hs.hasLatest_merge (k := k) hsplit job.minSnapshot
    dsimp only
    rcases s.tree.compactFinish_cases env job write hkept rfl with
      htree | ⟨-, hnil, htree⟩ | ⟨hdone, sst, hopen, htree⟩
    · rw [htree]
      exact Inv.relayer hs (show (s.tree.compacted s.tree.sstFiles).txnManager = _ from rfl)
        (fun _ _ _ h => h) (fun layer h e he => ⟨layer, h, he⟩) hs.apart hs.files
        ⟨hs.ids.1, fun sst h => Nat.lt_succ_of_lt (hs.ids.2 sst h)⟩ nofun
    · rw [htree]
      refine @Inv.compacted V _ env s hs inputs newer [] hsplit ?_ nofun List.Pairwise.nil nofun
        ⟨hnodup.2.1, fun sst h => Nat.lt_succ_of_lt (hold sst h)⟩
      -- nothing survived the merge, so no last write was in the inputs
      intro k last hlast h
      have hhit := hlatest k last hlast h
      rw [← hentries, hnil] at hhit
      cases hhit
    · subst hdone
      obtain ⟨hfile, hid⟩ := SstReader.file_of_open hopen
      have hdata : sst.file.data = LsmTree.keepNeeded job.minSnapshot none false job.allEntries := by
        rw [hfile, SstWriter.data_writeAll]
      have hsub := keepNeeded_sublist job.minSnapshot none false job.allEntries
      rw [htree]
      refine @Inv.compacted V _ env s hs inputs newer [sst] hsplit ?_ ?_
        (pairwise_singleton _ _) ?_ ?_
      · intro k last hlast h
        left
        show HasLatest k last sst.file.data
        rw [hdata, hentries]
        exact hlatest k last hlast h
      · rw [forall_mem_singleton, hdata]
        intro e he
        exact mem_merge.mp (hentries ▸ hsub.subset he)
      · rw [forall_mem_singleton, hfile]
        refine ⟨SstWriter.wellFormed_writeAll env _ (List.Pairwise.sublist hsub ?_), hage job hjob⟩
        rw [hentries]
        exact hs.sorted_inputs hsplit
      · constructor
        · refine nodup_cons.mpr ⟨fun hmem => ?_, hnodup.2.1⟩
          obtain ⟨x, hx, heq⟩ := mem_map.mp hmem
          exact Nat.ne_of_lt (hold x hx) (heq.trans hid)
        · exact forall_mem_cons.mpr
            ⟨hid ▸ Nat.lt_succ_self _, fun x hx => Nat.lt_succ_of_lt (hold x hx)⟩

theorem Inv.step (hs : Inv env s) {call : Call V} (hage : KeepsAge env s call) :
    Inv env (s.step env call) := by
  cases call with
  | begin => exact hs.setTxnManager rfl rfl
  | commit txn => exact hs.commit txn
  | abort txn =>
    obtain ⟨hv, hn⟩ := LsmTree.abort_versions s.tree.txnManager txn
    exact hs.setTxnManager hv hn
  | flush write => exact hs.flush hage
  | compactBegin => exact hs.compactBegin
  | compactFinish write => exact hs.compactFinish hage

theorem Inv.sorted (hs : Inv env s) {layer : List (Entry V)} (hlayer : layer ∈ s.tree.layers) :
    layer.Pairwise fun a b => a.1 < b.1 := by
  simp only [LsmTree.layers, mem_cons, mem_append, mem_map, mem_reverse] at hlayer
  rcases hlayer with rfl | ⟨m, -, rfl⟩ | ⟨sst, hsst, rfl⟩
  · exact s.tree.activeMemtable.sorted
  · exact m.sorted
  · exact (hs.files sst hsst).1.sorted

theorem Inv.getAt_eq (hs : Inv env s) (hfree : PrefixFree (historyKeys s.history)) (k : Bytes) :
    s.tree.getAt env (UInt64.ofNat s.tree.txnManager.visibleVersion) k =
      .ok (lastValue s.history k) := by
  rw [LsmTree.getAt_eq hs.files fun layer h => hfree.mono (hs.reflects.userKeys_subset h),
    hs.reflects.read (fun layer h => hs.sorted h) hs.tracks.fits64 hs.tracks.latest_le]

/-- In every state reached by commits, flushes and compactions that keep the layers in age
order, a read at the published version returns the last commit's value. -/
theorem get_at_reads_last_commit (env : StorageEnv V) (c : SstCompression) (calls : List (Call V))
    (hage : Run.Along (Sys.step env) (KeepsAge env) (Sys.new c) calls)
    (hfree : PrefixFree (historyKeys (Run.exec (Sys.step env) (Sys.new c) calls).history))
    (k : Bytes) :
    (Run.exec (Sys.step env) (Sys.new c) calls).tree.getAt env
        (UInt64.ofNat (Run.exec (Sys.step env) (Sys.new c) calls).tree.readSnapshot) k =
      .ok (lastValue (Run.exec (Sys.step env) (Sys.new c) calls).history k) := by
  have hinv : Inv env (Run.exec (Sys.step env) (Sys.new c) calls) :=
    Run.exec_invariant (fun _ _ hs hcall => hs.step hcall) (inv_new c) hage
  exact hinv.getAt_eq hfree k

def plainEnv : StorageEnv Bytes := ⟨fun _ _ => 0, none⟩

/-- A key is overwritten, deleted while its two SSTs are merged, and the deletion's flush fails. -/
def mergedCalls : List (Call Bytes) :=
  [.begin, .commit ⟨0, [([107], some [1])], true⟩, .flush .done,
    .begin, .commit ⟨1, [([107], some [2])], true⟩, .flush .done, .compactBegin,
    .begin, .commit ⟨2, [([107], none)], true⟩, .flush .failed, .compactFinish .done]

theorem keepsAge_mergedCalls :
    Run.Along (Sys.step plainEnv) (KeepsAge plainEnv) (Sys.new .none) mergedCalls := by
  have hfits : ∀ es, (SstWriter.writeAll plainEnv .none es).Fits := nofun
  refine ⟨trivial, trivial, ⟨nofun, hfits _⟩, trivial, trivial, ⟨nofun, hfits _⟩, trivial,
    trivial, trivial, trivial, fun _ _ => hfits _, trivial⟩

theorem get_at_reads_last_commit_merged :
    (Run.exec (Sys.step plainEnv) (Sys.new .none) mergedCalls).tree.getAt plainEnv
        (UInt64.ofNat (Run.exec (Sys.step plainEnv) (Sys.new .none) mergedCalls).tree.readSnapshot)
        [107] =
      .ok (lastValue (Run.exec (Sys.step plainEnv) (Sys.new .none) mergedCalls).history [107]) :=
  get_at_reads_last_commit plainEnv .none mergedCalls keepsAge_mergedCalls
    (prefixFree_of_length (n := 1) (by decide)) [107]

/-- One key is written, its flush fails, it is written again and that flush succeeds. -/
def strandedCalls : List (Call Bytes) :=
  [.begin, .commit ⟨0, [([107], some [1])], true⟩, .flush .failed,
    .begin, .commit ⟨1, [([107], some [2])], true⟩, .flush .done]

theorem stranded_memtable_read : ¬ ∀ (env : StorageEnv Bytes) (c : SstCompression)
    (calls : List (Call Bytes)),
    PrefixFree (historyKeys (Run.exec (Sys.step env) (Sys.new c) calls).history) → ∀ k,
    (Run.exec (Sys.step env) (Sys.new c) calls).tree.getAt env
        (UInt64.ofNat (Run.exec (Sys.step env) (Sys.new c) calls).tree.readSnapshot) k =
      .ok (lastValue (Run.exec (Sys.step env) (Sys.new c) calls).history k) := by
  intro hall
  have h := hall plainEnv .none strandedCalls ?_ [107]
  · exact absurd h (by decide)
  · exact prefixFree_of_length (n := 1) (by decide)

end LsmRun

end RhypeDb.Storage
