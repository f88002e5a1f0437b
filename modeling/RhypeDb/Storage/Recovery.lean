import RhypeDb.Basic.Run
import RhypeDb.Storage.LsmStep

/-! Recovery: a process that committed and flushed dies, and `LsmTree::open` rebuilds the tree
from the SST files and the log. Only what the log or an SST holds comes back, so a flush that
resets the log must put every key the log holds into its SST. A memtable that a failed flush
left over is in the log only. -/

namespace RhypeDb.Storage

open Layered List UInt64

variable {V : Type}

structure DataDir (V : Type) where
  sst : List (Nat × SstFile V)
  wal : List (WalRecord V)

namespace LsmTree

variable [ByteLen V]

def openSst (f : Nat × SstFile V) : Except Error (UInt64 × SstReader V) := do
  let reader ← SstReader.open f.1 f.2
  let sstMaxVersion ← reader.file.maxVersion
  return (sstMaxVersion, reader)

def olderSst (a b : UInt64 × SstReader V) : Bool :=
  decide (a.1 < b.1 ∨ a.1 = b.1 ∧ a.2.id ≤ b.2.id)

def «open» (blockCompression : SstCompression) (dir : DataDir V) : Except Error (LsmTree V) := do
  let withId ← dir.sst.mapM openSst
  let (records, validLen) := Wal.replayWithValidLen dir.wal
  let maxVersion := records.foldl (fun acc r => max acc r.version)
    (withId.foldl (fun acc x => max acc x.1.toNat) 0)
  return {
    blockCompression
    activeMemtable := records.foldl WalRecord.apply .new
    immutableMemtables := []
    sstFiles := (withId.mergeSort olderSst).map Prod.snd
    wal := dir.wal.take validLen
    txnManager := .recoverAtVersion maxVersion
    nextSstId := withId.foldl (fun acc x => max acc x.2.id) 0 + 1 }

end LsmTree

namespace Recovery

def replayed (wal : List (WalRecord V)) : MemTable V :=
  (Wal.replay wal).foldl WalRecord.apply .new

inductive Call (V : Type)
  | begin
  | commit (txn : Transaction Bytes V)
  | abort (txn : Transaction Bytes V)
  | flush (write : SstWrite)

structure Sys (V : Type) where
  tree : LsmTree V
  sstDir : List (Nat × SstFile V)
  history : History V

namespace Sys

variable [ByteLen V]

def new (blockCompression : SstCompression) : Sys V :=
  { tree := .new blockCompression, sstDir := [], history := [] }

/-- The file a flush leaves behind; a failed write's temporary file is unlinked. -/
def flushedFile (env : StorageEnv V) (tree : LsmTree V) : SstWrite → List (Nat × SstFile V)
  | .failed => []
  | .done =>
    if tree.activeMemtable.isEmpty then []
    else [(tree.nextSstId,
      SstWriter.writeAll env tree.blockCompression tree.activeMemtable.entries)]

def step (env : StorageEnv V) (s : Sys V) : Call V → Sys V
  | .begin =>
    { s with tree := s.tree.setTxnManager (TransactionManager.begin (V := V) s.tree.txnManager).1 }
  | .commit txn =>
    { s with
      tree := (s.tree.record s.history txn).1
      history := (s.tree.record s.history txn).2 }
  | .abort txn => { s with tree := s.tree.setTxnManager (s.tree.txnManager.abort txn).1 }
  | .flush write =>
    { s with
      tree := (s.tree.flushLocked env write).2
      sstDir := s.sstDir ++ flushedFile env s.tree write }

end Sys

variable [ByteLen V]

/-- A flush that resets the log has every key of the log in its memtable, and what is written
as v6 stays within the block cap. -/
def CoversLog (env : StorageEnv V) (s : Sys V) : Call V → Prop
  | .flush .done => s.tree.activeMemtable.isEmpty = false →
    (∀ e ∈ (replayed s.tree.wal).entries,
      ∃ e' ∈ s.tree.activeMemtable.entries, e'.1.userKey = e.1.userKey) ∧
    (SstWriter.writeAll env s.tree.blockCompression s.tree.activeMemtable.entries).Fits
  | _ => True

section

omit [ByteLen V]

theorem foldl_apply_ofWrite (m : MemTable V) (v : Nat) (writes : Writes Bytes V) :
    (writes.map (WalRecord.ofWrite v)).foldl WalRecord.apply m = LsmTree.applyWrites m v writes := by
  rw [LsmTree.applyWrites, foldl_map]
  congr 1
  funext m w
  obtain ⟨k, _ | value⟩ := w <;> rfl

theorem replayed_appendTxn {wal : List (WalRecord V)} (h : Wal.Whole wal)
    {writes : Writes Bytes V} (hw : writes ≠ []) (v : Nat) :
    replayed (Wal.appendTxn wal writes v) = LsmTree.applyWrites (replayed wal) v writes := by
  rw [replayed, h.replay_appendTxn hw, foldl_append, foldl_apply_ofWrite]
  rfl

theorem exists_record_of_mem {records : List (WalRecord V)} {m : MemTable V} {e : Entry V}
    (he : e ∈ (records.foldl WalRecord.apply m).entries) :
    e ∈ m.entries ∨ ∃ r ∈ records, e.1.version = UInt64.ofNat r.version := by
  induction records generalizing m with
  | nil => exact .inl he
  | cons r records ih =>
    rcases ih he with hm | ⟨r', hr', hver⟩
    · have hone : e ∈ m.entries ∨ e.1.version = UInt64.ofNat r.version := by
        cases r with
        | put key value version =>
          rcases (SortedMap.mem_insert ..).mp hm with rfl | ⟨hm, -⟩
          · exact .inr rfl
          · exact .inl hm
        | delete key version =>
          rcases (SortedMap.mem_insert ..).mp hm with rfl | ⟨hm, -⟩
          · exact .inr rfl
          · exact .inl hm
        | commit count version => exact .inl hm
      exact hone.imp_right fun hver => ⟨r, mem_cons_self, hver⟩
    · exact .inr ⟨r', mem_cons_of_mem r hr', hver⟩

omit [ByteLen V]

theorem foldl_max_le {α : Type*} (f : α → Nat) (l : List α) (a b : Nat) :
    l.foldl (fun acc x => max acc (f x)) a ≤ b ↔ a ≤ b ∧ ∀ x ∈ l, f x ≤ b := by
  induction l generalizing a with
  | nil => simp
  | cons x l ih => simp only [foldl_cons, ih, max_le_iff, forall_mem_cons, and_assoc]

theorem toNat_foldl_max (es : List (Entry V)) (a : UInt64) :
    (es.foldl (fun acc e => max acc e.1.version) a).toNat =
      es.foldl (fun acc e => max acc e.1.version.toNat) a.toNat := by
  induction es generalizing a with
  | nil => rfl
  | cons e es ih =>
    have hmax : (max a e.1.version).toNat = max a.toNat e.1.version.toNat := by
      show (if a ≤ e.1.version then e.1.version else a).toNat = _
      rw [Nat.max_def]
      by_cases h : a ≤ e.1.version
      · rw [if_pos h, if_pos (le_iff_toNat_le.mp h)]
      · rw [if_neg h, if_neg fun h' => h (le_iff_toNat_le.mpr h')]
    rw [foldl_cons, foldl_cons, ih, hmax]

def topVersion (es : List (Entry V)) : UInt64 := es.foldl (fun acc e => max acc e.1.version) 0

theorem topVersion_le {es : List (Entry V)} {b : Nat} :
    (topVersion es).toNat ≤ b ↔ ∀ e ∈ es, e.1.version.toNat ≤ b := by
  rw [topVersion, toNat_foldl_max, foldl_max_le]
  simp

def Older (l l' : List (Entry V)) : Prop := ∀ a ∈ l, ∀ b ∈ l', a.1.version < b.1.version

theorem Older.topVersion_lt {l l' : List (Entry V)} (h : Older l l') (hne : l ≠ [])
    (hne' : l' ≠ []) : topVersion l < topVersion l' := by
  obtain ⟨x, hx⟩ := exists_mem_of_ne_nil l hne
  obtain ⟨y, hy⟩ := exists_mem_of_ne_nil l' hne'
  have hlt : ∀ a ∈ l, a.1.version.toNat < y.1.version.toNat :=
    fun a ha => lt_iff_toNat_lt.mp (h a ha y hy)
  have hle : (topVersion l).toNat ≤ y.1.version.toNat - 1 :=
    topVersion_le.mpr fun a ha => Nat.le_sub_one_of_lt (hlt a ha)
  have htop : y.1.version.toNat ≤ (topVersion l').toNat := topVersion_le.mp le_rfl y hy
  have hpos := hlt x hx
  rw [lt_iff_toNat_lt]
  omega

end

structure Inv (env : StorageEnv V) (s : Sys V) : Prop where
  tracks : Tracks s.tree.txnManager s.history
  whole : Wal.Whole s.tree.wal
  logged : ∀ r ∈ Wal.replay s.tree.wal, r.version ≤ s.tree.txnManager.visibleVersion
  sstDir : s.sstDir = s.tree.sstFiles.map fun sst => (sst.id, sst.file)
  files : ∀ sst ∈ s.tree.sstFiles, sst.file.WellFormed env ∧ sst.file.Fits
  opened : ∀ sst ∈ s.tree.sstFiles, SstReader.open sst.id sst.file = .ok sst
  nonempty : ∀ sst ∈ s.tree.sstFiles, sst.file.data ≠ []
  reflects : Reflects s.history
    ((replayed s.tree.wal).entries :: s.tree.sstFiles.reverse.map (·.file.data))
  active : ∀ e ∈ s.tree.activeMemtable.entries, e ∈ (replayed s.tree.wal).entries
  own : ∀ k last, latest s.history k = some last →
    Lacks k s.tree.activeMemtable.entries ∨ HasLatest k last s.tree.activeMemtable.entries
  older : s.tree.sstFiles.Pairwise fun a b => Older a.file.data b.file.data
  newer : ∀ sst ∈ s.tree.sstFiles, Older sst.file.data s.tree.activeMemtable.entries

variable {env : StorageEnv V} {s : Sys V}

theorem inv_new (c : SstCompression) : Inv env (Sys.new c : Sys V) where
  tracks := ⟨rfl, Nat.zero_le _, nofun⟩
  whole := Wal.whole_nil
  logged := nofun
  sstDir := rfl
  files := nofun
  opened := nofun
  nonempty := nofun
  reflects := by
    refine ⟨nofun, ?_⟩
    simp [Sys.new, LsmTree.new, replayed, Wal.replay, Wal.replayWithValidLen, Wal.replayFrom,
      MemTable.new, SortedMap.empty]
  active := nofun
  own := nofun
  older := List.Pairwise.nil
  newer := nofun

variable {tm : TransactionManager Bytes}

theorem Inv.setTxnManager (hs : Inv env s)
    (hv : tm.visibleVersion = s.tree.txnManager.visibleVersion)
    (hn : tm.nextVersion = s.tree.txnManager.nextVersion) :
    Inv env { s with tree := s.tree.setTxnManager tm } :=
  { hs with
    tracks := hs.tracks.congr hv hn
    logged := fun r hr => hv ▸ hs.logged r hr }

theorem Inv.publish (hs : Inv env s) (hroom : s.tree.txnManager.nextVersion ≤ u64Max)
    (hv : tm.visibleVersion = s.tree.txnManager.nextVersion)
    (hn : tm.nextVersion = s.tree.txnManager.nextVersion + 1) {writes : Writes Bytes V}
    (hw : writes ≠ []) :
    Inv env { s with
      tree := s.tree.committed tm writes
      history := s.history ++ [(s.tree.txnManager.nextVersion, writes)] } := by
  have hlt := hs.tracks.lt_next
  have hreplayed := replayed_appendTxn hs.whole hw s.tree.txnManager.nextVersion
  refine { hs with
    tracks := hs.tracks.publish hroom hv hn writes
    whole := hs.whole.appendTxn hw _
    logged := ?_
    reflects := ?_
    active := ?_
    own := ?_
    newer := ?_ }
  · intro r hr
    simp only [LsmTree.committed, hv]
    rw [LsmTree.committed, hs.whole.replay_appendTxn hw, mem_append, mem_map] at hr
    rcases hr with hr | ⟨⟨k, _ | value⟩, -, rfl⟩
    · have hle := hs.logged r hr
      have hnext := hs.tracks.next
      omega
    · exact le_rfl
    · exact le_rfl
  · simp only [LsmTree.committed, hreplayed]
    exact hs.reflects.publish hroom (fun k last h => (hlt k last h).le) writes
  · intro e he
    simp only [LsmTree.committed, hreplayed]
    rw [mem_applyWrites]
    rcases (mem_applyWrites _ _ _ _).mp he with h | ⟨hold, hn⟩
    · exact .inl h
    · exact .inr ⟨hs.active e hold, hn⟩
  · intro k last hlast
    rcases latest_publish s.tree.activeMemtable hlast with hhit | ⟨hold, hhit, hlacks⟩
    · exact .inr hhit
    · exact (hs.own k last hold).imp hlacks hhit
  · intro sst hsst a ha b hb
    rcases (mem_applyWrites _ _ _ _).mp hb with ⟨hver, -⟩ | ⟨hold, -⟩
    · obtain ⟨last, hlast, hle⟩ := hs.reflects.bounded sst.file.data
        (mem_cons_of_mem _ (mem_map_of_mem (mem_reverse.mpr hsst))) a ha
      rw [lt_iff_toNat_lt, hver, toNat_ofNat_of_le hroom]
      exact Nat.lt_of_le_of_lt hle (hlt _ last hlast)
    · exact hs.newer sst hsst a ha b hold

theorem Inv.commit (hs : Inv env s) (txn : Transaction Bytes V) :
    Inv env (s.step env (.commit txn)) := by
  simp only [Sys.step]
  rcases s.tree.record_cases s.history txn with
    ⟨tm, hrecord, hv, hn⟩ | ⟨tm, hrecord, hroom, hw, hv, hn⟩
  · rw [hrecord]
    exact hs.setTxnManager hv hn
  · rw [hrecord]
    exact hs.publish hroom hv hn hw

theorem Inv.rotated (hs : Inv env s) : Inv env { s with tree := s.tree.rotated } :=
  { hs with
    active := nofun
    own := fun _ _ _ => .inl nofun
    newer := fun _ _ _ _ => nofun }

theorem Inv.registered (hs : Inv env s) {sst : SstReader V}
    (hcover : ∀ e ∈ (replayed s.tree.wal).entries,
      ∃ e' ∈ s.tree.activeMemtable.entries, e'.1.userKey = e.1.userKey)
    (hdata : sst.file.data = s.tree.activeMemtable.entries)
    (hnonempty : sst.file.data ≠ []) (hfile : sst.file.WellFormed env ∧ sst.file.Fits)
    (hopen : SstReader.open sst.id sst.file = .ok sst) :
    Inv env { s with
      tree := s.tree.registered sst
      sstDir := s.sstDir ++ [(sst.id, sst.file)] } := by
  refine { hs with
    whole := Wal.whole_nil
    logged := forall_mem_nil _
    sstDir := ?_
    files := ?_
    opened := ?_
    nonempty := ?_
    reflects := ?_
    active := forall_mem_nil _
    own := fun _ _ _ => .inl (forall_mem_nil _)
    older := ?_
    newer := fun _ _ _ _ => forall_mem_nil _ }
  · simp [LsmTree.registered, hs.sstDir]
  · exact forall_mem_append.mpr ⟨hs.files, forall_mem_singleton.mpr hfile⟩
  · exact forall_mem_append.mpr ⟨hs.opened, forall_mem_singleton.mpr hopen⟩
  · exact forall_mem_append.mpr ⟨hs.nonempty, forall_mem_singleton.mpr hnonempty⟩
  · have hlayers : (s.tree.registered sst).sstFiles.reverse.map (·.file.data) =
        s.tree.activeMemtable.entries :: s.tree.sstFiles.reverse.map (·.file.data) := by
      simp [LsmTree.registered, hdata]
    rw [hlayers]
    constructor
    · intro k last hlast
      refine .inr ⟨forall_mem_nil _, ?_⟩
      rcases hs.own k last hlast with hlacks | hhit
      · rcases hs.reflects.first k last hlast with hlog | ⟨-, hrest⟩
        · obtain ⟨e, he, hk⟩ := hcover _ hlog
          exact absurd hk (hlacks e he)
        · exact .inr ⟨hlacks, hrest⟩
      · exact .inl hhit
    · rw [forall_mem_cons, forall_mem_cons]
      refine ⟨forall_mem_nil _, ?_, ?_⟩
      · exact fun e he => hs.reflects.bounded _ mem_cons_self e (hs.active e he)
      · exact fun layer h => hs.reflects.bounded layer (mem_cons_of_mem _ h)
  · refine pairwise_append.mpr ⟨hs.older, pairwise_singleton _ _, ?_⟩
    intro a ha b hb
    rw [mem_singleton.mp hb, hdata]
    exact hs.newer a ha

theorem Inv.flush (hs : Inv env s) {write : SstWrite} (hcover : CoversLog env s (.flush write)) :
    Inv env (s.step env (.flush write)) := by
  unfold Sys.step
  dsimp only
  rcases s.tree.flushLocked_cases env write with
    ⟨hempty, htree⟩ | ⟨hempty, hfail, htree⟩ | ⟨hempty, hdone, sst, hopen, htree⟩
  · have hfile : Sys.flushedFile env s.tree write = [] := by
      cases write <;> simp [Sys.flushedFile, hempty]
    rwa [htree, hfile, append_nil]
  · rcases hfail with rfl | ⟨e, herr⟩
    · rw [htree, Sys.flushedFile, append_nil]
      exact hs.rotated
    · cases write with
      | failed =>
        rw [htree, Sys.flushedFile, append_nil]
        exact hs.rotated
      | done =>
        -- a file within the cap opens
        have hwf := SstWriter.wellFormed_writeAll env s.tree.blockCompression
          s.tree.activeMemtable.sorted
        obtain ⟨sst, hok, -⟩ := SstReader.open_of_fits hwf (hcover hempty).2 s.tree.nextSstId
        rw [herr] at hok
        cases hok
  · subst hdone
    obtain ⟨hfile, hid⟩ := SstReader.file_of_open hopen
    obtain ⟨hkeys, hfits⟩ := hcover hempty
    have hdata : sst.file.data = s.tree.activeMemtable.entries := by
      rw [hfile, SstWriter.data_writeAll]
    rw [htree, Sys.flushedFile, hempty, if_neg Bool.false_ne_true, ← hid, ← hfile]
    apply hs.registered hkeys hdata
    · rw [hdata]
      exact fun hnil => by simp [MemTable.isEmpty, hnil] at hempty
    · rw [hfile]
      exact ⟨SstWriter.wellFormed_writeAll env _ s.tree.activeMemtable.sorted, hfits⟩
    · rw [hfile, hid]
      exact hopen

theorem Inv.step (hs : Inv env s) {call : Call V} (hcover : CoversLog env s call) :
    Inv env (s.step env call) := by
  cases call with
  | begin => exact hs.setTxnManager rfl rfl
  | commit txn => exact hs.commit txn
  | abort txn =>
    obtain ⟨hv, hn⟩ := LsmTree.abort_versions s.tree.txnManager txn
    exact hs.setTxnManager hv hn
  | flush write => exact hs.flush hcover

section

theorem mapM_cons_ok {α β ε : Type*} {f : α → Except ε β} {a : α} {l : List α} {w : List β} :
    (a :: l).mapM f = .ok w ↔ ∃ b bs, f a = .ok b ∧ l.mapM f = .ok bs ∧ w = b :: bs := by
  rw [mapM_cons]
  cases f a with
  | error e => simp [bind, Except.bind]
  | ok b =>
    cases l.mapM f with
    | error e => simp [bind, Except.bind]
    | ok bs => simp [bind, Except.bind, pure, Except.pure, eq_comm]

theorem mapM_perm {α β ε : Type*} {f : α → Except ε β} {l l' : List α} (h : l.Perm l')
    {w' : List β} (hw : l'.mapM f = .ok w') : ∃ w, l.mapM f = .ok w ∧ w.Perm w' := by
  induction h generalizing w' with
  | nil => exact ⟨w', hw, .refl _⟩
  | cons a _ ih =>
    obtain ⟨b, bs, hb, hbs, rfl⟩ := mapM_cons_ok.mp hw
    obtain ⟨w, hw, hperm⟩ := ih hbs
    exact ⟨b :: w, mapM_cons_ok.mpr ⟨b, w, hb, hw, rfl⟩, hperm.cons b⟩
  | swap a a' l =>
    obtain ⟨b, _, hb, hrest, rfl⟩ := mapM_cons_ok.mp hw
    obtain ⟨b', bs, hb', hbs, rfl⟩ := mapM_cons_ok.mp hrest
    exact ⟨b' :: b :: bs, mapM_cons_ok.mpr ⟨b', _, hb', mapM_cons_ok.mpr ⟨b, bs, hb, hbs, rfl⟩, rfl⟩,
      .swap b b' bs⟩
  | trans _ _ ih ih' =>
    obtain ⟨w₂, hw₂, hperm₂⟩ := ih' hw
    obtain ⟨w₁, hw₁, hperm₁⟩ := ih hw₂
    exact ⟨w₁, hw₁, hperm₁.trans hperm₂⟩

theorem openSst_eq {sst : SstReader V} (hfile : sst.file.WellFormed env ∧ sst.file.Fits)
    (hopen : SstReader.open sst.id sst.file = .ok sst) :
    LsmTree.openSst (sst.id, sst.file) = .ok (topVersion sst.file.data, sst) := by
  unfold LsmTree.openSst SstFile.maxVersion
  rw [hopen]
  simp only [bind, Except.bind, hfile.1.tryForEachEntry_eq hfile.2]
  rfl

variable {ssts : List (SstReader V)} {b a : UInt64 × SstReader V}

theorem mapM_openSst (hfiles : ∀ sst ∈ ssts, sst.file.WellFormed env ∧ sst.file.Fits)
    (hopened : ∀ sst ∈ ssts, SstReader.open sst.id sst.file = .ok sst) :
    (ssts.map fun sst => (sst.id, sst.file)).mapM LsmTree.openSst =
      .ok (ssts.map fun sst => (topVersion sst.file.data, sst)) := by
  induction ssts with
  | nil => rfl
  | cons sst ssts ih =>
    rw [forall_mem_cons] at hfiles hopened
    exact mapM_cons_ok.mpr ⟨_, _, openSst_eq hfiles.1 hopened.1, ih hfiles.2 hopened.2, rfl⟩

omit [ByteLen V] in
theorem olderSst_iff : LsmTree.olderSst a b = true ↔ a.1 < b.1 ∨ a.1 = b.1 ∧ a.2.id ≤ b.2.id := by
  simp [LsmTree.olderSst]

omit [ByteLen V] in
theorem olderSst_trans {c : UInt64 × SstReader V} (hab : LsmTree.olderSst a b)
    (hbc : LsmTree.olderSst b c) : LsmTree.olderSst a c := by
  rw [olderSst_iff] at *
  rcases hab with hab | ⟨hab, hid⟩
  · rcases hbc with hbc | ⟨hbc, -⟩
    · exact .inl (UInt64.lt_trans hab hbc)
    · exact .inl (hbc ▸ hab)
  · rcases hbc with hbc | ⟨hbc, hid'⟩
    · exact .inl (hab ▸ hbc)
    · exact .inr ⟨hab.trans hbc, hid.trans hid'⟩

omit [ByteLen V] in
theorem olderSst_total (a b : UInt64 × SstReader V) :
    (LsmTree.olderSst a b || LsmTree.olderSst b a) = true := by
  rw [Bool.or_eq_true, olderSst_iff, olderSst_iff]
  by_cases hlt : a.1 < b.1
  · exact .inl (.inl hlt)
  · by_cases heq : a.1 = b.1
    · exact (Nat.le_total a.2.id b.2.id).imp (fun h => .inr ⟨heq, h⟩) fun h => .inr ⟨heq.symm, h⟩
    · exact .inr (.inl (UInt64.lt_of_le_of_ne (UInt64.not_lt.mp hlt) (Ne.symm heq)))

omit [ByteLen V] in
theorem mergeSort_olderSst {withId : List (UInt64 × SstReader V)}
    (hperm : withId.Perm (ssts.map fun sst => (topVersion sst.file.data, sst)))
    (hnonempty : ∀ sst ∈ ssts, sst.file.data ≠ [])
    (holder : ssts.Pairwise fun a b => Older a.file.data b.file.data) :
    withId.mergeSort LsmTree.olderSst = ssts.map fun sst => (topVersion sst.file.data, sst) := by
  have hlt : (ssts.map fun sst => (topVersion sst.file.data, sst)).Pairwise
      fun a b => a.1 < b.1 := by
    rw [pairwise_map]
    exact holder.imp_of_mem fun ha hb h => h.topVersion_lt (hnonempty _ ha) (hnonempty _ hb)
  have hsorted := @pairwise_mergeSort _ (@LsmTree.olderSst V)
    (fun _ _ _ => olderSst_trans) olderSst_total withId
  have hfst : ((ssts.map fun sst => (topVersion sst.file.data, sst)).map Prod.fst).Nodup := by
    rw [nodup_iff_pairwise_ne, pairwise_map]
    exact hlt.imp fun h => UInt64.ne_of_lt h
  have hperm' := (mergeSort_perm withId LsmTree.olderSst).trans hperm
  refine List.Perm.eq_of_pairwise ?_ hsorted (hlt.imp fun h => olderSst_iff.mpr (.inl h)) hperm'
  intro a b ha hb hab hba
  refine inj_on_of_nodup_map hfst (hperm'.mem_iff.mp ha) hb ?_
  rcases olderSst_iff.mp hab with hlt | ⟨heq, -⟩
  · rcases olderSst_iff.mp hba with hlt' | ⟨heq, -⟩
    · exact absurd hlt (UInt64.lt_asymm hlt')
    · exact heq.symm
  · exact heq

variable {sst : List (Nat × SstFile V)}

theorem Inv.open_eq (hs : Inv env s) (c : SstCompression) (hperm : sst.Perm s.sstDir) :
    ∃ tree, LsmTree.open c ⟨sst, s.tree.wal⟩ = .ok tree ∧
      tree.sstFiles = s.tree.sstFiles ∧ tree.immutableMemtables = [] ∧
      tree.activeMemtable = replayed s.tree.wal ∧ tree.readSnapshot ≤ u64Max ∧
      ∀ k last, latest s.history k = some last → last.1 ≤ tree.readSnapshot := by
  have hdir := mapM_openSst hs.files hs.opened
  rw [← hs.sstDir] at hdir
  obtain ⟨withId, hmap, hperm'⟩ := mapM_perm hperm hdir
  have hsort := mergeSort_olderSst hperm' hs.nonempty hs.older
  have hmem : ∀ x, x ∈ withId ↔ ∃ sst ∈ s.tree.sstFiles, (topVersion sst.file.data, sst) = x := by
    intro x
    rw [hperm'.mem_iff, mem_map]
  refine ⟨_, by rw [LsmTree.open, hmap, hs.whole.replayWithValidLen]; rfl, ?_, rfl, rfl, ?_, ?_⟩
  · rw [hsort, map_map]
    exact map_id' _
  · show List.foldl _ _ _ ≤ u64Max
    rw [foldl_max_le, foldl_max_le]
    refine ⟨⟨Nat.zero_le _, ?_⟩, fun r hr => (hs.logged r hr).trans hs.tracks.fits64⟩
    exact fun x _ => Nat.le_of_lt_succ (toNat_lt x.1)
  · intro k last hlast
    have hof := toNat_ofNat_of_le ((hs.tracks.latest_le k last hlast).trans hs.tracks.fits64)
    have hmax := (foldl_max_le WalRecord.version (Wal.replay s.tree.wal)
      (withId.foldl (fun acc x => max acc x.1.toNat) 0) _).mp le_rfl
    have hmax' := (foldl_max_le (fun x : UInt64 × SstReader V => x.1.toNat) withId 0 _).mp hmax.1
    obtain ⟨layer, hlayer, hhit⟩ := (hs.reflects.first k last hlast).exists_mem
    rcases mem_cons.mp hlayer with rfl | hlayer
    · rcases exists_record_of_mem hhit with hnil | ⟨r, hr, hver⟩
      · cases hnil
      · have hr' := toNat_ofNat_of_le ((hs.logged r hr).trans hs.tracks.fits64)
        have hlast' : last.1 = r.version := by rw [← hof, ← hr']; exact congrArg UInt64.toNat hver
        rw [hlast']
        exact hmax.2 r hr
    · obtain ⟨sst, hsst, rfl⟩ := mem_map.mp hlayer
      have htop := topVersion_le.mp le_rfl _ hhit
      rw [hof] at htop
      exact htop.trans (hmax'.2 _ ((hmem _).mpr ⟨sst, mem_reverse.mp hsst, rfl⟩))

theorem Inv.open_reads (hs : Inv env s) (hfree : PrefixFree (historyKeys s.history))
    (c : SstCompression) (hperm : sst.Perm s.sstDir) :
    ∃ tree, LsmTree.open c ⟨sst, s.tree.wal⟩ = .ok tree ∧
      (∀ x ∈ tree.sstFiles, x.file.WellFormed env ∧ x.file.Fits) ∧
      (∀ layer ∈ tree.layers, PrefixFree (userKeys layer)) ∧
      ∀ k, (tree.layers.findSome? fun layer =>
        readNewest layer k (UInt64.ofNat tree.readSnapshot)).join = lastValue s.history k := by
  obtain ⟨tree, hopen, hssts, himm, hactive, hroom, hle⟩ := hs.open_eq c hperm
  have hlayers : tree.layers =
      (replayed s.tree.wal).entries :: s.tree.sstFiles.reverse.map (·.file.data) := by
    rw [LsmTree.layers, hssts, himm, hactive]
    rfl
  have hreflects := hs.reflects
  rw [← hlayers] at hreflects
  have hfiles := hs.files
  rw [← hssts] at hfiles
  refine ⟨tree, hopen, hfiles, fun layer h => hfree.mono (hreflects.userKeys_subset h), ?_⟩
  apply hreflects.read ?_ hroom hle
  intro layer hlayer
  rw [hlayers, mem_cons, mem_map] at hlayer
  rcases hlayer with rfl | ⟨x, hx, rfl⟩
  · exact (replayed s.tree.wal).sorted
  · exact (hs.files x (mem_reverse.mp hx)).1.sorted

theorem Inv.getAt_eq (hs : Inv env s) (hfree : PrefixFree (historyKeys s.history))
    (c : SstCompression) (hperm : sst.Perm s.sstDir) :
    ∃ tree, LsmTree.open c ⟨sst, s.tree.wal⟩ = .ok tree ∧
      ∀ k, tree.getAt env (UInt64.ofNat tree.readSnapshot) k = .ok (lastValue s.history k) := by
  obtain ⟨tree, hopen, hfiles, hkeys, hreads⟩ := hs.open_reads hfree c hperm
  refine ⟨tree, hopen, fun k => ?_⟩
  rw [LsmTree.getAt_eq hfiles hkeys, hreads]

end

/-- After every run whose flushes cover the log they reset, a crash loses nothing: the tree
opens, and reads at the recovered version return the last commit's value. -/
theorem recovered_reads_last_commit (env : StorageEnv V) (c c' : SstCompression)
    (calls : List (Call V)) (hcover : Run.Along (Sys.step env) (CoversLog env) (Sys.new c) calls)
    (hfree : PrefixFree (historyKeys (Run.exec (Sys.step env) (Sys.new c) calls).history))
    (sst : List (Nat × SstFile V))
    (hsst : sst.Perm (Run.exec (Sys.step env) (Sys.new c) calls).sstDir) :
    ∃ tree, LsmTree.open c' ⟨sst, (Run.exec (Sys.step env) (Sys.new c) calls).tree.wal⟩ = .ok tree ∧
      ∀ k, tree.getAt env (UInt64.ofNat tree.readSnapshot) k =
        .ok (lastValue (Run.exec (Sys.step env) (Sys.new c) calls).history k) := by
  have hinv : Inv env (Run.exec (Sys.step env) (Sys.new c) calls) :=
    Run.exec_invariant (fun _ _ hs hcall => hs.step hcall) (inv_new c) hcover
  exact hinv.getAt_eq hfree c' hsst

def plainEnv : StorageEnv Bytes := ⟨fun _ _ => 0, none⟩

/-- The memtable a failed flush left over is written again before the next flush. -/
def rewrittenCalls : List (Call Bytes) :=
  [.begin, .commit ⟨0, [([107], some [1])], true⟩, .flush .failed,
    .begin, .commit ⟨1, [([107], none)], true⟩, .flush .done,
    .begin, .commit ⟨2, [([106], some [3])], true⟩]

theorem coversLog_rewrittenCalls :
    Run.Along (Sys.step plainEnv) (CoversLog plainEnv) (Sys.new .none) rewrittenCalls := by
  refine ⟨trivial, trivial, trivial, trivial, trivial, ?_, trivial, trivial, trivial⟩
  exact fun _ => ⟨by decide +kernel, fun h => by cases h⟩

theorem recovered_reads_last_commit_rewritten :
    ∃ tree, LsmTree.open .none
        ⟨(Run.exec (Sys.step plainEnv) (Sys.new .none) rewrittenCalls).sstDir,
          (Run.exec (Sys.step plainEnv) (Sys.new .none) rewrittenCalls).tree.wal⟩ = .ok tree ∧
      ∀ k, tree.getAt plainEnv (UInt64.ofNat tree.readSnapshot) k =
        .ok (lastValue (Run.exec (Sys.step plainEnv) (Sys.new .none) rewrittenCalls).history k) :=
  recovered_reads_last_commit plainEnv .none .none rewrittenCalls coversLog_rewrittenCalls
    (prefixFree_of_length (n := 1) (by decide +kernel)) _ (.refl _)

/-- A key is written, its flush fails, another key is written and that flush succeeds. -/
def lostCalls : List (Call Bytes) :=
  [.begin, .commit ⟨0, [([107], some [1])], true⟩, .flush .failed,
    .begin, .commit ⟨1, [([106], some [2])], true⟩, .flush .done]

theorem left_over_memtable_lost : ¬ ∀ (env : StorageEnv Bytes) (c : SstCompression)
    (calls : List (Call Bytes)),
    PrefixFree (historyKeys (Run.exec (Sys.step env) (Sys.new c) calls).history) →
    ∀ tree, LsmTree.open c ⟨(Run.exec (Sys.step env) (Sys.new c) calls).sstDir,
        (Run.exec (Sys.step env) (Sys.new c) calls).tree.wal⟩ = .ok tree →
      ∀ k, tree.getAt env (UInt64.ofNat tree.readSnapshot) k =
        .ok (lastValue (Run.exec (Sys.step env) (Sys.new c) calls).history k) := by
  intro hall
  have h := hall plainEnv .none lostCalls
    (prefixFree_of_length (n := 1) (by decide +kernel)) _ rfl [107]
  exact absurd h (by decide +kernel)

end Recovery

end RhypeDb.Storage
