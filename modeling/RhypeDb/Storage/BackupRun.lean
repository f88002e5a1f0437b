import RhypeDb.Storage.PhysicalBackup

/-! Runs of a tree with a physical backup under way. The directory always names the files of the
tree, and while `snapshot_to` links them neither changes; afterwards nothing that the tree does
reaches the backup's inodes. -/

namespace RhypeDb.Storage.PhysicalBackup

open List Option

open LsmRun (Settled)

variable {V : Type} [ByteLen V] {env : StorageEnv V}

section

variable {run : LsmRun.Sys V} {d : Disk V}

theorem Holds.flush (h : Holds d run.tree) (hfits : run.FlushFits env) :
    Holds (d.flush env run.tree) (run.step env (.flush .done)).tree ∧
      Keeps d (d.flush env run.tree) ∧ (d.flush env run.tree).backup = d.backup := by
  change Holds _ (run.tree.flushLocked env .done).2 ∧ _
  unfold Disk.flush
  obtain ⟨hempty, htree⟩ | ⟨hempty, sst, hopen, htree⟩ := hfits.flushLocked
  · rw [if_pos hempty, htree]
    exact ⟨h, Keeps.refl d, rfl⟩
  · obtain ⟨hfile, hid⟩ := SstReader.file_of_open hopen
    rw [hempty, if_neg Bool.false_ne_true, htree]
    dsimp only
    rw [hopen]
    -- the file is in place before the log is truncated
    have hssts : ∀ x ∈ (run.tree.registered sst).sstFiles, x ∈ run.tree.sstFiles ∨
        x.id = run.tree.nextSstId ∧ x.file = SstWriter.writeAll env run.tree.blockCompression
          run.tree.activeMemtable.entries := by
      intro x hx
      obtain hx | hx := mem_append.mp hx
      · exact .inl hx
      · rw [mem_singleton.mp hx]
        exact .inr ⟨hid, hfile⟩
    obtain ⟨hwritten, hkeeps⟩ := h.writeSst _
      { run.tree.registered sst with wal := run.tree.wal } hssts rfl rfl
    obtain ⟨hholds, hlog, hbackup⟩ := hwritten.writeWal (run.tree.registered sst) rfl rfl
    exact ⟨hholds, hkeeps.trans hlog, hbackup⟩

theorem Holds.compact (h : Holds d run.tree) (hs : Settled env run) (hfits : run.MergeFits env)
    {job : CompactionJob V} (hjob : run.job = some job) :
    Holds (d.compact env run.tree job) (run.step env (.compactFinish .done)).tree ∧
      Keeps d (d.compact env run.tree job) ∧ (d.compact env run.tree job).backup = d.backup := by
  obtain ⟨inputs, newer, hsplit, hpaths, hcases⟩ := hs.merge_cases hfits hjob
  have hids := hs.ids
  rw [hsplit] at hids
  have hnext : ∀ sst ∈ newer, sst.id < run.tree.nextSstId := fun sst hsst =>
    hids.2 sst (mem_append_right _ hsst)
  have hkept : ∀ sst ∈ newer, sst.id ∉ job.mergedPaths := by
    intro sst hsst hmem
    rw [hpaths] at hmem
    rw [map_append] at hids
    exact (nodup_append.mp hids.1).2.2 _ hmem _ (mem_map_of_mem hsst) rfl
  have hold : ∀ sst ∈ newer, sst ∈ run.tree.sstFiles := by
    intro sst hsst
    rw [hsplit]
    exact mem_append_right _ hsst
  rw [LsmRun.step_compactFinish hjob]
  unfold Disk.compact
  dsimp only
  obtain ⟨hnil, htree⟩ | ⟨sst, hne, hopen, htree, -⟩ := hcases
  · rw [htree, hnil]
    obtain ⟨hwritten, hkeeps⟩ := h.writeSst (SstWriter.writeAll env run.tree.blockCompression [])
      (run.tree.compacted newer) (fun x hx => .inl (hold x hx)) rfl rfl
    have hnew : ∀ x ∈ newer, x.id ∉ [run.tree.nextSstId] := fun x hx hmem =>
      Nat.ne_of_lt (hnext x hx) (mem_singleton.mp hmem)
    have hremoved := hwritten.removeSsts hnew
    refine ⟨hremoved.removeSsts hkept, hkeeps.trans ?_, rfl⟩
    exact (keeps_removeSsts _).trans (keeps_removeSsts _)
  · obtain ⟨hfile, hid⟩ := SstReader.file_of_open hopen
    have hsome : (LsmTree.keepNeeded job.minSnapshot none false job.allEntries).isEmpty = false := by
      simpa using hne
    rw [htree, hsome, if_neg Bool.false_ne_true, hopen]
    have hssts : ∀ x ∈ sst :: newer, x ∈ run.tree.sstFiles ∨
        x.id = run.tree.nextSstId ∧ x.file = SstWriter.writeAll env run.tree.blockCompression
          (LsmTree.keepNeeded job.minSnapshot none false job.allEntries) := by
      intro x hx
      obtain rfl | hx := mem_cons.mp hx
      · exact .inr ⟨hid, hfile⟩
      · exact .inl (hold x hx)
    obtain ⟨hwritten, hkeeps⟩ := h.writeSst _ (run.tree.compacted (sst :: newer)) hssts rfl rfl
    refine ⟨hwritten.removeSsts fun x hx => ?_, hkeeps.trans (keeps_removeSsts _), rfl⟩
    obtain rfl | hx := mem_cons.mp hx
    · rw [hid, hpaths]
      intro hmem
      obtain ⟨old, hin, heq⟩ := mem_map.mp hmem
      exact Nat.ne_of_lt (hids.2 old (mem_append_left _ hin)) heq
    · exact hkept x hx

end

section

def Linked (d : Disk V) (ssts : List (SstReader V)) : Prop :=
  List.Forall₂ (fun name sst => name.1 = sst.id ∧ d.inodes[name.2]? = some (.sst sst.file))
    d.backup.sst ssts

def StageInv (env : StorageEnv V) (s : Sys V) : Stage V → Prop
  | .idle => s.disk.backup.sst = []
  | .flushed held => s.disk.backup.sst = [] ∧ Settled env held ∧ s.run.history = held.history
  | .linking held _ rest => Settled env held ∧ s.run.history = held.history ∧ s.run.job = none ∧
    ∃ ssts, s.run.tree.sstFiles = ssts ++ rest ∧ Linked s.disk ssts
  | .finished held _ => ∃ run, Settled env held ∧ Settled env run ∧ run.history = held.history ∧
    historyKeys held.history ⊆ historyKeys s.run.history ∧ Linked s.disk run.tree.sstFiles ∧
    ∃ inode, s.disk.backup.wal = some inode ∧ s.disk.source.wal ≠ some inode ∧
      s.disk.inodes[inode]? = some (.wal run.tree.wal)
  | .failed _ => False

structure Inv (env : StorageEnv V) (s : Sys V) : Prop where
  settled : Settled env s.run
  holds : Holds s.disk s.run.tree
  stage : StageInv env s s.stage

variable {s : Sys V} {tree : LsmTree V} {d d' : Disk V} {ssts : List (SstReader V)}

theorem inv_new (c : SstCompression) : Inv env (Sys.new c : Sys V) where
  settled := LsmRun.settled_new c
  holds := holds_new c
  stage := rfl

omit [ByteLen V] in
theorem Linked.keeps (h : Linked d ssts)
    (hkeeps : Keeps d d') (hbackup : d'.backup = d.backup) : Linked d' ssts := by
  unfold Linked at h ⊢
  rw [hbackup]
  exact h.imp fun _ _ hname => ⟨hname.1, hkeeps.sst hname.2⟩

theorem Inv.source_step (h : Inv env s) {run : LsmRun.Sys V} {disk : Disk V}
    (hsettled : Settled env run) (hholds : Holds disk run.tree) (hkeeps : Keeps s.disk disk)
    (hbackup : disk.backup = s.disk.backup)
    (hkeys : historyKeys s.run.history ⊆ historyKeys run.history)
    (hlocked : s.stage.holdsFlushLock = true → run.history = s.run.history)
    (hfixed : s.stage.holdsCompactionMutex = true → s.run.job = none →
      run.job = none ∧ run.tree.sstFiles = s.run.tree.sstFiles) : Inv env { s with run, disk } := by
  refine ⟨hsettled, hholds, ?_⟩
  have hstage := h.stage
  cases hs : s.stage with
  | idle =>
    rw [hs] at hstage
    change disk.backup.sst = []
    rw [hbackup]
    exact hstage
  | flushed held =>
    rw [hs] at hstage hlocked
    obtain ⟨hempty, hheld, hhistory⟩ := hstage
    change disk.backup.sst = [] ∧ _
    rw [hbackup]
    exact ⟨hempty, hheld, (hlocked rfl).trans hhistory⟩
  | linking held manifest rest =>
    rw [hs] at hstage hlocked hfixed
    obtain ⟨hheld, hhistory, hnone, ssts, hsplit, hlinked⟩ := hstage
    obtain ⟨hjob, hssts⟩ := hfixed rfl hnone
    refine ⟨hheld, (hlocked rfl).trans hhistory, hjob, ssts, ?_, hlinked.keeps hkeeps hbackup⟩
    exact hssts.trans hsplit
  | finished held manifest =>
    rw [hs] at hstage
    obtain ⟨run', hheld, hrun, hhistory, hsub, hlinked, inode, hname, hne, hlog⟩ := hstage
    refine ⟨run', hheld, hrun, hhistory, hsub.trans hkeys, hlinked.keeps hkeeps hbackup, inode,
      ?_, ?_, hkeeps.wal hlog hne⟩
    · rw [hbackup]
      exact hname
    · rw [hkeeps.log]
      exact hne
  | failed e =>
    rw [hs] at hstage
    exact hstage

omit [ByteLen V] in
theorem Stage.holdsFlushLock_of_mutex {stage : Stage V} (h : stage.holdsCompactionMutex = true) :
    stage.holdsFlushLock = true := by
  cases stage with
  | linking held manifest rest => rfl
  | _ => cases h

theorem Inv.commit (h : Inv env s) (txn : Transaction Bytes V) :
    Inv env (s.step env (.commit txn)) := by
  unfold Sys.step
  dsimp only
  split_ifs with hlock
  · exact h
  · have hsame : (s.run.step env (.commit txn)).tree.sstFiles = s.run.tree.sstFiles ∧
        (s.run.step env (.commit txn)).tree.nextSstId = s.run.tree.nextSstId := by
      simp only [LsmRun.Sys.step]
      obtain ⟨tm, hrecord, -⟩ | ⟨tm, hrecord, -⟩ := s.run.tree.record_cases s.run.history txn
      · rw [hrecord]
        exact ⟨rfl, rfl⟩
      · rw [hrecord]
        exact ⟨rfl, rfl⟩
    obtain ⟨hholds, hkeeps, hbackup⟩ :=
      h.holds.writeWal (s.run.step env (.commit txn)).tree hsame.1 hsame.2
    refine h.source_step (h.settled.commit txn) hholds hkeeps hbackup
      (LsmRun.historyKeys_subset_step env s.run _) ?_ ?_
    · exact fun hheld => absurd hheld hlock
    · exact fun hmutex => absurd (Stage.holdsFlushLock_of_mutex hmutex) hlock

theorem Inv.flush (h : Inv env s) (hfits : s.run.FlushFits env)
    (hlock : ¬ s.stage.holdsFlushLock = true) : Inv env (s.flush env) := by
  obtain ⟨hholds, hkeeps, hbackup⟩ := h.holds.flush hfits
  refine h.source_step (h.settled.flush hfits) hholds hkeeps hbackup subset_rfl ?_ ?_
  · exact fun hheld => absurd hheld hlock
  · exact fun hmutex => absurd (Stage.holdsFlushLock_of_mutex hmutex) hlock

theorem Inv.setTxnManager (h : Inv env s) {tm : TransactionManager Bytes}
    (hv : tm.visibleVersion = s.run.tree.txnManager.visibleVersion)
    (hn : tm.nextVersion = s.run.tree.txnManager.nextVersion) :
    Inv env { s with run.tree := s.run.tree.setTxnManager tm } := by
  have hholds : Holds s.disk (s.run.tree.setTxnManager tm) :=
    ⟨h.holds.named, h.holds.below, h.holds.log⟩
  exact h.source_step (h.settled.setTxnManager hv hn) hholds (Keeps.refl s.disk) rfl subset_rfl
    (fun _ => rfl) fun _ hnone => ⟨hnone, rfl⟩

theorem Inv.compactBegin (h : Inv env s) : Inv env (s.step env .compactBegin) := by
  unfold Sys.step
  dsimp only
  split_ifs with hmutex
  · exact h
  · have hholds : Holds s.disk (s.run.step env .compactBegin).tree := by
      rw [LsmRun.tree_compactBegin]
      exact h.holds
    have hhistory : (s.run.step env .compactBegin).history = s.run.history := by
      simp only [LsmRun.Sys.step]
      split
      · rfl
      · rfl
    refine h.source_step h.settled.compactBegin hholds (Keeps.refl s.disk) rfl ?_ ?_ ?_
    · exact LsmRun.historyKeys_subset_step env s.run _
    · exact fun _ => hhistory
    · exact fun hheld => absurd hheld hmutex

theorem Inv.compactFinish (h : Inv env s) (hfits : s.run.MergeFits env) :
    Inv env (s.step env .compactFinish) := by
  unfold Sys.step
  cases hjob : s.run.job with
  | none => exact h
  | some job =>
    obtain ⟨hholds, hkeeps, hbackup⟩ := h.holds.compact h.settled hfits hjob
    refine h.source_step (h.settled.compactFinish hfits) hholds hkeeps hbackup ?_ ?_ ?_
    · exact LsmRun.historyKeys_subset_step env s.run _
    · intro _
      rw [LsmRun.step_compactFinish hjob]
    · intro _ hnone
      rw [hnone] at hjob
      cases hjob

theorem Inv.snapshotTo (h : Inv env s) (hfits : s.stage.isIdle = true → s.run.FlushFits env) :
    Inv env (s.step env .snapshotTo) := by
  unfold Sys.step
  dsimp only
  split_ifs with hidle
  · have hfits := hfits hidle
    have hstage := h.stage
    cases hs : s.stage with
    | idle =>
      have hlock : ¬ s.stage.holdsFlushLock = true := by
        rw [hs]
        exact Bool.false_ne_true
      obtain ⟨hsettled, hholds, -⟩ := h.flush hfits hlock
      obtain ⟨-, -, hbackup⟩ := h.holds.flush hfits
      have hok : (s.run.tree.flushLocked env .done).1 = .ok () := by
        obtain ⟨-, htree⟩ | ⟨-, sst, -, htree⟩ := hfits.flushLocked
        · rw [htree]
        · rw [htree]
      unfold Sys.snapshotTo
      rw [hok]
      refine ⟨hsettled, hholds, ?_, h.settled, rfl⟩
      rw [hs] at hstage
      change (s.disk.flush env s.run.tree).backup.sst = []
      rw [hbackup]
      exact hstage
    | flushed held =>
      rw [hs] at hidle
      cases hidle
    | linking held manifest rest =>
      rw [hs] at hidle
      cases hidle
    | finished held manifest =>
      rw [hs] at hidle
      cases hidle
    | failed e =>
      rw [hs] at hidle
      cases hidle
  · exact h

theorem Inv.lockCompaction (h : Inv env s) : Inv env (s.step env .lockCompaction) := by
  unfold Sys.step
  cases hs : s.stage with
  | flushed held =>
    cases hjob : s.run.job with
    | none =>
      have hstage := h.stage
      rw [hs] at hstage
      obtain ⟨hempty, hheld, hhistory⟩ := hstage
      refine ⟨h.settled, h.holds, hheld, hhistory, hjob, [], rfl, ?_⟩
      unfold Linked
      rw [hempty]
      exact List.Forall₂.nil
    | some job => exact h
  | _ => exact h

omit [ByteLen V] in
theorem Holds.grow (h : Holds d tree)
    (hgrow : ∀ {inode : Nat} {body : Inode V}, d.inodes[inode]? = some body →
      d'.inodes[inode]? = some body) (hsource : d'.source = d.source) : Holds d' tree where
  named := by
    intro sst hsst
    obtain ⟨inode, hlookup, hinode⟩ := h.named sst hsst
    rw [hsource]
    exact ⟨inode, hlookup, hgrow hinode⟩
  below := by
    rw [hsource]
    exact h.below
  log := by
    obtain ⟨inode, hname, hlog⟩ := h.log
    rw [hsource]
    exact ⟨inode, hname, hgrow hlog⟩

omit [ByteLen V] in
theorem link_eq (h : Holds d tree) (hard : Bool)
    {sst : SstReader V} (hsst : sst ∈ tree.sstFiles) {linked : List (SstReader V)}
    (hlinked : Linked d linked) :
    ∃ d', d.link hard sst.id = some d' ∧ Holds d' tree ∧ Linked d' (linked ++ [sst]) := by
  obtain ⟨inode, hlookup, hinode⟩ := h.named sst hsst
  unfold Disk.link
  rw [hlookup, bind_eq_bind, bind_some, bind_eq_bind, hinode,
    bind_some]
  cases hard with
  | true =>
    refine ⟨_, rfl, h.grow (fun hin => hin) rfl, ?_⟩
    exact rel_append hlinked (List.Forall₂.cons ⟨rfl, hinode⟩ List.Forall₂.nil)
  | false =>
    have hgrow : ∀ {i : Nat} {body : Inode V}, d.inodes[i]? = some body →
        (d.inodes ++ [Inode.sst sst.file])[i]? = some body :=
      fun hin => getElem?_concat_of_some _ hin
    refine ⟨_, rfl, h.grow hgrow rfl, ?_⟩
    refine rel_append ?_ (List.Forall₂.cons ⟨rfl, getElem?_concat_length⟩ List.Forall₂.nil)
    exact hlinked.imp fun _ _ hname => ⟨hname.1, hgrow hname.2⟩

theorem Inv.link (h : Inv env s) (hard : Bool) : Inv env (s.step env (.link hard)) := by
  unfold Sys.step
  cases hs : s.stage with
  | linking held manifest rest =>
    cases rest with
    | nil => exact h
    | cons sst rest =>
      have hstage := h.stage
      rw [hs] at hstage
      obtain ⟨hheld, hhistory, hnone, linked, hsplit, hlinked⟩ := hstage
      have hsst : sst ∈ s.run.tree.sstFiles := by
        rw [hsplit]
        exact mem_append_right _ mem_cons_self
      obtain ⟨disk, hlink, hholds, hlinked'⟩ := link_eq h.holds hard hsst hlinked
      obtain ⟨hwf, hfits⟩ := h.settled.files sst hsst
      have hversion : sst.file.maxVersion = .ok (Recovery.topVersion sst.file.data) := by
        unfold SstFile.maxVersion
        rw [hwf.tryForEachEntry_eq hfits]
        rfl
      dsimp only
      unfold Sys.linkSst
      rw [hlink, hversion]
      refine ⟨h.settled, hholds, hheld, hhistory, hnone, linked ++ [sst], ?_, hlinked'⟩
      rw [append_assoc]
      exact hsplit
  | _ => exact h

theorem Inv.copyWal (h : Inv env s) : Inv env (s.step env .copyWal) := by
  unfold Sys.step
  cases hs : s.stage with
  | linking held manifest rest =>
    cases rest with
    | cons sst rest => exact h
    | nil =>
      have hstage := h.stage
      rw [hs] at hstage
      obtain ⟨hheld, hhistory, -, linked, hsplit, hlinked⟩ := hstage
      rw [append_nil] at hsplit
      obtain ⟨inode, hname, hlog⟩ := h.holds.log
      have hlt := (List.getElem?_eq_some_iff.mp hlog).1
      have hgrow : ∀ {i : Nat} {body : Inode V}, s.disk.inodes[i]? = some body →
          (s.disk.inodes ++ [Inode.wal s.run.tree.wal])[i]? = some body :=
        fun hin => getElem?_concat_of_some _ hin
      unfold Sys.copyWal Disk.copyWal
      rw [hname, bind_eq_bind, bind_some, bind_eq_bind, hlog,
        bind_some]
      refine ⟨h.settled, h.holds.grow hgrow rfl, s.run, hheld, h.settled, hhistory, ?_, ?_,
        s.disk.inodes.length, rfl, ?_, getElem?_concat_length⟩
      · change historyKeys held.history ⊆ historyKeys s.run.history
        rw [hhistory]
      · rw [hsplit]
        exact hlinked.imp fun _ _ hsst => ⟨hsst.1, hgrow hsst.2⟩
      · intro hsame
        cases hname.symm.trans hsame
        exact lt_irrefl _ hlt
  | _ => exact h

theorem Inv.step (h : Inv env s) {call : Call V} (hwithin : Within env s call) :
    Inv env (s.step env call) := by
  cases call with
  | begin => exact h.setTxnManager rfl rfl
  | commit txn => exact h.commit txn
  | abort txn =>
    obtain ⟨hv, hn⟩ := LsmTree.abort_versions s.run.tree.txnManager txn
    exact h.setTxnManager hv hn
  | flush =>
    unfold Sys.step
    dsimp only
    split_ifs with hlock
    · exact h
    · exact h.flush (hwithin (eq_false_of_ne_true hlock)) hlock
  | compactBegin => exact h.compactBegin
  | compactFinish => exact h.compactFinish hwithin
  | snapshotTo => exact h.snapshotTo hwithin
  | lockCompaction => exact h.lockCompaction
  | link hard => exact h.link hard
  | copyWal => exact h.copyWal

omit [ByteLen V] in
theorem dataDir_sst {dir : Dir} (h : List.Forall₂ (fun name sst => name.1 = sst.id ∧
      d.inodes[name.2]? = some (.sst sst.file)) dir.sst ssts) :
    (d.dataDir dir).sst = ssts.map fun sst => (sst.id, sst.file) := by
  unfold Disk.dataDir
  dsimp only
  generalize dir.sst = names at h ⊢
  induction h with
  | nil => rfl
  | cons hname _ ih =>
    rw [filterMap_cons, hname.2, map_cons, ih, hname.1]
    rfl

end

/-- `snapshot_to` does not fail, and the backup it has taken opens: reads at the version that is
recovered give what the source gave when `flush_lock` was taken. -/
structure Restores (env : StorageEnv V) (c : SstCompression) (s : Sys V) : Prop where
  taken : ∀ e, s.stage ≠ .failed e
  reads : ∀ held manifest, s.stage = .finished held manifest →
    ∀ sst : List (Nat × SstFile V), sst.Perm (s.disk.dataDir s.disk.backup).sst →
      ∃ tree, LsmTree.open c { s.disk.dataDir s.disk.backup with sst } = .ok tree ∧
        (∀ k, tree.getAt env (UInt64.ofNat tree.readSnapshot) k =
          held.tree.getAt env (UInt64.ofNat held.tree.readSnapshot) k) ∧
        ∀ pre, tree.scanPrefixAt (UInt64.ofNat tree.readSnapshot) pre =
          held.tree.scanPrefixAt (UInt64.ofNat held.tree.readSnapshot) pre

theorem Inv.restores {s : Sys V} (h : Inv env s) (hfree : PrefixFree (historyKeys s.run.history))
    (c : SstCompression) : Restores env c s := by
  have hstage := h.stage
  constructor
  · intro e hfailed
    rw [hfailed] at hstage
    exact hstage
  · intro held manifest hfinished sst hperm
    rw [hfinished] at hstage
    obtain ⟨run, hheld, hrun, hhistory, hsub, hlinked, inode, hname, -, hlog⟩ := hstage
    rw [dataDir_sst hlinked] at hperm
    have hfree' : PrefixFree (historyKeys held.history) := hfree.mono hsub
    obtain ⟨tree, hopen, hget, hscan⟩ := hrun.open_reads (hhistory ▸ hfree') c hperm
    obtain ⟨hget', hscan'⟩ := hrun.same_reads hheld.toInv hhistory hfree'
    refine ⟨tree, ?_, fun k => (hget k).trans (hget' k), fun pre => (hscan pre).trans (hscan' pre)⟩
    have hwal : (s.disk.dataDir s.disk.backup).wal = run.tree.wal := by
      unfold Disk.dataDir
      rw [hname, bind_some, hlog]
      rfl
    rw [← hwal] at hopen
    exact hopen

/-- In every run in which what is written as v6 stays within the block cap, whatever is committed,
flushed and merged before, during and after the backup. -/
theorem backup_restores (env : StorageEnv V) (c c' : SstCompression) (calls : List (Call V))
    (hwithin : Run.Along (Sys.step env) (Within env) (Sys.new c) calls)
    (hfree : PrefixFree (historyKeys (Run.exec (Sys.step env) (Sys.new c) calls).run.history)) :
    Restores env c' (Run.exec (Sys.step env) (Sys.new c) calls) := by
  have hinv : Inv env (Run.exec (Sys.step env) (Sys.new c) calls) :=
    Run.exec_invariant (fun _ _ h hcall => h.step hcall) (inv_new c) hwithin
  exact hinv.restores hfree c'

theorem blockCompression_flush (run : LsmRun.Sys V) (write : SstWrite) :
    (run.step env (.flush write)).tree.blockCompression = run.tree.blockCompression := by
  change (run.tree.flushLocked env write).2.blockCompression = _
  obtain ⟨-, htree⟩ | ⟨-, -, htree⟩ | ⟨-, -, sst, -, htree⟩ := run.tree.flushLocked_cases env write
  · rw [htree]
  · rw [htree]
    rfl
  · rw [htree]
    rfl

theorem blockCompression_commit (env : StorageEnv V) (run : LsmRun.Sys V)
    (txn : Transaction Bytes V) :
    (run.step env (.commit txn)).tree.blockCompression = run.tree.blockCompression := by
  simp only [LsmRun.Sys.step]
  obtain ⟨tm, hrecord, -⟩ | ⟨tm, hrecord, -⟩ := run.tree.record_cases run.history txn
  · rw [hrecord]
    rfl
  · rw [hrecord]
    rfl

theorem blockCompression_compactFinish (run : LsmRun.Sys V) (write : SstWrite) :
    (run.step env (.compactFinish write)).tree.blockCompression = run.tree.blockCompression := by
  cases hjob : run.job with
  | none =>
    have hsame : run.step env (.compactFinish write) = run := by
      simp only [LsmRun.Sys.step, hjob]
    rw [hsame]
  | some job =>
    rw [LsmRun.step_compactFinish hjob]
    obtain htree | ⟨-, -, htree⟩ | ⟨-, sst, -, htree⟩ :=
      run.tree.compactFinish_cases env job write rfl rfl
    · rw [htree]
      rfl
    · rw [htree]
      rfl
    · rw [htree]
      rfl

theorem blockCompression_step (s : Sys V) (call : Call V) :
    (s.step env call).run.tree.blockCompression = s.run.tree.blockCompression := by
  unfold Sys.step
  cases call with
  | begin => rfl
  | abort txn => rfl
  | commit txn =>
    dsimp only
    split_ifs
    · rfl
    · exact blockCompression_commit env s.run txn
  | flush =>
    dsimp only
    split_ifs
    · rfl
    · exact blockCompression_flush s.run .done
  | compactBegin =>
    dsimp only
    split_ifs
    · rfl
    · rw [LsmRun.tree_compactBegin]
  | compactFinish =>
    dsimp only
    split
    · rfl
    · exact blockCompression_compactFinish s.run .done
  | snapshotTo =>
    dsimp only
    split_ifs
    · unfold Sys.snapshotTo
      split
      · exact blockCompression_flush s.run .done
      · exact blockCompression_flush s.run .done
    · rfl
  | lockCompaction =>
    dsimp only
    split
    · rfl
    · rfl
  | link hard =>
    dsimp only
    split
    · unfold Sys.linkSst
      split
      · rfl
      · split
        · rfl
        · rfl
    · rfl
  | copyWal =>
    dsimp only
    split
    · unfold Sys.copyWal
      split
      · rfl
      · rfl
    · rfl

theorem within_uncompressed {s : Sys V} (hnone : s.run.tree.blockCompression = .none)
    (calls : List (Call V)) : Run.Along (Sys.step env) (Within env) s calls := by
  induction calls generalizing s with
  | nil => trivial
  | cons call calls ih =>
    refine ⟨?_, ih ((blockCompression_step s call).trans hnone)⟩
    have hfits : ∀ es, (SstWriter.writeAll env s.run.tree.blockCompression es).Fits := by
      intro es hcompressed
      rw [hnone] at hcompressed
      cases hcompressed
    cases call with
    | flush => exact fun _ => hfits _
    | snapshotTo => exact fun _ => hfits _
    | compactFinish => exact fun _ _ => hfits _
    | _ => trivial

open LsmRun (plainEnv)

def sourceGoesOn : List (Call Bytes) :=
  [.commit ⟨0, [([107], some [1])], true⟩, .flush, .commit ⟨1, [([107], some [2])], true⟩,
    .snapshotTo, .lockCompaction, .link true, .compactBegin, .commit ⟨2, [([107], none)], true⟩,
    .link false, .copyWal, .commit ⟨2, [([107], none)], true⟩, .flush, .compactBegin]

theorem backup_restores_sourceGoesOn :
    Restores plainEnv .none (Run.exec (Sys.step plainEnv) (Sys.new .none) sourceGoesOn) ∧
    (Run.exec (Sys.step plainEnv) (Sys.new .none) sourceGoesOn).stage.isIdle = false ∧
    (Run.exec (Sys.step plainEnv) (Sys.new .none) sourceGoesOn).stage.holdsFlushLock = false :=
  ⟨backup_restores plainEnv .none .none sourceGoesOn (within_uncompressed rfl sourceGoesOn)
    (prefixFree_of_length (n := 1) (by decide +kernel)), by decide +kernel, by decide +kernel⟩

@[irreducible] def oversized : Bytes := List.replicate maxBlockUncompLen 0

theorem blockLen_oversized (key : InternalKey) :
    maxBlockUncompLen < SstFile.blockLen [(key, some oversized)] := by
  have hlength : ByteLen.byteLen oversized = maxBlockUncompLen := by
    unfold oversized
    exact length_replicate
  unfold SstFile.blockLen
  rw [map_singleton, sum_singleton, map_some, getD_some, hlength]
  omega

theorem open_oversized (env : StorageEnv Bytes) (key : InternalKey) (id : Nat) :
    SstReader.open id (SstWriter.writeAll env .lz4 [(key, some oversized)]) =
      .error .sstCorrupted := by
  have hwf := SstWriter.wellFormed_writeAll env .lz4
    (pairwise_singleton (fun a b : Entry Bytes => a.1 < b.1) (key, some oversized))
  have hdata := SstWriter.data_writeAll env .lz4 [(key, some oversized)]
  have hlength : (SstWriter.writeAll env .lz4 [(key, some oversized)]).index.length = 1 := by
    rw [hwf.index_length, hdata, length_singleton]
  have hempty : (SstWriter.writeAll env .lz4 [(key, some oversized)]).index.isEmpty = false := by
    rw [isEmpty_eq_false_iff_exists_mem]
    exact exists_mem_of_length_pos (by rw [hlength]; exact Nat.one_pos)
  have hraw : (SstWriter.writeAll env .lz4 [(key, some oversized)]).rawBlock 0 =
      [(key, some oversized)] := by
    unfold SstFile.rawBlock
    rw [hdata]
    rfl
  have hblock := hwf.block_eq (i := 0) (by rw [hlength]; exact Nat.one_pos)
  rw [hraw, if_pos ⟨rfl, blockLen_oversized key⟩] at hblock
  unfold SstReader.open SstFile.computeLastUserKey
  rw [hempty, if_neg Bool.false_ne_true, hlength, hblock]
  rfl

theorem flush_oversized (env : StorageEnv Bytes) {tree : LsmTree Bytes} (key : InternalKey)
    (hentries : tree.activeMemtable.entries = [(key, some oversized)])
    (hlz4 : tree.blockCompression = .lz4) :
    (tree.flushLocked env .done).1 = .error .sstCorrupted := by
  have hsome : tree.activeMemtable.isEmpty = false := by
    unfold MemTable.isEmpty
    rw [hentries]
    rfl
  have hopen := open_oversized env key tree.nextSstId
  unfold LsmTree.flushLocked
  dsimp only
  rw [hsome, if_neg Bool.false_ne_true, hentries, hlz4]
  -- the file is not to be computed
  generalize SstWriter.writeAll env .lz4 [(key, some oversized)] = file at hopen ⊢
  rw [hopen]

def oversizedCommitted : Sys Bytes :=
  (Sys.new .lz4).step plainEnv (.commit ⟨0, [([107], some oversized)], true⟩)

variable {env : StorageEnv Bytes}

theorem snapshotTo_failed {s : Sys Bytes} {e : Error}
    (hidle : s.stage.isIdle = true) (h : (s.run.tree.flushLocked env .done).1 = .error e) :
    s.step env .snapshotTo = { s.flush env with stage := .failed e } := by
  unfold Sys.step
  rw [if_pos hidle]
  unfold Sys.snapshotTo
  rw [h]

/-- A value that the source reads is in no backup. -/
theorem oversized_not_restored :
    oversizedCommitted.run.tree.getAt plainEnv
      (UInt64.ofNat oversizedCommitted.run.tree.readSnapshot) [107] = .ok (some oversized) ∧
    (oversizedCommitted.step plainEnv .snapshotTo).stage = .failed .sstCorrupted ∧
    ¬ ∀ (env : StorageEnv Bytes) (c c' : SstCompression) (calls : List (Call Bytes)),
      PrefixFree (historyKeys (Run.exec (Sys.step env) (Sys.new c) calls).run.history) →
      Restores env c' (Run.exec (Sys.step env) (Sys.new c) calls) := by
  have hflush : (oversizedCommitted.run.tree.flushLocked plainEnv .done).1 =
      .error .sstCorrupted := flush_oversized plainEnv ⟨[107], 1⟩ rfl rfl
  have hstep : oversizedCommitted.step plainEnv .snapshotTo =
      { oversizedCommitted.flush plainEnv with stage := .failed .sstCorrupted } :=
    snapshotTo_failed rfl hflush
  have hrun : Run.exec (Sys.step plainEnv) (Sys.new .lz4)
      [.commit ⟨0, [([107], some oversized)], true⟩, .snapshotTo] =
      { oversizedCommitted.flush plainEnv with stage := .failed .sstCorrupted } := by
    rw [Run.exec_cons, Run.exec_cons, Run.exec_nil]
    exact hstep
  refine ⟨rfl, by rw [hstep], fun hall => ?_⟩
  have hrestores := hall plainEnv .lz4 .none
    [.commit ⟨0, [([107], some oversized)], true⟩, .snapshotTo] ?_
  · rw [hrun] at hrestores
    exact hrestores.taken _ rfl
  · rw [hrun]
    refine prefixFree_of_length (n := 1) ?_
    exact forall_mem_singleton.mpr rfl

end RhypeDb.Storage.PhysicalBackup
