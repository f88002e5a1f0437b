import RhypeDb.Storage.Settled

/-! `LsmTree::snapshot_to`: a physical backup that is taken while the tree goes on. Directories
name inodes. A hard link gives an inode a second name, so that the backup shares its SSTs with the
tree; the log, which is written in place, is copied. -/

namespace RhypeDb.Storage.PhysicalBackup

open List

variable {V : Type}

inductive Inode (V : Type)
  | sst (file : SstFile V)
  | wal (records : List (WalRecord V))

def Inode.sst? : Inode V → Option (SstFile V)
  | sst file => some file
  | wal _ => none

def Inode.wal? : Inode V → Option (List (WalRecord V))
  | sst _ => none
  | wal records => some records

/-- The names `sst/NNNNNNNN.sst`, by their number, and `wal.log`. -/
structure Dir where
  sst : List (Nat × Nat)
  wal : Option Nat

structure Disk (V : Type) where
  inodes : List (Inode V)
  source : Dir
  backup : Dir

namespace Disk

/-- After `LsmTree::open` in a new directory. -/
def new : Disk V where
  inodes := [.wal []]
  source := { sst := [], wal := some 0 }
  backup := { sst := [], wal := none }

variable (d : Disk V)

/-- What `LsmTree::open` finds in a directory. -/
def dataDir (dir : Dir) : DataDir V where
  sst := dir.sst.filterMap fun name =>
    ((d.inodes[name.2]?).bind Inode.sst?).map fun file => (name.1, file)
  wal := ((dir.wal.bind fun inode => d.inodes[inode]?).bind Inode.wal?).getD []

/-- `SstWriter::finish` renames the new file to its name. -/
def writeSst (id : Nat) (file : SstFile V) : Disk V :=
  { d with
    inodes := d.inodes ++ [.sst file]
    source := { d.source with sst := d.source.sst ++ [(id, d.inodes.length)] } }

def removeSsts (ids : List Nat) : Disk V :=
  { d with source := { d.source with sst := d.source.sst.filter fun name => name.1 ∉ ids } }

/-- `Wal::append_txn` and `Wal::create_fresh` leave `wal.log` the inode that it is. -/
def writeWal (records : List (WalRecord V)) : Disk V :=
  match d.source.wal with
  | none => d
  | some inode => { d with inodes := d.inodes.set inode (.wal records) }

/-- `std::fs::copy`: a new inode, of the same content. -/
def copied (body : Inode V) : Disk V := { d with inodes := d.inodes ++ [body] }

/-- One SST of the backup: a hard link, or a copy where the link fails. -/
def link (hard : Bool) (id : Nat) : Option (Disk V) := do
  let inode ← d.source.sst.lookup id
  let body ← d.inodes[inode]?
  if hard then
    return { d with backup := { d.backup with sst := d.backup.sst ++ [(id, inode)] } }
  else
    return { d.copied body with
      backup := { d.backup with sst := d.backup.sst ++ [(id, d.inodes.length)] } }

def copyWal : Option (Disk V) := do
  let inode ← d.source.wal
  let body ← d.inodes[inode]?
  return { d.copied body with backup := { d.backup with wal := some d.inodes.length } }

variable [ByteLen V]

def flush (env : StorageEnv V) (tree : LsmTree V) : Disk V :=
  if tree.activeMemtable.isEmpty then d
  else
    let file := SstWriter.writeAll env tree.blockCompression tree.activeMemtable.entries
    match SstReader.open tree.nextSstId file with
    | .error _ => d.writeSst tree.nextSstId file
    | .ok _ => (d.writeSst tree.nextSstId file).writeWal []

def compact (env : StorageEnv V) (tree : LsmTree V) (job : CompactionJob V) : Disk V :=
  let entries := LsmTree.keepNeeded job.minSnapshot none false job.allEntries
  let file := SstWriter.writeAll env tree.blockCompression entries
  let written := d.writeSst tree.nextSstId file
  if entries.isEmpty then (written.removeSsts [tree.nextSstId]).removeSsts job.mergedPaths
  else
    match SstReader.open tree.nextSstId file with
    | .error _ => written
    | .ok _ => written.removeSsts job.mergedPaths

end Disk

section

/-- `SstSnapshotManifest`, without the log's size. -/
structure Manifest where
  sstNames : List Nat
  maxVersion : UInt64

/-- Where `snapshot_to` is. `held` is the source when `flush_lock` was taken. -/
inductive Stage (V : Type)
  | idle
  | flushed (held : LsmRun.Sys V)
  | linking (held : LsmRun.Sys V) (manifest : Manifest) (rest : List (SstReader V))
  | finished (held : LsmRun.Sys V) (manifest : Manifest)
  | failed (e : Error)

namespace Stage

def isIdle : Stage V → Bool
  | idle => true
  | _ => false

def holdsFlushLock : Stage V → Bool
  | flushed _ => true
  | linking _ _ _ => true
  | _ => false

def holdsCompactionMutex : Stage V → Bool
  | linking _ _ _ => true
  | _ => false

end Stage

structure Sys (V : Type) where
  run : LsmRun.Sys V
  disk : Disk V
  stage : Stage V

inductive Call (V : Type)
  | begin
  | commit (txn : Transaction Bytes V)
  | abort (txn : Transaction Bytes V)
  | flush
  | compactBegin
  | compactFinish
  | snapshotTo
  | lockCompaction
  | link (hard : Bool)
  | copyWal

namespace Sys

variable [ByteLen V]

def new (blockCompression : SstCompression) : Sys V :=
  { run := .new blockCompression, disk := .new, stage := .idle }

variable (env : StorageEnv V) (s : Sys V)

def flush : Sys V :=
  { s with run := s.run.step env (.flush .done), disk := s.disk.flush env s.run.tree }

/-- `snapshot_to` takes `flush_lock` and flushes. -/
def snapshotTo : Sys V :=
  match (s.run.tree.flushLocked env .done).1 with
  | .error e => { s.flush env with stage := .failed e }
  | .ok _ => { s.flush env with stage := .flushed s.run }

/-- One turn of the loop over `sst_files`. -/
def linkSst (held : LsmRun.Sys V) (manifest : Manifest) (sst : SstReader V)
    (rest : List (SstReader V)) (hard : Bool) : Sys V :=
  match s.disk.link hard sst.id with
  | none => { s with stage := .failed .io }
  | some disk =>
    match sst.file.maxVersion with
    | .error e => { s with disk, stage := .failed e }
    | .ok version =>
      { s with
        disk
        stage := .linking held
          { sstNames := manifest.sstNames ++ [sst.id]
            maxVersion := max manifest.maxVersion version } rest }

def copyWal (held : LsmRun.Sys V) (manifest : Manifest) : Sys V :=
  match s.disk.copyWal with
  | none => { s with stage := .failed .io }
  | some disk => { s with disk, stage := .finished held manifest }

/-- Commits and flushes wait for `flush_lock`, compactions for `compaction_mutex`. -/
def step : Call V → Sys V
  | .begin => { s with run := s.run.step env .begin }
  | .abort txn => { s with run := s.run.step env (.abort txn) }
  | .commit txn =>
    if s.stage.holdsFlushLock then s
    else
      let run := s.run.step env (.commit txn)
      { s with run, disk := s.disk.writeWal run.tree.wal }
  | .flush => if s.stage.holdsFlushLock then s else s.flush env
  | .compactBegin =>
    if s.stage.holdsCompactionMutex then s else { s with run := s.run.step env .compactBegin }
  | .compactFinish =>
    match s.run.job with
    | none => s
    | some job =>
      { s with
        run := s.run.step env (.compactFinish .done)
        disk := s.disk.compact env s.run.tree job }
  | .snapshotTo => if s.stage.isIdle then s.snapshotTo env else s
  | .lockCompaction =>
    match s.stage, s.run.job with
    | .flushed held, none =>
      { s with stage := .linking held { sstNames := [], maxVersion := 0 } s.run.tree.sstFiles }
    | _, _ => s
  | .link hard =>
    match s.stage with
    | .linking held manifest (sst :: rest) => s.linkSst held manifest sst rest hard
    | _ => s
  | .copyWal =>
    match s.stage with
    | .linking held manifest [] => s.copyWal held manifest
    | _ => s

end Sys

variable [ByteLen V]

def Within (env : StorageEnv V) (s : Sys V) : Call V → Prop
  | .flush => s.stage.holdsFlushLock = false → s.run.FlushFits env
  | .snapshotTo => s.stage.isIdle = true → s.run.FlushFits env
  | .compactFinish => s.run.MergeFits env
  | _ => True

end

variable {d d' : Disk V} {tree : LsmTree V}

variable {names : List (Nat × Nat)} {ids : List Nat} {id : Nat}

theorem lookup_concat {inode : Nat} (name : Nat × Nat) (h : names.lookup id = some inode) :
    (names ++ [name]).lookup id = some inode := by
  rw [lookup_append, h, Option.some_or]

theorem lookup_concat_self (inode : Nat) (h : ∀ name ∈ names, name.1 < id) :
    (names ++ [(id, inode)]).lookup id = some inode := by
  have hnone : names.lookup id = none := by
    rw [lookup_eq_none_iff]
    intro name hname
    simpa using (h name hname).ne'
  rw [lookup_append, hnone, Option.none_or]
  exact lookup_cons_self

theorem lookup_removed (h : id ∉ ids) :
    (names.filter fun name => name.1 ∉ ids).lookup id = names.lookup id := by
  induction names with
  | nil => rfl
  | cons name names ih =>
    rw [filter_cons]
    by_cases heq : id = name.1
    · have hin : decide (name.1 ∉ ids) = true := decide_eq_true (heq ▸ h)
      rw [if_pos hin, lookup_cons, lookup_cons, ih]
    · have hne : (id == name.1) = false := beq_eq_false_iff_ne.mpr heq
      split_ifs
      · rw [lookup_cons, lookup_cons, ih]
      · rw [ih, lookup_cons, hne]

/-- What other directories see: an SST stays as it is, and a log that is not the source's too. -/
structure Keeps (d d' : Disk V) : Prop where
  sst : ∀ {inode : Nat} {file : SstFile V}, d.inodes[inode]? = some (.sst file) →
    d'.inodes[inode]? = some (.sst file)
  wal : ∀ {inode : Nat} {records : List (WalRecord V)}, d.inodes[inode]? = some (.wal records) →
    d.source.wal ≠ some inode → d'.inodes[inode]? = some (.wal records)
  log : d'.source.wal = d.source.wal

theorem Keeps.refl (d : Disk V) : Keeps d d := ⟨id, fun h _ => h, rfl⟩

theorem Keeps.trans {d'' : Disk V} (h : Keeps d d') (h' : Keeps d' d'') : Keeps d d'' where
  sst := fun hinode => h'.sst (h.sst hinode)
  wal := fun hinode hne => h'.wal (h.wal hinode hne) (h.log ▸ hne)
  log := h'.log.trans h.log

theorem getElem?_concat_of_some {α : Type} {l : List α} {i : Nat} {a : α} (b : α)
    (h : l[i]? = some a) : (l ++ [b])[i]? = some a := by
  have hlt := (List.getElem?_eq_some_iff.mp h).1
  rw [getElem?_append_left hlt, h]

theorem keeps_concat (body : Inode V) {source backup : Dir} (hlog : source.wal = d.source.wal) :
    Keeps d { inodes := d.inodes ++ [body], source, backup } where
  sst := getElem?_concat_of_some body
  wal := fun h _ => getElem?_concat_of_some body h
  log := hlog

structure Holds (d : Disk V) (tree : LsmTree V) : Prop where
  named : ∀ sst ∈ tree.sstFiles, ∃ inode, d.source.sst.lookup sst.id = some inode ∧
    d.inodes[inode]? = some (.sst sst.file)
  below : ∀ name ∈ d.source.sst, name.1 < tree.nextSstId
  log : ∃ inode, d.source.wal = some inode ∧ d.inodes[inode]? = some (.wal tree.wal)

theorem holds_new (c : SstCompression) : Holds Disk.new (.new c : LsmTree V) where
  named := forall_mem_nil _
  below := forall_mem_nil _
  log := ⟨0, rfl, rfl⟩

theorem Holds.writeWal (h : Holds d tree) (tree' : LsmTree V)
    (hssts : tree'.sstFiles = tree.sstFiles) (hnext : tree'.nextSstId = tree.nextSstId) :
    Holds (d.writeWal tree'.wal) tree' ∧ Keeps d (d.writeWal tree'.wal) ∧
      (d.writeWal tree'.wal).backup = d.backup := by
  obtain ⟨inode, hinode, hlog⟩ := h.log
  have hlt := (List.getElem?_eq_some_iff.mp hlog).1
  have heq : d.writeWal tree'.wal = { d with inodes := d.inodes.set inode (.wal tree'.wal) } := by
    unfold Disk.writeWal
    rw [hinode]
  have hsst : ∀ {i : Nat} {file : SstFile V}, d.inodes[i]? = some (.sst file) →
      (d.inodes.set inode (.wal tree'.wal))[i]? = some (.sst file) := by
    intro i file hi
    have hne : inode ≠ i := by
      rintro rfl
      cases hlog.symm.trans hi
    rw [getElem?_set_ne hne, hi]
  rw [heq]
  refine ⟨⟨?_, ?_, inode, hinode, ?_⟩, ⟨hsst, ?_, rfl⟩, rfl⟩
  · intro sst hmem
    rw [hssts] at hmem
    obtain ⟨i, hlookup, hi⟩ := h.named sst hmem
    exact ⟨i, hlookup, hsst hi⟩
  · rw [hnext]
    exact h.below
  · exact getElem?_set_self hlt
  · intro i records hi hne
    have hother : inode ≠ i := fun heq => hne (heq ▸ hinode)
    exact (getElem?_set_ne hother).trans hi

theorem Holds.writeSst (h : Holds d tree) (file : SstFile V) (tree' : LsmTree V)
    (hssts : ∀ sst ∈ tree'.sstFiles, sst ∈ tree.sstFiles ∨
      sst.id = tree.nextSstId ∧ sst.file = file)
    (hwal : tree'.wal = tree.wal) (hnext : tree'.nextSstId = tree.nextSstId + 1) :
    Holds (d.writeSst tree.nextSstId file) tree' ∧ Keeps d (d.writeSst tree.nextSstId file) := by
  have hkeeps : Keeps d (d.writeSst tree.nextSstId file) := keeps_concat _ rfl
  refine ⟨⟨?_, ?_, ?_⟩, hkeeps⟩
  · intro sst hmem
    obtain hold | ⟨hid, hfile⟩ := hssts sst hmem
    · obtain ⟨inode, hlookup, hinode⟩ := h.named sst hold
      exact ⟨inode, lookup_concat _ hlookup, hkeeps.sst hinode⟩
    · rw [hid, hfile]
      exact ⟨d.inodes.length, lookup_concat_self _ h.below, getElem?_concat_length⟩
  · rw [hnext]
    refine List.forall_mem_append.mpr ⟨fun name hname => ?_, ?_⟩
    · exact Nat.lt_succ_of_lt (h.below name hname)
    · exact List.forall_mem_singleton.mpr (Nat.lt_succ_self _)
  · obtain ⟨inode, hinode, hlog⟩ := h.log
    rw [hwal]
    exact ⟨inode, hinode, getElem?_concat_of_some _ hlog⟩

theorem Holds.removeSsts (h : Holds d tree)
    (hids : ∀ sst ∈ tree.sstFiles, sst.id ∉ ids) : Holds (d.removeSsts ids) tree where
  named := by
    intro sst hmem
    obtain ⟨inode, hlookup, hinode⟩ := h.named sst hmem
    exact ⟨inode, (lookup_removed (hids sst hmem)).trans hlookup, hinode⟩
  below := fun name hname => h.below name (mem_of_mem_filter hname)
  log := h.log

theorem keeps_removeSsts (ids : List Nat) : Keeps d (d.removeSsts ids) := ⟨id, fun h _ => h, rfl⟩

end RhypeDb.Storage.PhysicalBackup
