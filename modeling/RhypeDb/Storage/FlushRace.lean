import RhypeDb.Storage.SnapshotRead

/-! A point read or a prefix scan while a flush runs. The flush moves the memtable in four
separately locked steps, the read visits the three layer lists one after the other, and
between the swap of the active memtable and its push onto the immutables the data is in no
list a reader can see. -/

namespace RhypeDb.Storage

open List LsmTree

variable {V : Type}

namespace FlushRace

/-- What `flush_locked` does next. -/
inductive Flush (V : Type)
  | rotate
  | stage (old : MemTable V)
  | register (sstId : Nat) (old : MemTable V)
  | retire
  | done
  | failed

inductive Event
  | flush
  | read
  deriving DecidableEq, Repr

structure Sys (V ρ : Type) where
  tree : LsmTree V
  flush : Flush V
  read : ρ

/-- What `get_at` does next. -/
inductive GetAt (V : Type)
  | active
  | immutables
  | ssts
  | done (result : Except Error (Option V))

/-- What `scan_prefix_at` does next, with the rows merged so far. -/
inductive ScanPrefixAt (V : Type)
  | ssts
  | immutables (merged : SortedMap Bytes (MemValue V))
  | active (merged : SortedMap Bytes (MemValue V))
  | done (rows : List (Bytes × V))

section

variable [ByteLen V]

/-- One locked step of `flush_locked`. No other flush runs, so the memtable it retires is the
last one pushed. -/
def flushStep (env : StorageEnv V) (tree : LsmTree V) : Flush V → LsmTree V × Flush V
  | .rotate =>
    ({ tree with activeMemtable := .new },
      if tree.activeMemtable.isEmpty then .done else .stage tree.activeMemtable)
  | .stage old =>
    ({ tree with
        immutableMemtables := tree.immutableMemtables ++ [old]
        nextSstId := tree.nextSstId + 1 }, .register tree.nextSstId old)
  | .register sstId old =>
    match SstReader.open sstId (SstWriter.writeAll env tree.blockCompression old.entries) with
    | .error _ => (tree, .failed)
    | .ok reader => ({ tree with sstFiles := tree.sstFiles ++ [reader] }, .retire)
  | .retire =>
    ({ tree with immutableMemtables := tree.immutableMemtables.dropLast, wal := [] }, .done)
  | .done => (tree, .done)
  | .failed => (tree, .failed)

/-- One layer read of `get_at`. -/
def getStep (env : StorageEnv V) (version : UInt64) (userKey : Bytes) (tree : LsmTree V) :
    GetAt V → GetAt V
  | .active =>
    match tree.activeMemtable.get userKey version with
    | some value => .done (.ok value)
    | none => .immutables
  | .immutables =>
    match tree.immutableMemtables.reverse.findSome? (·.get userKey version) with
    | some value => .done (.ok value)
    | none => .ssts
  | .ssts => .done (LsmTree.getFromSsts env version userKey tree.sstFiles.reverse)
  | .done result => .done result

/-- One layer read of `scan_prefix_at`. -/
def scanStep (version : UInt64) (pre : Bytes) (tree : LsmTree V) :
    ScanPrefixAt V → ScanPrefixAt V
  | .ssts =>
    .immutables ((tree.sstFiles.map (·.file.scanPrefix pre version)).foldl
      SortedMap.insertAll SortedMap.empty)
  | .immutables merged =>
    .active ((tree.immutableMemtables.map (·.scanPrefix pre version)).foldl
      SortedMap.insertAll merged)
  | .active merged =>
    .done ((merged.insertAll (tree.activeMemtable.scanPrefix pre version)).entries.filterMap
      fun row => row.2.map fun value => (row.1, value))
  | .done rows => .done rows

def Sys.step {ρ : Type} (env : StorageEnv V) (readStep : LsmTree V → ρ → ρ) (s : Sys V ρ) :
    Event → Sys V ρ
  | .flush =>
    let (tree, flush) := flushStep env s.tree s.flush
    { s with tree, flush }
  | .read => { s with read := readStep s.tree s.read }

/-- The tree and the flush after `n` steps of the flush. -/
def flushSteps (env : StorageEnv V) (tree : LsmTree V) : Nat → LsmTree V × Flush V
  | 0 => (tree, .rotate)
  | n + 1 => flushStep env (flushSteps env tree n).1 (flushSteps env tree n).2

/-- The tree a read sees that takes the active memtable, the immutables and the SSTs after
`p`, `q` and `r` steps of the flush. -/
def seen (env : StorageEnv V) (tree : LsmTree V) (p q r : Nat) : LsmTree V :=
  { tree with
    activeMemtable := (flushSteps env tree p).1.activeMemtable
    immutableMemtables := (flushSteps env tree q).1.immutableMemtables
    sstFiles := (flushSteps env tree r).1.sstFiles }

end

/-- How many steps the flush, `n` steps in, has taken when each read step happens. -/
def flushesAt (n : Nat) : List Event → List Nat
  | [] => []
  | .flush :: events => flushesAt (n + 1) events
  | .read :: events => n :: flushesAt n events

/-- The flush's progress when the read takes its `i`-th step. -/
def progressAt (events : List Event) (i : Nat) : Nat := (flushesAt 0 events).getD i 0

/-- The read finds the rotated memtable in none of the three lists: it takes the active one
after the swap, the immutables before the push or after the removal, and the SSTs before the
new one is pushed. -/
def Missed (active immutables ssts : Nat) : Prop :=
  1 ≤ active ∧ (immutables ≤ 1 ∨ 4 ≤ immutables) ∧ ssts ≤ 2

instance (active immutables ssts : Nat) : Decidable (Missed active immutables ssts) :=
  inferInstanceAs (Decidable (_ ∧ _ ∧ _))

/-- If the active memtable holds a visible version of the key, the layers behind it hold
the same value. -/
def Redundant (tree : LsmTree V) (version : UInt64) (k : Bytes) : Prop :=
  ∀ value, readNewest tree.activeMemtable.entries k version = some value →
    readLayers tree.layers.tail k version = value

structure Flushable [ByteLen V] (env : StorageEnv V) (tree : LsmTree V) : Prop where
  files : ∀ sst ∈ tree.sstFiles, sst.file.WellFormed env ∧ sst.file.Fits
  apart : ∀ layer ∈ tree.layers, PrefixFree (userKeys layer)
  fits : (SstWriter.writeAll env tree.blockCompression tree.activeMemtable.entries).Fits
  lacks : ∀ m ∈ tree.immutableMemtables, ∀ e ∈ tree.activeMemtable.entries,
    Lacks e.1.userKey m.entries

section

variable [ByteLen V] {env : StorageEnv V} {tree : LsmTree V}

theorem read_exec {ρ : Type} (readStep : LsmTree V → ρ → ρ) (events : List Event) (n : Nat)
    (read : ρ) :
    (Run.exec (Sys.step env readStep)
      ⟨(flushSteps env tree n).1, (flushSteps env tree n).2, read⟩ events).read =
      (flushesAt n events).foldl (fun read p => readStep (flushSteps env tree p).1 read) read := by
  induction events generalizing n read with
  | nil => rfl
  | cons event events ih =>
    cases event with
    | flush => exact ih (n + 1) read
    | read => exact ih n (readStep (flushSteps env tree n).1 read)

variable {version : UInt64} {reader : SstReader V} {ps : List Nat} {pre : Bytes}

theorem foldl_getStep_done {k : Bytes} (result : Except Error (Option V)) (ps : List Nat) :
    ps.foldl (fun read p => getStep env version k (flushSteps env tree p).1 read) (.done result) =
      .done result := by
  induction ps with
  | nil => rfl
  | cons p ps ih => exact ih

theorem foldl_scanStep_done (rows : List (Bytes × V)) (ps : List Nat) :
    ps.foldl (fun read p => scanStep version pre (flushSteps env tree p).1 read) (.done rows) =
      .done rows := by
  induction ps with
  | nil => rfl
  | cons p ps ih => exact ih

theorem getAt_seen {k : Bytes} {result : Except Error (Option V)}
    (h : ps.foldl (fun read p => getStep env version k (flushSteps env tree p).1 read) .active =
      .done result) :
    result =
      (seen env tree (ps.getD 0 0) (ps.getD 1 0) (ps.getD 2 0)).getAt env version k := by
  cases ps with
  | nil => cases h
  | cons p ps =>
    rw [foldl_cons, getStep] at h
    simp only [getD_cons_zero, getD_cons_succ, getAt, seen]
    cases hactive : (flushSteps env tree p).1.activeMemtable.get k version with
    | some value =>
      simp only [hactive, foldl_getStep_done, GetAt.done.injEq] at h
      exact h.symm
    | none =>
      simp only [hactive] at h
      cases ps with
      | nil => cases h
      | cons q ps =>
        rw [foldl_cons, getStep] at h
        simp only [getD_cons_zero, getD_cons_succ]
        cases himm : (flushSteps env tree q).1.immutableMemtables.reverse.findSome?
            (·.get k version) with
        | some value =>
          simp only [himm, foldl_getStep_done, GetAt.done.injEq] at h
          exact h.symm
        | none =>
          simp only [himm] at h
          cases ps with
          | nil => cases h
          | cons r ps =>
            rw [foldl_cons, getStep, foldl_getStep_done, GetAt.done.injEq] at h
            exact h.symm

theorem scanPrefixAt_seen {rows : List (Bytes × V)}
    (h : ps.foldl (fun read p => scanStep version pre (flushSteps env tree p).1 read) .ssts = .done
      rows) :
    rows = (seen env tree (ps.getD 2 0) (ps.getD 1 0) (ps.getD 0 0)).scanPrefixAt version pre := by
  rcases ps with _ | ⟨r, _ | ⟨q, _ | ⟨p, ps⟩⟩⟩
  · cases h
  · cases h
  · cases h
  · rw [foldl_cons, foldl_cons, foldl_cons, scanStep, scanStep, scanStep,
      foldl_scanStep_done, ScanPrefixAt.done.injEq] at h
    simp only [getD_cons_zero, getD_cons_succ, scanPrefixAt,
      mergeLayers, seen, foldl_append, foldl_cons, foldl_nil]
    exact h.symm

theorem flushSteps_of_empty (hempty : tree.activeMemtable.isEmpty = true) (n : Nat) :
    (flushSteps env tree n).1 = tree := by
  have hnew : tree.activeMemtable = .new := SortedMap.ext (List.isEmpty_iff.mp hempty)
  have hrotate : flushStep env tree .rotate = (tree, .done) := by
    simp only [flushStep, hempty, if_true]
    rw [← hnew]
  have hdone : ∀ m, flushSteps env tree (m + 1) = (tree, .done) := by
    intro m
    induction m with
    | zero => exact hrotate
    | succ m ih => rw [flushSteps, ih, flushStep]
  cases n with
  | zero => rfl
  | succ n => rw [hdone]

theorem flushSteps_of_open (hempty : tree.activeMemtable.isEmpty = false)
    (hopen : SstReader.open tree.nextSstId (SstWriter.writeAll env tree.blockCompression
      tree.activeMemtable.entries) = .ok reader) (n : Nat) :
    (flushSteps env tree n).1.activeMemtable = (if n = 0 then tree.activeMemtable else .new) ∧
    (flushSteps env tree n).1.immutableMemtables =
      (if n ≤ 1 ∨ 4 ≤ n then tree.immutableMemtables
        else tree.immutableMemtables ++ [tree.activeMemtable]) ∧
    (flushSteps env tree n).1.sstFiles =
      (if n ≤ 2 then tree.sstFiles else tree.sstFiles ++ [reader]) := by
  have hlast : ∀ m, flushSteps env tree (m + 4) = (tree.registered reader, .done) := by
    intro m
    induction m with
    | zero => simp [flushSteps, flushStep, hempty, hopen, registered]
    | succ m ih => rw [flushSteps, ih, flushStep]
  rcases n with _ | _ | _ | _ | m
  · simp [flushSteps]
  · simp [flushSteps, flushStep]
  · simp [flushSteps, flushStep, hempty]
  · simp [flushSteps, flushStep, hempty, hopen]
  · simp [hlast, registered]

theorem flushSteps_eq_flushLocked (h : (tree.flushLocked env .done).1 = .ok ()) :
    (flushSteps env tree 4).1 = (tree.flushLocked env .done).2 := by
  cases hempty : tree.activeMemtable.isEmpty with
  | true =>
    have hnew : tree.activeMemtable = .new := SortedMap.ext (List.isEmpty_iff.mp hempty)
    rw [flushSteps_of_empty hempty]
    simp [flushLocked, hempty, ← hnew]
  | false =>
    cases hopen : SstReader.open tree.nextSstId (SstWriter.writeAll env tree.blockCompression
        tree.activeMemtable.entries) with
    | error e => simp [flushLocked, hempty, hopen] at h
    | ok reader => simp [flushLocked, flushSteps, flushStep, hempty, hopen]

omit [ByteLen V] in
theorem readLayers_eq_or (tree : LsmTree V) (k : Bytes) (version : UInt64) :
    readLayers tree.layers k version =
      ((readNewest tree.activeMemtable.entries k version).or
        ((tree.immutableMemtables.reverse.findSome? fun m => readNewest m.entries k version).or
          (tree.sstFiles.reverse.findSome? fun sst => readNewest sst.file.data k version))).join := by
  simp only [readLayers, layers, findSome?_cons, findSome?_append,
    findSome?_map, Function.comp_def]
  cases readNewest tree.activeMemtable.entries k version <;> rfl

theorem readLayers_seen (hempty : tree.activeMemtable.isEmpty = false)
    (hopen : SstReader.open tree.nextSstId (SstWriter.writeAll env tree.blockCompression
      tree.activeMemtable.entries) = .ok reader)
    (hlacks : ∀ m ∈ tree.immutableMemtables, ∀ e ∈ tree.activeMemtable.entries,
      Lacks e.1.userKey m.entries) (p q r : Nat) (k : Bytes) (version : UInt64) :
    readLayers (seen env tree p q r).layers k version = readLayers tree.layers k version ↔
      (Missed p q r → Redundant tree version k) := by
  have hdata : reader.file.data = tree.activeMemtable.entries := by
    rw [(SstReader.file_of_open hopen).1, SstWriter.data_writeAll]
  have hp := (flushSteps_of_open hempty hopen p).1
  have hq := (flushSteps_of_open hempty hopen q).2.1
  have hr := (flushSteps_of_open hempty hopen r).2.2
  have htail : readLayers tree.layers.tail k version =
      ((tree.immutableMemtables.reverse.findSome? fun m => readNewest m.entries k version).or
        (tree.sstFiles.reverse.findSome? fun sst => readNewest sst.file.data k version)).join := by
    simp only [readLayers, layers, tail_cons, findSome?_append,
      findSome?_map, Function.comp_def]
  rw [readLayers_eq_or, readLayers_eq_or, Redundant, htail]
  simp only [seen, hp, hq, hr]
  cases hread : readNewest tree.activeMemtable.entries k version with
  | none =>
    have hnew : readNewest (MemTable.new : MemTable V).entries k version = none := rfl
    have hactive : readNewest (if p = 0 then tree.activeMemtable else .new).entries k version =
        none := by
      split_ifs
      · exact hread
      · exact hnew
    refine iff_of_true ?_ fun _ value h => by cases h
    rw [hactive]
    split_ifs <;> simp [hread, hdata]
  | some value =>
    obtain ⟨e, he, -⟩ := Option.map_eq_some_iff.mp hread
    have he := isNewest_of_newest he
    have himm : (tree.immutableMemtables.reverse.findSome? fun m =>
        readNewest m.entries k version) = none := by
      rw [findSome?_eq_none_iff]
      intro m hm
      have hlack := hlacks m (mem_reverse.mp hm) e he.mem
      exact readNewest_of_lacks (he.userKey_eq ▸ hlack) version
    have hnew : readNewest (MemTable.new : MemTable V).entries k version = none := rfl
    by_cases hmiss : Missed p q r
    · obtain ⟨hp1, hq1, hr1⟩ := hmiss
      rw [if_neg (by omega), if_pos hq1, if_pos hr1, hnew, himm]
      simp [Missed, hp1, hq1, hr1]
    · refine iff_of_true ?_ fun h => absurd h hmiss
      by_cases hp0 : p = 0
      · rw [if_pos hp0, hread]
        rfl
      · by_cases hq1 : q ≤ 1 ∨ 4 ≤ q
        · have hr1 : ¬ r ≤ 2 := fun hr1 => hmiss ⟨by omega, hq1, hr1⟩
          rw [if_neg hp0, if_pos hq1, if_neg hr1, hnew, himm]
          simp [hdata, hread]
        · rw [if_neg hp0, if_neg hq1, hnew]
          simp [hread]

theorem Flushable.exists_open (h : Flushable env tree) :
    ∃ reader, SstReader.open tree.nextSstId (SstWriter.writeAll env tree.blockCompression
      tree.activeMemtable.entries) = .ok reader := by
  have hwf := SstWriter.wellFormed_writeAll env tree.blockCompression tree.activeMemtable.sorted
  obtain ⟨reader, hopen, -⟩ := SstReader.open_of_fits hwf h.fits tree.nextSstId
  exact ⟨reader, hopen⟩

theorem Flushable.seen (h : Flushable env tree) (p q r : Nat) :
    (∀ sst ∈ (seen env tree p q r).sstFiles, sst.file.WellFormed env ∧ sst.file.Fits) ∧
      ∀ layer ∈ (FlushRace.seen env tree p q r).layers, PrefixFree (userKeys layer) := by
  have hlayers := h.apart
  simp only [layers, forall_mem_cons, forall_mem_append, forall_mem_map,
    mem_reverse] at hlayers ⊢
  cases hempty : tree.activeMemtable.isEmpty with
  | true =>
    simp only [FlushRace.seen, flushSteps_of_empty hempty]
    exact ⟨h.files, hlayers⟩
  | false =>
    obtain ⟨reader, hopen⟩ := h.exists_open
    obtain ⟨hfile, -⟩ := SstReader.file_of_open hopen
    have hwf := SstWriter.wellFormed_writeAll env tree.blockCompression tree.activeMemtable.sorted
    have hnil : PrefixFree (userKeys (MemTable.new : MemTable V).entries) := by
      rintro _ ⟨e, he, -⟩
      cases he
    simp only [FlushRace.seen, (flushSteps_of_open hempty hopen p).1,
      (flushSteps_of_open hempty hopen q).2.1,
      (flushSteps_of_open hempty hopen r).2.2]
    refine ⟨?_, ?_, ?_, ?_⟩
    · split_ifs
      · exact h.files
      · rw [forall_mem_append, forall_mem_singleton, hfile]
        exact ⟨h.files, hwf, h.fits⟩
    · split_ifs
      · exact hlayers.1
      · exact hnil
    · split_ifs
      · exact hlayers.2.1
      · rw [forall_mem_append, forall_mem_singleton]
        exact ⟨hlayers.2.1, hlayers.1⟩
    · split_ifs
      · exact hlayers.2.2
      · rw [forall_mem_append, forall_mem_singleton, hfile, SstWriter.data_writeAll]
        exact ⟨hlayers.2.2, hlayers.1⟩

theorem Flushable.readLayers_seen (h : Flushable env tree) (p q r : Nat) (k : Bytes)
    (version : UInt64) :
    readLayers (FlushRace.seen env tree p q r).layers k version =
        readLayers tree.layers k version ↔
      (Missed p q r → Redundant tree version k) := by
  cases hempty : tree.activeMemtable.isEmpty with
  | true =>
    have hnil : tree.activeMemtable.entries = [] := List.isEmpty_iff.mp hempty
    refine iff_of_true ?_ fun _ value hvalue => ?_
    · simp only [FlushRace.seen, flushSteps_of_empty hempty]
    · rw [hnil] at hvalue
      cases hvalue
  | false =>
    obtain ⟨reader, hopen⟩ := h.exists_open
    exact FlushRace.readLayers_seen hempty hopen h.lacks p q r k version

/-- In every interleaving of one read with one flush that would succeed, the read returns
what it would without the flush exactly when it does not miss the memtable, or the layers
behind the memtable answer the same. -/
theorem reads_during_flush (h : Flushable env tree) (version : UInt64) (events : List Event) :
    (∀ k result, (Run.exec (Sys.step env (getStep env version k))
        ⟨tree, .rotate, .active⟩ events).read = .done result →
      (result = tree.getAt env version k ↔
        (Missed (progressAt events 0) (progressAt events 1) (progressAt events 2) →
          Redundant tree version k))) ∧
    ∀ pre rows, (Run.exec (Sys.step env (scanStep version pre))
        ⟨tree, .rotate, .ssts⟩ events).read = .done rows →
      (rows = tree.scanPrefixAt version pre ↔
        (Missed (progressAt events 2) (progressAt events 1) (progressAt events 0) →
          ∀ k, pre <+: k → Redundant tree version k)) := by
  constructor
  · intro k result hdone
    obtain ⟨hfiles, hfree⟩ := h.seen (progressAt events 0) (progressAt events 1) (progressAt events 2)
    have hresult : result = (FlushRace.seen env tree (progressAt events 0) (progressAt events 1)
        (progressAt events 2)).getAt env version k :=
      getAt_seen ((read_exec _ events 0 _).symm.trans hdone)
    rw [hresult, getAt_eq h.files h.apart k version, getAt_eq hfiles hfree k version,
      Except.ok.injEq]
    exact h.readLayers_seen _ _ _ k version
  · intro pre rows hdone
    obtain ⟨hfiles, hfree⟩ := h.seen (progressAt events 2) (progressAt events 1) (progressAt events 0)
    have hrows : rows = (FlushRace.seen env tree (progressAt events 2) (progressAt events 1)
        (progressAt events 0)).scanPrefixAt version pre :=
      scanPrefixAt_seen ((read_exec _ events 0 _).symm.trans hdone)
    have hsame : ∀ k, pre <+: k → (readLayers (FlushRace.seen env tree (progressAt events 2)
        (progressAt events 1) (progressAt events 0)).layers k version =
          readLayers tree.layers k version ↔ _) :=
      fun k _ => h.readLayers_seen _ _ _ k version
    rw [hrows]
    constructor
    · intro heq hmiss k hk
      refine (hsame k hk).mp ?_ hmiss
      ext value
      have hmem := congrArg (fun rows => (k, value) ∈ rows) heq
      simp only [mem_scanPrefixAt_iff_readLayers hfiles hfree,
        mem_scanPrefixAt_iff_readLayers h.files h.apart, hk, true_and, eq_iff_iff] at hmem
      exact hmem
    · intro hred
      apply SortedMap.entries_eq_of_mem_iff (sorted_mergeLayers _) (sorted_mergeLayers _)
      rintro ⟨k, value⟩
      refine (mem_scanPrefixAt_iff_readLayers hfiles hfree).trans
        (Iff.trans ?_ (mem_scanPrefixAt_iff_readLayers h.files h.apart).symm)
      refine and_congr_right fun hk => ?_
      rw [(hsame k hk).mpr fun hmiss => hred hmiss k hk]

end

def oneKey : LsmTree Bytes :=
  { LsmTree.new .none with activeMemtable := MemTable.new.put [107] 1 [1] }

theorem flushable_oneKey : Flushable LsmRun.plainEnv oneKey where
  files := forall_mem_nil _
  apart := by
    intro layer hlayer
    rw [mem_singleton.mp (show layer ∈ [oneKey.activeMemtable.entries] from hlayer)]
    rintro _ ⟨e, he, rfl⟩ _ ⟨e', he', rfl⟩ -
    rw [mem_singleton.mp he, mem_singleton.mp he']
  fits := nofun
  lacks := forall_mem_nil _

/-- The read starts between the push of the memtable and that of its SST. -/
theorem reads_during_flush_oneKey :
    (Run.exec (Sys.step LsmRun.plainEnv (getStep LsmRun.plainEnv 1 [107]))
      ⟨oneKey, .rotate, .active⟩ [.flush, .flush, .read, .read, .flush, .flush]).read =
      .done (oneKey.getAt LsmRun.plainEnv 1 [107]) := by
  have hread : (Run.exec (Sys.step LsmRun.plainEnv (getStep LsmRun.plainEnv 1 [107]))
      ⟨oneKey, .rotate, .active⟩ [.flush, .flush, .read, .read, .flush, .flush]).read =
      .done (.ok (some [1])) := by rfl
  rw [hread, ← ((reads_during_flush flushable_oneKey 1 _).1 [107] _ hread).mpr fun h =>
    absurd h (by decide)]

/-- A point read that runs between the swap and the push finds nothing; a scan that took the
SSTs and the immutables before the swap and the active memtable after it loses the row. -/
theorem read_lost_during_flush : ¬ ∀ (env : StorageEnv Bytes) (tree : LsmTree Bytes)
    (version : UInt64) (events : List Event), Flushable env tree →
    (∀ k result, (Run.exec (Sys.step env (getStep env version k))
        ⟨tree, .rotate, .active⟩ events).read = .done result →
      result = tree.getAt env version k) ∧
    ∀ pre rows, (Run.exec (Sys.step env (scanStep version pre))
        ⟨tree, .rotate, .ssts⟩ events).read = .done rows →
      rows = tree.scanPrefixAt version pre := by
  intro hall
  have hget := (hall LsmRun.plainEnv oneKey 1 [.flush, .read, .read, .read, .flush, .flush, .flush]
    flushable_oneKey).1 [107] (.ok none) rfl
  exact absurd hget (by decide +kernel)

end FlushRace
end RhypeDb.Storage
