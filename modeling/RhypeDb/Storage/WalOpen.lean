import RhypeDb.Storage.WalAppend

/-! What `LsmTree::open` makes of the bytes in `wal.log`. A framed file is cut behind its last
footer; a file without the magic is legacy and replaced by the flush of what it replayed. That
flush does nothing when nothing was replayed, and the file then takes framed batches behind
bytes that replay cannot pass. -/

namespace RhypeDb.Storage

open ByteOrder List Option WalFile

namespace WalFile

variable (crc : Bytes → UInt32)

/-- `none` is a missing file; the first eight bytes are read only when there are that many. -/
def fileIsLegacy (file : Option Bytes) : Bool :=
  match file with
  | none => false
  | some data =>
    if magic.length ≤ data.length then !(data.take magic.length == magic)
    else 0 < data.length

def replayFile (file : Option Bytes) : List LogRecord × Nat :=
  match file with
  | none => ([], 0)
  | some data => replayWithValidLen crc data

/-- `Wal::open`: an empty or new file gets the magic. -/
def openAppend (file : Option Bytes) : WalWriter :=
  ⟨if (file.getD []).length = 0 then magic else file.getD [], []⟩

/-- The memtable `open` rebuilds from the records. -/
def rebuild (records : List LogRecord) : MemTable Bytes :=
  (records.map LogRecord.toWalRecord).foldl WalRecord.apply .new

/-- The log's part of `LsmTree::open`: the records it recovers and the writer it leaves. `flushed`
says whether the SST of a legacy conversion could be written; `none` is a failed `open`. -/
def openLog (flushed : Bool) (file : Option Bytes) : Option (List LogRecord × WalWriter) :=
  let walWasLegacy := fileIsLegacy file
  let (records, validWalLen) := replayFile crc file
  let memtable := rebuild records
  let file :=
    if !walWasLegacy then
      file.map fun data => if validWalLen < data.length then data.take validWalLen else data
    else file
  let wal := openAppend file
  if walWasLegacy then
    -- `flush` returns early on an empty memtable, before it recreates the log
    if memtable.isEmpty then some (records, wal)
    else if flushed then some (records, ⟨magic, []⟩)
    else none
  else some (records, wal)

theorem fileIsLegacy_some (data : Bytes) :
    fileIsLegacy (some data) = true ↔ data ≠ [] ∧ isFramed data = false := by
  have hframed : isFramed data = true ↔ data.take magic.length = magic := by
    rw [isFramed_iff, prefix_iff_eq_take]
    exact eq_comm
  rw [← Bool.not_eq_true, hframed]
  by_cases hlen : magic.length ≤ data.length
  · have hne : data ≠ [] := ne_nil_of_length_pos (lt_of_lt_of_le (by decide) hlen)
    simp [fileIsLegacy, hlen, hne]
  · have htake : data.take magic.length ≠ magic := by
      intro h
      have := congrArg List.length h
      rw [length_take] at this
      omega
    simp [fileIsLegacy, hlen, htake, length_pos_iff]

theorem replayLoop_no_commit (data : Bytes) {s : Replay}
    (hs : ∀ r ∈ s.records ++ s.pending, r.recordType ≠ .commit) :
    ∀ r ∈ (replayLoop crc data s).records ++ (replayLoop crc data s).pending,
      r.recordType ≠ .commit := by
  induction hn : data.length using Nat.strong_induction_on generalizing data s with
  | _ n ih =>
    cases hd : LogRecord.decode crc data with
    | error e =>
      rw [replayLoop_error crc hd]
      exact hs
    | ok x =>
      obtain ⟨hfits, -, rest, rfl⟩ := (LogRecord.decode_eq_ok crc).mp hd
      have hlt : rest.length < n := by
        have hpos := x.1.size_pos
        rw [← hn, length_append, LogRecord.length_encode]
        omega
      rw [replayLoop_encode crc hfits]
      split_ifs with hty hcount
      · intro r hr
        rw [append_nil] at hr
        exact hs r (mem_append_left _ hr)
      · apply ih _ hlt rest _ rfl
        simpa [Replay.settle] using hs
      · apply ih _ hlt rest _ rfl
        simp only [← append_assoc]
        rw [forall_mem_append, forall_mem_singleton]
        exact ⟨hs, hty⟩

theorem replay_no_commit (data : Bytes) : ∀ r ∈ replay crc data, r.recordType ≠ .commit := by
  intro r hr
  have hloop := fun data offset => replayLoop_no_commit crc data (s := .start offset)
    (by simp [Replay.start])
  cases hframed : isFramed data with
  | true =>
    obtain ⟨rest, rfl⟩ := isFramed_iff.mp hframed
    rw [replay, replayWithValidLen_framed] at hr
    exact hloop _ _ r (mem_append_left _ hr)
  | false =>
    rw [replay, replayWithValidLen_unframed hframed] at hr
    split at hr
    · exact hloop _ _ r (mem_append_left _ hr)
    · exact hloop _ _ r hr

theorem rebuild_isEmpty {records : List LogRecord} (h : ∀ r ∈ records, r.recordType ≠ .commit) :
    (rebuild records).isEmpty = true ↔ records = [] := by
  constructor
  · intro hempty
    by_contra hne
    obtain ⟨rs, r, rfl⟩ := (eq_nil_or_concat records).resolve_left hne
    rw [concat_eq_append] at hempty h
    have hr := h r (by simp)
    -- the last record is in the memtable
    have hinsert : ∃ k v, rebuild (rs ++ [r]) = (rebuild rs).insert k v := by
      obtain ⟨_ | _ | _, key, value, version⟩ := r
      · exact ⟨_, _, by simp [rebuild, LogRecord.toWalRecord, WalRecord.apply, MemTable.put]; rfl⟩
      · exact ⟨_, _, by simp [rebuild, LogRecord.toWalRecord, WalRecord.apply, MemTable.delete]; rfl⟩
      · exact absurd rfl hr
    obtain ⟨k, v, heq⟩ := hinsert
    have hmem : (k, v) ∈ (rebuild (rs ++ [r])).entries := by
      rw [heq, SortedMap.mem_insert]
      exact .inl rfl
    rw [List.isEmpty_iff.mp hempty] at hmem
    exact absurd hmem not_mem_nil
  · rintro rfl
    rfl

end WalFile

namespace WalWriter

variable {crc : Bytes → UInt32}

theorem run_acknowledged {file : Bytes} {calls : List Call}
    (hok : ∀ out ∈ (run crc ⟨file, []⟩ calls).1, out.2 = true) :
    ∃ bs : List Batch, (∀ b ∈ bs, ∃ c ∈ calls, b = c.batch) ∧
      bs.flatMap Batch.records = calls.flatMap (fun c => c.batch.records) ∧
      (run crc ⟨file, []⟩ calls).2.file = file ++ (bs.map (Batch.encode crc)).flatten := by
  induction calls generalizing file with
  | nil => exact ⟨[], by simp, rfl, by simp [run]⟩
  | cons c calls ih =>
    by_cases hne : c.batch.writes = []
    · have hnone : c.batch.records = [] := by
        rw [Batch.records, hne]
        rfl
      simp only [run, appendTxn_no_writes _ hne, forall_mem_cons] at hok ⊢
      obtain ⟨bs, hmem, hrecs, hfile⟩ := ih hok.2
      refine ⟨bs, fun b hb => ?_, ?_, hfile⟩
      · obtain ⟨d, hd, rfl⟩ := hmem b hb
        exact ⟨d, mem_cons_of_mem c hd, rfl⟩
      · rw [hrecs, flatMap_cons, hnone, nil_append]
    · simp only [run, forall_mem_cons] at hok ⊢
      obtain ⟨-, hout | ⟨hfail, -⟩ | ⟨hfail, -⟩ | ⟨-, q, -, hfail⟩⟩ :=
        appendTxn_cases crc ⟨file, []⟩ hne c.fault
      · simp only [hout, append_nil] at hok ⊢
        obtain ⟨bs, hmem, hrecs, hfile⟩ := ih hok.2
        refine ⟨c.batch :: bs, ?_, ?_, ?_⟩
        · rw [forall_mem_cons]
          refine ⟨⟨c, mem_cons_self, rfl⟩, fun b hb => ?_⟩
          obtain ⟨d, hd, rfl⟩ := hmem b hb
          exact ⟨d, mem_cons_of_mem c hd, rfl⟩
        · rw [flatMap_cons, flatMap_cons, hrecs]
        · rw [hfile, map_cons, flatten_cons, append_assoc]
      · rw [hfail] at hok
        exact absurd hok.1 Bool.false_ne_true
      · rw [hfail] at hok
        exact absurd hok.1 Bool.false_ne_true
      · rw [hfail] at hok
        exact absurd hok.1 Bool.false_ne_true

end WalWriter

namespace WalFile

variable {crc : Bytes → UInt32}

/-- Replay of the log after `open` and any acknowledged transactions returns all their records,
behind what was recovered; a converted legacy file's records have gone to an SST. -/
def Appendable (crc : Bytes → UInt32) (file : Option Bytes) : Prop :=
  ∀ (flushed : Bool) (records : List LogRecord) (wal : WalWriter) (calls : List WalWriter.Call),
    openLog crc flushed file = some (records, wal) →
    (∀ c ∈ calls, c.batch.Fits) →
    (∀ out ∈ (wal.run crc calls).1, out.2 = true) →
    replay crc (wal.run crc calls).2.file =
      (if fileIsLegacy file then [] else records) ++ calls.flatMap (fun c => c.batch.records)

def Mendable (crc : Bytes → UInt32) (data : Bytes) : Prop :=
  isFramed data = true ∨ replay crc data ≠ [] ∨ (replayWithValidLen crc data).2 = data.length

/-- Batches behind the file are replayed behind `before`. -/
def Clean (crc : Bytes → UInt32) (file : Bytes) (before : List LogRecord) : Prop :=
  ∀ bs : List Batch, (∀ b ∈ bs, b.Fits) →
    replay crc (file ++ (bs.map (Batch.encode crc)).flatten) = before ++ bs.flatMap Batch.records

theorem Whole.clean {pre : Bytes} {recs : List LogRecord} (h : Whole crc pre recs) :
    Clean crc (magic ++ pre) recs := by
  intro bs hbs
  exact replay_framed_whole (h.append (whole_batches hbs))

theorem clean_magic : Clean crc magic [] := by
  have h := (@whole_nil crc).clean
  rwa [append_nil] at h

variable {data : Bytes}

theorem clean_take_validLen (crc : Bytes → UInt32) (h : isFramed data = true) :
    data.take (replayWithValidLen crc data).2 ≠ [] ∧
      Clean crc (data.take (replayWithValidLen crc data).2) (replay crc data) := by
  obtain ⟨d, rfl⟩ := isFramed_iff.mp h
  rw [replay, replayWithValidLen_framed]
  rcases replayLoop_cases crc d (.start magic.length) with
    ⟨hrecs, hvalid⟩ | ⟨pre, post, recs, rfl, hpre, hrecs, hvalid⟩
  · have htake : (magic ++ d).take magic.length = magic := take_left
    rw [hrecs, hvalid]
    simp only [Replay.start, htake]
    exact ⟨by decide, clean_magic⟩
  · have htake : (magic ++ (pre ++ post)).take (magic.length + pre.length) = magic ++ pre := by
      rw [← append_assoc, ← length_append, take_left]
    rw [hrecs, hvalid]
    simp only [Replay.start, htake, nil_append]
    exact ⟨by simp [magic], hpre.whole.clean⟩

theorem clean_of_unframed (hframed : isFramed data = false) (hne : data ≠ [])
    (hrecs : replay crc data = []) (hvalid : (replayWithValidLen crc data).2 = data.length) :
    Clean crc data [] := by
  have hlen := length_pos_of_ne_nil hne
  rw [replay, replayWithValidLen_unframed hframed] at hrecs
  rw [replayWithValidLen_unframed hframed] at hvalid
  split_ifs at hrecs hvalid with hpend
  · rcases replayLoop_cases crc data (.start 0) with
      ⟨-, hstart⟩ | ⟨pre, post, recs, rfl, hpre, hout, hend⟩
    · rw [hstart] at hvalid
      simp only [Replay.start] at hvalid
      omega
    · obtain rfl : recs = [] := by
        rw [hout] at hrecs
        simpa [Replay.start] using hrecs
      obtain rfl : post = [] := by
        rw [hend, length_append] at hvalid
        simp only [Replay.start] at hvalid
        rw [← length_eq_zero_iff]
        omega
      rw [append_nil] at hframed hlen hend ⊢
      have hlong : magic.length ≤ pre.length := by
        by_contra hshort
        have hsize : pre.length < LogRecord.headerSize :=
          lt_trans (Nat.lt_of_not_le hshort) (by decide)
        have hd := LogRecord.decode_tooShort crc hsize
        rw [replayLoop_error crc hd] at hend
        simp only [Replay.start] at hend
        omega
      intro bs hbs
      have hkeep : isFramed (pre ++ (bs.map (Batch.encode crc)).flatten) = false := by
        rw [← Bool.not_eq_true, isFramed_iff] at hframed ⊢
        exact fun h => hframed (prefix_of_prefix_length_le h (prefix_append _ _) hlong)
      have hall := (hpre.whole.append (whole_batches hbs)) [] (.start 0) rfl rfl
      rw [append_nil, replayLoop_nil] at hall
      rw [replay, replayWithValidLen_unframed hkeep, hall]
      rfl
  · exact absurd (List.append_eq_nil_iff.mp hrecs).2 hpend

theorem openAppend_some (h : data ≠ []) : openAppend (some data) = ⟨data, []⟩ := by
  have hlen : data.length ≠ 0 := fun hlen => h (List.length_eq_zero_iff.mp hlen)
  rw [openAppend, getD_some, if_neg hlen]

variable {file : Option Bytes}

theorem openLog_empty (crc : Bytes → UInt32) (flushed : Bool) (h : file.getD [] = []) :
    openLog crc flushed file = some ([], ⟨magic, []⟩) := by
  have hloop : replayWithValidLen crc [] = ([], 0) := by
    rw [replayWithValidLen_unframed (by decide), replayLoop_nil]
    rfl
  cases file with
  | none => rfl
  | some data =>
    obtain rfl : data = [] := h
    simp [openLog, fileIsLegacy, replayFile, hloop, openAppend, magic]

theorem openLog_framed (crc : Bytes → UInt32) (flushed : Bool) (h : isFramed data = true) :
    openLog crc flushed (some data) =
      some (replay crc data, ⟨data.take (replayWithValidLen crc data).2, []⟩) := by
  have hlegacy : fileIsLegacy (some data) = false := by
    rw [← Bool.not_eq_true, fileIsLegacy_some, h]
    exact fun h => absurd h.2 (by decide)
  have hne := (clean_take_validLen crc h).1
  by_cases hlt : (replayFile crc (some data)).2 < data.length
  · simp only [openLog, hlegacy, map_some, if_pos hlt, Bool.not_false, if_true,
      Bool.false_eq_true, if_false]
    exact congrArg (fun wal => some (replay crc data, wal)) (openAppend_some hne)
  · have htake : data.take (replayWithValidLen crc data).2 = data :=
      take_of_length_le (Nat.le_of_not_lt hlt)
    rw [htake] at hne ⊢
    simp only [openLog, hlegacy, map_some, if_neg hlt, Bool.not_false, if_true,
      Bool.false_eq_true, if_false, openAppend_some hne]
    rfl

theorem openLog_unframed (crc : Bytes → UInt32) (flushed : Bool) (hne : data ≠ [])
    (h : isFramed data = false) : openLog crc flushed (some data) =
      if replay crc data = [] then some (replay crc data, ⟨data, []⟩)
      else if flushed then some (replay crc data, ⟨magic, []⟩)
      else none := by
  have hlegacy : fileIsLegacy (some data) = true := (fileIsLegacy_some data).mpr ⟨hne, h⟩
  have hempty : (rebuild (replayWithValidLen crc data).1).isEmpty = true ↔
      (replayWithValidLen crc data).1 = [] := rebuild_isEmpty (replay_no_commit crc data)
  simp only [openLog, hlegacy, replayFile, Bool.not_true, Bool.false_eq_true, if_false, if_true,
    hempty, openAppend_some hne]
  rfl

theorem openLog_clean {flushed : Bool} (h : Mendable crc (file.getD [])) {records : List LogRecord}
    {wal : WalWriter} (hopen : openLog crc flushed file = some (records, wal)) :
    wal.buffer = [] ∧ Clean crc wal.file (if fileIsLegacy file then [] else records) := by
  by_cases hempty : file.getD [] = []
  · rw [openLog_empty crc flushed hempty, Option.some.injEq, Prod.mk.injEq] at hopen
    obtain ⟨rfl, rfl⟩ := hopen
    rw [ite_self]
    exact ⟨rfl, clean_magic⟩
  cases file with
  | none => exact absurd rfl hempty
  | some data =>
    rw [getD_some] at h hempty
    cases hframed : isFramed data with
    | true =>
      have hlegacy : ¬ fileIsLegacy (some data) = true := by
        rw [fileIsLegacy_some, hframed]
        exact fun h => absurd h.2 (by decide)
      rw [openLog_framed crc flushed hframed, Option.some.injEq, Prod.mk.injEq] at hopen
      obtain ⟨rfl, rfl⟩ := hopen
      rw [if_neg hlegacy]
      exact ⟨rfl, (clean_take_validLen crc hframed).2⟩
    | false =>
      have hlegacy := (fileIsLegacy_some data).mpr ⟨hempty, hframed⟩
      rw [openLog_unframed crc flushed hempty hframed] at hopen
      rw [if_pos hlegacy]
      split_ifs at hopen with hnone hflushed
      · obtain ⟨rfl, rfl⟩ := Prod.mk.injEq .. ▸ Option.some.inj hopen
        have hvalid : (replayWithValidLen crc data).2 = data.length := by
          rcases h with h | h | h
          · rw [hframed] at h
            cases h
          · exact absurd hnone h
          · exact h
        exact ⟨rfl, clean_of_unframed hframed hempty hnone hvalid⟩
      · obtain ⟨rfl, rfl⟩ := Prod.mk.injEq .. ▸ Option.some.inj hopen
        exact ⟨rfl, clean_magic⟩

theorem appendable_of_mendable (h : Mendable crc (file.getD [])) : Appendable crc file := by
  intro flushed records wal calls hopen hfits hok
  obtain ⟨hbuffer, hclean⟩ := openLog_clean h hopen
  obtain ⟨data, buffer⟩ := wal
  subst hbuffer
  obtain ⟨bs, hbs, hrecs, hfile⟩ := WalWriter.run_acknowledged hok
  rw [hfile, hclean bs, hrecs]
  intro b hb
  obtain ⟨c, hc, rfl⟩ := hbs b hb
  exact hfits c hc

end WalFile

end RhypeDb.Storage
