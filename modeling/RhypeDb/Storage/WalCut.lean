import RhypeDb.Storage.WalOpen

/-! A framed log cut at any length. What replay makes of it is the longest prefix of transactions
whose footers are still there, and the log goes on behind that prefix. -/

namespace RhypeDb.Storage

open List WalFile

namespace WalWriter

variable {crc : Bytes → UInt32}

/-- `append_txn` for one transaction after the other, with no write that fails. -/
def appendAll (crc : Bytes → UInt32) (w : WalWriter) (bs : List Batch) : WalWriter :=
  bs.foldl (fun w b => (w.appendTxn crc b ⟨none, none, none⟩).2) w

theorem appendAll_eq (file : Bytes) {bs : List Batch} (hne : ∀ b ∈ bs, b.writes ≠ []) :
    appendAll crc ⟨file, []⟩ bs = ⟨file ++ (bs.map (Batch.encode crc)).flatten, []⟩ := by
  unfold appendAll
  induction bs generalizing file with
  | nil => rw [map_nil, flatten_nil, append_nil, foldl_nil]
  | cons b bs ih =>
    rw [forall_mem_cons] at hne
    rw [foldl_cons, appendTxn_no_fault crc _ hne.1, append_nil, ih _ hne.2, map_cons,
      flatten_cons, append_assoc]

end WalWriter

namespace WalFile

variable {crc : Bytes → UInt32} {bs : List Batch}

def logFile (crc : Bytes → UInt32) (bs : List Batch) : Bytes :=
  (WalWriter.appendAll crc (openAppend none) bs).file

theorem logFile_eq (hne : ∀ b ∈ bs, b.writes ≠ []) :
    logFile crc bs = magic ++ (bs.map (Batch.encode crc)).flatten := by
  have hfresh : openAppend none = ⟨magic, []⟩ := rfl
  rw [logFile, hfresh, WalWriter.appendAll_eq magic hne]

/-- The longest prefix of the transactions whose footers end within `n` bytes. -/
structure LongestWithin (crc : Bytes → UInt32) (bs : List Batch) (n : Nat) (kept : List Batch) :
    Prop where
  isPrefix : kept <+: bs
  within : (logFile crc kept).length ≤ n
  longest : ∀ other, other <+: bs → (logFile crc other).length ≤ n → other <+: kept

/-- The batches that are whole in the first `room` bytes of them. -/
def wholeIn (crc : Bytes → UInt32) (room : Nat) : List Batch → List Batch
  | [] => []
  | b :: bs =>
    if (b.encode crc).length ≤ room then b :: wholeIn crc (room - (b.encode crc).length) bs else []

theorem wholeIn_isPrefix (room : Nat) (bs : List Batch) : wholeIn crc room bs <+: bs := by
  induction bs generalizing room with
  | nil => exact prefix_rfl
  | cons b bs ih =>
    unfold wholeIn
    split_ifs with hroom
    · exact prefix_cons_inj b |>.mpr (ih _)
    · exact nil_prefix

theorem length_wholeIn (room : Nat) (bs : List Batch) :
    ((wholeIn crc room bs).map (Batch.encode crc)).flatten.length ≤ room := by
  induction bs generalizing room with
  | nil => exact Nat.zero_le room
  | cons b bs ih =>
    unfold wholeIn
    split_ifs with hroom
    · have hrest := ih (room - (b.encode crc).length)
      rw [map_cons, flatten_cons, length_append]
      omega
    · exact Nat.zero_le room

theorem prefix_wholeIn {room : Nat} {other : List Batch} (hother : other <+: bs)
    (hroom : (other.map (Batch.encode crc)).flatten.length ≤ room) :
    other <+: wholeIn crc room bs := by
  induction bs generalizing room other with
  | nil => exact hother
  | cons b bs ih =>
    cases other with
    | nil => exact nil_prefix
    | cons c other =>
      obtain ⟨rfl, hrest⟩ := cons_prefix_cons.mp hother
      rw [map_cons, flatten_cons, length_append] at hroom
      have hfirst : (c.encode crc).length ≤ room := by omega
      unfold wholeIn
      rw [if_pos hfirst]
      exact (prefix_cons_inj c).mpr (ih hrest (by omega))

theorem replayLoop_wholeIn (h : ∀ b ∈ bs, b.Fits) {q : Bytes}
    (hq : q <+: (bs.map (Batch.encode crc)).flatten) (s : Replay) (hs : s.pending = [])
    (hvalid : s.validLen = s.offset) :
    (replayLoop crc q s).records =
        s.records ++ (wholeIn crc q.length bs).flatMap Batch.records ∧
      (replayLoop crc q s).validLen =
        s.offset + ((wholeIn crc q.length bs).map (Batch.encode crc)).flatten.length := by
  induction bs generalizing q s with
  | nil =>
    rw [map_nil, flatten_nil, prefix_nil] at hq
    subst hq
    rw [replayLoop_nil]
    exact ⟨(append_nil _).symm, hvalid⟩
  | cons b bs ih =>
    rw [forall_mem_cons] at h
    rw [map_cons, flatten_cons] at hq
    unfold wholeIn
    by_cases hle : (b.encode crc).length ≤ q.length
    · obtain ⟨rest, rfl⟩ := prefix_of_prefix_length_le (prefix_append _ _) hq hle
      rw [prefix_append_right_inj] at hq
      obtain ⟨hrecs, hlen⟩ := ih h.2 hq (s.settle b.records (b.encode crc).length) rfl rfl
      have hroom : (b.encode crc ++ rest).length - (b.encode crc).length = rest.length := by
        rw [length_append, Nat.add_sub_cancel_left]
      rw [closes_batch h.1 rest s hs, if_pos hle, hroom, hrecs, hlen]
      constructor
      · rw [Replay.settle, flatMap_cons, append_assoc]
      · rw [Replay.settle_offset, map_cons, flatten_cons, length_append,
          Nat.add_assoc]
    · -- the cut is inside this batch, before the end of its footer
      have hlt : q.length < (b.encode crc).length := Nat.lt_of_not_le hle
      have hqb := prefix_of_prefix_length_le hq (prefix_append _ _) hlt.le
      have htorn := replayLoop_torn h.1.records b.footer_fits hqb hlt s
      rw [if_neg hle, htorn.1, htorn.2, hvalid]
      exact ⟨(append_nil _).symm, rfl⟩

theorem longestWithin_wholeIn (hne : ∀ b ∈ bs, b.writes ≠ []) {n : Nat}
    (hn : magic.length ≤ n) : LongestWithin crc bs n (wholeIn crc (n - magic.length) bs) := by
  have hpre : ∀ {other : List Batch}, other <+: bs →
      logFile crc other = magic ++ (other.map (Batch.encode crc)).flatten := fun hother =>
    logFile_eq fun b hb => hne b (hother.subset hb)
  refine ⟨wholeIn_isPrefix _ _, ?_, fun other hother hlen => ?_⟩
  · have hroom : ((wholeIn crc (n - magic.length) bs).map (Batch.encode crc)).flatten.length ≤
        n - magic.length := length_wholeIn _ bs
    rw [hpre (wholeIn_isPrefix _ _), length_append]
    omega
  · rw [hpre hother, length_append] at hlen
    exact prefix_wholeIn hother (by omega)

/-- Replay of a cut log gives the records of the transactions that are whole in it, and where they
end; a log that is cut there takes further transactions behind them. -/
theorem replay_cut (crc : Bytes → UInt32) {more : List Batch}
    (hbs : ∀ b ∈ bs, b.writes ≠ [] ∧ b.Fits) (hmore : ∀ b ∈ more, b.writes ≠ [] ∧ b.Fits) {n : Nat}
    (hn : magic.length ≤ n) :
    ∃ kept, LongestWithin crc bs n kept ∧
      replayWithValidLen crc ((logFile crc bs).take n) =
        (kept.flatMap Batch.records, (logFile crc kept).length) ∧
      replay crc (WalWriter.appendAll crc
          (openAppend (some (((logFile crc bs).take n).take (logFile crc kept).length))) more).file =
        kept.flatMap Batch.records ++ more.flatMap Batch.records := by
  have hne : ∀ b ∈ bs, b.writes ≠ [] := fun b hb => (hbs b hb).1
  obtain ⟨q, hq⟩ : ∃ q, q = (bs.map (Batch.encode crc)).flatten.take (n - magic.length) := ⟨_, rfl⟩
  have hcut : (logFile crc bs).take n = magic ++ q := by
    rw [logFile_eq hne, take_append, take_of_length_le hn, hq]
  have hwhole : wholeIn crc q.length bs = wholeIn crc (n - magic.length) bs := by
    have hlen : q.length = min (n - magic.length) (bs.map (Batch.encode crc)).flatten.length := by
      rw [hq, length_take]
    obtain hle | hlt := le_or_gt (n - magic.length) (bs.map (Batch.encode crc)).flatten.length
    · rw [hlen, Nat.min_eq_left hle]
    · -- nothing is cut off, and all batches are whole
      have hall : ∀ {room : Nat}, (bs.map (Batch.encode crc)).flatten.length ≤ room →
          wholeIn crc room bs = bs := fun hroom =>
        (wholeIn_isPrefix _ bs).eq_of_length_le (prefix_wholeIn prefix_rfl hroom).length_le
      rw [hlen, Nat.min_eq_right hlt.le, hall le_rfl, hall hlt.le]
  have hpre : q <+: (bs.map (Batch.encode crc)).flatten := by
    rw [hq]
    exact take_prefix _ _
  have hkept : LongestWithin crc bs n (wholeIn crc (n - magic.length) bs) :=
    longestWithin_wholeIn hne hn
  obtain ⟨hrecs, hlen⟩ :=
    replayLoop_wholeIn (fun b hb => (hbs b hb).2) hpre (.start magic.length) rfl rfl
  rw [hwhole] at hrecs hlen
  have hfile : logFile crc (wholeIn crc (n - magic.length) bs) =
      magic ++ ((wholeIn crc (n - magic.length) bs).map (Batch.encode crc)).flatten :=
    logFile_eq fun b hb => hne b (hkept.isPrefix.subset hb)
  have hreplay : replayWithValidLen crc ((logFile crc bs).take n) =
      ((wholeIn crc (n - magic.length) bs).flatMap Batch.records,
        (logFile crc (wholeIn crc (n - magic.length) bs)).length) := by
    rw [hcut, replayWithValidLen_framed, hrecs, hlen, hfile, length_append]
    rfl
  refine ⟨_, hkept, hreplay, ?_⟩
  have hframed : isFramed ((logFile crc bs).take n) = true := by
    rw [hcut]
    exact isFramed_iff.mpr (prefix_append magic q)
  obtain ⟨hsome, hclean⟩ := clean_take_validLen crc hframed
  rw [replay, hreplay] at hclean
  rw [hreplay] at hsome
  rw [openAppend_some hsome, WalWriter.appendAll_eq _ fun b hb => (hmore b hb).1]
  exact hclean more fun b hb => (hmore b hb).2

def cutBatches : List Batch :=
  [WalWriter.putBatch [0x61] [1] 1, WalWriter.putBatch [0x62] [2] 2, WalWriter.putBatch [0x63] [3] 3]

theorem replay_cutBatches :
    ∃ kept, LongestWithin LogRecord.crc32 cutBatches 90 kept ∧
      replayWithValidLen LogRecord.crc32 ((logFile LogRecord.crc32 cutBatches).take 90) =
        (kept.flatMap Batch.records, (logFile LogRecord.crc32 kept).length) ∧
      replay LogRecord.crc32 (WalWriter.appendAll LogRecord.crc32 (openAppend (some
          (((logFile LogRecord.crc32 cutBatches).take 90).take
            (logFile LogRecord.crc32 kept).length))) [WalWriter.putBatch [0x64] [4] 2]).file =
        kept.flatMap Batch.records ++ [WalWriter.putBatch [0x64] [4] 2].flatMap Batch.records := by
  have hput : ∀ k v : Byte, ∀ version : UInt64,
      (WalWriter.putBatch [k] [v] version).writes ≠ [] ∧ (WalWriter.putBatch [k] [v] version).Fits :=
    fun k v version => ⟨cons_ne_nil _ _,
      WalWriter.fits_putBatch (Nat.one_lt_two_pow (by decide)) (Nat.one_lt_two_pow (by decide)) _⟩
  refine replay_cut LogRecord.crc32 ?_ ?_ (by decide)
  · refine forall_mem_cons.mpr ⟨hput _ _ _, forall_mem_cons.mpr ⟨hput _ _ _, ?_⟩⟩
    exact forall_mem_singleton.mpr (hput _ _ _)
  · exact forall_mem_singleton.mpr (hput _ _ _)

end WalFile

end RhypeDb.Storage
