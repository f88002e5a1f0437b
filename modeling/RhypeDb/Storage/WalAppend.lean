import RhypeDb.Storage.WalFormat

/-! Appending to the log through the `BufWriter`, with writes that fail part-way. A batch below
the buffer's capacity that fails to flush keeps its rest in the buffer, and the next flush writes
it. A batch of at least the capacity goes to the file directly, and a failure leaves its prefix
there: the next batch then lands behind a torn one. -/

namespace RhypeDb.Storage

open List

/-- The log file, and the bytes the `BufWriter` over it still holds. -/
structure WalWriter where
  file : Bytes
  buffer : Bytes

/-- Where the file operations of one `append_txn` stop: draining the buffer before the batch,
writing the batch past the buffer, the final flush. `some n` stops with an error after `n` bytes. -/
structure WriteFault where
  drain : Option Nat
  direct : Option Nat
  flush : Option Nat

namespace WalWriter

def capacity : Nat := 8 * 1024

/-- How many of `bytes` reach the file. -/
def written (bytes : Bytes) (fault : Option Nat) : Nat :=
  match fault with
  | none => bytes.length
  | some n => min n bytes.length

/-- `BufWriter::flush_buf`; what was not written stays in the buffer. -/
def flushBuf (w : WalWriter) (fault : Option Nat) : Bool × WalWriter :=
  let n := written w.buffer fault
  (n == w.buffer.length, ⟨w.file ++ w.buffer.take n, w.buffer.drop n⟩)

def writeAll (w : WalWriter) (buf : Bytes) (fault : WriteFault) : Bool × WalWriter :=
  let spare := capacity - w.buffer.length
  if buf.length < spare then (true, { w with buffer := w.buffer ++ buf })
  else
    let (ok, w) := if spare < buf.length then w.flushBuf fault.drain else (true, w)
    if !ok then (false, w)
    else if capacity ≤ buf.length then
      let n := written buf fault.direct
      (n == buf.length, { w with file := w.file ++ buf.take n })
    else (true, { w with buffer := w.buffer ++ buf })

/-- `Wal::append_txn`; the result says whether the call returned `Ok`. -/
def appendTxn (crc : Bytes → UInt32) (w : WalWriter) (b : Batch) (fault : WriteFault) :
    Bool × WalWriter :=
  if b.writes.isEmpty then (true, w)
  else
    let (ok, w) := w.writeAll (b.encode crc) fault
    if !ok then (false, w) else w.flushBuf fault.flush

variable {crc : Bytes → UInt32} {value : Bytes} {calls : List Call} {b : Batch} {w : WalWriter}

def Tears (crc : Bytes → UInt32) (w : WalWriter) (b : Batch) (fault : WriteFault) : Prop :=
  capacity ≤ (b.encode crc).length ∧ written w.buffer fault.drain = w.buffer.length ∧
    0 < written (b.encode crc) fault.direct ∧
    written (b.encode crc) fault.direct < (b.encode crc).length

theorem written_le (bytes : Bytes) (fault : Option Nat) : written bytes fault ≤ bytes.length := by
  cases fault with
  | none => exact le_rfl
  | some n => exact Nat.min_le_right n bytes.length

theorem flushBuf_append (w : WalWriter) (fault : Option Nat) :
    (w.flushBuf fault).2.file ++ (w.flushBuf fault).2.buffer = w.file ++ w.buffer := by
  simp only [flushBuf, append_assoc, take_append_drop]

theorem prefix_flushBuf (w : WalWriter) (fault : Option Nat) :
    w.file <+: (w.flushBuf fault).2.file := prefix_append _ _

theorem flushBuf_ok {fault : Option Nat} (h : (w.flushBuf fault).1 = true) :
    (w.flushBuf fault).2 = ⟨w.file ++ w.buffer, []⟩ := by
  have hn : written w.buffer fault = w.buffer.length := by simpa [flushBuf] using h
  simp [flushBuf, hn]

theorem writeAll_cases (crc : Bytes → UInt32) (w : WalWriter) (b : Batch) (fault : WriteFault) :
    w.file <+: (w.writeAll (b.encode crc) fault).2.file ∧
      (((w.writeAll (b.encode crc) fault).1 = true ∧
          (w.writeAll (b.encode crc) fault).2.file ++ (w.writeAll (b.encode crc) fault).2.buffer =
            w.file ++ w.buffer ++ b.encode crc) ∨
        ((w.writeAll (b.encode crc) fault).1 = false ∧
          (w.writeAll (b.encode crc) fault).2.file ++ (w.writeAll (b.encode crc) fault).2.buffer =
            w.file ++ w.buffer) ∨
        ((w.writeAll (b.encode crc) fault).1 = false ∧ Tears crc w b fault ∧
          ∃ q, q <+: b.encode crc ∧
            (w.writeAll (b.encode crc) fault).2 = ⟨w.file ++ w.buffer ++ q, []⟩)) := by
  generalize hbuf : b.encode crc = buf
  unfold writeAll
  by_cases hsmall : buf.length < capacity - w.buffer.length
  · simp only [if_pos hsmall]
    refine ⟨prefix_rfl, .inl ⟨trivial, ?_⟩⟩
    rw [append_assoc]
  simp only [if_neg hsmall]
  -- the buffer is drained when the batch does not fit behind it
  generalize hdrain : (if capacity - w.buffer.length < buf.length then w.flushBuf fault.drain
    else (true, w)) = d
  have hd : w.file <+: d.2.file ∧ d.2.file ++ d.2.buffer = w.file ++ w.buffer ∧
      (d.1 = true → capacity ≤ buf.length → d.2 = ⟨w.file ++ w.buffer, []⟩ ∧
        written w.buffer fault.drain = w.buffer.length) := by
    subst hdrain
    split_ifs with hlt
    · refine ⟨w.prefix_flushBuf _, w.flushBuf_append _, fun hok _ => ⟨flushBuf_ok hok, ?_⟩⟩
      simpa [flushBuf] using hok
    · refine ⟨prefix_rfl, rfl, fun _ hcap => ?_⟩
      have hempty : w.buffer = [] := by
        rw [← length_eq_zero_iff]
        have hcapacity : 0 < capacity := by decide
        omega
      have hle := written_le w.buffer fault.drain
      obtain ⟨file, buffer⟩ := w
      subst hempty
      exact ⟨by rw [append_nil], Nat.le_zero.mp hle⟩
  obtain ⟨ok, w'⟩ := d
  obtain ⟨hpre, happ, hok⟩ := hd
  cases ok with
  | false => exact ⟨hpre, .inr (.inl ⟨rfl, happ⟩)⟩
  | true =>
    simp only [Bool.not_true, Bool.false_eq_true, if_false]
    by_cases hcap : capacity ≤ buf.length
    · obtain ⟨hw', hdrained⟩ := hok rfl hcap
      subst hw'
      simp only [if_pos hcap]
      refine ⟨hpre.trans (prefix_append _ _), ?_⟩
      have hle := written_le buf fault.direct
      rcases hle.lt_or_eq with hlt | heq
      · right
        rcases Nat.eq_zero_or_pos (written buf fault.direct) with hzero | hpos
        · refine .inl ⟨by simp only [beq_eq_false_iff_ne]; omega, ?_⟩
          simp [hzero]
        · refine .inr ⟨by simp only [beq_eq_false_iff_ne]; omega, ?_, _, take_prefix _ buf, rfl⟩
          subst hbuf
          exact ⟨hcap, hdrained, hpos, hlt⟩
      · refine .inl ⟨by simpa using heq, ?_⟩
        simp [heq]
    · simp only [if_neg hcap]
      refine ⟨hpre, .inl ⟨trivial, ?_⟩⟩
      rw [← append_assoc, happ]

theorem appendTxn_cases (crc : Bytes → UInt32) (w : WalWriter) (hne : b.writes ≠ [])
    (fault : WriteFault) :
    w.file <+: (w.appendTxn crc b fault).2.file ∧
      (w.appendTxn crc b fault = (true, ⟨w.file ++ w.buffer ++ b.encode crc, []⟩) ∨
        ((w.appendTxn crc b fault).1 = false ∧
          (w.appendTxn crc b fault).2.file ++ (w.appendTxn crc b fault).2.buffer =
            w.file ++ w.buffer) ∨
        ((w.appendTxn crc b fault).1 = false ∧
          (w.appendTxn crc b fault).2.file ++ (w.appendTxn crc b fault).2.buffer =
            w.file ++ w.buffer ++ b.encode crc) ∨
        (Tears crc w b fault ∧ ∃ q, q <+: b.encode crc ∧
          w.appendTxn crc b fault = (false, ⟨w.file ++ w.buffer ++ q, []⟩))) := by
  have hcases := writeAll_cases crc w b fault
  have hempty : b.writes.isEmpty = false := by simpa using hne
  unfold appendTxn
  simp only [hempty, Bool.false_eq_true, if_false]
  generalize w.writeAll (b.encode crc) fault = d at hcases
  obtain ⟨ok, w'⟩ := d
  obtain ⟨hpre, ⟨rfl, happ⟩ | ⟨rfl, happ⟩ | ⟨rfl, htears, q, hq, rfl⟩⟩ := hcases
  · simp only [Bool.not_true, Bool.false_eq_true, if_false]
    refine ⟨hpre.trans (w'.prefix_flushBuf _), ?_⟩
    have hflush := w'.flushBuf_append fault.flush
    cases hok : (w'.flushBuf fault.flush).1 with
    | true =>
      left
      rw [Prod.ext_iff, flushBuf_ok hok, ← happ]
      exact ⟨hok, rfl⟩
    | false => exact .inr (.inr (.inl ⟨rfl, hflush.trans happ⟩))
  · exact ⟨hpre, .inr (.inl ⟨rfl, happ⟩)⟩
  · exact ⟨hpre, .inr (.inr (.inr ⟨htears, q, hq, rfl⟩))⟩

theorem appendTxn_no_writes (w : WalWriter) (h : b.writes = []) (fault : WriteFault) :
    w.appendTxn crc b fault = (true, w) := by
  rw [appendTxn, h]
  rfl

structure Call where
  batch : Batch
  fault : WriteFault

/-- A sequence of `append_txn` calls, with the batch and the result of each. -/
def run (crc : Bytes → UInt32) (w : WalWriter) : List Call → List (Batch × Bool) × WalWriter
  | [] => ([], w)
  | c :: calls =>
    let out := w.appendTxn crc c.batch c.fault
    let rest := run crc out.2 calls
    ((c.batch, out.1) :: rest.1, rest.2)

def Sound (crc : Bytes → UInt32) (w : WalWriter) : List Call → Prop
  | [] => True
  | c :: calls =>
    c.batch.Fits ∧ (c.batch.writes ≠ [] → Tears crc w c.batch c.fault →
      ∀ d ∈ calls, d.batch.writes = []) ∧ Sound crc (w.appendTxn crc c.batch c.fault).2 calls

/-- The batches a log holds after the calls: each acknowledged one, and of the failed ones some. -/
inductive Kept : List (Batch × Bool) → List Batch → Prop
  | nil : Kept [] []
  | whole (b : Batch) (ok : Bool) {outs : List (Batch × Bool)} {kept : List Batch} :
    Kept outs kept → Kept ((b, ok) :: outs) (b :: kept)
  | absent (b : Batch) {outs : List (Batch × Bool)} {kept : List Batch} :
    Kept outs kept → Kept ((b, false) :: outs) kept

theorem run_no_writes (crc : Bytes → UInt32) (w : WalWriter)
    (h : ∀ d ∈ calls, d.batch.writes = []) :
    (run crc w calls).2 = w ∧
      ∃ kept, Kept (run crc w calls).1 kept ∧ kept.flatMap Batch.records = [] := by
  induction calls with
  | nil => exact ⟨rfl, [], .nil, rfl⟩
  | cons c calls ih =>
    rw [forall_mem_cons] at h
    obtain ⟨hw, kept, hkept, hrecs⟩ := ih h.2
    simp only [run, appendTxn_no_writes w h.1]
    refine ⟨hw, c.batch :: kept, .whole _ _ hkept, ?_⟩
    rw [flatMap_cons, hrecs, Batch.records, h.1]
    rfl

theorem Kept.snoc_take {outs : List (Batch × Bool)} {kept : List Batch} (h : Kept outs kept)
    (b : Batch) (pend : List Batch) (m : Nat) :
    ∃ m' kept', Kept ((b, false) :: outs) kept' ∧
      pend.take m' ++ kept' = (pend ++ [b]).take m ++ kept := by
  rcases Nat.lt_or_ge pend.length m with hlt | hle
  · refine ⟨pend.length, b :: kept, .whole _ _ h, ?_⟩
    rw [take_of_length_le (l := pend ++ [b]) (by simp; omega), take_length,
      append_assoc, singleton_append]
  · refine ⟨m, kept, .absent _ h, ?_⟩
    rw [take_append_of_le_length hle]

open WalFile in
/-- The run from a log whose file holds `magic ++ pre` and, with the buffer, the batches `pend`
behind it: some first of these batches and the kept batches of the calls are replayed. -/
theorem run_replay {pre : Bytes} {recs : List LogRecord} (hpre : Whole crc pre recs)
    {pend : List Batch} (hpend : ∀ b ∈ pend, b.Fits) (hfile : magic ++ pre <+: w.file)
    (happ : w.file ++ w.buffer = magic ++ pre ++ (pend.map (Batch.encode crc)).flatten)
    (hsound : Sound crc w calls) :
    ∃ m kept, Kept (run crc w calls).1 kept ∧
      replay crc (run crc w calls).2.file = recs ++ (pend.take m ++ kept).flatMap Batch.records := by
  induction calls generalizing w pre recs pend with
  | nil =>
    obtain ⟨m, hm⟩ := replay_prefix hpre hpend hfile ⟨w.buffer, happ⟩
    exact ⟨m, [], .nil, by rw [append_nil]; exact hm⟩
  | cons c calls ih =>
    obtain ⟨hfits, htorn, hsound⟩ := hsound
    by_cases hne : c.batch.writes = []
    · rw [appendTxn_no_writes w hne] at hsound
      obtain ⟨m, kept, hkept, hrun⟩ := ih hpre hpend hfile happ hsound
      simp only [run, appendTxn_no_writes w hne]
      refine ⟨m, c.batch :: kept, .whole _ _ hkept, ?_⟩
      have hnone : c.batch.records = [] := by
        rw [Batch.records, hne]
        rfl
      rw [hrun, flatMap_append, flatMap_append, flatMap_cons, hnone, nil_append]
    have hpend' : ∀ b ∈ pend ++ [c.batch], b.Fits := by
      rw [forall_mem_append, forall_mem_singleton]
      exact ⟨hpend, hfits⟩
    have hflat : magic ++ pre ++ ((pend ++ [c.batch]).map (Batch.encode crc)).flatten =
        w.file ++ w.buffer ++ c.batch.encode crc := by
      rw [happ, map_append, flatten_append, append_assoc _ _ (c.batch.encode crc)]
      simp
    obtain ⟨hgrow, hout⟩ := appendTxn_cases crc w hne c.fault
    simp only [run]
    generalize w.appendTxn crc c.batch c.fault = out at hgrow hout hsound
    obtain ⟨ok, w'⟩ := out
    rcases hout with hok | ⟨hfail, habsent⟩ | ⟨hfail, hbuffered⟩ | ⟨htears, q, hq, htear⟩
    · -- the flush put everything out, so all of it is behind the magic for good
      obtain ⟨rfl, rfl⟩ := hok
      have hwhole := hpre.append (whole_batches hpend')
      have hnil : ∀ b ∈ ([] : List Batch), b.Fits := by simp
      obtain ⟨m, kept, hkept, hrun⟩ := ih hwhole hnil
        (by rw [← append_assoc, hflat]) (by simp [← hflat]) hsound
      refine ⟨pend.length, c.batch :: kept, .whole _ _ hkept, ?_⟩
      rw [hrun, take_length, take_nil, nil_append]
      simp only [flatMap_append, flatMap_cons, append_assoc, flatMap_nil,
        append_nil]
    · subst hfail
      obtain ⟨m, kept, hkept, hrun⟩ :=
        ih hpre hpend (hfile.trans hgrow) (habsent.trans happ) hsound
      exact ⟨m, kept, .absent _ hkept, hrun⟩
    · subst hfail
      obtain ⟨m, kept, hkept, hrun⟩ :=
        ih hpre hpend' (hfile.trans hgrow) (hbuffered.trans hflat.symm) hsound
      obtain ⟨m', kept', hkept', htake⟩ := hkept.snoc_take c.batch pend m
      exact ⟨m', kept', hkept', by rw [hrun, htake]⟩
    · -- nothing follows the torn batch
      obtain ⟨rfl, rfl⟩ := htear
      obtain ⟨hw, kept, hkept, hnone⟩ := run_no_writes crc ⟨w.file ++ w.buffer ++ q, []⟩
        (htorn hne htears)
      obtain ⟨m, hm⟩ := replay_prefix hpre hpend' (hfile.trans hgrow)
        (by rw [hflat, prefix_append_right_inj]; exact hq)
      rw [hw]
      obtain ⟨m', kept', hkept', htake⟩ := hkept.snoc_take c.batch pend m
      refine ⟨m', kept', hkept', ?_⟩
      rw [hm, htake, flatMap_append, hnone, append_nil]

open WalFile in
/-- Replay returns the records the log held and those of every acknowledged call, in order; of
the failed calls it returns whole batches or nothing. -/
def Recoverable (crc : Bytes → UInt32) (file : Bytes) (calls : List Call) : Prop :=
  ∃ kept, Kept (run crc ⟨file, []⟩ calls).1 kept ∧
    replay crc (run crc ⟨file, []⟩ calls).2.file =
      replay crc file ++ kept.flatMap Batch.records

open WalFile in
theorem recoverable_of_sound {file : Bytes} (hframed : isFramed file = true)
    (hvalid : (replayWithValidLen crc file).2 = file.length)
    (hsound : Sound crc ⟨file, []⟩ calls) : Recoverable crc file calls := by
  obtain ⟨pre, rfl, hpre⟩ := whole_of_validLen hframed (Prod.ext rfl hvalid)
  have hnil : ∀ b ∈ ([] : List Batch), b.Fits := by simp
  obtain ⟨m, kept, hkept, hrun⟩ := run_replay hpre hnil prefix_rfl (by simp) hsound
  refine ⟨kept, hkept, ?_⟩
  rw [hrun, take_nil, nil_append]
  rfl

def putBatch (key value : Bytes) (version : UInt64) : Batch :=
  ⟨[(key, some value)], version, by simp⟩

theorem length_encode_putBatch (crc : Bytes → UInt32) (key value : Bytes) (version : UInt64) :
    ((putBatch key value version).encode crc).length = 50 + key.length + value.length := by
  rw [Batch.length_encode]
  simp only [putBatch, Batch.records, Batch.dataRecord, LogRecord.size, LogRecord.headerSize,
    map_cons, map_nil, sum_cons, sum_nil]
  omega

def retriedCalls : List Call :=
  [⟨putBatch [0x61] [1] 1, none, none, some 5⟩, ⟨putBatch [0x62] [2] 2, none, none, none⟩]

theorem recoverable_retriedCalls :
    (run LogRecord.crc32 ⟨WalFile.magic, []⟩ retriedCalls).1.map Prod.snd = [false, true] ∧
      Recoverable LogRecord.crc32 WalFile.magic retriedCalls := by
  refine ⟨by decide +kernel, recoverable_of_sound (by decide) (by decide +kernel) ?_⟩
  have hfits : ∀ key value version, key.length < 2 ^ 32 → value.length < 2 ^ 32 →
      (putBatch key value version).Fits := by
    intro key value version hkey hvalue w hw
    obtain rfl := mem_singleton.mp hw
    exact ⟨hkey, hvalue⟩
  have hsmall : ∀ w key value version fault, key.length + value.length < 100 →
      ¬ Tears LogRecord.crc32 w (putBatch key value version) fault := by
    intro w key value version fault hlen htears
    have hcap := htears.1
    rw [length_encode_putBatch, capacity] at hcap
    omega
  exact ⟨hfits _ _ _ (by decide) (by decide), fun _ h => absurd h (hsmall _ _ _ _ _ (by decide)),
    hfits _ _ _ (by decide) (by decide), fun _ h => absurd h (hsmall _ _ _ _ _ (by decide)), trivial⟩

open WalFile in
theorem replay_behind_torn (crc : Bytes → UInt32) {b₁ b₂ : Batch} (h₁ : b₁.Fits) (h₂ : b₂.Fits)
    (hne : b₁.writes ≠ []) :
    replay crc (magic ++ ((b₁.records.map (LogRecord.encode crc)).flatten ++ b₂.encode crc)) = [] := by
  have hlen : 0 < b₁.records.length := by
    rw [Batch.records, length_map]
    exact length_pos_of_ne_nil hne
  have hty : b₂.footer.recordType = .commit := rfl
  have hcount : footerCount b₂.footer.value ≠
      ((Replay.start magic.length).pending ++ b₁.records ++ b₂.records).length := by
    rw [b₂.footerCount_footer]
    simp only [Replay.start, nil_append, length_append]
    omega
  rw [replay, replayWithValidLen_framed, replayLoop_records h₁.records, Batch.encode,
    replayLoop_records h₂.records, ← append_nil (b₂.footer.encode crc),
    replayLoop_encode crc b₂.footer_fits, if_pos hty, if_pos hcount]
  rfl

/-- A put of an 8 KiB value whose batch stops before its footer, then a small one that goes
through. -/
def tornCalls (value : Bytes) : List Call :=
  [⟨putBatch [0x61] value 1, none, some (22 + value.length), none⟩,
    ⟨putBatch [0x62] [2] 2, none, none, none⟩]

theorem fits_putBatch {key : Bytes} (hkey : key.length < 2 ^ 32)
    (hvalue : value.length < 2 ^ 32) (version : UInt64) : (putBatch key value version).Fits := by
  intro w hw
  obtain rfl := mem_singleton.mp hw
  exact ⟨hkey, hvalue⟩

theorem appendTxn_direct (file : Bytes) (hne : b.writes ≠ [])
    (hcap : capacity ≤ (b.encode crc).length) {n : Nat} (hn : n < (b.encode crc).length) :
    appendTxn crc ⟨file, []⟩ b ⟨none, some n, none⟩ =
      (false, ⟨file ++ (b.encode crc).take n, []⟩) := by
  have hempty : b.writes.isEmpty = false := by simpa using hne
  have hmin : min n (b.encode crc).length = n := by omega
  have hbig : ¬ (b.encode crc).length < capacity := Nat.not_lt.mpr hcap
  simp [appendTxn, hempty, writeAll, flushBuf, written, hcap, hmin, hbig, hn.ne]

theorem appendTxn_no_fault (crc : Bytes → UInt32) (w : WalWriter) (hne : b.writes ≠ []) :
    w.appendTxn crc b ⟨none, none, none⟩ = (true, ⟨w.file ++ w.buffer ++ b.encode crc, []⟩) := by
  have hempty : b.writes.isEmpty = false := by simpa using hne
  have hok : (w.appendTxn crc b ⟨none, none, none⟩).1 = true := by
    simp only [appendTxn, hempty, writeAll, flushBuf, written]
    split_ifs <;> simp_all
  obtain ⟨-, hout | ⟨hfail, -⟩ | ⟨hfail, -⟩ | ⟨-, q, -, hfail⟩⟩ :=
    appendTxn_cases crc w hne ⟨none, none, none⟩
  · exact hout
  · exact absurd (hok.symm.trans hfail) (by decide)
  · exact absurd (hok.symm.trans hfail) (by decide)
  · rw [hfail] at hok
    cases hok

theorem run_tornCalls (crc : Bytes → UInt32) (hvalue : capacity ≤ value.length) :
    run crc ⟨WalFile.magic, []⟩ (tornCalls value) =
      ([(putBatch [0x61] value 1, false), (putBatch [0x62] [2] 2, true)],
        ⟨WalFile.magic ++ (((putBatch [0x61] value 1).records.map (LogRecord.encode crc)).flatten ++
          (putBatch [0x62] [2] 2).encode crc), []⟩) := by
  have hlen := length_encode_putBatch crc [0x61] value 1
  -- the file takes the data record and not the footer
  have hcut : ((putBatch [0x61] value 1).encode crc).take (22 + value.length) =
      ((putBatch [0x61] value 1).records.map (LogRecord.encode crc)).flatten := by
    apply take_left'
    simp only [putBatch, Batch.records, Batch.dataRecord, map_cons, map_nil,
      flatten_cons, flatten_nil, append_nil, LogRecord.length_encode, LogRecord.size,
      LogRecord.headerSize, length_singleton]
  have hne : ∀ key value version, (putBatch key value version).writes ≠ [] := fun _ _ _ => cons_ne_nil _ _
  have hfirst := appendTxn_direct WalFile.magic (hne [0x61] value 1) (n := 22 + value.length)
    (by rw [hlen]; omega) (by rw [hlen]; omega)
  simp only [tornCalls, run, hfirst, hcut, appendTxn_no_fault crc _ (hne _ _ _), append_nil,
    append_assoc]

theorem not_recoverable_of_torn (crc : Bytes → UInt32)
    (hcap : capacity ≤ value.length) (hlt : value.length < 2 ^ 32) :
    ¬ Recoverable crc WalFile.magic (tornCalls value) := by
  have hbig : (putBatch [0x61] value 1).Fits := fits_putBatch (by decide) hlt 1
  have hsmall : (putBatch [0x62] [2] 2).Fits := fits_putBatch (by decide) (by decide) 2
  rintro ⟨kept, hkept, hreplay⟩
  rw [run_tornCalls _ hcap] at hkept hreplay
  rw [replay_behind_torn _ hbig hsmall nofun] at hreplay
  have hmem : putBatch [0x62] [2] 2 ∈ kept := by
    cases hkept with
    | whole _ _ hkept =>
      cases hkept with
      | whole _ _ _ => simp
    | absent _ hkept =>
      cases hkept with
      | whole _ _ _ => simp
  have hnone := (append_eq_nil_iff.mp hreplay.symm).2
  rw [flatMap_eq_nil_iff] at hnone
  exact absurd (hnone _ hmem) (by decide)

theorem not_recoverable_tornCalls :
    WalFile.isFramed WalFile.magic = true ∧
      (WalFile.replayWithValidLen LogRecord.crc32 WalFile.magic).2 = WalFile.magic.length ∧
      ¬ Recoverable LogRecord.crc32 WalFile.magic (tornCalls (List.replicate capacity 0)) := by
  refine ⟨by decide, by decide +kernel, ?_⟩
  apply not_recoverable_of_torn
  · rw [length_replicate]
  · rw [length_replicate]
    decide

end WalWriter

end RhypeDb.Storage
