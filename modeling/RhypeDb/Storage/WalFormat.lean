import RhypeDb.Basic.Fallible
import RhypeDb.Storage.Wal

/-! The bytes of the write-ahead log. A record is a checksum over its body and the body: version,
type, the two lengths, key and value. `decode` accepts exactly the inputs that begin with an
encoding, so what replay makes of a prefix of the file does not depend on what follows it.
The CRC-32 of the `crc32fast` package is a parameter. -/

namespace RhypeDb.Storage

open ByteOrder List

inductive RecordType
  | put
  | delete
  | commit
  deriving DecidableEq

inductive WalCorrupted
  | tooShort
  | unknownType (v : Byte)
  | truncated
  | crcMismatch (stored computed : Nat)

namespace RecordType

def toByte : RecordType → Byte
  | put => 1
  | delete => 2
  | commit => 3

def tryFrom (v : Byte) : Except WalCorrupted RecordType :=
  if v = 1 then .ok put
  else if v = 2 then .ok delete
  else if v = 3 then .ok commit
  else .error (.unknownType v)

theorem tryFrom_eq_ok {v : Byte} {t : RecordType} : tryFrom v = .ok t ↔ v = t.toByte := by
  unfold tryFrom
  split_ifs with h1 h2 h3
  · rw [Except.ok.injEq, h1]
    cases t <;> decide
  · rw [Except.ok.injEq, h2]
    cases t <;> decide
  · rw [Except.ok.injEq, h3]
    cases t <;> decide
  · cases t
    · exact ⟨nofun, fun h => absurd h h1⟩
    · exact ⟨nofun, fun h => absurd h h2⟩
    · exact ⟨nofun, fun h => absurd h h3⟩

end RecordType

structure LogRecord where
  recordType : RecordType
  key : Bytes
  value : Bytes
  version : UInt64
  deriving DecidableEq

namespace LogRecord

def headerSize : Nat := 4 + 8 + 1 + 4 + 4

def size (r : LogRecord) : Nat := headerSize + r.key.length + r.value.length

/-- Both lengths survive the cast to `u32`. -/
def Fits (r : LogRecord) : Prop := r.key.length < 2 ^ 32 ∧ r.value.length < 2 ^ 32

def body (r : LogRecord) : Bytes :=
  be 8 r.version.toNat ++ ([r.recordType.toByte] ++ (be 4 r.key.length ++
    (be 4 r.value.length ++ (r.key ++ r.value))))

def crc32Byte (c : UInt32) (b : Byte) : UInt32 :=
  (List.range 8).foldl (fun c _ => if c &&& 1 = 1 then (c >>> 1) ^^^ 0xEDB88320 else c >>> 1)
    (c ^^^ UInt32.ofNat b.val)

/-- The checksum `crc32fast::hash` documents. -/
def crc32 (bytes : Bytes) : UInt32 := ~~~(bytes.foldl crc32Byte 0xFFFFFFFF)

variable (crc : Bytes → UInt32)

def encode (r : LogRecord) : Bytes := be 4 (crc r.body).toNat ++ r.body

def decode (data : Bytes) : Except WalCorrupted (LogRecord × Nat) :=
  if data.length < headerSize then .error .tooShort
  else do
    let storedCrc := ofBe (data.take 4)
    let version := ofBe ((data.drop 4).take 8)
    let recordType ← RecordType.tryFrom (data.getD 12 0)
    let keyLen := ofBe ((data.drop 13).take 4)
    let valueLen := ofBe ((data.drop 17).take 4)
    let total := headerSize + keyLen + valueLen
    if data.length < total then .error .truncated
    else
      let computedCrc := (crc ((data.take total).drop 4)).toNat
      if storedCrc ≠ computedCrc then .error (.crcMismatch storedCrc computedCrc)
      else .ok ({
        recordType
        key := (data.drop headerSize).take keyLen
        value := (data.drop (headerSize + keyLen)).take valueLen
        version := UInt64.ofNat version }, total)

variable {data : Bytes}

theorem decode_tooShort (h : data.length < headerSize) :
    decode crc data = .error .tooShort := if_pos h

theorem length_encode (r : LogRecord) : (r.encode crc).length = r.size := by
  simp only [encode, body, size, headerSize, length_append, be_length, length_singleton]
  omega

theorem decode_fields {c v kl vl : Bytes} (hc : c.length = 4) (hv : v.length = 8)
    (hkl : kl.length = 4) (hvl : vl.length = 4) (ty : Byte) (rest : Bytes) :
    decode crc (c ++ (v ++ ([ty] ++ (kl ++ (vl ++ rest))))) = (do
      let recordType ← RecordType.tryFrom ty
      if rest.length < ofBe kl + ofBe vl then .error .truncated
      else
        let computedCrc := (crc (v ++ ([ty] ++ (kl ++ (vl ++ rest.take (ofBe kl + ofBe vl)))))).toNat
        if ofBe c ≠ computedCrc then .error (.crcMismatch (ofBe c) computedCrc)
        else .ok ({
          recordType
          key := rest.take (ofBe kl)
          value := (rest.drop (ofBe kl)).take (ofBe vl)
          version := UInt64.ofNat (ofBe v) }, headerSize + ofBe kl + ofBe vl)) := by
  generalize hdata : c ++ (v ++ ([ty] ++ (kl ++ (vl ++ rest)))) = data
  have hlen : data.length = headerSize + rest.length := by
    simp only [← hdata, headerSize, length_append, length_singleton, hc, hv, hkl, hvl]
    omega
  have h0 : data.take 4 = c := by rw [← hdata, take_left' hc]
  have h4 : data.drop 4 = v ++ ([ty] ++ (kl ++ (vl ++ rest))) := by rw [← hdata, drop_left' hc]
  have h12 : data.drop 12 = ty :: (kl ++ (vl ++ rest)) := by
    rw [show 12 = 4 + 8 from rfl, ← drop_drop, h4, drop_left' hv, singleton_append]
  have h13 : data.drop 13 = kl ++ (vl ++ rest) := by
    rw [show 13 = 12 + 1 from rfl, ← drop_drop, h12, drop_one, tail_cons]
  have h17 : data.drop 17 = vl ++ rest := by
    rw [show 17 = 13 + 4 from rfl, ← drop_drop, h13, drop_left' hkl]
  have h21 : data.drop headerSize = rest := by
    rw [show headerSize = 17 + 4 from rfl, ← drop_drop, h17, drop_left' hvl]
  have hty : data.getD 12 0 = ty := by
    rw [getD_eq_getElem?_getD, ← head?_drop, h12]
    rfl
  have hbody : ∀ n, (data.take (headerSize + n)).drop 4 =
      v ++ ([ty] ++ (kl ++ (vl ++ rest.take n))) := by
    intro n
    rw [drop_take, h4]
    simp only [headerSize, take_append, length_singleton, hv, hkl, hvl]
    rw [take_of_length_le (by omega), take_of_length_le (by simp; omega),
      take_of_length_le (by omega), take_of_length_le (by omega)]
    congr 5
    omega
  have hif : data.length < headerSize + (ofBe kl + ofBe vl) ↔
      rest.length < ofBe kl + ofBe vl := by omega
  rw [decode, if_neg (by omega), hty, h0, h4, h13, h17, h21, take_left' hv, take_left' hkl,
    take_left' hvl]
  simp only [hif, Nat.add_assoc headerSize, hbody, ← drop_drop, h21]

theorem exists_fields (h : headerSize ≤ data.length) :
    ∃ c v ty kl vl rest, c.length = 4 ∧ v.length = 8 ∧ kl.length = 4 ∧ vl.length = 4 ∧
      data = c ++ (v ++ ([ty] ++ (kl ++ (vl ++ rest)))) := by
  have cut : ∀ n (l : Bytes), n ≤ l.length → ∃ a b, a.length = n ∧ l = a ++ b := fun n l hn =>
    ⟨l.take n, l.drop n, length_take_of_le hn, (take_append_drop n l).symm⟩
  rw [headerSize] at h
  obtain ⟨c, l, hc, rfl⟩ := cut 4 data (by omega)
  rw [length_append] at h
  obtain ⟨v, l, hv, rfl⟩ := cut 8 l (by omega)
  rw [length_append] at h
  obtain ⟨t, l, ht, rfl⟩ := cut 1 l (by omega)
  obtain ⟨ty, rfl⟩ := List.length_eq_one_iff.mp ht
  rw [length_append] at h
  obtain ⟨kl, l, hkl, rfl⟩ := cut 4 l (by omega)
  rw [length_append] at h
  obtain ⟨vl, l, hvl, rfl⟩ := cut 4 l (by omega)
  exact ⟨c, v, ty, kl, vl, l, hc, hv, hkl, hvl, rfl⟩

variable {r : LogRecord}

theorem decode_encode (h : r.Fits) (rest : Bytes) :
    decode crc (r.encode crc ++ rest) = .ok (r, r.size) := by
  obtain ⟨recordType, key, value, version⟩ := r
  have hk : ofBe (be 4 key.length) = key.length := ofBe_be_of_lt h.1
  have hv : ofBe (be 4 value.length) = value.length := ofBe_be_of_lt h.2
  have hver : UInt64.ofNat (ofBe (be 8 version.toNat)) = version := by
    rw [ofBe_be_of_lt (UInt64.toNat_lt version), UInt64.ofNat_toNat]
  have hcrc : ∀ b : Bytes, ofBe (be 4 (crc b).toNat) = (crc b).toNat :=
    fun b => ofBe_be_of_lt (UInt32.toNat_lt (crc b))
  have htake : (key ++ value ++ rest).take (key.length + value.length) = key ++ value := by
    rw [← length_append, take_left]
  simp only [encode, body, append_assoc]
  rw [decode_fields crc (be_length 4 _) (be_length 8 _) (be_length 4 _) (be_length 4 _),
    RecordType.tryFrom_eq_ok.mpr rfl, hk, hv, hver, ← append_assoc key, htake, hcrc]
  simp [size, bind, Except.bind]

theorem decode_eq_ok {n : Nat} :
    decode crc data = .ok (r, n) ↔ r.Fits ∧ n = r.size ∧ r.encode crc <+: data := by
  constructor
  · intro h
    by_cases hlen : data.length < headerSize
    · rw [decode, if_pos hlen] at h
      cases h
    obtain ⟨c, v, ty, kl, vl, rest, hc, hv, hkl, hvl, rfl⟩ := exists_fields (Nat.le_of_not_lt hlen)
    rw [decode_fields crc hc hv hkl hvl, Fallible.bind_eq_ok] at h
    obtain ⟨t, ht, h⟩ := h
    simp only at h
    split_ifs at h with hrest hcrc
    obtain ⟨rfl, rfl⟩ := h
    rw [not_not] at hcrc
    have hkey : (rest.take (ofBe kl)).length = ofBe kl := length_take_of_le (by omega)
    have hvalue : ((rest.drop (ofBe kl)).take (ofBe vl)).length = ofBe vl :=
      length_take_of_le (by rw [length_drop]; omega)
    have hklt : ofBe kl < 2 ^ 32 := by simpa [hkl] using ofBe_lt kl
    have hvlt : ofBe vl < 2 ^ 32 := by simpa [hvl] using ofBe_lt vl
    have hver : be 8 (UInt64.ofNat (ofBe v)).toNat = v := by
      have hlt := ofBe_lt v
      have hbe := be_ofBe v
      rw [hv] at hlt hbe
      rw [UInt64.toNat_ofNat_of_lt' hlt, hbe]
    have hkbe : be 4 (ofBe kl) = kl := hkl ▸ be_ofBe kl
    have hvbe : be 4 (ofBe vl) = vl := hvl ▸ be_ofBe vl
    have hcbe : be 4 (ofBe c) = c := hc ▸ be_ofBe c
    refine ⟨⟨?_, ?_⟩, ?_, rest.drop (ofBe kl + ofBe vl), ?_⟩
    · rwa [hkey]
    · rwa [hvalue]
    · simp only [size, hkey, hvalue]
    · have hbody : body ⟨t, rest.take (ofBe kl), (rest.drop (ofBe kl)).take (ofBe vl),
          UInt64.ofNat (ofBe v)⟩ = v ++ ([ty] ++ (kl ++ (vl ++ rest.take (ofBe kl + ofBe vl)))) := by
        simp only [body]
        rw [hver, hkey, hvalue, hkbe, hvbe, RecordType.tryFrom_eq_ok.mp ht, take_add]
      rw [encode, hbody, ← hcrc, hcbe]
      simp only [append_assoc, take_append_drop]
  · rintro ⟨hfits, rfl, rest, rfl⟩
    exact decode_encode crc hfits rest

theorem size_pos (r : LogRecord) : 0 < r.size := by
  simp only [size, headerSize]
  omega

variable {crc}

theorem drop_length_lt {n : Nat} (h : decode crc data = .ok (r, n)) :
    (data.drop n).length < data.length := by
  obtain ⟨-, rfl, rest, rfl⟩ := (decode_eq_ok crc).mp h
  have hpos := r.size_pos
  rw [length_drop, length_append, length_encode]
  omega

end LogRecord

namespace WalFile

variable (crc : Bytes → UInt32) {data : Bytes}

/-- `b"RHYPWAL\x01"`. -/
def magic : Bytes := [0x52, 0x48, 0x59, 0x50, 0x57, 0x41, 0x4C, 0x01]

def isFramed (data : Bytes) : Bool := magic.isPrefixOf data

theorem isFramed_iff : isFramed data = true ↔ magic <+: data :=
  isPrefixOf_iff_prefix

structure Replay where
  records : List LogRecord
  pending : List LogRecord
  offset : Nat
  validLen : Nat

namespace Replay

def start (offset : Nat) : Replay := ⟨[], [], offset, offset⟩

/-- A footer is accepted: `n` bytes up to it gave the records `recs`. -/
def settle (s : Replay) (recs : List LogRecord) (n : Nat) : Replay :=
  ⟨s.records ++ recs, [], s.offset + n, s.offset + n⟩

@[simp] theorem settle_offset (s : Replay) (recs : List LogRecord) (n : Nat) :
    (s.settle recs n).offset = s.offset + n := rfl

@[simp] theorem settle_validLen (s : Replay) (recs : List LogRecord) (n : Nat) :
    (s.settle recs n).validLen = s.offset + n := rfl

theorem settle_settle (s : Replay) (recs recs' : List LogRecord) (n n' : Nat) :
    (s.settle recs n).settle recs' n' = s.settle (recs ++ recs') (n + n') := by
  simp only [settle, append_assoc, Nat.add_assoc]

end Replay

/-- The count a footer carries; a value that is not eight bytes long counts as `usize::MAX`. -/
def footerCount (value : Bytes) : Nat := if value.length = 8 then ofBe value else 2 ^ 64 - 1

/-- The loop of `replay_with_valid_len` over the bytes from `offset` on. `decode` refuses the
empty input, so the loop test `offset < data.len()` needs no branch. -/
def replayLoop (data : Bytes) (s : Replay) : Replay :=
  match _h : LogRecord.decode crc data with
  | .error _ => s
  | .ok (record, size) =>
    if record.recordType = .commit then
      if footerCount record.value ≠ s.pending.length then
        { s with pending := [], offset := s.offset + size }
      else replayLoop (data.drop size) (s.settle s.pending size)
    else
      replayLoop (data.drop size)
        { s with pending := s.pending ++ [record], offset := s.offset + size }
termination_by data.length
decreasing_by all_goals exact LogRecord.drop_length_lt _h

def replayWithValidLen (data : Bytes) : List LogRecord × Nat :=
  let framed := isFramed data
  let offset := if framed then magic.length else 0
  let s := replayLoop crc (data.drop offset) (.start offset)
  -- a batch without its footer: torn in a framed file, a per-record prefix in a legacy one
  if !s.pending.isEmpty && !framed then (s.records ++ s.pending, s.offset)
  else (s.records, s.validLen)

def replay (data : Bytes) : List LogRecord := (replayWithValidLen crc data).1

theorem replayLoop_error {e : WalCorrupted} (h : LogRecord.decode crc data = .error e)
    (s : Replay) : replayLoop crc data s = s := by
  rw [replayLoop]
  split
  · rfl
  · rename_i h'
    rw [h] at h'
    cases h'

variable {r : LogRecord} {pending : List LogRecord}

theorem replayLoop_encode (h : r.Fits) (rest : Bytes) (s : Replay) :
    replayLoop crc (r.encode crc ++ rest) s =
      if r.recordType = .commit then
        if footerCount r.value ≠ s.pending.length then
          { s with pending := [], offset := s.offset + r.size }
        else replayLoop crc rest (s.settle s.pending r.size)
      else
        replayLoop crc rest
          { s with pending := s.pending ++ [r], offset := s.offset + r.size } := by
  have hdrop : (r.encode crc ++ rest).drop r.size = rest :=
    drop_left' (LogRecord.length_encode crc r)
  rw [replayLoop]
  split
  · rename_i h'
    rw [LogRecord.decode_encode crc h] at h'
    cases h'
  · rename_i record size h'
    rw [LogRecord.decode_encode crc h, Except.ok.injEq, Prod.mk.injEq] at h'
    obtain ⟨rfl, rfl⟩ := h'
    rw [hdrop]

/-- The bytes `pre`, read after `pending`, end with an accepted footer and give `recs`, whatever
follows them. -/
def Closes (pending : List LogRecord) (pre : Bytes) (recs : List LogRecord) : Prop :=
  ∀ (rest : Bytes) (s : Replay), s.pending = pending →
    replayLoop crc (pre ++ rest) s = replayLoop crc rest (s.settle recs pre.length)

theorem closes_footer (h : r.Fits) (hty : r.recordType = .commit)
    (hcount : footerCount r.value = pending.length) :
    Closes crc pending (r.encode crc) pending := by
  rintro rest s rfl
  rw [replayLoop_encode crc h, if_pos hty, if_neg (not_not.mpr hcount), LogRecord.length_encode]

variable {crc} {recs : List LogRecord} {pre : Bytes}

theorem Closes.cons (h : r.Fits) (hty : r.recordType ≠ .commit)
    (hpre : Closes crc (pending ++ [r]) pre recs) :
    Closes crc pending (r.encode crc ++ pre) recs := by
  rintro rest s rfl
  rw [append_assoc, replayLoop_encode crc h, if_neg hty, hpre _ _ rfl, length_append,
    LogRecord.length_encode]
  simp only [Replay.settle, Nat.add_assoc]

theorem Closes.append {recs' : List LogRecord} {pre' : Bytes}
    (h : Closes crc pending pre recs) (h' : Closes crc [] pre' recs') :
    Closes crc pending (pre ++ pre') (recs ++ recs') := by
  intro rest s hs
  rw [append_assoc, h _ _ hs, h' _ _ rfl, Replay.settle_settle, length_append]

variable (crc)

theorem replayLoop_cases (data : Bytes) (s : Replay) :
    (replayLoop crc data s).records = s.records ∧ (replayLoop crc data s).validLen = s.validLen ∨
      ∃ pre post recs, data = pre ++ post ∧ Closes crc s.pending pre recs ∧
        (replayLoop crc data s).records = s.records ++ recs ∧
        (replayLoop crc data s).validLen = s.offset + pre.length := by
  induction hn : data.length using Nat.strong_induction_on generalizing data s with
  | _ n ih =>
    cases hd : LogRecord.decode crc data with
    | error e =>
      rw [replayLoop_error crc hd]
      exact .inl ⟨rfl, rfl⟩
    | ok x =>
      obtain ⟨r, size⟩ := x
      obtain ⟨hfits, rfl, rest, rfl⟩ := (LogRecord.decode_eq_ok crc).mp hd
      have hlt : rest.length < n := by
        have hpos := r.size_pos
        rw [← hn, length_append, LogRecord.length_encode]
        omega
      rw [replayLoop_encode crc hfits]
      split_ifs with hty hcount
      · exact .inl ⟨rfl, rfl⟩
      · rw [not_not] at hcount
        have hfooter := closes_footer crc hfits hty hcount
        right
        rcases ih _ hlt rest (s.settle s.pending r.size) rfl with
          ⟨hrecs, hvalid⟩ | ⟨pre, post, recs, rfl, hpre, hrecs, hvalid⟩
        · refine ⟨r.encode crc, rest, s.pending, rfl, hfooter, hrecs, ?_⟩
          rw [hvalid, Replay.settle_validLen, LogRecord.length_encode]
        · refine ⟨r.encode crc ++ pre, post, s.pending ++ recs, (append_assoc ..).symm,
            hfooter.append hpre, ?_, ?_⟩
          · rw [hrecs, Replay.settle, append_assoc]
          · rw [hvalid, Replay.settle_offset, length_append, LogRecord.length_encode,
              Nat.add_assoc]
      · rcases ih _ hlt rest { s with pending := s.pending ++ [r], offset := s.offset + r.size } rfl
          with hout | ⟨pre, post, recs, rfl, hpre, hrecs, hvalid⟩
        · exact .inl hout
        · refine .inr ⟨r.encode crc ++ pre, post, recs, (append_assoc ..).symm,
            hpre.cons hfits hty, hrecs, ?_⟩
          rw [hvalid, length_append, LogRecord.length_encode, Nat.add_assoc]

end WalFile

/-- The arguments of one `append_txn` call; the length of a slice is a `usize`. -/
structure Batch where
  writes : List (Bytes × Option Bytes)
  version : UInt64
  length_lt : writes.length < 2 ^ 64

namespace Batch

variable (crc : Bytes → UInt32)

def dataRecord (version : UInt64) (w : Bytes × Option Bytes) : LogRecord :=
  match w.2 with
  | some value => ⟨.put, w.1, value, version⟩
  | none => ⟨.delete, w.1, [], version⟩

def records (b : Batch) : List LogRecord := b.writes.map (dataRecord b.version)

def footer (b : Batch) : LogRecord := ⟨.commit, [], be 8 b.writes.length, b.version⟩

def encode (b : Batch) : Bytes :=
  (b.records.map (LogRecord.encode crc)).flatten ++ b.footer.encode crc

theorem length_encode (b : Batch) :
    (b.encode crc).length = (b.records.map LogRecord.size).sum + LogRecord.headerSize + 8 := by
  have hsum : b.records.map (List.length ∘ LogRecord.encode crc) = b.records.map LogRecord.size :=
    map_congr_left fun r _ => LogRecord.length_encode crc r
  rw [encode, length_append, length_flatten, map_map, hsum,
    LogRecord.length_encode, LogRecord.size, footer, be_length]
  rfl

def Fits (b : Batch) : Prop :=
  ∀ w ∈ b.writes, w.1.length < 2 ^ 32 ∧ (w.2.getD []).length < 2 ^ 32

theorem Fits.records {b : Batch} (h : b.Fits) : ∀ r ∈ b.records, r.Fits ∧ r.recordType ≠ .commit := by
  intro r hr
  obtain ⟨⟨key, _ | value⟩, hw, rfl⟩ := List.mem_map.mp hr
  · exact ⟨h _ hw, nofun⟩
  · exact ⟨h _ hw, nofun⟩

theorem footer_fits (b : Batch) : b.footer.Fits := by
  constructor
  · show 0 < 2 ^ 32
    decide
  · rw [footer, be_length]
    decide

theorem footerCount_footer (b : Batch) : WalFile.footerCount b.footer.value = b.records.length := by
  rw [WalFile.footerCount, footer, be_length, if_pos rfl, ofBe_be_of_lt b.length_lt, Batch.records,
    length_map]

end Batch

namespace WalFile

variable {crc : Bytes → UInt32} {rs : List LogRecord}

theorem replayLoop_records (hrs : ∀ r ∈ rs, r.Fits ∧ r.recordType ≠ .commit)
    (rest : Bytes) (s : Replay) :
    replayLoop crc ((rs.map (LogRecord.encode crc)).flatten ++ rest) s =
      replayLoop crc rest { s with
        pending := s.pending ++ rs
        offset := s.offset + (rs.map (LogRecord.encode crc)).flatten.length } := by
  induction rs generalizing s with
  | nil => simp
  | cons r rs ih =>
    rw [forall_mem_cons] at hrs
    rw [map_cons, flatten_cons, append_assoc, replayLoop_encode crc hrs.1.1,
      if_neg hrs.1.2, ih hrs.2]
    simp only [append_assoc, singleton_append, length_append, LogRecord.length_encode,
      Nat.add_assoc]

variable {pre : Bytes} {recs : List LogRecord}

theorem Closes.records {pending : List LogRecord}
    (hrs : ∀ r ∈ rs, r.Fits ∧ r.recordType ≠ .commit) (h : Closes crc (pending ++ rs) pre recs) :
    Closes crc pending ((rs.map (LogRecord.encode crc)).flatten ++ pre) recs := by
  rintro rest s rfl
  rw [append_assoc, replayLoop_records hrs, h _ _ rfl, length_append]
  simp only [Replay.settle, Nat.add_assoc]

theorem closes_batch {b : Batch} (h : b.Fits) : Closes crc [] (b.encode crc) b.records := by
  apply Closes.records h.records
  exact closes_footer crc b.footer_fits rfl b.footerCount_footer

def Whole (crc : Bytes → UInt32) (pre : Bytes) (recs : List LogRecord) : Prop :=
  ∀ (rest : Bytes) (s : Replay), s.pending = [] → s.validLen = s.offset →
    replayLoop crc (pre ++ rest) s = replayLoop crc rest (s.settle recs pre.length)

theorem whole_nil : Whole crc [] [] := by
  intro rest s hs hv
  obtain ⟨records, pending, offset, validLen⟩ := s
  simp only at hs hv
  subst hs hv
  simp [Replay.settle]

theorem Closes.whole (h : Closes crc [] pre recs) :
    Whole crc pre recs := fun rest s hs _ => h rest s hs

theorem Whole.append {recs' : List LogRecord} {pre pre' : Bytes} (h : Whole crc pre recs)
    (h' : Whole crc pre' recs') : Whole crc (pre ++ pre') (recs ++ recs') := by
  intro rest s hs hv
  rw [append_assoc, h _ _ hs hv, h' _ _ rfl rfl, Replay.settle_settle, length_append]

variable {bs : List Batch} {file : Bytes}

theorem whole_batches (h : ∀ b ∈ bs, b.Fits) :
    Whole crc (bs.map (Batch.encode crc)).flatten (bs.flatMap Batch.records) := by
  induction bs with
  | nil => exact whole_nil
  | cons b bs ih =>
    rw [forall_mem_cons] at h
    exact (closes_batch h.1).whole.append (ih h.2)

theorem eq_of_encode_prefix {r r' : LogRecord} {rest : Bytes} (h : r.Fits) (h' : r'.Fits)
    (hp : r'.encode crc <+: r.encode crc ++ rest) : r' = r := by
  have hd := (LogRecord.decode_eq_ok crc).mpr ⟨h', rfl, hp⟩
  rw [LogRecord.decode_encode crc h, Except.ok.injEq, Prod.mk.injEq] at hd
  exact hd.1.symm

theorem replayLoop_torn (hrs : ∀ r ∈ rs, r.Fits ∧ r.recordType ≠ .commit)
    {footer : LogRecord} (hf : footer.Fits) {q : Bytes}
    (hq : q <+: (rs.map (LogRecord.encode crc)).flatten ++ footer.encode crc)
    (hlt : q.length < ((rs.map (LogRecord.encode crc)).flatten ++ footer.encode crc).length)
    (s : Replay) :
    (replayLoop crc q s).records = s.records ∧ (replayLoop crc q s).validLen = s.validLen := by
  induction rs generalizing q s with
  | nil =>
    cases hd : LogRecord.decode crc q with
    | error e =>
      rw [replayLoop_error crc hd]
      exact ⟨rfl, rfl⟩
    | ok x =>
      -- only the whole footer decodes, and it is longer than `q`
      obtain ⟨hfits, -, hr⟩ := (LogRecord.decode_eq_ok crc).mp hd
      rw [map_nil, flatten_nil, nil_append] at hq hlt
      have heq : x.1 = footer :=
        eq_of_encode_prefix hf hfits ((hr.trans hq).trans (prefix_append _ []))
      have hle := hr.length_le
      rw [heq] at hle
      omega
  | cons r rs ih =>
    rw [forall_mem_cons] at hrs
    rw [map_cons, flatten_cons, append_assoc] at hq hlt
    cases hd : LogRecord.decode crc q with
    | error e =>
      rw [replayLoop_error crc hd]
      exact ⟨rfl, rfl⟩
    | ok x =>
      obtain ⟨hfits, -, rest, rfl⟩ := (LogRecord.decode_eq_ok crc).mp hd
      have heq : x.1 = r :=
        eq_of_encode_prefix hrs.1.1 hfits ((prefix_append _ rest).trans hq)
      rw [heq] at hq hlt ⊢
      rw [prefix_append_right_inj] at hq
      simp only [length_append, Nat.add_lt_add_iff_left] at hlt
      rw [replayLoop_encode crc hrs.1.1, if_neg hrs.1.2]
      exact ih hrs.2 hq (by rwa [length_append]) _

theorem replayLoop_prefix (h : ∀ b ∈ bs, b.Fits) {q : Bytes}
    (hq : q <+: (bs.map (Batch.encode crc)).flatten) (s : Replay) (hs : s.pending = []) :
    ∃ n, (replayLoop crc q s).records = s.records ++ (bs.take n).flatMap Batch.records := by
  induction bs generalizing q s with
  | nil =>
    rw [map_nil, flatten_nil, prefix_nil] at hq
    subst hq
    refine ⟨0, ?_⟩
    rw [replayLoop_error crc (e := .tooShort) rfl]
    simp
  | cons b bs ih =>
    rw [forall_mem_cons] at h
    rw [map_cons, flatten_cons] at hq
    by_cases hlt : q.length < (b.encode crc).length
    · refine ⟨0, ?_⟩
      have hqb := prefix_of_prefix_length_le hq (prefix_append _ _) hlt.le
      rw [(replayLoop_torn h.1.records b.footer_fits hqb hlt s).1]
      simp
    · obtain ⟨rest, rfl⟩ := prefix_of_prefix_length_le (prefix_append _ _) hq
        (Nat.le_of_not_lt hlt)
      rw [prefix_append_right_inj] at hq
      obtain ⟨n, hn⟩ := ih h.2 hq (s.settle b.records (b.encode crc).length) rfl
      refine ⟨n + 1, ?_⟩
      rw [closes_batch h.1 _ _ hs, hn, Replay.settle, take_succ_cons, flatMap_cons,
        append_assoc]

theorem replayWithValidLen_framed (crc : Bytes → UInt32) (data : Bytes) :
    replayWithValidLen crc (magic ++ data) =
      ((replayLoop crc data (.start magic.length)).records,
        (replayLoop crc data (.start magic.length)).validLen) := by
  have hframed : isFramed (magic ++ data) = true := isFramed_iff.mpr (prefix_append magic data)
  simp [replayWithValidLen, hframed]

theorem replayWithValidLen_unframed {data : Bytes} (h : isFramed data = false) :
    replayWithValidLen crc data =
      if (replayLoop crc data (.start 0)).pending = [] then
        ((replayLoop crc data (.start 0)).records, (replayLoop crc data (.start 0)).validLen)
      else ((replayLoop crc data (.start 0)).records ++ (replayLoop crc data (.start 0)).pending,
        (replayLoop crc data (.start 0)).offset) := by
  simp only [replayWithValidLen, h, Bool.false_eq_true, if_false, drop_zero, Bool.not_false,
    Bool.and_true]
  by_cases hp : (replayLoop crc data (.start 0)).pending = []
  · simp [hp]
  · simp [hp]

theorem replayLoop_nil (s : Replay) : replayLoop crc [] s = s :=
  replayLoop_error crc (e := .tooShort) rfl s

theorem replay_framed_whole (h : Whole crc pre recs) : replay crc (magic ++ pre) = recs := by
  have hall := h [] (.start magic.length) rfl rfl
  rw [append_nil, replayLoop_nil] at hall
  rw [replay, replayWithValidLen_framed, hall]
  rfl

theorem replay_prefix (hpre : Whole crc pre recs) (hbs : ∀ b ∈ bs, b.Fits)
    (hfile : magic ++ pre <+: file)
    (hq : file <+: magic ++ pre ++ (bs.map (Batch.encode crc)).flatten) :
    ∃ m, replay crc file = recs ++ (bs.take m).flatMap Batch.records := by
  obtain ⟨q, rfl⟩ := hfile
  rw [prefix_append_right_inj] at hq
  obtain ⟨m, hm⟩ := replayLoop_prefix hbs hq ((Replay.start magic.length).settle recs pre.length) rfl
  refine ⟨m, ?_⟩
  rw [replay, append_assoc, replayWithValidLen_framed, hpre _ _ rfl rfl, hm]
  rfl

theorem whole_of_validLen (hframed : isFramed file = true)
    (h : replayWithValidLen crc file = (recs, file.length)) :
    ∃ pre, file = magic ++ pre ∧ Whole crc pre recs := by
  obtain ⟨pre, rfl⟩ := isFramed_iff.mp hframed
  rw [replayWithValidLen_framed, Prod.mk.injEq, length_append] at h
  refine ⟨pre, rfl, ?_⟩
  rcases replayLoop_cases crc pre (.start magic.length) with
    ⟨hrecs, hvalid⟩ | ⟨pre', post, recs', rfl, hpre, hrecs, hvalid⟩
  · obtain rfl : recs = [] := h.1.symm.trans hrecs
    obtain rfl : pre = [] := by
      rw [← length_eq_zero_iff]
      have h2 := hvalid.symm.trans h.2
      simp only [Replay.start] at h2
      omega
    exact whole_nil
  · obtain rfl : recs = recs' := h.1.symm.trans hrecs
    obtain rfl : post = [] := by
      rw [← length_eq_zero_iff]
      have h2 := hvalid.symm.trans h.2
      simp only [Replay.start, length_append] at h2
      omega
    rw [append_nil]
    exact hpre.whole

end WalFile

namespace LogRecord

/-- The record the log model of `Wal` has for a data record. -/
def toWalRecord (r : LogRecord) : WalRecord Bytes :=
  match r.recordType with
  | .put => .put r.key r.value r.version.toNat
  | .delete => .delete r.key r.version.toNat
  | .commit => .commit (WalFile.footerCount r.value) r.version.toNat

end LogRecord

end RhypeDb.Storage
