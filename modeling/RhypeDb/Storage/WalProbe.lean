import Mathlib.Data.List.GetD
import Mathlib.Tactic.IntervalCases
import RhypeDb.Storage.WalOpen

/-! The files `open` leaves unusable, exactly. When a file without the magic gives no record and
is not read to its end, one more transaction is lost: the batch of a delete of the empty key,
read from any position but its first, has no record that could be taken for its own. -/

namespace RhypeDb.Storage

open ByteOrder List LogRecord WalFile

namespace LogRecord

variable {crc : Bytes → UInt32}

def topByte (version : UInt64) : Byte := Fin.ofNat 256 (version.toNat / 256 ^ 7)

theorem getD_of_decode {data : Bytes} {r : LogRecord} {n : Nat} (h : decode crc data = .ok (r, n)) :
    headerSize ≤ data.length ∧ data.getD 4 0 = topByte r.version ∧
      data.getD 12 0 = r.recordType.toByte := by
  obtain ⟨-, -, rest, rfl⟩ := (decode_eq_ok crc).mp h
  refine ⟨?_, ?_, ?_⟩
  · rw [length_append, length_encode, size]
    omega
  · rfl
  · rfl

end LogRecord

namespace WalFile

variable {crc : Bytes → UInt32} {r : LogRecord}

def Replay.read (s : Replay) : List LogRecord := s.records ++ s.pending

theorem head?_replayLoop (crc : Bytes → UInt32) (data : Bytes) {s : Replay}
    (hs : s.read.head? = some r) :
    (replayLoop crc data s).read.head? = none ∨ (replayLoop crc data s).read.head? = some r := by
  induction hn : data.length using Nat.strong_induction_on generalizing data s with
  | _ n ih =>
    cases hd : LogRecord.decode crc data with
    | error e =>
      rw [replayLoop_error crc hd]
      exact .inr hs
    | ok x =>
      obtain ⟨hfits, -, rest, rfl⟩ := (decode_eq_ok crc).mp hd
      have hlt : rest.length < n := by
        have hpos := x.1.size_pos
        rw [← hn, length_append, length_encode]
        omega
      rw [Replay.read] at hs
      rw [replayLoop_encode crc hfits]
      split_ifs with hty hcount
      · cases hrecs : s.records with
        | nil => exact .inl rfl
        | cons a l =>
          rw [hrecs] at hs
          exact .inr hs
      · apply ih _ hlt rest _ rfl
        simpa [Replay.read, Replay.settle] using hs
      · apply ih _ hlt rest _ rfl
        rw [Replay.read, ← append_assoc, head?_append, hs]
        rfl

/-- No list that starts with a record of a version with top byte `v`. -/
def Misses (v : Byte) (recs : List LogRecord) : Prop :=
  ∀ r, recs.head? = some r → LogRecord.topByte r.version ≠ v

theorem Misses.of_prefix {v : Byte} {recs recs' : List LogRecord} (h : Misses v recs')
    (hp : recs <+: recs') : Misses v recs := by
  obtain ⟨rest, rfl⟩ := hp
  intro r hr
  apply h r
  rw [head?_append, hr]
  rfl

theorem misses_nil (v : Byte) : Misses v [] := nofun

theorem misses_replayLoop {v : Byte} (data : Bytes) {s : Replay}
    (hs : s.read.head? = some r) (hr : LogRecord.topByte r.version ≠ v) :
    Misses v (replayLoop crc data s).read := by
  intro r' hr'
  rcases head?_replayLoop crc data hs with h | h
  · rw [h] at hr'
    cases hr'
  · rw [h, Option.some.injEq] at hr'
    rwa [← hr']

end WalFile

def probe (v : Byte) : Batch := ⟨[([], none)], UInt64.ofNat (v.val * 256 ^ 7), by simp⟩

namespace WalFile

variable {crc : Bytes → UInt32} {v : Byte} {data : Bytes} {s : Replay}

theorem encode_probe (crc : Bytes → UInt32) (hv : v = 0x40 ∨ v = 0x80) :
    ∃ a₀ a₁ a₂ a₃ b₀ b₁ b₂ b₃, (probe v).encode crc =
      [a₀, a₁, a₂, a₃, v, 0, 0, 0, 0, 0, 0, 0, 2, 0, 0, 0, 0, 0, 0, 0, 0,
        b₀, b₁, b₂, b₃, v, 0, 0, 0, 0, 0, 0, 0, 3, 0, 0, 0, 0, 0, 0, 0, 8,
        0, 0, 0, 0, 0, 0, 0, 1] := by
  rcases hv with rfl | rfl
  · exact ⟨_, _, _, _, _, _, _, _, rfl⟩
  · exact ⟨_, _, _, _, _, _, _, _, rfl⟩

theorem ne_toByte (hv : v = 0x40 ∨ v = 0x80) {b : Byte} (hb : b = 0 ∨ b = 8 ∨ b = v)
    (t : RecordType) : b ≠ t.toByte := by
  rcases hv with rfl | rfl
  · rcases hb with rfl | rfl | rfl <;> cases t <;> decide
  · rcases hb with rfl | rfl | rfl <;> cases t <;> decide

theorem decode_drop_probe (hv : v = 0x40 ∨ v = 0x80) {i : Nat} (hi : 0 < i) {r : LogRecord} {n : Nat}
    (h : LogRecord.decode crc (((probe v).encode crc).drop i) = .ok (r, n)) :
    i = 21 ∨ 9 ≤ i ∧ LogRecord.topByte r.version ≠ v := by
  obtain ⟨hlen, htop, hty⟩ := getD_of_decode h
  obtain ⟨a₀, a₁, a₂, a₃, b₀, b₁, b₂, b₃, hbytes⟩ := encode_probe crc hv
  have hne : v ≠ 0 := by rcases hv with rfl | rfl <;> decide
  rw [hbytes] at hlen htop hty
  rw [length_drop] at hlen
  have hle : i ≤ 29 := by
    simp only [LogRecord.headerSize, length_cons, length_nil] at hlen
    omega
  -- the byte at the type's place is a zero, the version's top byte, the footer's length or type,
  -- or one of the footer's checksum
  interval_cases i
  all_goals
    simp only [drop_succ_cons, drop_zero, getD_cons_succ, getD_cons_zero]
      at htop hty
    first
    | exact .inl rfl
    | exact .inr ⟨by decide, by rw [← htop]; exact hne.symm⟩
    | exact absurd hty (ne_toByte hv (by simp) _)

theorem misses_drop_probe (hv : v = 0x40 ∨ v = 0x80) {i : Nat} (hi : 0 < i)
    (hs : s.read = []) : Misses v (replayLoop crc (((probe v).encode crc).drop i) s).read := by
  have hpend : s.pending = [] := (append_eq_nil_iff.mp hs).2
  have hrecs : s.records = [] := (append_eq_nil_iff.mp hs).1
  cases hd : LogRecord.decode crc (((probe v).encode crc).drop i) with
  | error e =>
    rw [replayLoop_error crc hd, hs]
    exact misses_nil v
  | ok x =>
    obtain ⟨r, n⟩ := x
    have hpos := decode_drop_probe hv hi hd
    obtain ⟨hfits, rfl, rest, hrest⟩ := (decode_eq_ok crc).mp hd
    have hlen : r.size + rest.length = 50 - i := by
      rw [← length_encode crc r, ← length_append, hrest, length_drop,
        Batch.length_encode]
      rfl
    rw [← hrest, replayLoop_encode crc hfits]
    split_ifs with hty hcount
    · rw [Replay.read, hrecs]
      exact misses_nil v
    · -- an accepted footer has a value of eight bytes and no count
      rw [not_not, hpend, length_nil] at hcount
      have hvalue : r.value.length = 8 := by
        by_contra hne
        rw [footerCount, if_neg hne] at hcount
        cases hcount
      have hi21 : i ≠ 21 := by
        rintro rfl
        have heq := eq_of_encode_prefix (probe v).footer_fits hfits ⟨rest, hrest⟩
        rw [heq, (probe v).footerCount_footer] at hcount
        cases hcount
      have hshort : rest.length < LogRecord.headerSize := by
        rw [LogRecord.size, hvalue] at hlen
        simp only [LogRecord.headerSize] at hlen ⊢
        omega
      rw [replayLoop_error crc (decode_tooShort crc hshort), Replay.read, Replay.settle,
        hrecs, hpend]
      exact misses_nil v
    · have htop : LogRecord.topByte r.version ≠ v := by
        rcases hpos with rfl | ⟨-, htop⟩
        · have heq := eq_of_encode_prefix (probe v).footer_fits hfits ⟨rest, hrest⟩
          rw [heq] at hty
          exact absurd rfl hty
        · exact htop
      apply misses_replayLoop rest _ htop
      rw [Replay.read, hrecs, hpend]
      rfl

theorem misses_tail (hne : data ≠ []) {e : WalCorrupted}
    (hd : LogRecord.decode crc data = .error e) (hs : s.read = [])
    (hv : v = 0x40 ∨ v = 0x80) (hb : v ≠ data.getD 4 0) :
    Misses v (replayLoop crc (data ++ (probe v).encode crc) s).read := by
  have hpend : s.pending = [] := (append_eq_nil_iff.mp hs).2
  have hrecs : s.records = [] := (append_eq_nil_iff.mp hs).1
  have hpos := length_pos_of_ne_nil hne
  cases hd' : LogRecord.decode crc (data ++ (probe v).encode crc) with
  | error e' =>
    rw [replayLoop_error crc hd', hs]
    exact misses_nil v
  | ok x =>
    obtain ⟨r, n⟩ := x
    obtain ⟨-, htop, htype⟩ := getD_of_decode hd'
    obtain ⟨hfits, rfl, rest, hrest⟩ := (decode_eq_ok crc).mp hd'
    -- the record reaches into the probe
    have hlong : data.length < r.size := by
      by_contra hle
      have hp : r.encode crc <+: data := prefix_of_prefix_length_le ⟨rest, hrest⟩
        (prefix_append _ _) (by rw [length_encode]; omega)
      rw [(decode_eq_ok crc).mpr ⟨hfits, rfl, hp⟩] at hd
      cases hd
    have hdrop : rest = ((probe v).encode crc).drop (r.size - data.length) := by
      have hcut := congrArg (List.drop r.size) hrest
      rwa [drop_left' (length_encode crc r), drop_append,
        drop_of_length_le hlong.le, nil_append] at hcut
    rw [← hrest, replayLoop_encode crc hfits]
    split_ifs with hty hcount
    · rw [Replay.read, hrecs]
      exact misses_nil v
    · rw [hdrop]
      apply misses_drop_probe hv (by omega)
      rw [Replay.read, Replay.settle, hrecs, hpend]
      rfl
    · apply misses_replayLoop rest (r := r)
      · rw [Replay.read, hrecs, hpend]
        rfl
      · rw [← htop]
        -- the type's place is in the probe's version unless the tail has nine bytes
        have hnine : 9 ≤ data.length := by
          by_contra hlt
          obtain ⟨a₀, a₁, a₂, a₃, b₀, b₁, b₂, b₃, hbytes⟩ := encode_probe crc hv
          rw [getD_append_right _ _ _ _ (by omega), hbytes] at htype
          revert htype
          generalize data.length = k at hpos hlt
          interval_cases k
          all_goals
            intro htype
            exact absurd htype (ne_toByte hv (by simp) _)
        rw [getD_append _ _ _ _ (by omega)]
        exact hb.symm

/-- Replay read nothing from `data` and did not reach its end: a probe behind it is lost unless
its version begins with one certain byte. -/
theorem exists_misses (crc : Bytes → UInt32) (data : Bytes) (hrecs : s.records = [])
    (hsettled : s.pending = [] → s.validLen = s.offset) (hread : (replayLoop crc data s).read = [])
    (hvalid : (replayLoop crc data s).validLen ≠ s.offset + data.length) :
    ∃ b, ∀ v, v = 0x40 ∨ v = 0x80 → v ≠ b →
      Misses v (replayLoop crc (data ++ (probe v).encode crc) s).read := by
  induction hn : data.length using Nat.strong_induction_on generalizing data s with
  | _ n ih =>
    cases hd : LogRecord.decode crc data with
    | error e =>
      rw [replayLoop_error crc hd] at hread hvalid
      have hpend : s.pending = [] := (append_eq_nil_iff.mp hread).2
      have hne : data ≠ [] := by
        rintro rfl
        exact hvalid (hsettled hpend)
      exact ⟨data.getD 4 0, fun v hv hb => misses_tail hne hd hread hv hb⟩
    | ok x =>
      obtain ⟨r, size⟩ := x
      obtain ⟨hfits, rfl, rest, rfl⟩ := (decode_eq_ok crc).mp hd
      have hlen : (r.encode crc ++ rest).length = r.size + rest.length := by
        rw [length_append, length_encode]
      have hlt : rest.length < n := by
        have hpos := r.size_pos
        omega
      rw [replayLoop_encode crc hfits] at hread hvalid
      simp only [append_assoc, replayLoop_encode crc hfits]
      split_ifs at hread hvalid ⊢ with hty hcount
      · refine ⟨0, fun v _ _ => ?_⟩
        rw [Replay.read, hrecs]
        exact misses_nil v
      · -- nothing was read, so the footer closed an empty batch
        have hpend : s.pending = [] := by
          have hnone := (append_eq_nil_iff.mp hread).1
          rcases replayLoop_cases crc rest (s.settle s.pending r.size) with
            ⟨hout, -⟩ | ⟨-, -, recs, -, -, hout, -⟩
          · rw [hout] at hnone
            exact (append_eq_nil_iff.mp hnone).2
          · rw [hout] at hnone
            exact (append_eq_nil_iff.mp (append_eq_nil_iff.mp hnone).1).2
        apply ih _ hlt rest _ _ hread _ rfl
        · rw [Replay.settle, hrecs, hpend]
          rfl
        · exact fun _ => rfl
        · rw [Replay.settle_offset]
          omega
      · apply ih _ hlt rest _ _ hread _ rfl
        · exact hrecs
        · intro hnil
          exact absurd hnil (by simp)
        · simp only
          omega

theorem misses_replay_probe (hframed : isFramed data = false) (hv : v = 0x40 ∨ v = 0x80)
    (hread : Misses v (replayLoop crc (data ++ (probe v).encode crc) (.start 0)).read) :
    Misses v (replay crc (data ++ (probe v).encode crc)) := by
  cases hjoin : isFramed (data ++ (probe v).encode crc) with
  | false =>
    rw [replay, replayWithValidLen_unframed hjoin]
    split_ifs
    · exact hread.of_prefix (prefix_append _ _)
    · exact hread
  | true =>
    -- the file was a part of the magic, and the checksum completed it
    rw [isFramed_iff] at hjoin
    have hshort : data.length < magic.length := by
      by_contra hle
      rw [← Bool.not_eq_true, isFramed_iff] at hframed
      exact hframed (prefix_of_prefix_length_le hjoin (prefix_append _ _) (by omega))
    obtain ⟨rest, hrest⟩ := hjoin
    have hdrop : rest = ((probe v).encode crc).drop (magic.length - data.length) := by
      have hcut := congrArg (List.drop magic.length) hrest
      rwa [drop_left, drop_append, drop_of_length_le hshort.le,
        nil_append] at hcut
    have hprobe : Misses v (replayLoop crc rest (.start magic.length)).read := by
      rw [hdrop]
      exact misses_drop_probe hv (by omega) rfl
    rw [← hrest, replay, replayWithValidLen_framed]
    exact hprobe.of_prefix (prefix_append _ _)

theorem mendable_of_appendable {file : Option Bytes} (h : Appendable crc file) :
    Mendable crc (file.getD []) := by
  have hnil : Mendable crc [] := by
    refine .inr (.inr ?_)
    rw [replayWithValidLen_unframed (by decide), replayLoop_nil]
    rfl
  cases file with
  | none => exact hnil
  | some data =>
    rw [Option.getD_some]
    by_cases hempty : data = []
    · rw [hempty]
      exact hnil
    by_contra hnot
    rw [Mendable, not_or, not_or, not_not, Bool.not_eq_true] at hnot
    obtain ⟨hframed, hnone, hvalid⟩ := hnot
    have hread : (replayLoop crc data (.start 0)).read = [] ∧
        (replayLoop crc data (.start 0)).validLen ≠ data.length := by
      rw [replayWithValidLen_unframed hframed] at hvalid
      rw [replay, replayWithValidLen_unframed hframed] at hnone
      split_ifs at hnone hvalid with hpend
      · exact ⟨append_eq_nil_iff.mpr ⟨hnone, hpend⟩, hvalid⟩
      · exact absurd (append_eq_nil_iff.mp hnone).2 hpend
    obtain ⟨b, hb⟩ := exists_misses crc data (s := .start 0) rfl (fun _ => rfl) hread.1
      (by simpa [Replay.start] using hread.2)
    obtain ⟨v, hv, hvb⟩ : ∃ v : Byte, (v = 0x40 ∨ v = 0x80) ∧ v ≠ b := by
      by_cases h40 : b = 0x40
      · exact ⟨0x80, .inr rfl, by rw [h40]; decide⟩
      · exact ⟨0x40, .inl rfl, fun heq => h40 heq.symm⟩
    have hmiss := misses_replay_probe hframed hv (hb v hv hvb)
    have hrun := h true [] ⟨data, []⟩ [⟨probe v, none, none, none⟩]
      (by rw [openLog_unframed crc true hempty hframed, if_pos hnone, hnone])
    have hne : (probe v).writes ≠ [] := cons_ne_nil _ _
    simp only [WalWriter.run, WalWriter.appendTxn_no_fault crc _ hne, append_nil, ite_self,
      nil_append, flatMap_cons, flatMap_nil, forall_mem_singleton] at hrun
    rw [hrun _ trivial] at hmiss
    · apply hmiss (Batch.dataRecord (probe v).version ([], none)) rfl
      rcases hv with rfl | rfl
      · decide
      · decide
    · intro w hw
      obtain rfl := mem_singleton.mp hw
      decide

theorem appendable_iff_mendable (crc : Bytes → UInt32) (file : Option Bytes) :
    Appendable crc file ↔ Mendable crc (file.getD []) :=
  ⟨mendable_of_appendable, appendable_of_mendable⟩

/-- A log of one stray byte: `open` succeeds, the put after it is acknowledged and not replayed. -/
theorem not_appendable_one_byte : ¬ Appendable LogRecord.crc32 (some [0]) := by
  intro h
  have hfits : ∀ c ∈ [WalWriter.Call.mk (WalWriter.putBatch [0x62] [2] 2) ⟨none, none, none⟩],
      c.batch.Fits := by
    rw [forall_mem_singleton]
    exact WalWriter.fits_putBatch (by decide) (by decide) 2
  have hnone : replay LogRecord.crc32 [0] = [] := by decide +kernel
  have hopen : openLog LogRecord.crc32 true (some [0]) = some ([], ⟨[0], []⟩) := by
    rw [openLog_unframed _ true (by decide) (by decide), if_pos hnone, hnone]
  have hrun := h true [] ⟨[0], []⟩ _ hopen hfits (by decide +kernel)
  exact absurd hrun (by decide +kernel)

end WalFile

end RhypeDb.Storage
