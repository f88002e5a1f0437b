import RhypeDb.Basic.ByteOrder
import RhypeDb.Basic.Fallible

/-! `posting.rs`: a posting is its document's length, its term's count and, in a field that stores
positions, their differences, each a variable-length integer. Decoded integers are numbers here:
that none leaves 32 bits is a result. -/

namespace RhypeDb.Fulltext.PostingCodec

open Fallible List UInt32

inductive PostingError
  | truncated
  | overflow
  | inconsistent
  | trailingBytes
  deriving DecidableEq, Repr

structure Decoded where
  docLen : Nat
  tf : Nat
  positions : List Nat

def putVarint (v : Nat) : Bytes :=
  if 0x80 ≤ v then (Fin.ofNat 256 v ||| 0x80) :: putVarint (v >>> 7) else [Fin.ofNat 256 v]
termination_by v
decreasing_by
  rw [Nat.shiftRight_eq_div_pow]
  omega

/-- The first position stands for itself. -/
def deltaOf (prev : Option UInt32) (p : UInt32) : UInt32 :=
  match prev with
  | none => p
  | some q => p - q

def putPositions : Option UInt32 → List UInt32 → Bytes
  | _, [] => []
  | prev, p :: ps => putVarint (deltaOf prev p).toNat ++ putPositions (some p) ps

/-- The count is cast to 32 bits. -/
def encodePosting (docLen : UInt32) (positions : List UInt32) (storePositions : Bool) : Bytes :=
  putVarint docLen.toNat ++ (putVarint (UInt32.ofNat positions.length).toNat ++
    if storePositions then putPositions none positions else [])

/-- Turn `i` of the loop, with `left` turns to go. -/
def getVarintFrom : (left i result : Nat) → Bytes → Except PostingError (Nat × Bytes)
  | 0, _, _, _ => .error .overflow
  | _ + 1, _, _, [] => .error .truncated
  | left + 1, i, result, b :: cur =>
    let payload := b.val &&& 0x7f
    if i = 4 ∧ 0x0f < payload then .error .overflow
    else
      let result := result ||| payload <<< (7 * i)
      if b.val &&& 0x80 = 0 then .ok (result, cur) else getVarintFrom left (i + 1) result cur

def getVarint (cur : Bytes) : Except PostingError (Nat × Bytes) := getVarintFrom 5 0 0 cur

def positionOf (prev : Option Nat) (delta : Nat) : Except PostingError Nat :=
  match prev with
  | none => .ok delta
  | some q =>
    if delta = 0 then .error .inconsistent
    else if q + delta < 2 ^ 32 then .ok (q + delta) else .error .overflow

def getPositions : Nat → Option Nat → Bytes → Except PostingError (List Nat × Bytes)
  | 0, _, cur => .ok ([], cur)
  | n + 1, prev, cur => do
    let (delta, cur) ← getVarint cur
    let p ← positionOf prev delta
    let (ps, cur) ← getPositions n (some p) cur
    return (p :: ps, cur)

def decodePosting (bytes : Bytes) : Except PostingError Decoded := do
  let (docLen, cur) ← getVarint bytes
  let (tf, cur) ← getVarint cur
  if tf = 0 then .error .inconsistent
  else if cur = [] then .ok { docLen, tf, positions := [] }
  else do
    let (positions, cur) ← getPositions tf none cur
    if cur ≠ [] then .error .trailingBytes else .ok { docLen, tf, positions }

def decodePostingHeader (bytes : Bytes) : Except PostingError (Nat × Nat) := do
  let (docLen, cur) ← getVarint bytes
  let (tf, _) ← getVarint cur
  if tf = 0 then .error .inconsistent else .ok (docLen, tf)

section

variable {left i result v : Nat} {cur rest : Bytes}

theorem byte_bits (b : Byte) : b.val &&& 0x7f = b.val % 128 ∧
    (b.val &&& 0x80 = 0 ↔ b.val < 128) ∧ (b ||| 0x80).val = b.val % 128 + 128 := by
  revert b
  decide +kernel

theorem or_shift (h : result < 2 ^ (7 * i)) (n : Nat) :
    result ||| n <<< (7 * i) = n * 2 ^ (7 * i) + result := by
  rw [Nat.or_comm, ← Nat.shiftLeft_add_eq_or_of_lt h, Nat.shiftLeft_eq]

theorem turn_lt (h : result < 2 ^ (7 * i)) {n : Nat} (hn : n < 128) :
    n * 2 ^ (7 * i) + result < 2 ^ (7 * (i + 1)) := by
  have hpow : 2 ^ (7 * (i + 1)) = 128 * 2 ^ (7 * i) := by
    rw [Nat.mul_succ, Nat.pow_add]
    exact Nat.mul_comm _ _
  have hmul := Nat.mul_le_mul_right (2 ^ (7 * i)) (Nat.succ_le_of_lt hn)
  rw [Nat.succ_mul] at hmul
  omega

theorem getVarintFrom_cons (h : result < 2 ^ (7 * i)) (b : Byte) :
    getVarintFrom (left + 1) i result (b :: cur) =
      if i = 4 ∧ 15 < b.val % 128 then .error .overflow
      else if b.val < 128 then .ok (b.val % 128 * 2 ^ (7 * i) + result, cur)
      else getVarintFrom left (i + 1) (b.val % 128 * 2 ^ (7 * i) + result) cur := by
  obtain ⟨hlow, hhigh, -⟩ := byte_bits b
  rw [getVarintFrom, hlow, or_shift h]
  simp only [hhigh]

theorem putVarint_cases (v : Nat) :
    ∃ b : Byte, b.val % 128 = v % 128 ∧
      (v < 128 ∧ b.val < 128 ∧ putVarint v = [b] ∨
        128 ≤ v ∧ 128 ≤ b.val ∧ putVarint v = b :: putVarint (v / 128)) := by
  have hval : (Fin.ofNat 256 v).val % 128 = v % 128 := Nat.mod_mod_of_dvd v (by decide)
  rw [putVarint]
  split_ifs with hbig
  · have hbyte := (byte_bits (Fin.ofNat 256 v)).2.2
    refine ⟨Fin.ofNat 256 v ||| 0x80, ?_, .inr ⟨hbig, ?_, ?_⟩⟩
    · rw [hbyte, Nat.add_mod_right, Nat.mod_mod, hval]
    · rw [hbyte]
      exact Nat.le_add_left _ _
    · rw [Nat.shiftRight_eq_div_pow]
  · have hsmall : v < 128 := Nat.lt_of_not_le hbig
    refine ⟨Fin.ofNat 256 v, hval, .inl ⟨hsmall, ?_, rfl⟩⟩
    exact (Nat.mod_le v 256).trans_lt hsmall

theorem getVarintFrom_putVarint (hi : i + left = 4) (hresult : result < 2 ^ (7 * i))
    (hv : v < 2 ^ (32 - 7 * i)) (rest : Bytes) :
    getVarintFrom (left + 1) i result (putVarint v ++ rest) =
      .ok (v * 2 ^ (7 * i) + result, rest) := by
  induction left generalizing i result v with
  | zero =>
    obtain rfl : i = 4 := hi
    obtain ⟨b, hb, ⟨-, hlast, hput⟩ | ⟨hbig, -⟩⟩ := putVarint_cases v
    · rw [hput, singleton_append, getVarintFrom_cons hresult, hb, Nat.mod_eq_of_lt (by omega),
        if_neg (by omega), if_pos hlast]
    · omega
  | succ left ih =>
    have hturn : ∀ n, ¬ (i = 4 ∧ 15 < n) := fun n h => by omega
    obtain ⟨b, hb, ⟨hsmall, hlast, hput⟩ | ⟨-, hmore, hput⟩⟩ := putVarint_cases v
    · rw [hput, singleton_append, getVarintFrom_cons hresult, if_neg (hturn _), if_pos hlast, hb,
        Nat.mod_eq_of_lt hsmall]
    · have hpow : 2 ^ (32 - 7 * i) = 2 ^ (32 - 7 * (i + 1)) * 128 := by
        rw [show 32 - 7 * i = 32 - 7 * (i + 1) + 7 by omega, Nat.pow_add]
      have hdiv : v / 128 < 2 ^ (32 - 7 * (i + 1)) := Nat.div_lt_of_lt_mul (by omega)
      have hvalue : v / 128 * 2 ^ (7 * (i + 1)) + (v % 128 * 2 ^ (7 * i) + result) =
          v * 2 ^ (7 * i) + result := by
        conv_rhs => rw [← Nat.div_add_mod v 128]
        ring
      rw [hput, cons_append, getVarintFrom_cons hresult, if_neg (hturn _),
        if_neg (Nat.not_lt.mpr hmore), hb,
        ih (by omega) (turn_lt hresult (Nat.mod_lt _ (by decide))) hdiv, hvalue]

theorem getVarintFrom_ok (hi : i + left = 5) (hresult : result < 2 ^ (7 * i)) (hsmall : i ≤ 4)
    (h : getVarintFrom left i result cur = .ok (v, rest)) :
    v < 2 ^ 32 ∧ ∃ used, cur = used ++ rest ∧ 1 ≤ used.length ∧ used.length ≤ left := by
  induction left generalizing i result cur with
  | zero => omega
  | succ left ih =>
    cases cur with
    | nil => cases h
    | cons b cur =>
      rw [getVarintFrom_cons hresult] at h
      have hlow : b.val % 128 < 128 := Nat.mod_lt _ (by decide)
      split_ifs at h with hover hlast
      · cases h
        refine ⟨?_, [b], rfl, le_rfl, Nat.le_add_left _ _⟩
        by_cases hfour : i = 4
        · subst hfour
          omega
        · refine (turn_lt hresult hlow).trans_le (Nat.pow_le_pow_right (by decide) ?_)
          omega
      · have hturn := turn_lt hresult hlow
        cases left with
        | zero => cases h
        | succ left =>
          obtain ⟨hv, used, rfl, -, hlen⟩ := ih (by omega) hturn (by omega) h
          exact ⟨hv, b :: used, rfl, Nat.le_add_left _ _, Nat.succ_le_succ hlen⟩

theorem getVarint_putVarint (h : v < 2 ^ 32) (rest : Bytes) :
    getVarint (putVarint v ++ rest) = .ok (v, rest) := by
  have hread := @getVarintFrom_putVarint 4 0 0 v rfl (by decide) h rest
  rwa [Nat.mul_zero, Nat.pow_zero, Nat.mul_one, Nat.add_zero] at hread

theorem getVarint_ok (h : getVarint cur = .ok (v, rest)) :
    v < 2 ^ 32 ∧ ∃ used, cur = used ++ rest ∧ 1 ≤ used.length ∧ used.length ≤ 5 :=
  getVarintFrom_ok rfl (by decide) (by decide) h

variable {docLen : UInt32} {positions : List UInt32} {storePositions : Bool} {prev : Option UInt32}

theorem positionOf_deltaOf {p : UInt32} (h : ∀ q ∈ prev, q < p) :
    positionOf (prev.map UInt32.toNat) (deltaOf prev p).toNat = .ok p.toNat := by
  cases prev with
  | none => rfl
  | some q =>
    have hlt := h q rfl
    have hle := lt_iff_toNat_lt.mp hlt
    have hdelta : (p - q).toNat = p.toNat - q.toNat :=
      UInt32.toNat_sub_of_le _ _ (UInt32.le_of_lt hlt)
    have hsum : q.toNat + (p - q).toNat = p.toNat := by omega
    have hbound := p.toNat_lt
    show (if _ then _ else _) = _
    rw [deltaOf, if_neg (by omega), hsum, if_pos hbound]

theorem getPositions_putPositions (h : ∀ q ∈ prev, ∀ p ∈ positions, q < p)
    (hascending : positions.Pairwise (· < ·)) :
    getPositions positions.length (prev.map UInt32.toNat) (putPositions prev positions) =
      .ok (positions.map UInt32.toNat, []) := by
  induction positions generalizing prev with
  | nil => rfl
  | cons p ps ih =>
    obtain ⟨hp, hps⟩ := pairwise_cons.mp hascending
    have hrest := @ih (some p) (by rintro _ ⟨⟩; exact hp) hps
    have hposition := @positionOf_deltaOf prev p fun q hq => h q hq p mem_cons_self
    rw [length_cons, getPositions, putPositions, getVarint_putVarint (toNat_lt _), ok_bind]
    dsimp only
    rw [hposition, ok_bind]
    change (getPositions ps.length (some p.toNat) _ >>= _) = _
    rw [show some p.toNat = (some p).map UInt32.toNat from rfl, hrest, ok_bind]
    rfl

theorem putVarint_ne_nil (v : Nat) : putVarint v ≠ [] := by
  rw [putVarint]
  split_ifs
  · exact cons_ne_nil _ _
  · exact cons_ne_nil _ _

theorem decodePosting_encodePosting :
    decodePosting (encodePosting docLen positions storePositions) =
      if positions.length % 2 ^ 32 = 0 then .error .inconsistent
      else if (if storePositions then putPositions none positions else []) = [] then
        .ok { docLen := docLen.toNat, tf := positions.length % 2 ^ 32, positions := [] }
      else getPositions (positions.length % 2 ^ 32) none
          (if storePositions then putPositions none positions else []) >>= fun (ps, cur) =>
        if cur ≠ [] then .error .trailingBytes
        else .ok { docLen := docLen.toNat, tf := positions.length % 2 ^ 32, positions := ps } := by
  unfold decodePosting encodePosting
  rw [getVarint_putVarint (toNat_lt _), ok_bind]
  dsimp only
  rw [getVarint_putVarint (toNat_lt _), ok_bind, toNat_ofNat']

theorem decode_encode_iff (hne : positions ≠ []) (hascending : positions.Pairwise (· < ·)) :
    decodePosting (encodePosting docLen positions storePositions) =
        .ok { docLen := docLen.toNat, tf := positions.length,
              positions := if storePositions then positions.map UInt32.toNat else [] } ↔
      positions.length < 2 ^ 32 := by
  have hpos := length_pos_iff.mpr hne
  rw [decodePosting_encodePosting]
  constructor
  · intro h
    -- what is decoded has the count that was cast
    have htf : positions.length % 2 ^ 32 = positions.length := by
      generalize (if storePositions then putPositions none positions else []) = stored at h
      generalize (if storePositions then positions.map UInt32.toNat else []) = read at h
      split_ifs at h
      · exact congrArg Decoded.tf (Except.ok.inj h)
      · obtain ⟨⟨ps, cur⟩, -, h⟩ := bind_eq_ok.mp h
        dsimp only at h
        split_ifs at h
        exact congrArg Decoded.tf (Except.ok.inj h)
    rw [← htf]
    exact Nat.mod_lt _ (by decide)
  · intro hlen
    rw [Nat.mod_eq_of_lt hlen, if_neg (Nat.ne_of_gt hpos)]
    cases storePositions with
    | false => rfl
    | true =>
      have hput : putPositions none positions ≠ [] := by
        obtain ⟨p, ps, rfl⟩ := exists_cons_of_ne_nil hne
        exact append_ne_nil_of_left_ne_nil (putVarint_ne_nil _) _
      have hread := @getPositions_putPositions positions none nofun hascending
      simp only [if_true]
      rw [if_neg hput]
      change (getPositions positions.length none _ >>= _) = _ at *
      rw [show getPositions positions.length none _ = _ from hread, ok_bind]
      rfl

theorem decodePostingHeader_eq {bytes : Bytes} {d : Decoded} (h : decodePosting bytes = .ok d) :
    decodePostingHeader bytes = .ok (d.docLen, d.tf) := by
  obtain ⟨⟨docLen, cur⟩, hdoc, h⟩ := bind_eq_ok.mp h
  obtain ⟨⟨tf, cur'⟩, htf, h⟩ := bind_eq_ok.mp h
  unfold decodePostingHeader
  rw [hdoc, ok_bind]
  dsimp only at htf h ⊢
  rw [htf, ok_bind]
  split_ifs at h ⊢ with hzero hend
  · cases h
    rfl
  · obtain ⟨⟨ps, cur⟩, -, h⟩ := bind_eq_ok.mp h
    split_ifs at h
    cases h
    rfl

theorem getPositions_lt {n : Nat} {prev : Option Nat} {cur rest : Bytes} {ps : List Nat}
    (h : getPositions n prev cur = .ok (ps, rest)) : ∀ p ∈ ps, p < 2 ^ 32 := by
  induction n generalizing prev cur ps with
  | zero =>
    cases h
    exact forall_mem_nil _
  | succ n ih =>
    obtain ⟨⟨delta, cur'⟩, hdelta, h⟩ := bind_eq_ok.mp h
    obtain ⟨p, hp, h⟩ := bind_eq_ok.mp h
    obtain ⟨⟨ps', cur''⟩, hps, h⟩ := bind_eq_ok.mp h
    cases pure_eq_ok.mp h
    refine forall_mem_cons.mpr ⟨?_, ih hps⟩
    cases prev with
    | none =>
      cases hp
      exact (getVarint_ok hdelta).1
    | some q =>
      unfold positionOf at hp
      dsimp only at hp
      split_ifs at hp with hzero hfits
      cases hp
      exact hfits

end

/-- A posting of fewer than `2 ^ 32` positions comes back as it was written, the two decoders agree
on every byte string, and no integer of it takes more than five bytes or 32 bits. -/
theorem posting_codec_exact :
    (∀ (docLen : UInt32) (positions : List UInt32) (storePositions : Bool), positions ≠ [] →
      positions.Pairwise (· < ·) →
      (decodePosting (encodePosting docLen positions storePositions) =
          .ok { docLen := docLen.toNat, tf := positions.length,
                positions := if storePositions then positions.map UInt32.toNat else [] } ↔
        positions.length < 2 ^ 32)) ∧
    (∀ bytes d, decodePosting bytes = .ok d → decodePostingHeader bytes = .ok (d.docLen, d.tf)) ∧
    (∀ cur v rest, getVarint cur = .ok (v, rest) →
      v < 2 ^ 32 ∧ ∃ used, cur = used ++ rest ∧ 1 ≤ used.length ∧ used.length ≤ 5) ∧
    ∀ n prev cur ps rest, getPositions n prev cur = .ok (ps, rest) → ∀ p ∈ ps, p < 2 ^ 32 :=
  ⟨fun _ _ _ hne hascending => decode_encode_iff hne hascending,
    fun _ _ h => decodePostingHeader_eq h, fun _ _ _ h => getVarint_ok h,
    fun _ _ _ _ _ h => getPositions_lt h⟩

theorem posting_codec_exact_three : decodePosting (encodePosting 9 [3, 10, 300] true) =
    .ok { docLen := 9, tf := 3, positions := [3, 10, 300] } :=
  (posting_codec_exact.1 9 [3, 10, 300] true (by decide) (by decide)).mpr (by decide)

/-- Every 32-bit value is a position: the cast leaves a count of zero, which is refused. -/
theorem all_positions_refused :
    ∃ positions : List UInt32, positions ≠ [] ∧ positions.Pairwise (· < ·) ∧
      ∀ docLen storePositions, decodePosting (encodePosting docLen positions storePositions) =
        .error .inconsistent := by
  have hlen : ((List.range (2 ^ 32)).map UInt32.ofNat).length = 2 ^ 32 := by
    rw [length_map, length_range]
  refine ⟨(List.range (2 ^ 32)).map UInt32.ofNat, ?_, ?_, fun docLen storePositions => ?_⟩
  · rw [← length_pos_iff, hlen]
    decide
  · refine pairwise_map.mpr (pairwise_lt_range.imp_of_mem fun {a b} ha hb hlt => ?_)
    rw [lt_iff_toNat_lt, toNat_ofNat_of_lt' (mem_range.mp ha),
      toNat_ofNat_of_lt' (mem_range.mp hb)]
    exact hlt
  · rw [decodePosting_encodePosting, hlen, if_pos (Nat.mod_self _)]

end RhypeDb.Fulltext.PostingCodec
