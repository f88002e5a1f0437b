import Mathlib.Data.Nat.Bitwise
import RhypeDb.Basic.ByteOrder

/-! Bits of a byte string, the high bit of each byte first: single bits read and set, and the
numbers of a fixed width that are read off them. -/

namespace RhypeDb.BitString

open List Nat

def bitAt (data : Bytes) (pos : Nat) : Option Bool :=
  data[pos / 8]?.map fun b => b.val.testBit (7 - pos % 8)

def setBit (data : Bytes) (pos : Nat) : Bytes :=
  data.modify (pos / 8) fun b => ⟨b.val ||| 1 <<< (7 - pos % 8), by
    have hpow : 1 <<< (7 - pos % 8) < 2 ^ 8 := by
      rw [Nat.one_shiftLeft]
      exact Nat.pow_lt_pow_right (by decide) (by omega)
    exact Nat.or_lt_two_pow b.isLt hpow⟩

@[simp] theorem length_setBit (data : Bytes) (pos : Nat) : (setBit data pos).length = data.length :=
  length_modify _ _ _

theorem bitAt_setBit {data : Bytes} {pos q : Nat} (hpos : pos / 8 < data.length) :
    bitAt (setBit data pos) q = if q = pos then some true else bitAt data q := by
  rw [bitAt, setBit, getElem?_modify]
  by_cases hbyte : pos / 8 = q / 8
  · obtain ⟨b, hsome⟩ : ∃ b, data[q / 8]? = some b :=
      ⟨_, getElem?_eq_getElem (hbyte ▸ hpos)⟩
    have hbit : q = pos ↔ 7 - pos % 8 = 7 - q % 8 := by omega
    rw [bitAt, hsome]
    by_cases hq : q = pos
    · subst hq
      simp [one_shiftLeft]
    · have hne : 7 - pos % 8 ≠ 7 - q % 8 := fun h => hq (hbit.mpr h)
      simp [hbyte, hq, one_shiftLeft, testBit_two_pow_of_ne hne]
  · have hq : q ≠ pos := fun h => hbyte (by rw [h])
    rw [if_neg hq, bitAt]
    simp [hbyte]

def msbBits : Nat → Nat → List Bool
  | 0, _ => []
  | k + 1, x => x.testBit k :: msbBits k x

@[simp] theorem length_msbBits (k x : Nat) : (msbBits k x).length = k := by
  induction k with
  | zero => rfl
  | succ k ih => rw [msbBits, length_cons, ih]

theorem msbBits_append {a b x y : Nat} (hy : y < 2 ^ b) :
    msbBits a x ++ msbBits b y = msbBits (a + b) (2 ^ b * x + y) := by
  have hbit : ∀ j, (2 ^ b * x + y).testBit j =
      if j < b then y.testBit j else x.testBit (j - b) :=
    testBit_two_pow_mul_add x hy
  induction a with
  | zero =>
    have hlow : ∀ k ≤ b, msbBits k y = msbBits k (2 ^ b * x + y) := by
      intro k hk
      induction k with
      | zero => rfl
      | succ k ih => rw [msbBits, msbBits, ih (le_of_succ_le hk), hbit,
        if_pos (lt_of_succ_le hk)]
    rw [zero_add, msbBits, nil_append, hlow b le_rfl]
  | succ a ih =>
    rw [msbBits, cons_append, ih, add_right_comm, msbBits, hbit, if_neg (by omega),
      Nat.add_sub_cancel]

def spelled (w : Nat) (xs : List Nat) : Nat :=
  xs.foldl (fun v x => 2 ^ w * v + x) 0

theorem flatMap_msbBits {w : Nat} {xs : List Nat} (hlt : ∀ x ∈ xs, x < 2 ^ w) :
    xs.flatMap (msbBits w) = msbBits (xs.length * w) (spelled w xs) := by
  induction xs using List.reverseRecOn with
  | nil => rw [flatMap_nil, length_nil, zero_mul, msbBits]
  | append_singleton xs x ih =>
    have hx : x < 2 ^ w := hlt x (mem_append_right _ mem_cons_self)
    rw [flatMap_append, ih fun y hy => hlt y (mem_append_left _ hy),
      flatMap_singleton, msbBits_append hx, spelled, spelled, foldl_concat,
      length_append, length_singleton, succ_mul]

theorem flatMap_msbBits_eq {v w : Nat} {xs ys : List Nat} (hx : ∀ x ∈ xs, x < 2 ^ v)
    (hy : ∀ y ∈ ys, y < 2 ^ w) (hlen : xs.length * v = ys.length * w)
    (hspelled : spelled v xs = spelled w ys) : xs.flatMap (msbBits v) = ys.flatMap (msbBits w) := by
  rw [flatMap_msbBits hx, flatMap_msbBits hy, hlen, hspelled]

variable {data : Bytes} {pos k x : Nat} {bs cs : List Bool}

theorem bitAt_drop (m : Nat) : bitAt (data.drop m) pos = bitAt data (8 * m + pos) := by
  rw [bitAt, bitAt, getElem?_drop, show (8 * m + pos) / 8 = m + pos / 8 by omega,
    show (8 * m + pos) % 8 = pos % 8 by omega]

def Holds (data : Bytes) : Nat → List Bool → Prop
  | _, [] => True
  | pos, b :: bs => bitAt data pos = some b ∧ Holds data (pos + 1) bs

theorem holds_append :
    Holds data pos (bs ++ cs) ↔ Holds data pos bs ∧ Holds data (pos + bs.length) cs := by
  induction bs generalizing pos with
  | nil => simp [Holds]
  | cons b bs ih =>
    rw [cons_append, Holds, ih, Holds, length_cons, and_assoc]
    rw [show pos + (bs.length + 1) = pos + 1 + bs.length by omega]

theorem Holds.drop {m : Nat} (h : Holds data (8 * m + pos) bs) : Holds (data.drop m) pos bs := by
  induction bs generalizing pos with
  | nil => trivial
  | cons b bs ih => exact ⟨(bitAt_drop m).trans h.1, ih h.2⟩

theorem holds_of_forall (h : ∀ j, j < bs.length → bitAt data (pos + j) = bs[j]?) :
    Holds data pos bs := by
  induction bs generalizing pos with
  | nil => trivial
  | cons b bs ih =>
    refine ⟨h 0 (succ_pos _), ih fun j hj => ?_⟩
    have hnext := h (j + 1) (succ_lt_succ hj)
    rwa [getElem?_cons_succ, show pos + (j + 1) = pos + 1 + j by omega] at hnext

structure Written (size : Nat) (data : Bytes) (bs : List Bool) : Prop where
  length : data.length = size
  bits : ∀ q, q / 8 < size → bitAt data q = some (bs.getD q false)

theorem written_replicate (size : Nat) : Written size (List.replicate size 0) [] where
  length := length_replicate
  bits := by
    intro q hq
    simp [bitAt, hq]

theorem Written.concat {size : Nat} (h : Written size data bs) (hroom : bs.length / 8 < size)
    (b : Bool) :
    Written size (if b then setBit data bs.length else data) (bs ++ [b]) where
  length := by
    cases b with
    | true => exact (length_setBit _ _).trans h.length
    | false => exact h.length
  bits := by
    intro q hq
    have hget : (bs ++ [b]).getD q false = if q = bs.length then b else bs.getD q false := by
      simp only [getD_eq_getElem?_getD]
      rcases lt_trichotomy q bs.length with hlt | rfl | hgt
      · rw [getElem?_append_left hlt, if_neg (by omega)]
      · rw [getElem?_concat_length, if_pos rfl]
        rfl
      · have hlen : (bs ++ [b]).length ≤ q := by
          rw [length_append, length_singleton]
          omega
        rw [getElem?_eq_none hlen, getElem?_eq_none (by omega), if_neg (by omega)]
    rw [hget]
    cases b with
    | true =>
      rw [if_pos rfl, bitAt_setBit (by rw [h.length]; exact hroom), h.bits q hq]
      split_ifs <;> rfl
    | false =>
      rw [if_neg Bool.false_ne_true, h.bits q hq]
      by_cases hend : q = bs.length
      · simp [hend]
      · rw [if_neg hend]

theorem Written.holds {size : Nat} (h : Written size data bs) (hfits : bs.length ≤ 8 * size) :
    Holds data 0 bs := by
  apply holds_of_forall
  intro j hj
  rw [zero_add, h.bits j (by omega), getD_eq_getElem?_getD, getElem?_eq_getElem hj]
  rfl

def readBits (data : Bytes) : Nat → Nat → Nat → Option (Nat × Nat)
  | 0, val, pos => some (val, pos)
  | k + 1, val, pos => (bitAt data pos).bind fun bit =>
    readBits data k (if bit then val <<< 1 ||| 1 else val <<< 1) (pos + 1)

theorem readBits_of_holds {val : Nat} (h : Holds data pos (msbBits k x)) :
    readBits data k val pos = some (val * 2 ^ k + x % 2 ^ k, pos + k) := by
  induction k generalizing val pos with
  | zero => simp [readBits, mod_one]
  | succ k ih =>
    obtain ⟨hbit, hrest⟩ := h
    have hshift : (if x.testBit k then val <<< 1 ||| 1 else val <<< 1) =
        2 * val + (x.testBit k).toNat := by
      cases x.testBit k with
      | true =>
        rw [if_pos rfl, ← shiftLeft_add_eq_or_of_lt (by decide), shiftLeft_eq]
        show val * 2 ^ 1 + 1 = 2 * val + 1
        omega
      | false =>
        rw [if_neg Bool.false_ne_true, shiftLeft_eq]
        show val * 2 ^ 1 = 2 * val + 0
        omega
    rw [readBits, hbit, Option.bind_some, hshift, ih hrest]
    refine congrArg some (Prod.ext ?_ ?_)
    · show (2 * val + (x.testBit k).toNat) * 2 ^ k + x % 2 ^ k = val * 2 ^ (k + 1) + x % 2 ^ (k + 1)
      rw [mod_pow_succ, toNat_testBit]
      ring
    · show pos + 1 + k = pos + (k + 1)
      omega

theorem getElem?_of_holds {i v : Nat} (hv : v < 256) (h : Holds data (8 * i) (msbBits 8 v)) :
    ∃ b, data[i]? = some b ∧ b.val = v := by
  have hbits : ∀ j < 8, bitAt data (8 * i + j) = some (v.testBit (7 - j)) := by
    intro j hj
    obtain ⟨h0, h1, h2, h3, h4, h5, h6, h7, -⟩ := h
    match j, hj with
    | 0, _ => exact h0
    | 1, _ => exact h1
    | 2, _ => exact h2
    | 3, _ => exact h3
    | 4, _ => exact h4
    | 5, _ => exact h5
    | 6, _ => exact h6
    | 7, _ => exact h7
  have hfirst := hbits 0 (by decide)
  rw [bitAt, show (8 * i + 0) / 8 = i by omega] at hfirst
  obtain ⟨b, hb, -⟩ := Option.map_eq_some_iff.mp hfirst
  refine ⟨b, hb, eq_of_testBit_eq fun j => ?_⟩
  by_cases hj : j < 8
  · have hbit := hbits (7 - j) (by omega)
    rw [bitAt, show (8 * i + (7 - j)) / 8 = i by omega, hb,
      show 7 - (8 * i + (7 - j)) % 8 = j by omega, show 7 - (7 - j) = j by omega] at hbit
    exact Option.some.inj hbit
  · have hpow : 256 ≤ 2 ^ j := Nat.pow_le_pow_right (n := 2) (by decide) (Nat.le_of_not_lt hj)
    rw [testBit_lt_two_pow (b.isLt.trans_le hpow), testBit_lt_two_pow (hv.trans_le hpow)]

end RhypeDb.BitString
