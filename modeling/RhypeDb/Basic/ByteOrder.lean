import Mathlib.Data.Fintype.Pi
import Mathlib.Tactic.Linarith
import Mathlib.Tactic.Positivity
import Mathlib.Tactic.Ring

/-! Lexicographic order of byte strings: how it behaves under appending, and the
big-endian encoding of a bounded number, which preserves the order. -/

namespace RhypeDb

open List Nat

abbrev Byte := Fin 256

instance neZero_256 : NeZero 256 := ⟨by decide⟩

abbrev Bytes := List Byte

/-- The addition and the multiplication of `u64`s that saturate. -/
def saturatingAdd (a b : Nat) : Nat := min (a + b) (2 ^ 64 - 1)

def saturatingMul (a b : Nat) : Nat := min (a * b) (2 ^ 64 - 1)

namespace ByteOrder

section

variable {α : Type*} [LinearOrder α] {b : List α} {a x y : List α}

theorem append_lt_append_iff : a ++ x < a ++ y ↔ x < y := by
  induction a with
  | nil => rfl
  | cons c a ih => simp [ih]

theorem append_le_append_iff : a ++ x ≤ a ++ y ↔ x ≤ y := by
  rw [← not_lt, ← not_lt, append_lt_append_iff]

theorem append_lt_append (h : a < b) (hp : ¬ a <+: b) (x y : List α) : a ++ x < b ++ y := by
  induction a generalizing b with
  | nil => exact absurd nil_prefix hp
  | cons c a ih =>
    cases b with
    | nil => exact absurd h (by simp)
    | cons d b =>
      rw [cons_append, cons_append, cons_lt_cons_iff]
      rcases List.cons_lt_cons_iff.mp h with hcd | ⟨rfl, hab⟩
      · exact .inl hcd
      · exact .inr ⟨rfl, ih hab fun hab' => hp (List.cons_prefix_cons.mpr ⟨rfl, hab'⟩)⟩

theorem nil_le (x : List α) : [] ≤ x := not_lt.mp (not_lt_nil x)

theorem le_append (a y : List α) : a ≤ a ++ y := by
  have h : a ++ [] ≤ a ++ y := append_le_append_iff.mpr (nil_le y)
  rwa [append_nil] at h

theorem le_of_isPrefix (h : a <+: b) : a ≤ b := by
  obtain ⟨y, rfl⟩ := h
  exact le_append a y

theorem replicate_le {c : α} (hc : ∀ d, c ≤ d) {n : Nat} (hn : n ≤ x.length) :
    List.replicate n c ≤ x := by
  induction n generalizing x with
  | zero => exact nil_le x
  | succ n ih =>
    cases x with
    | nil => simp at hn
    | cons d x =>
      rw [replicate_succ, ← not_lt, cons_lt_cons_iff, not_or, not_and]
      exact ⟨not_lt.mpr (hc d), fun _ => not_lt.mpr (ih (by simpa using hn))⟩

end

/-- Big-endian digits of `n` in `w` bytes. -/
def be : Nat → Nat → Bytes
  | 0, _ => []
  | w + 1, n => Fin.ofNat 256 (n / 256 ^ w) :: be w n

@[simp] theorem be_length (w n : Nat) : (be w n).length = w := by
  induction w with
  | zero => rfl
  | succ w ih => rw [be, length_cons, ih]

theorem be_zero (w : Nat) : be w 0 = List.replicate w 0 := by
  induction w with
  | zero => rfl
  | succ w ih => rw [be, ih, Nat.zero_div, replicate_succ]; rfl

theorem be_mod (w n : Nat) : be w (n % 256 ^ w) = be w n := by
  induction w generalizing n with
  | zero => rfl
  | succ w ih =>
    rw [be, be, ← ih, ← ih n, mod_mod_of_dvd _ (pow_dvd_pow 256 w.le_succ)]
    congr 1
    apply Fin.ext
    simp only [Fin.ofNat]
    rw [pow_succ, mod_mul_right_div_self, mod_mod]

variable {w n m : Nat}

theorem be_lt_be (h : n < m) (hm : m < 256 ^ w) : be w n < be w m := by
  induction w generalizing n m with
  | zero => simp at hm; omega
  | succ w ih =>
    have hpos : 0 < 256 ^ w := by positivity
    have hdm : m / 256 ^ w < 256 := Nat.div_lt_of_lt_mul (by rwa [pow_succ] at hm)
    have hdn : n / 256 ^ w ≤ m / 256 ^ w := Nat.div_le_div_right h.le
    rw [be, be, cons_lt_cons_iff, Fin.lt_def, Fin.ext_iff]
    simp only [Fin.ofNat, mod_eq_of_lt hdm, mod_eq_of_lt (hdn.trans_lt hdm)]
    rcases hdn.lt_or_eq with hlt | heq
    · exact .inl hlt
    · refine .inr ⟨heq, ?_⟩
      rw [← be_mod w n, ← be_mod w m]
      refine ih ?_ (mod_lt _ hpos)
      have hn := div_add_mod n (256 ^ w)
      have hm := div_add_mod m (256 ^ w)
      rw [heq] at hn
      omega

theorem be_lt_be_iff (hn : n < 256 ^ w) (hm : m < 256 ^ w) : be w n < be w m ↔ n < m := by
  refine ⟨fun h => ?_, fun h => be_lt_be h hm⟩
  by_contra hle
  rcases (Nat.le_of_not_lt hle).lt_or_eq with hlt | rfl
  · exact lt_asymm h (be_lt_be hlt hn)
  · exact lt_irrefl _ h

theorem be_inj (hn : n < 256 ^ w) (hm : m < 256 ^ w) (h : be w n = be w m) : n = m := by
  rcases lt_trichotomy n m with hlt | heq | hgt
  · exact absurd h (be_lt_be hlt hm).ne
  · exact heq
  · exact absurd h (be_lt_be hgt hn).ne'

def ofBe (bytes : Bytes) : Nat := bytes.foldl (fun n b => n * 256 + b.val) 0

theorem foldl_ofBe (bytes : Bytes) (n : Nat) :
    bytes.foldl (fun n b => n * 256 + b.val) n = n * 256 ^ bytes.length + ofBe bytes := by
  induction bytes generalizing n with
  | nil => simp [ofBe]
  | cons b bytes ih =>
    rw [ofBe, foldl_cons, foldl_cons, ih, ih (0 * 256 + b.val), length_cons, pow_succ]
    ring

theorem ofBe_cons (b : Byte) (bytes : Bytes) :
    ofBe (b :: bytes) = b.val * 256 ^ bytes.length + ofBe bytes := by
  rw [ofBe, foldl_cons, foldl_ofBe, zero_mul, zero_add]

theorem ofBe_lt (bytes : Bytes) : ofBe bytes < 256 ^ bytes.length := by
  induction bytes with
  | nil => simp [ofBe]
  | cons b bytes ih =>
    have hb : (b.val + 1) * 256 ^ bytes.length ≤ 256 * 256 ^ bytes.length :=
      mul_le_mul_right _ b.isLt
    rw [ofBe_cons, length_cons, pow_succ']
    linarith

theorem ofBe_be (w n : Nat) : ofBe (be w n) = n % 256 ^ w := by
  induction w generalizing n with
  | zero => simp [be, ofBe, mod_one]
  | succ w ih =>
    rw [be, ofBe_cons, ih, be_length, pow_succ, mod_mul]
    simp only [Fin.ofNat]
    ring

theorem ofBe_be_of_lt (h : n < 256 ^ w) : ofBe (be w n) = n := by
  rw [ofBe_be, mod_eq_of_lt h]

theorem be_ofBe (bytes : Bytes) : be bytes.length (ofBe bytes) = bytes := by
  induction bytes with
  | nil => rfl
  | cons b bytes ih =>
    have hlt := ofBe_lt bytes
    have hpos : 0 < 256 ^ bytes.length := by positivity
    rw [length_cons, be, ofBe_cons, ← be_mod, mul_comm, mul_add_mod,
      mul_add_div hpos, div_eq_of_lt hlt, mod_eq_of_lt hlt, ih]
    congr 1
    apply Fin.ext
    exact mod_eq_of_lt b.isLt

end ByteOrder
end RhypeDb
