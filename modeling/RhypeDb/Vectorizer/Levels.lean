import Mathlib.Analysis.SpecialFunctions.Log.Basic
import Mathlib.Data.Nat.Log
import RhypeDb.Vectorizer.Snapshots

/-! The layers of a new node of a vector index. Its level is drawn: a draw is a multiple of
`2 ^ -53` below one, given by its numerator. The logarithms, the quotient and the product are what
`f64` makes of them, each near the exact value. -/

namespace RhypeDb.Vectorizer

/-- `f64` has 53 bits; a millionth is enough here. -/
def Near (computed exact : ℝ) : Prop := |computed - exact| ≤ |exact| / 2 ^ 20

/-- Far from where `f64` loses bits or overflows. -/
def Normal (x : ℝ) : Prop := 1 / 2 ^ 100 ≤ |x| ∧ |x| ≤ 2 ^ 100

/-- The operations of `f64` that `random_level` uses: `ln` of an `m` and of a draw, the quotient
`1.0 / x`, and the product. -/
structure F64 where
  ln : ℝ → ℝ
  recip : ℝ → ℝ
  mul : ℝ → ℝ → ℝ
  ln_nat : ∀ n : ℕ, 0 < n → n < 2 ^ 64 → Near (ln n) (Real.log n)
  ln_draw : ∀ k : ℕ, 0 < k → k < 2 ^ 53 → Near (ln (k / 2 ^ 53)) (Real.log (k / 2 ^ 53))
  recip_near : ∀ x, Normal (1 / x) → Near (recip x) (1 / x)
  mul_near : ∀ x y, Normal (x * y) → Near (mul x y) (x * y)

open Classical in
/-- `(-r.ln() * ml).floor() as usize`. At a zero divisor `ml` is infinite, at a draw of zero the
logarithm is; the cast of an infinite product saturates. -/
noncomputable def randomLevel (f : F64) (m k : Nat) : Nat :=
  if f.ln m = 0 ∨ k = 0 then 2 ^ 64 - 1
  else min (2 ^ 64 - 1) ⌊f.mul (-f.ln (k / 2 ^ 53)) (f.recip (f.ln m))⌋₊

/-- `level + 1`; none is an overflow. -/
def numLayers (level : Nat) : Option Nat :=
  if level + 1 < 2 ^ 64 then some (level + 1) else none

/-- `num_layers - 1`, the number of layers above the lowest. -/
def upperLayers (numLayers : Nat) : Option Nat :=
  if 1 ≤ numLayers then some (numLayers - 1) else none

def loadable (numLayers : Nat) : Bool := numLayers != 0 && decide (numLayers ≤ 64)

/-- The level is the largest with `m ^ level * r ≤ 1` or next to it, its arithmetic does not
overflow, and a saved node of that many layers can be loaded. -/
structure LevelRepresentable (f : F64) (m k : Nat) : Prop where
  divisor : f.ln m ≠ 0
  near : m ^ (randomLevel f m k - 1) * k ≤ 2 ^ 53 ∧ 2 ^ 53 < m ^ (randomLevel f m k + 2) * k
  layers : ∃ layers, numLayers (randomLevel f m k) = some layers ∧
    upperLayers layers = some (randomLevel f m k) ∧ loadable layers = true

section

variable {f : F64} {m k : Nat}

theorem Near.bounds {a b : ℝ} (h : Near a b) (hb : 0 < b) :
    b * (1 - 1 / 2 ^ 20) ≤ a ∧ a ≤ b * (1 + 1 / 2 ^ 20) := by
  unfold Near at h
  rw [abs_of_pos hb, abs_le] at h
  constructor <;> linarith [h.1, h.2]

theorem ln_one : f.ln (1 : ℕ) = 0 := by
  have hnear := f.ln_nat 1 one_pos (by norm_num)
  unfold Near at hnear
  rw [Nat.cast_one, Real.log_one, abs_zero, zero_div, sub_zero] at hnear
  rw [Nat.cast_one]
  exact abs_nonpos_iff.mp hnear

theorem randomLevel_saturated (h : m = 1 ∨ k = 0) : numLayers (randomLevel f m k) = none := by
  have hcast : f.ln m = 0 ∨ k = 0 := by
    refine h.imp_left ?_
    rintro rfl
    exact ln_one
  rw [randomLevel, if_pos hcast]
  rfl

theorem normal_of_bounds {x : ℝ} (hlow : 1 / 2 ^ 100 ≤ x) (hhigh : x ≤ 2 ^ 100) : Normal x := by
  have hpos : 0 ≤ x := le_trans (by positivity) hlow
  rw [Normal, abs_of_nonneg hpos]
  exact ⟨hlow, hhigh⟩

variable (hm : 2 ≤ m) (hm64 : m < 2 ^ 64) (hk : 0 < k) (hdraw : k < 2 ^ 53)

include hm hm64 in
theorem log_m_bounds : 1 / 2 ≤ Real.log m ∧ Real.log m ≤ 64 := by
  have htwo : (2 : ℝ) ≤ m := by exact_mod_cast hm
  constructor
  · have hlog := Real.log_le_log two_pos htwo
    linarith [Real.one_sub_inv_le_log_of_pos (two_pos : (0 : ℝ) < 2)]
  · have hpow : (m : ℝ) ≤ 2 ^ 64 := by exact_mod_cast hm64.le
    have hlog := Real.log_le_log (by linarith) hpow
    rw [Real.log_pow] at hlog
    push_cast at hlog
    linarith [Real.log_le_sub_one_of_pos (two_pos : (0 : ℝ) < 2)]

include hk hdraw in
theorem log_draw_bounds :
    1 / 2 ^ 53 ≤ -Real.log (k / 2 ^ 53) ∧ -Real.log (k / 2 ^ 53) ≤ 53 * Real.log 2 := by
  have hone : (1 : ℝ) ≤ k := by exact_mod_cast hk
  have hlast : (k : ℝ) ≤ 2 ^ 53 - 1 := by
    have : k + 1 ≤ 2 ^ 53 := hdraw
    have : (k : ℝ) + 1 ≤ 2 ^ 53 := by exact_mod_cast this
    linarith
  constructor
  · have hlog := Real.log_le_sub_one_of_pos (x := (k : ℝ) / 2 ^ 53) (by positivity)
    have hdiv : (k : ℝ) / 2 ^ 53 ≤ 1 - 1 / 2 ^ 53 := by
      linarith
    linarith
  · rw [Real.log_div (by positivity) (by positivity), Real.log_pow]
    push_cast
    linarith [Real.log_nonneg hone]

include hm hm64 in
theorem recip_bounds : 1 - 1 / 2 ^ 19 ≤ f.recip (f.ln m) * Real.log m ∧
    f.recip (f.ln m) * Real.log m ≤ 1 + 1 / 2 ^ 18 := by
  obtain ⟨hlow, hhigh⟩ := log_m_bounds hm hm64
  have hpos : 0 < Real.log m := by linarith
  obtain ⟨hln, hln'⟩ := (f.ln_nat m (by omega) hm64).bounds hpos
  have hlnpos : 0 < f.ln m := by linarith
  have hnormal : Normal (1 / f.ln m) := by
    refine normal_of_bounds ?_ ?_
    · exact one_div_le_one_div_of_le hlnpos (by linarith)
    · rw [div_le_iff₀ hlnpos]
      linarith
  obtain ⟨hrecip, hrecip'⟩ := (f.recip_near _ hnormal).bounds (one_div_pos.mpr hlnpos)
  rw [one_div_mul_eq_div, div_le_iff₀ hlnpos] at hrecip
  rw [one_div_mul_eq_div, le_div_iff₀ hlnpos] at hrecip'
  have hrecippos : 0 < f.recip (f.ln m) := by
    by_contra hneg
    nlinarith
  have hlower := mul_le_mul_of_nonneg_left hln hrecippos.le
  have hupper := mul_le_mul_of_nonneg_left hln' hrecippos.le
  constructor <;> linarith

include hm hm64 hk hdraw in
/-- The product before it is rounded down, times `m.ln()`. -/
theorem product_bounds {product : ℝ} (h : f.mul (-f.ln (k / 2 ^ 53)) (f.recip (f.ln m)) = product) :
    -Real.log (k / 2 ^ 53) * (1 - 1 / 2 ^ 17) ≤ product * Real.log m ∧
      product * Real.log m ≤ -Real.log (k / 2 ^ 53) * (1 + 1 / 2 ^ 17) := by
  obtain ⟨hlow, hhigh⟩ := log_m_bounds hm hm64
  obtain ⟨hdlow, hdhigh⟩ := log_draw_bounds hk hdraw
  obtain ⟨hrecip, hrecip'⟩ := recip_bounds (f := f) hm hm64
  have hlogtwo := Real.log_le_sub_one_of_pos (two_pos : (0 : ℝ) < 2)
  have hdraw' := f.ln_draw k hk hdraw
  have hneg : Near (-f.ln (k / 2 ^ 53)) (-Real.log (k / 2 ^ 53)) := by
    unfold Near at hdraw' ⊢
    rw [abs_neg, neg_sub_neg, abs_sub_comm]
    exact hdraw'
  generalize -f.ln (k / 2 ^ 53) = draw at h hneg
  generalize -Real.log (k / 2 ^ 53) = lnr at *
  generalize f.recip (f.ln m) = ml at *
  generalize Real.log m = lnm at *
  obtain ⟨hd, hd'⟩ := hneg.bounds (lt_of_lt_of_le (by norm_num) hdlow)
  have hml : 1 / 128 ≤ ml := by
    by_contra hsmall
    nlinarith
  have hml' : ml ≤ 4 := by
    by_contra hlarge
    nlinarith
  have hdpos : 1 / 2 ^ 54 ≤ draw := by linarith
  have hprodlow : 1 / 2 ^ 54 * (1 / 128) ≤ draw * ml :=
    mul_le_mul hdpos hml (by norm_num) (le_trans (by norm_num) hdpos)
  have hprodhigh : draw * ml ≤ 128 * 4 :=
    mul_le_mul (by linarith) hml' (by linarith) (by norm_num)
  have hnormal : Normal (draw * ml) :=
    normal_of_bounds (le_trans (by norm_num) hprodlow) (le_trans hprodhigh (by norm_num))
  obtain ⟨hp, hp'⟩ := (f.mul_near draw ml hnormal).bounds (lt_of_lt_of_le (by norm_num) hprodlow)
  rw [h] at hp hp'
  have hnonneg : 0 ≤ lnm := by linarith
  have hstep := mul_le_mul_of_nonneg_right hp hnonneg
  have hstep' := mul_le_mul_of_nonneg_right hp' hnonneg
  have hdrawpos : 0 ≤ draw := le_trans (by norm_num) hdpos
  have hlo := mul_le_mul_of_nonneg_left hrecip hdrawpos
  have hhi := mul_le_mul_of_nonneg_left hrecip' hdrawpos
  constructor
  · calc lnr * (1 - 1 / 2 ^ 17) ≤ draw * (1 - 1 / 2 ^ 19) * (1 - 1 / 2 ^ 20) := by linarith
      _ ≤ draw * (ml * lnm) * (1 - 1 / 2 ^ 20) :=
        mul_le_mul_of_nonneg_right hlo (by norm_num)
      _ ≤ product * lnm := by linarith
  · calc product * lnm ≤ draw * (ml * lnm) * (1 + 1 / 2 ^ 20) := by linarith
      _ ≤ draw * (1 + 1 / 2 ^ 18) * (1 + 1 / 2 ^ 20) :=
        mul_le_mul_of_nonneg_right hhi (by norm_num)
      _ ≤ lnr * (1 + 1 / 2 ^ 17) := by linarith

include hm hm64 hk hdraw

theorem randomLevel_near : m ^ (randomLevel f m k - 1) * k ≤ 2 ^ 53 ∧
    2 ^ 53 < m ^ (randomLevel f m k + 2) * k ∧ randomLevel f m k ≤ 54 := by
  obtain ⟨hdlow, hdhigh⟩ := log_draw_bounds hk hdraw
  have htwo := Real.log_le_log two_pos (by exact_mod_cast hm : (2 : ℝ) ≤ m)
  obtain ⟨product, hproduct⟩ : ∃ product, f.mul (-f.ln (k / 2 ^ 53)) (f.recip (f.ln m)) = product :=
    ⟨_, rfl⟩
  obtain ⟨hp, hp'⟩ := product_bounds hm hm64 hk hdraw hproduct
  have hln : f.ln m ≠ 0 := by
    have hnear := (f.ln_nat m (by omega) hm64).bounds (by linarith)
    exact (lt_of_lt_of_le (by linarith) hnear.1).ne'
  -- the exact level, between its logarithms
  have hquot : 2 ^ 53 / k ≠ 0 := (Nat.div_pos hdraw.le hk).ne'
  obtain ⟨level, hlevel⟩ : ∃ level, Nat.log m (2 ^ 53 / k) = level := ⟨_, rfl⟩
  have hle : m ^ level * k ≤ 2 ^ 53 :=
    (Nat.le_div_iff_mul_le hk).mp (Nat.pow_le_of_le_log hquot hlevel.ge)
  have hlt : 2 ^ 53 < m ^ (level + 1) * k :=
    (Nat.div_lt_iff_lt_mul hk).mp (Nat.lt_pow_of_log_lt (by omega) (by omega))
  have hlog : ∀ n : ℕ, Real.log (m ^ n * (k / 2 ^ 53)) =
      n * Real.log m + Real.log (k / 2 ^ 53) := by
    intro n
    rw [Real.log_mul (by positivity) (by positivity), Real.log_pow]
  have hle' : (level : ℝ) * Real.log m ≤ -Real.log (k / 2 ^ 53) := by
    have hcast : ((m : ℝ) ^ level * (k / 2 ^ 53)) ≤ 1 := by
      rw [← mul_div_assoc, div_le_one (by positivity)]
      exact_mod_cast hle
    have := Real.log_nonpos (by positivity) hcast
    rw [hlog] at this
    linarith
  have hlt' : -Real.log (k / 2 ^ 53) < (level + 1) * Real.log m := by
    have hcast : 1 < ((m : ℝ) ^ (level + 1) * (k / 2 ^ 53)) := by
      rw [← mul_div_assoc, one_lt_div (by positivity)]
      exact_mod_cast hlt
    have := Real.log_pos hcast
    rw [hlog] at this
    push_cast at this
    linarith
  have habove : product < level + 2 := by
    by_contra hge
    nlinarith
  have hbelow : (level : ℝ) - 1 < product := by
    by_contra hge
    nlinarith
  have hbound : level ≤ 53 := by
    have : (level : ℝ) < 54 := by
      by_contra hge
      nlinarith
    have : level < 54 := by exact_mod_cast this
    omega
  have hfloor : ⌊product⌋₊ ≤ level + 1 := by
    refine Nat.lt_succ_iff.mp (Nat.floor_lt' (by omega) |>.mpr ?_)
    push_cast
    linarith
  have hfloor' : level ≤ ⌊product⌋₊ + 1 := by
    have := Nat.lt_floor_add_one product
    have : (level : ℝ) < ⌊product⌋₊ + 2 := by linarith
    have : level < ⌊product⌋₊ + 2 := by exact_mod_cast this
    omega
  have hrandom : randomLevel f m k = ⌊product⌋₊ := by
    rw [randomLevel, if_neg (not_or.mpr ⟨hln, hk.ne'⟩), hproduct, min_eq_right]
    omega
  refine ⟨le_trans ?_ hle, lt_of_lt_of_le hlt ?_, by omega⟩
  · exact Nat.mul_le_mul_right _ (Nat.pow_le_pow_right (by omega) (by omega))
  · exact Nat.mul_le_mul_right _ (Nat.pow_le_pow_right (by omega) (by omega))

end

/-- Of a field that a validated schema has, each draw's level is representable but where the
field's `m` is one, or the draw is zero. -/
theorem levelRepresentable_iff (f : F64) (field : VectorField)
    (hm64 : (resolveIndexConfig field).1.m < 2 ^ 64) {k : Nat} (hdraw : k < 2 ^ 53) :
    LevelRepresentable f (resolveIndexConfig field).1.m k ↔
      (resolveIndexConfig field).1.m ≠ 1 ∧ k ≠ 0 := by
  have hpos : (resolveIndexConfig field).1.m ≠ 0 := by
    show (field.index.bind IndexDef.m).getD legacyHnswM ≠ 0
    cases hindex : field.index.bind IndexDef.m with
    | none => decide
    | some m =>
      obtain ⟨i, hi, him⟩ := Option.bind_eq_some_iff.mp hindex
      rintro rfl
      exact field.m_ne i hi him
  generalize (resolveIndexConfig field).1.m = m at hpos hm64
  constructor
  · intro h
    obtain ⟨layers, hlayers, -⟩ := h.layers
    rw [← not_or]
    intro hsaturated
    rw [randomLevel_saturated hsaturated] at hlayers
    cases hlayers
  · rintro ⟨hone, hzero⟩
    have hm : 2 ≤ m := by omega
    have hk : 0 < k := Nat.pos_of_ne_zero hzero
    have hln := (f.ln_nat m (by omega) hm64).bounds
      (lt_of_lt_of_le (by norm_num) (log_m_bounds hm hm64).1)
    obtain ⟨hbelow, habove, hle⟩ := randomLevel_near (f := f) hm hm64 hk hdraw
    refine ⟨?_, ⟨hbelow, habove⟩, randomLevel f m k + 1, ?_, ?_, ?_⟩
    · refine (lt_of_lt_of_le ?_ hln.1).ne'
      linarith [(log_m_bounds hm hm64).1]
    · exact if_pos (by omega)
    · exact if_pos (by omega)
    · rw [loadable, decide_eq_true (by omega), Bool.and_true]
      exact bne_iff_ne.mpr (Nat.succ_ne_zero _)

/-- An `@index(hnsw, m: 1)`, which the validation lets pass. -/
def fieldOfOne : VectorField where
  key := ⟨"Note", "embedding"⟩
  dimensions := 4
  index := some ⟨none, none, some 1, none⟩
  m_ne := by decide

theorem near_self (x : ℝ) : Near x x := by
  rw [Near, sub_self, abs_zero]
  positivity

/-- No rounding at all. -/
noncomputable def exactF64 : F64 where
  ln := Real.log
  recip x := 1 / x
  mul x y := x * y
  ln_nat _ _ _ := near_self _
  ln_draw _ _ _ := near_self _
  recip_near _ _ := near_self _
  mul_near _ _ _ := near_self _

theorem levelRepresentable_default : LevelRepresentable exactF64 16 (2 ^ 52) :=
  (levelRepresentable_iff exactF64 { fieldOfOne with index := none, m_ne := by decide }
    (by decide) (k := 2 ^ 52) (by decide)).mpr ⟨by decide, by decide⟩

theorem fieldOfOne_not_representable :
    ¬ LevelRepresentable exactF64 (resolveIndexConfig fieldOfOne).1.m (2 ^ 52) := by
  intro h
  obtain ⟨layers, hlayers, -⟩ := h.layers
  have hnone : numLayers (randomLevel exactF64 (resolveIndexConfig fieldOfOne).1.m (2 ^ 52)) =
    none := randomLevel_saturated (.inl rfl)
  rw [hnone] at hlayers
  cases hlayers

end RhypeDb.Vectorizer
