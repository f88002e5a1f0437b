import RhypeDb.Basic.ByteOrder

/-! The Bloom filter of `bloom.rs` over user keys. The 64-bit xxh3 hash of the
`xxhash_rust` crate is a parameter: no result here depends on what it computes. -/

namespace RhypeDb.Storage

open List

inductive HashAlgo
  | fnv1a
  | xxh3
  deriving DecidableEq, Repr

/-- `xxh3_64_with_seed`. -/
abbrev Xxh3 := Bytes → UInt64 → UInt64

structure BloomFilter where
  bits : List Bool
  numBits : UInt32
  k : Nat
  mask : Option UInt32
  algo : HashAlgo

namespace BloomFilter

def defaultBitsPerEntry : Nat := 10

def defaultK : Nat := 7

def withParamsAndAlgo (expectedEntries bitsPerEntry k : Nat) (algo : HashAlgo) : BloomFilter :=
  let rawBits := max (max expectedEntries 1 * bitsPerEntry) 1
  let numBits := rawBits.nextPowerOfTwo
  { bits := List.replicate ((numBits + 7) / 8 * 8) false
    numBits := UInt32.ofNat numBits
    k := k
    mask := some (UInt32.ofNat (numBits - 1))
    algo := algo }

def new (expectedEntries : Nat) : BloomFilter :=
  withParamsAndAlgo expectedEntries defaultBitsPerEntry defaultK .xxh3

def fnv1a64 (data : Bytes) (seed : UInt64) : UInt64 :=
  data.foldl (fun hash b => (hash ^^^ UInt64.ofNat b) * 0x100000001b3) seed

def doubleHash (xxh3 : Xxh3) (algo : HashAlgo) (key : Bytes) : UInt64 × UInt64 :=
  let hash := match algo with
    | .fnv1a => fnv1a64
    | .xxh3 => xxh3
  (hash key 0xcbf29ce484222325, hash key 0x9e3779b97f4a7c15 ||| 1)

def combinedHash (h₁ h₂ : UInt64) (i : Nat) : UInt64 := h₁ + UInt64.ofNat i * h₂

def positions (xxh3 : Xxh3) (f : BloomFilter) (key : Bytes) : List Nat :=
  let (h₁, h₂) := doubleHash xxh3 f.algo key
  (List.range f.k).map fun i =>
    match f.mask with
    | some mask => ((combinedHash h₁ h₂ i).toUInt32 &&& mask).toNat
    | none => (combinedHash h₁ h₂ i % f.numBits.toUInt64).toNat

def setBit (f : BloomFilter) (bit : Nat) : BloomFilter := { f with bits := f.bits.set bit true }

def getBit (f : BloomFilter) (bit : Nat) : Bool := f.bits.getD bit false

def add (xxh3 : Xxh3) (f : BloomFilter) (key : Bytes) : BloomFilter :=
  (f.positions xxh3 key).foldl setBit f

def contains (xxh3 : Xxh3) (f : BloomFilter) (key : Bytes) : Bool :=
  f.numBits == 0 || (f.positions xxh3 key).all f.getBit

/-- `read_from` of what `write_to` wrote: the bit count is stored in 32 bits, and the
bitmask is used only for a power of two. -/
def reopen (f : BloomFilter) : BloomFilter :=
  let n := f.numBits.toNat
  { f with
    bits := f.bits.take ((n + 7) / 8 * 8)
    mask := if 0 < n ∧ 2 ^ n.log2 = n then some (f.numBits - 1) else none }

def InRange (xxh3 : Xxh3) (f : BloomFilter) : Prop :=
  ∀ key, ∀ p ∈ f.positions xxh3 key, p < f.bits.length

variable {xxh3 : Xxh3}

variable {f : BloomFilter} {keys : List Bytes} {key : Bytes}

theorem getBit_setBit {b p : Nat} :
    (f.setBit b).getBit p = (decide (b = p ∧ p < f.bits.length) || f.getBit p) := by
  unfold setBit getBit
  by_cases hbp : b = p
  · subst hbp
    by_cases hb : b < f.bits.length
    · simp [hb]
    · simp [hb]
  · simp [hbp]

theorem foldl_setBit (f : BloomFilter) (ps : List Nat) :
    (ps.foldl setBit f).bits.length = f.bits.length ∧ (ps.foldl setBit f).k = f.k ∧
      (ps.foldl setBit f).mask = f.mask ∧ (ps.foldl setBit f).numBits = f.numBits ∧
      (ps.foldl setBit f).algo = f.algo ∧
      ∀ p, (ps.foldl setBit f).getBit p = true ↔
        (p ∈ ps ∧ p < f.bits.length) ∨ f.getBit p = true := by
  induction ps generalizing f with
  | nil => simp
  | cons b ps ih =>
    obtain ⟨hlen, hk, hmask, hnum, halgo, hget⟩ := ih (f.setBit b)
    rw [foldl_cons]
    have hlen' : (f.setBit b).bits.length = f.bits.length := length_set
    refine ⟨hlen.trans hlen', hk, hmask, hnum, halgo, fun p => ?_⟩
    rw [hget p, hlen', getBit_setBit, mem_cons]
    simp only [Bool.or_eq_true, decide_eq_true_eq]
    constructor
    · rintro (⟨hp, hl⟩ | ⟨rfl, hl⟩ | hp)
      · exact .inl ⟨.inr hp, hl⟩
      · exact .inl ⟨.inl rfl, hl⟩
      · exact .inr hp
    · rintro (⟨rfl | hp, hl⟩ | hp)
      · exact .inr (.inl ⟨rfl, hl⟩)
      · exact .inl ⟨hp, hl⟩
      · exact .inr (.inr hp)

theorem positions_add (f : BloomFilter) (key key' : Bytes) :
    (f.add xxh3 key).positions xxh3 key' = f.positions xxh3 key' := by
  obtain ⟨-, hk, hmask, hnum, halgo, -⟩ := foldl_setBit f (f.positions xxh3 key)
  simp only [positions, add] at *
  simp only [hk, hmask, hnum, halgo]

theorem inRange_add (hf : f.InRange xxh3) (key : Bytes) : (f.add xxh3 key).InRange xxh3 := by
  intro key' p hp
  rw [positions_add] at hp
  exact (foldl_setBit f _).1 ▸ hf key' p hp

structure Sized (f : BloomFilter) : Prop where
  length : f.bits.length = (f.numBits.toNat + 7) / 8 * 8
  mask : ∀ mask ∈ f.mask, mask = f.numBits - 1 ∧ ∃ j, f.numBits.toNat = 2 ^ j

theorem positions_eq (h : f.Sized) (hzero : f.numBits ≠ 0) (key : Bytes) :
    f.positions xxh3 key = (List.range f.k).map fun i =>
      (combinedHash (doubleHash xxh3 f.algo key).1 (doubleHash xxh3 f.algo key).2 i).toNat %
        f.numBits.toNat := by
  have hpos : 1 ≤ f.numBits.toNat :=
    Nat.pos_of_ne_zero fun h => hzero (UInt32.toNat_inj.mp h)
  refine map_congr_left fun i _ => ?_
  cases hmask : f.mask with
  | none => exact UInt64.toNat_mod _ _
  | some mask =>
    obtain ⟨rfl, j, hj⟩ := h.mask mask hmask
    have hlt := f.numBits.toNat_lt
    have hword : j < 32 := (Nat.pow_lt_pow_iff_right (by decide)).mp (hj ▸ hlt)
    have hsub : (f.numBits - 1).toNat = 2 ^ j - 1 := by
      have hone : 1 ≤ f.numBits := UInt32.le_iff_toNat_le.mpr hpos
      rw [UInt32.toNat_sub_of_le _ _ hone, hj]
      rfl
    rw [hj]
    dsimp only
    rw [UInt32.toNat_and, UInt64.toNat_toUInt32, hsub, Nat.and_two_pow_sub_one_eq_mod,
      Nat.mod_mod_of_dvd _ (Nat.pow_dvd_pow 2 hword.le)]
    rfl

theorem Sized.inRange (h : f.Sized) (hzero : f.numBits ≠ 0) : f.InRange xxh3 := by
  intro key p hp
  rw [positions_eq h hzero] at hp
  obtain ⟨i, -, rfl⟩ := mem_map.mp hp
  have hlt := Nat.mod_lt (combinedHash (doubleHash xxh3 f.algo key).1
    (doubleHash xxh3 f.algo key).2 i).toNat
    (Nat.pos_of_ne_zero fun h => hzero (UInt32.toNat_inj.mp h))
  rw [h.length]
  omega

theorem sized_withParamsAndAlgo (expectedEntries bitsPerEntry k : Nat) (algo : HashAlgo)
    (hzero : (withParamsAndAlgo expectedEntries bitsPerEntry k algo).numBits ≠ 0) :
    (withParamsAndAlgo expectedEntries bitsPerEntry k algo).Sized := by
  obtain ⟨j, hj⟩ :=
    Nat.isPowerOfTwo_nextPowerOfTwo (max (max expectedEntries 1 * bitsPerEntry) 1)
  unfold withParamsAndAlgo at hzero ⊢
  dsimp only at hzero ⊢
  rw [hj] at hzero ⊢
  have hword : j < 32 := by
    by_contra hle
    obtain ⟨i, rfl⟩ := Nat.exists_eq_add_of_le (Nat.le_of_not_lt hle)
    refine hzero (UInt32.toNat_inj.mp ?_)
    rw [UInt32.toNat_ofNat', pow_add]
    exact Nat.mul_mod_right _ _
  have hnum : (UInt32.ofNat (2 ^ j)).toNat = 2 ^ j :=
    UInt32.toNat_ofNat_of_lt' (Nat.pow_lt_pow_right (by decide) hword)
  refine ⟨?_, ?_⟩
  · rw [hnum, length_replicate]
  · rintro mask ⟨⟩
    rw [UInt32.ofNat_sub (Nat.two_pow_pos j)]
    exact ⟨rfl, j, hnum⟩

def ofKeys (xxh3 : Xxh3) (keys : List Bytes) : BloomFilter :=
  keys.foldl (add xxh3) (new keys.length)

theorem contains_add (hf : f.InRange xxh3) (key : Bytes) :
    (f.add xxh3 key).contains xxh3 key = true := by
  unfold contains
  rw [positions_add, Bool.or_eq_true, all_eq_true]
  refine .inr fun p hp => ((foldl_setBit f (f.positions xxh3 key)).2.2.2.2.2 p).mpr ?_
  exact .inl ⟨hp, hf key p hp⟩

theorem contains_add_of_contains {key' : Bytes} (h : f.contains xxh3 key' = true) (key : Bytes) :
    (f.add xxh3 key).contains xxh3 key' = true := by
  obtain ⟨-, -, -, hnum, -, hget⟩ := foldl_setBit f (f.positions xxh3 key)
  unfold contains at h ⊢
  rw [positions_add, Bool.or_eq_true, all_eq_true] at *
  rcases h with h | h
  · exact .inl (hnum ▸ h)
  · exact .inr fun p hp => (hget p).mpr (.inr (h p hp))

theorem contains_foldl_add (hf : f.InRange xxh3) (h : key ∈ keys ∨ f.contains xxh3 key = true) :
    (keys.foldl (add xxh3) f).contains xxh3 key = true := by
  induction keys generalizing f with
  | nil => simpa using h
  | cons k keys ih =>
    refine ih (inRange_add hf k) ?_
    rcases h with h | h
    · rcases mem_cons.mp h with rfl | h
      · exact .inr (contains_add hf _)
      · exact .inl h
    · exact .inr (contains_add_of_contains h k)

theorem foldl_add_fields (f : BloomFilter) (keys : List Bytes) :
    (keys.foldl (add xxh3) f).bits.length = f.bits.length ∧
      (keys.foldl (add xxh3) f).numBits = f.numBits ∧
      (keys.foldl (add xxh3) f).mask = f.mask ∧ (keys.foldl (add xxh3) f).k = f.k ∧
      (keys.foldl (add xxh3) f).algo = f.algo := by
  induction keys generalizing f with
  | nil => exact ⟨rfl, rfl, rfl, rfl, rfl⟩
  | cons key keys ih =>
    obtain ⟨hlen, hk, hmask, hnum, halgo, -⟩ := foldl_setBit f (f.positions xxh3 key)
    rw [foldl_cons, ← hlen, ← hk, ← hmask, ← hnum, ← halgo]
    exact ih _

theorem sized_foldl_add (h : f.numBits ≠ 0 → f.Sized) (keys : List Bytes)
    (hzero : (keys.foldl (add xxh3) f).numBits ≠ 0) : (keys.foldl (add xxh3) f).Sized := by
  obtain ⟨hlen, hnum, hmask, -⟩ := @foldl_add_fields xxh3 f keys
  rw [hnum] at hzero
  obtain ⟨hlength, hmasks⟩ := h hzero
  exact ⟨by rw [hlen, hnum, hlength], by rwa [hmask, hnum]⟩

theorem contains_of_numBits (h : f.numBits = 0) (key : Bytes) : f.contains xxh3 key = true := by
  unfold contains
  rw [h]
  rfl

theorem contains_reopen (h : f.numBits ≠ 0 → f.Sized) (key : Bytes) :
    f.reopen.contains xxh3 key = f.contains xxh3 key := by
  by_cases hzero : f.numBits = 0
  · rw [contains_of_numBits hzero, contains_of_numBits (f := f.reopen) hzero]
  · have hsized := h hzero
    have hbits : f.reopen.bits = f.bits := take_of_length_le hsized.length.le
    have hreopen : f.reopen.Sized := by
      refine ⟨hbits.symm ▸ hsized.length, fun mask hmask => ?_⟩
      obtain ⟨hcond, hmask⟩ := Option.ite_none_right_eq_some.mp hmask
      exact ⟨(Option.some.inj hmask).symm, _, hcond.2.symm⟩
    unfold contains getBit
    rw [positions_eq hreopen hzero, positions_eq hsized hzero, hbits]
    rfl

theorem contains_reopen_foldl_add (h : f.numBits ≠ 0 → f.Sized)
    (hkey : key ∈ keys) : (keys.foldl (add xxh3) f).contains xxh3 key = true ∧
      (keys.foldl (add xxh3) f).reopen.contains xxh3 key = true := by
  rw [contains_reopen (sized_foldl_add h keys), and_self]
  by_cases hzero : f.numBits = 0
  · exact contains_of_numBits ((foldl_add_fields f keys).2.1.trans hzero) key
  · exact contains_foldl_add ((h hzero).inRange hzero) (.inl hkey)

theorem contains_reopen_ofKeys (h : key ∈ keys) :
    (ofKeys xxh3 keys).reopen.contains xxh3 key = true :=
  (contains_reopen_foldl_add (sized_withParamsAndAlgo _ _ _ _) h).2

end BloomFilter
end RhypeDb.Storage
