import RhypeDb.Storage.SstWrite

/-! A filter as `write_to` stores it and `read_from` reads it back. -/

namespace RhypeDb.Storage.BloomFilter

open ByteOrder ByteReader SstBytes List

def legacy (numBits : UInt32) (k : Nat) (algo : HashAlgo) : BloomFilter :=
  { bits := List.replicate ((numBits.toNat + 7) / 8 * 8) false, numBits, k, mask := none, algo }

def writeTo (f : BloomFilter) : Bytes :=
  be 4 f.numBits.toNat ++ (be 1 f.k ++ packBits f.bits)

def unpackBits (bytes : Bytes) : List Bool :=
  (List.range (8 * bytes.length)).map fun bit => (bytes.getD (bit / 8) 0).val.testBit (bit % 8)

def unpacked (f : SstBytes.BloomFilter) : BloomFilter :=
  { bits := unpackBits f.bits, numBits := UInt32.ofNat f.numBits, k := f.k
    mask := f.mask.map UInt32.ofNat, algo := f.algo }

theorem sum_bits_lt (f : Nat → Bool) (n : Nat) :
    ((List.range n).map fun bit => if f bit then 2 ^ bit else 0).sum < 2 ^ n := by
  induction n with
  | zero => exact Nat.one_pos
  | succ n ih =>
    rw [range_succ, map_append, sum_append, map_singleton, sum_singleton, pow_succ]
    split_ifs <;> omega

theorem testBit_sum_bits (f : Nat → Bool) {bit n : Nat} (h : bit < n) :
    ((List.range n).map fun bit => if f bit then 2 ^ bit else 0).sum.testBit bit = f bit := by
  induction n with
  | zero => cases h
  | succ n ih =>
    have hlt := sum_bits_lt f n
    rw [range_succ, map_append, sum_append, map_singleton, sum_singleton, Nat.add_comm]
    rcases Nat.lt_succ_iff_lt_or_eq.mp h with hbelow | rfl
    · split_ifs
      · rw [Nat.testBit_two_pow_add_gt hbelow, ih hbelow]
      · rw [Nat.zero_add, ih hbelow]
    · cases f bit with
      | true =>
        rw [if_pos rfl, Nat.testBit_two_pow_add_eq, Nat.testBit_lt_two_pow hlt]
        rfl
      | false => rw [if_neg Bool.false_ne_true, Nat.zero_add, Nat.testBit_lt_two_pow hlt]

theorem testBit_packed (f : Nat → Bool) {bit : Nat} (h : bit < 8) : (Fin.ofNat 256
    ((List.range 8).map fun bit => if f bit then 2 ^ bit else 0).sum).val.testBit bit = f bit := by
  have hlt : ((List.range 8).map fun bit => if f bit then 2 ^ bit else 0).sum < 256 :=
    sum_bits_lt f 8
  rw [Fin.val_ofNat, Nat.mod_eq_of_lt hlt, testBit_sum_bits f h]

theorem unpackBits_packBits {bits : List Bool} (h : 8 ∣ bits.length) :
    unpackBits (packBits bits) = bits := by
  obtain ⟨n, hn⟩ := h
  have hlen : (packBits bits).length = n := by
    rw [packBits, length_map, length_range, hn, Nat.mul_div_cancel_left _ (by decide)]
  refine ext_getElem (by rw [unpackBits, length_map, length_range, hlen, hn]) fun i _ hi => ?_
  have hbyte : i / 8 < (packBits bits).length := hlen.symm ▸ Nat.div_lt_of_lt_mul (hn ▸ hi)
  simp only [unpackBits, getElem_map, getElem_range]
  rw [getD_eq_getElem?_getD, getElem?_eq_getElem hbyte, Option.getD_some]
  simp only [packBits, getElem_map, getElem_range]
  rw [testBit_packed (fun bit => bits.getD (8 * (i / 8) + bit) false) (Nat.mod_lt _ (by decide)),
    Nat.div_add_mod, getD_eq_getElem?_getD, getElem?_eq_getElem hi, Option.getD_some]

variable {f : BloomFilter}

theorem readFrom_writeTo (hk : f.k < 256) (h : f.numBits ≠ 0 → f.Sized) :
    ∃ g, (SstBytes.BloomFilter.readFrom f.algo).decode f.writeTo = .ok g ∧
      unpacked g = f.reopen := by
  have hnum := f.numBits.toNat_lt
  have hfront : ∃ front rest, packBits f.bits = front ++ rest ∧
      front.length = (f.numBits.toNat + 7) / 8 ∧
      unpackBits front = f.bits.take ((f.numBits.toNat + 7) / 8 * 8) := by
    by_cases hzero : f.numBits = 0
    · rw [hzero]
      exact ⟨[], _, rfl, rfl, rfl⟩
    · have hlen := (h hzero).length
      refine ⟨packBits f.bits, [], (append_nil _).symm, ?_, ?_⟩
      · rw [packBits, length_map, length_range, hlen, Nat.mul_div_cancel _ (by decide)]
      · rw [← hlen, take_length, unpackBits_packBits (hlen ▸ Nat.dvd_mul_left _ _)]
  obtain ⟨front, rest, hpack, hlen, hbits⟩ := hfront
  have htake : ∀ e : String, Reads (ByteReader.take ((f.numBits.toNat + 7) / 8) e) front front :=
    fun e => hlen ▸ reads_take front e
  have hfinds : Finds (SstBytes.BloomFilter.readFrom f.algo) f.writeTo
      { bits := front, numBits := f.numBits.toNat, k := f.k, algo := f.algo
        mask := if 0 < f.numBits.toNat ∧ 2 ^ f.numBits.toNat.log2 = f.numBits.toNat then
          some (f.numBits.toNat - 1) else none } := by
    rw [writeTo, hpack]
    exact (reads_number hnum _).finds_bind ((reads_number hk _).finds_bind
      (((htake _).map _).finds.append rest))
  obtain ⟨pos, hread⟩ := hfinds [] []
  rw [append_nil, nil_append] at hread
  refine ⟨_, congrArg (Except.map Prod.fst) hread, ?_⟩
  unfold unpacked reopen
  rw [hbits, UInt32.ofNat_toNat, apply_ite (Option.map UInt32.ofNat)]
  congr 1
  split_ifs with hcond
  · exact congrArg some (UInt32.ofNat_sub hcond.1 |>.trans (by rw [UInt32.ofNat_toNat]; rfl))
  · rfl

def Reports (xxh3 : Xxh3) (f : BloomFilter) : Prop :=
  ∀ keys : List Bytes, ∀ key ∈ keys, (keys.foldl (add xxh3) f).contains xxh3 key = true ∧
    ∃ g, (SstBytes.BloomFilter.readFrom f.algo).decode (keys.foldl (add xxh3) f).writeTo = .ok g ∧
      (unpacked g).contains xxh3 key = true

theorem reports_of_sized (xxh3 : Xxh3) (hk : f.k < 256)
    (h : f.numBits ≠ 0 → f.Sized) : Reports xxh3 f := by
  intro keys key hkey
  obtain ⟨-, -, -, hk', halgo⟩ := @foldl_add_fields xxh3 f keys
  obtain ⟨hcontains, hreopen⟩ := @contains_reopen_foldl_add xxh3 f keys key h hkey
  obtain ⟨g, hread, hg⟩ := readFrom_writeTo (hk'.symm ▸ hk) (@sized_foldl_add xxh3 f h keys)
  rw [halgo] at hread
  exact ⟨hcontains, g, hread, hg.symm ▸ hreopen⟩

/-- No filter has a false negative, whatever its length, before it is stored or after. -/
theorem no_false_negatives (xxh3 : Xxh3) :
    (∀ expectedEntries bitsPerEntry (k : Byte) algo,
      Reports xxh3 (withParamsAndAlgo expectedEntries bitsPerEntry k algo)) ∧
    ∀ numBits (k : Byte) algo, Reports xxh3 (legacy numBits k algo) := by
  constructor
  · exact fun _ _ k _ => reports_of_sized xxh3 k.isLt (sized_withParamsAndAlgo _ _ _ _)
  · refine fun numBits k algo => reports_of_sized xxh3 k.isLt fun _ => ⟨?_, ?_⟩
    · exact length_replicate
    · rintro mask ⟨⟩

end RhypeDb.Storage.BloomFilter
