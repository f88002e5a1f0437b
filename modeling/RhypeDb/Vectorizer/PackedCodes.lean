import Mathlib.Algebra.BigOperators.Fin
import RhypeDb.Basic.BitString

/-! The packed codes of quantized vectors: codes of two, three or four bits written one behind
the other, and the four ways in which they are read back. A read behind the packed bytes, or of a
centroid that is not there, gives nothing. -/

namespace RhypeDb.Vectorizer

open BitString List Option

def packBit (state : Bytes × Nat) (bit : Bool) : Option (Bytes × Nat) :=
  if bit then
    if state.2 / 8 < state.1.length then some (setBit state.1 state.2, state.2 + 1) else none
  else some (state.1, state.2 + 1)

def packIndex (bits : Nat) (state : Bytes × Nat) (idx : Nat) : Option (Bytes × Nat) :=
  (List.range bits).reverse.foldlM (fun state b => packBit state (idx >>> b &&& 1 == 1)) state

def bitPack (indices : List Nat) (bits : Nat) : Option Bytes :=
  let totalBits := indices.length * bits
  let numBytes := (totalBits + 7) / 8
  (indices.foldlM (packIndex bits) (List.replicate numBytes 0, 0)).map Prod.fst

def unpackFrom (packed : Bytes) (bits : Nat) : Nat → Nat → Option (List Nat)
  | 0, _ => some []
  | count + 1, bitPos => (readBits packed bits 0 bitPos).bind fun (val, bitPos) =>
    (unpackFrom packed bits count bitPos).map (val :: ·)

def bitUnpack (packed : Bytes) (bits count : Nat) : Option (List Nat) :=
  unpackFrom packed bits count 0

def byteAt (data : Bytes) (i : Nat) : Option Nat :=
  data[i]?.map Fin.val

def decode8Indices (data : Bytes) (bits g : Nat) : Option (Fin 8 → Nat) :=
  match bits with
  | 2 => do
    let b0 ← byteAt data (2 * g)
    let b1 ← byteAt data (2 * g + 1)
    some ![b0 >>> 6 &&& 3, b0 >>> 4 &&& 3, b0 >>> 2 &&& 3, b0 &&& 3,
      b1 >>> 6 &&& 3, b1 >>> 4 &&& 3, b1 >>> 2 &&& 3, b1 &&& 3]
  | 3 => do
    let b0 ← byteAt data (3 * g)
    let b1 ← byteAt data (3 * g + 1)
    let b2 ← byteAt data (3 * g + 2)
    some ![b0 >>> 5 &&& 7, b0 >>> 2 &&& 7, ((b0 &&& 3) <<< 1 ||| b1 >>> 7) &&& 7, b1 >>> 4 &&& 7,
      b1 >>> 1 &&& 7, ((b1 &&& 1) <<< 2 ||| b2 >>> 6) &&& 7, b2 >>> 3 &&& 7, b2 &&& 7]
  | 4 => do
    let b0 ← byteAt data (4 * g)
    let b1 ← byteAt data (4 * g + 1)
    let b2 ← byteAt data (4 * g + 2)
    let b3 ← byteAt data (4 * g + 3)
    some ![b0 >>> 4, b0 &&& 0xF, b1 >>> 4, b1 &&& 0xF, b2 >>> 4, b2 &&& 0xF, b3 >>> 4, b3 &&& 0xF]
  | _ => none

section

variable {F : Type} [AddCommMonoid F] [Mul F]

def dotFrom (data : Bytes) (bits : Nat) (centroids : List F) : List F → Nat → F → Option F
  | [], _, acc => some acc
  | rqi :: rq, bitPos, acc => (readBits data bits 0 bitPos).bind fun (val, bitPos) =>
    centroids[val]?.bind fun c => dotFrom data bits centroids rq bitPos (acc + c * rqi)

def mseDotGeneric (data : Bytes) (bits : Nat) (centroids rq : List F) : Option F :=
  dotFrom data bits centroids rq 0 0

def addGroup (data : Bytes) (bits : Nat) (centroids rq : List F) (a : Fin 8 → F) (g : Nat) :
    Option (Fin 8 → F) := do
  let idx ← decode8Indices data bits g
  let base := 8 * g
  (List.finRange 8).foldlM (fun a l => do
    let c ← centroids[idx l]?
    let r ← rq[base + l]?
    some (Function.update a l (a l + c * r))) a

def mseDotScalar (data : Bytes) (bits : Nat) (centroids rq : List F) : Option F := do
  let dims := rq.length
  let groups := dims / 8
  let a ← (List.range groups).foldlM (addGroup data bits centroids rq) 0
  let acc := ((a 0 + a 1) + (a 2 + a 3)) + ((a 4 + a 5) + (a 6 + a 7))
  let done := groups * 8
  if done < dims then
    -- the full groups end on a byte
    if groups * bits ≤ data.length then
      (mseDotGeneric (data.drop (groups * bits)) bits centroids (rq.drop done)).map (acc + ·)
    else none
  else some acc

def scaledFrom (data : Bytes) (bits : Nat) (centroids : List F) (scale : F) :
    Nat → Nat → Option (List F)
  | 0, _ => some []
  | count + 1, bitPos => (readBits data bits 0 bitPos).bind fun (val, bitPos) =>
    centroids[val]?.bind fun c =>
      (scaledFrom data bits centroids scale count bitPos).map (c * scale :: ·)

def unpackScaledCentroids (data : Bytes) (bits count : Nat) (centroids : List F) (scale : F) :
    Option (List F) :=
  scaledFrom data bits centroids scale count 0

variable {bits : Nat} {indices : List Nat}

def Packing (size : Nat) (state : Bytes × Nat) (bs : List Bool) : Prop :=
  Written size state.1 bs ∧ state.2 = bs.length

variable {state : Bytes × Nat} {bs : List Bool} {size : Nat}

theorem packBit_packing (h : Packing size state bs) (hroom : bs.length / 8 < size) (bit : Bool) :
    ∃ state', packBit state bit = some state' ∧ Packing size state' (bs ++ [bit]) := by
  obtain ⟨data, pos⟩ := state
  obtain ⟨hwritten, rfl⟩ : Written size data bs ∧ pos = bs.length := h
  have hnext := hwritten.concat hroom bit
  have hlen : bs.length + 1 = (bs ++ [bit]).length := by
    rw [length_append, length_singleton]
  cases bit with
  | true =>
    have hpos : bs.length / 8 < data.length := hwritten.length.symm ▸ hroom
    exact ⟨_, (if_pos rfl).trans (if_pos hpos), hnext, hlen⟩
  | false => exact ⟨_, if_neg Bool.false_ne_true, hnext, hlen⟩

theorem packIndex_packing (h : Packing size state bs) (hroom : bs.length + bits ≤ 8 * size)
    (idx : Nat) :
    ∃ state', packIndex bits state idx = some state' ∧
      Packing size state' (bs ++ msbBits bits idx) := by
  unfold packIndex
  induction bits generalizing state bs with
  | zero => exact ⟨state, rfl, by rwa [msbBits, append_nil]⟩
  | succ bits ih =>
    have hbit : (idx >>> bits &&& 1 == 1) = idx.testBit bits := by
      rw [Nat.testBit, Nat.land_comm 1, Nat.and_one_is_mod]
      rcases Nat.mod_two_eq_zero_or_one (idx >>> bits) with h0 | h1
      · rw [h0]; rfl
      · rw [h1]; rfl
    obtain ⟨next, hnext, hpacking⟩ := packBit_packing h (by omega) (idx.testBit bits)
    obtain ⟨last, hlast, hdone⟩ := ih hpacking (by
      rw [length_append, length_singleton]
      omega)
    refine ⟨last, ?_, ?_⟩
    · rw [range_succ, reverse_concat, foldlM_cons, hbit, hnext]
      exact hlast
    · rwa [append_assoc, singleton_append] at hdone

theorem packIndices_packing (h : Packing size state bs)
    (hroom : bs.length + indices.length * bits ≤ 8 * size) :
    ∃ state', indices.foldlM (packIndex bits) state = some state' ∧
      Packing size state' (bs ++ indices.flatMap (msbBits bits)) := by
  induction indices generalizing state bs with
  | nil => exact ⟨state, rfl, by rwa [flatMap_nil, append_nil]⟩
  | cons idx rest ih =>
    rw [length_cons, Nat.succ_mul] at hroom
    have hcode : bs.length + bits ≤ 8 * size := by omega
    obtain ⟨next, hnext, hpacking⟩ := packIndex_packing h hcode idx
    obtain ⟨last, hlast, hdone⟩ := ih hpacking (by
      rw [length_append, length_msbBits]
      omega)
    refine ⟨last, ?_, ?_⟩
    · rw [foldlM_cons, hnext]
      exact hlast
    · rwa [append_assoc, ← flatMap_cons] at hdone

theorem length_codes (indices : List Nat) (bits : Nat) :
    (indices.flatMap (msbBits bits)).length = indices.length * bits := by
  rw [length_flatMap, map_congr_left fun x _ => length_msbBits bits x,
    map_const', sum_replicate, smul_eq_mul]

theorem bitPack_holds (indices : List Nat) (bits : Nat) :
    ∃ data, bitPack indices bits = some data ∧
      data.length = (indices.length * bits + 7) / 8 ∧
      Holds data 0 (indices.flatMap (msbBits bits)) := by
  have hroom : ([] : List Bool).length + indices.length * bits ≤
      8 * ((indices.length * bits + 7) / 8) := by
    rw [length_nil]
    omega
  have hempty : Packing ((indices.length * bits + 7) / 8)
      (List.replicate ((indices.length * bits + 7) / 8) 0, 0) [] :=
    ⟨written_replicate _, rfl⟩
  obtain ⟨last, hlast, hwritten, -⟩ := packIndices_packing hempty hroom
  refine ⟨last.1, by rw [bitPack, hlast]; rfl, hwritten.length, ?_⟩
  exact hwritten.holds (by rw [nil_append, length_codes]; omega)

end

section

variable {F : Type} {data : Bytes} {bits pos : Nat} {xs : List Nat}

theorem readBits_code {x : Nat} {bs : List Bool} (hx : x < 2 ^ bits)
    (h : Holds data pos (msbBits bits x ++ bs)) :
    readBits data bits 0 pos = some (x, pos + bits) ∧ Holds data (pos + bits) bs := by
  obtain ⟨hcode, hrest⟩ := holds_append.mp h
  rw [length_msbBits] at hrest
  exact ⟨by rw [readBits_of_holds hcode, Nat.zero_mul, Nat.zero_add, Nat.mod_eq_of_lt hx], hrest⟩

theorem unpackFrom_codes (hlt : ∀ x ∈ xs, x < 2 ^ bits)
    (h : Holds data pos (xs.flatMap (msbBits bits))) :
    unpackFrom data bits xs.length pos = some xs := by
  induction xs generalizing pos with
  | nil => rfl
  | cons x xs ih =>
    obtain ⟨hx, hxs⟩ := forall_mem_cons.mp hlt
    obtain ⟨hread, hrest⟩ := readBits_code hx (flatMap_cons ▸ h)
    rw [length_cons, unpackFrom, hread, bind_some]
    show (unpackFrom data bits xs.length (pos + bits)).map (x :: ·) = some (x :: xs)
    rw [ih hxs hrest, map_some]

variable [AddCommMonoid F] {centroids rq : List F}

def centroidOf (centroids : List F) (x : Nat) : F :=
  centroids.getD x 0

theorem getElem?_centroid {x : Nat} (hcentroids : centroids.length = 2 ^ bits)
    (hx : x < 2 ^ bits) : centroids[x]? = some (centroidOf centroids x) := by
  have hlen : x < centroids.length := hcentroids.symm ▸ hx
  rw [centroidOf, getD_eq_getElem?_getD, getElem?_eq_getElem hlen, getD_some]

variable [Mul F]

def codeTerm (centroids : List F) (xs : List Nat) (rq : List F) (i : Nat) : F :=
  centroidOf centroids (xs.getD i 0) * rq.getD i 0

def codeDot (centroids : List F) (xs : List Nat) (rq : List F) : F :=
  ∑ i ∈ Finset.range rq.length, codeTerm centroids xs rq i

theorem dotFrom_codes {acc : F} (hcentroids : centroids.length = 2 ^ bits)
    (hlt : ∀ x ∈ xs, x < 2 ^ bits) (hlen : rq.length = xs.length)
    (h : Holds data pos (xs.flatMap (msbBits bits))) :
    dotFrom data bits centroids rq pos acc = some (acc + codeDot centroids xs rq) := by
  induction xs generalizing rq pos acc with
  | nil =>
    rw [length_eq_zero_iff.mp hlen, dotFrom, codeDot, length_nil, Finset.sum_range_zero,
      add_zero]
  | cons x xs ih =>
    match rq, hlen with
    | rqi :: rq, hlen =>
      obtain ⟨hx, hxs⟩ := forall_mem_cons.mp hlt
      obtain ⟨hread, hrest⟩ := readBits_code hx (flatMap_cons ▸ h)
      have htail : rq.length = xs.length := Nat.succ.inj hlen
      have hsum : codeDot centroids (x :: xs) (rqi :: rq) =
          centroidOf centroids x * rqi + codeDot centroids xs rq := by
        rw [codeDot, length_cons, Finset.sum_range_succ', add_comm]
        rfl
      rw [dotFrom, hread, bind_some]
      show (centroids[x]?.bind fun c => _) = _
      rw [getElem?_centroid hcentroids hx, bind_some, ih hxs htail hrest, hsum, add_assoc]

theorem scaledFrom_codes (scale : F) (hcentroids : centroids.length = 2 ^ bits)
    (hlt : ∀ x ∈ xs, x < 2 ^ bits) (h : Holds data pos (xs.flatMap (msbBits bits))) :
    scaledFrom data bits centroids scale xs.length pos =
      some (xs.map fun x => centroidOf centroids x * scale) := by
  induction xs generalizing pos with
  | nil => rfl
  | cons x xs ih =>
    obtain ⟨hx, hxs⟩ := forall_mem_cons.mp hlt
    obtain ⟨hread, hrest⟩ := readBits_code hx (flatMap_cons ▸ h)
    rw [length_cons, scaledFrom, hread, bind_some]
    show (centroids[x]?.bind fun c => _) = _
    rw [getElem?_centroid hcentroids hx, bind_some, ih hxs hrest]
    rfl

end

section

variable {data : Bytes} {i g : Nat}

theorem byteAt_of_codes {bits : Nat} {xs : List Nat} (hx : ∀ x ∈ xs, x < 2 ^ bits)
    (h : Holds data (8 * i) (xs.flatMap (msbBits bits))) (bs : List Nat)
    (hb : ∀ b ∈ bs, b < 2 ^ 8) (hlen : xs.length * bits = bs.length * 8)
    (hspelled : spelled bits xs = spelled 8 bs) :
    ∀ j b, bs[j]? = some b → byteAt data (i + j) = some b := by
  rw [flatMap_msbBits_eq hx hb hlen hspelled] at h
  clear hx hlen hspelled
  induction bs generalizing i with
  | nil => exact nofun
  | cons b bs ih =>
    intro j b' hj
    obtain ⟨hb, hbs⟩ := forall_mem_cons.mp hb
    obtain ⟨hfirst, hrest⟩ := holds_append.mp (flatMap_cons ▸ h)
    rw [length_msbBits, ← Nat.mul_succ] at hrest
    cases j with
    | zero =>
      obtain ⟨byte, hbyte, hval⟩ := getElem?_of_holds hb hfirst
      rw [byteAt, Nat.add_zero, hbyte, map_some, hval]
      exact hj
    | succ j =>
      have hnext := ih hrest hbs j b' hj
      rwa [Nat.succ_eq_add_one, Nat.add_right_comm, Nat.add_assoc] at hnext

theorem and_three (n : Nat) : n &&& 3 = n % 4 :=
  Nat.and_two_pow_sub_one_eq_mod n 2

theorem and_seven (n : Nat) : n &&& 7 = n % 8 :=
  Nat.and_two_pow_sub_one_eq_mod n 3

theorem and_fifteen (n : Nat) : n &&& 0xF = n % 16 :=
  Nat.and_two_pow_sub_one_eq_mod n 4

theorem shiftLeft_or {a b k : Nat} (hb : b < 2 ^ k) : a <<< k ||| b = a * 2 ^ k + b := by
  rw [← Nat.shiftLeft_add_eq_or_of_lt hb, Nat.shiftLeft_eq]

variable {x0 x1 x2 x3 x4 x5 x6 x7 : Nat}

theorem lanes_congr {y0 y1 y2 y3 y4 y5 y6 y7 : Nat} (h0 : x0 = y0) (h1 : x1 = y1) (h2 : x2 = y2)
    (h3 : x3 = y3) (h4 : x4 = y4) (h5 : x5 = y5) (h6 : x6 = y6) (h7 : x7 = y7) :
    ![x0, x1, x2, x3, x4, x5, x6, x7] = ![y0, y1, y2, y3, y4, y5, y6, y7] := by
  rw [h0, h1, h2, h3, h4, h5, h6, h7]

theorem decode8_two (hlt : ∀ x ∈ [x0, x1, x2, x3, x4, x5, x6, x7], x < 2 ^ 2)
    (h : Holds data (8 * (2 * g)) ([x0, x1, x2, x3, x4, x5, x6, x7].flatMap (msbBits 2))) :
    decode8Indices data 2 g = some ![x0, x1, x2, x3, x4, x5, x6, x7] := by
  have hbytes := byteAt_of_codes hlt h
    [x0 * 64 + x1 * 16 + x2 * 4 + x3, x4 * 64 + x5 * 16 + x6 * 4 + x7]
  simp only [forall_mem_cons, spelled, foldl_cons, foldl_nil] at hlt hbytes
  replace hbytes := hbytes ⟨by omega, by omega, by simp⟩ rfl (by omega)
  have hb0 := hbytes 0 _ rfl
  rw [Nat.add_zero] at hb0
  rw [decode8Indices, hb0, hbytes 1 _ rfl]
  simp only [Nat.shiftRight_eq_div_pow, and_three, bind_eq_bind, bind_some]
  refine congrArg some (lanes_congr ?_ ?_ ?_ ?_ ?_ ?_ ?_ ?_)
  all_goals omega

theorem decode8_three (hlt : ∀ x ∈ [x0, x1, x2, x3, x4, x5, x6, x7], x < 2 ^ 3)
    (h : Holds data (8 * (3 * g)) ([x0, x1, x2, x3, x4, x5, x6, x7].flatMap (msbBits 3))) :
    decode8Indices data 3 g = some ![x0, x1, x2, x3, x4, x5, x6, x7] := by
  -- the third and the sixth code lie across two bytes
  have hbytes := byteAt_of_codes hlt h [x0 * 32 + x1 * 4 + x2 / 2,
    x2 % 2 * 128 + x3 * 16 + x4 * 2 + x5 / 4, x5 % 4 * 64 + x6 * 8 + x7]
  simp only [forall_mem_cons, spelled, foldl_cons, foldl_nil] at hlt hbytes
  replace hbytes := hbytes ⟨by omega, by omega, by omega, by simp⟩ rfl (by omega)
  have hb0 := hbytes 0 _ rfl
  rw [Nat.add_zero] at hb0
  rw [decode8Indices, hb0, hbytes 1 _ rfl, hbytes 2 _ rfl]
  simp only [Nat.shiftRight_eq_div_pow, and_three, and_seven, Nat.and_one_is_mod,
    bind_eq_bind, bind_some]
  refine congrArg some (lanes_congr ?_ ?_ ?_ ?_ ?_ ?_ ?_ ?_)
  case refine_3 =>
    rw [shiftLeft_or (by omega)]
    omega
  case refine_6 =>
    rw [shiftLeft_or (by omega)]
    omega
  all_goals omega

theorem decode8_four (hlt : ∀ x ∈ [x0, x1, x2, x3, x4, x5, x6, x7], x < 2 ^ 4)
    (h : Holds data (8 * (4 * g)) ([x0, x1, x2, x3, x4, x5, x6, x7].flatMap (msbBits 4))) :
    decode8Indices data 4 g = some ![x0, x1, x2, x3, x4, x5, x6, x7] := by
  have hbytes := byteAt_of_codes hlt h
    [x0 * 16 + x1, x2 * 16 + x3, x4 * 16 + x5, x6 * 16 + x7]
  simp only [forall_mem_cons, spelled, foldl_cons, foldl_nil] at hlt hbytes
  replace hbytes := hbytes ⟨by omega, by omega, by omega, by omega, by simp⟩ rfl (by omega)
  have hb0 := hbytes 0 _ rfl
  rw [Nat.add_zero] at hb0
  rw [decode8Indices, hb0, hbytes 1 _ rfl, hbytes 2 _ rfl, hbytes 3 _ rfl]
  simp only [Nat.shiftRight_eq_div_pow, and_fifteen, bind_eq_bind, bind_some]
  refine congrArg some (lanes_congr ?_ ?_ ?_ ?_ ?_ ?_ ?_ ?_)
  all_goals omega

variable {bits : Nat} {xs : List Nat}

theorem decode8_codes (hbits : bits = 2 ∨ bits = 3 ∨ bits = 4) (hlt : ∀ x ∈ xs, x < 2 ^ bits)
    (h : Holds data 0 (xs.flatMap (msbBits bits))) (hg : 8 * g + 8 ≤ xs.length) :
    ∃ idx, decode8Indices data bits g = some idx ∧ ∀ l : Fin 8, xs[8 * g + l]? = some (idx l) := by
  have hrest : Holds data (8 * (bits * g)) ((xs.drop (8 * g)).flatMap (msbBits bits)) := by
    rw [← take_append_drop (8 * g) xs, flatMap_append] at h
    have hdrop := (holds_append.mp h).2
    rwa [length_codes, length_take, Nat.min_eq_left (by omega),
      show 0 + 8 * g * bits = 8 * (bits * g) by ring] at hdrop
  have hltDrop : ∀ x ∈ xs.drop (8 * g), x < 2 ^ bits := fun x hx => hlt x (mem_of_mem_drop hx)
  have hget : ∀ l, xs[8 * g + l]? = (xs.drop (8 * g))[l]? := fun l => getElem?_drop.symm
  have hlen : 8 ≤ (xs.drop (8 * g)).length := by
    rw [length_drop]
    omega
  simp only [hget]
  clear hget
  generalize xs.drop (8 * g) = ys at hrest hltDrop hlen ⊢
  match ys, hlen with
  | x0 :: x1 :: x2 :: x3 :: x4 :: x5 :: x6 :: x7 :: rest, _ =>
    have hsplit : x0 :: x1 :: x2 :: x3 :: x4 :: x5 :: x6 :: x7 :: rest =
        [x0, x1, x2, x3, x4, x5, x6, x7] ++ rest := rfl
    rw [hsplit, flatMap_append] at hrest
    have hgroup := (holds_append.mp hrest).1
    have hltGroup : ∀ x ∈ [x0, x1, x2, x3, x4, x5, x6, x7], x < 2 ^ bits := fun x hx =>
      hltDrop x (mem_append_left rest hx)
    refine ⟨![x0, x1, x2, x3, x4, x5, x6, x7], ?_, ?_⟩
    · rcases hbits with rfl | rfl | rfl
      · exact decode8_two hltGroup hgroup
      · exact decode8_three hltGroup hgroup
      · exact decode8_four hltGroup hgroup
    · intro l
      match l with
      | 0 | 1 | 2 | 3 | 4 | 5 | 6 | 7 => rfl

end

section

variable {F : Type} [AddCommMonoid F]

theorem foldlM_lanes {step : (Fin 8 → F) → Fin 8 → Option (Fin 8 → F)} {value : Fin 8 → F}
    (hstep : ∀ a l, step a l = some (Function.update a l (a l + value l))) {ls : List (Fin 8)}
    (hls : ls.Nodup) (a : Fin 8 → F) :
    ls.foldlM step a = some fun l => if l ∈ ls then a l + value l else a l := by
  induction ls generalizing a with
  | nil => simp
  | cons l ls ih =>
    obtain ⟨hnew, hls⟩ := nodup_cons.mp hls
    rw [foldlM_cons, hstep]
    show ls.foldlM step (Function.update a l (a l + value l)) = _
    rw [ih hls]
    refine congrArg some (funext fun k => ?_)
    by_cases hk : k = l
    · subst hk
      rw [if_neg hnew, if_pos mem_cons_self, Function.update_self]
    · simp [mem_cons, hk]

variable [Mul F] {data : Bytes} {bits : Nat} {xs : List Nat} {centroids rq : List F}

theorem addGroup_codes (hbits : bits = 2 ∨ bits = 3 ∨ bits = 4)
    (hcentroids : centroids.length = 2 ^ bits) (hlt : ∀ x ∈ xs, x < 2 ^ bits)
    (hlen : rq.length = xs.length) (h : Holds data 0 (xs.flatMap (msbBits bits)))
    (a : Fin 8 → F) {g : Nat} (hg : 8 * g + 8 ≤ xs.length) :
    addGroup data bits centroids rq a g =
      some fun l => a l + codeTerm centroids xs rq (8 * g + l) := by
  obtain ⟨idx, hidx, hget⟩ := decode8_codes hbits hlt h hg
  rw [addGroup, hidx]
  show (List.finRange 8).foldlM (fun a l => centroids[idx l]?.bind fun c =>
    rq[8 * g + l]?.bind fun r => some (Function.update a l (a l + c * r))) a = _
  have hstep : ∀ (a : Fin 8 → F) (l : Fin 8), (centroids[idx l]?.bind fun c =>
      rq[8 * g + l]?.bind fun r => some (Function.update a l (a l + c * r))) =
        some (Function.update a l (a l + codeTerm centroids xs rq (8 * g + l))) := by
    intro a l
    have hx : idx l < 2 ^ bits := hlt _ (mem_of_getElem? (hget l))
    have hr : 8 * g + l < rq.length := by omega
    rw [getElem?_centroid hcentroids hx, getElem?_eq_getElem hr]
    simp only [codeTerm, getD_eq_getElem?_getD, hget, getElem?_eq_getElem hr,
      getD_some]
    rfl
  rw [foldlM_lanes hstep (nodup_finRange 8)]
  exact congrArg some (funext fun l => if_pos (mem_finRange l))

theorem addGroups_codes (hbits : bits = 2 ∨ bits = 3 ∨ bits = 4)
    (hcentroids : centroids.length = 2 ^ bits) (hlt : ∀ x ∈ xs, x < 2 ^ bits)
    (hlen : rq.length = xs.length) (h : Holds data 0 (xs.flatMap (msbBits bits))) {k : Nat}
    (hk : 8 * k ≤ xs.length) :
    ∃ a, (List.range k).foldlM (addGroup data bits centroids rq) 0 = some a ∧
      ∑ l, a l = ∑ i ∈ Finset.range (8 * k), codeTerm centroids xs rq i := by
  induction k with
  | zero => exact ⟨0, rfl, by simp⟩
  | succ k ih =>
    obtain ⟨a, ha, hsum⟩ := ih (by omega)
    refine ⟨fun l => a l + codeTerm centroids xs rq (8 * k + l), ?_, ?_⟩
    · rw [range_succ, foldlM_append, ha]
      show (addGroup data bits centroids rq a k).bind _ = _
      rw [addGroup_codes hbits hcentroids hlt hlen h a (by omega)]
      rfl
    · rw [Finset.sum_add_distrib, hsum, Nat.mul_succ, Finset.sum_range_add,
        Finset.sum_range fun i => codeTerm centroids xs rq (8 * k + i)]

theorem codeDot_eq_add_drop {m : Nat} (hm : m ≤ rq.length) :
    codeDot centroids xs rq =
      ∑ i ∈ Finset.range m, codeTerm centroids xs rq i +
        codeDot centroids (xs.drop m) (rq.drop m) := by
  have hlen : rq.length = m + (rq.drop m).length := by
    rw [length_drop]
    omega
  rw [codeDot, hlen, Finset.sum_range_add]
  simp only [codeDot, codeTerm, getD_eq_getElem?_getD, getElem?_drop]

theorem mseDotScalar_codes (hbits : bits = 2 ∨ bits = 3 ∨ bits = 4)
    (hcentroids : centroids.length = 2 ^ bits) (hlt : ∀ x ∈ xs, x < 2 ^ bits)
    (hlen : rq.length = xs.length) (h : Holds data 0 (xs.flatMap (msbBits bits)))
    (hsize : data.length = (xs.length * bits + 7) / 8) :
    mseDotScalar data bits centroids rq = some (codeDot centroids xs rq) := by
  have hgroups : 8 * (rq.length / 8) ≤ xs.length := by omega
  obtain ⟨a, ha, hsum⟩ := addGroups_codes hbits hcentroids hlt hlen h hgroups
  have htree : ((a 0 + a 1) + (a 2 + a 3)) + ((a 4 + a 5) + (a 6 + a 7)) = ∑ l, a l := by
    rw [Fin.sum_univ_eight]
    simp only [add_assoc]
  have hdot : codeDot centroids xs rq = _ := codeDot_eq_add_drop (hlen.symm ▸ hgroups)
  rw [mseDotScalar, ha]
  show (if rq.length / 8 * 8 < rq.length then _ else _) = _
  rw [htree, hsum]
  by_cases hdone : rq.length / 8 * 8 < rq.length
  · have htail : Holds (data.drop (rq.length / 8 * bits)) 0
        ((xs.drop (8 * (rq.length / 8))).flatMap (msbBits bits)) := by
      rw [← take_append_drop (8 * (rq.length / 8)) xs, flatMap_append] at h
      have hrest := (holds_append.mp h).2
      rw [length_codes, length_take, Nat.min_eq_left hgroups] at hrest
      apply Holds.drop
      rwa [show 0 + 8 * (rq.length / 8) * bits = 8 * (rq.length / 8 * bits) + 0 by ring] at hrest
    have hfits : rq.length / 8 * bits ≤ data.length := by
      rcases hbits with rfl | rfl | rfl <;> omega
    rw [if_pos hdone, if_pos hfits, mseDotGeneric, dotFrom_codes hcentroids
      (fun x hx => hlt x (mem_of_mem_drop hx)) (by simp [hlen, Nat.mul_comm]) htail,
      map_some, zero_add, hdot, Nat.mul_comm 8]
  · rw [if_neg hdone, hdot, Nat.mul_comm 8]
    have hnil : rq.drop (rq.length / 8 * 8) = [] := drop_eq_nil_of_le (by omega)
    rw [hnil, codeDot, length_nil, Finset.sum_range_zero, add_zero]

variable (bits xs centroids rq) in
/-- Packed codes read back the same by every decoder, which stay within the packed bytes. -/
theorem decoders_agree (hbits : bits = 2 ∨ bits = 3 ∨ bits = 4) (hlt : ∀ x ∈ xs, x < 2 ^ bits)
    (hcentroids : centroids.length = 2 ^ bits) (hlen : rq.length = xs.length) (scale : F) :
    ∃ data, bitPack xs bits = some data ∧ data.length = (xs.length * bits + 7) / 8 ∧
      bitUnpack data bits xs.length = some xs ∧
      (∀ g, g < xs.length / 8 → ∃ idx, decode8Indices data bits g = some idx ∧
        ∀ l : Fin 8, xs[8 * g + l]? = some (idx l)) ∧
      mseDotScalar data bits centroids rq = some (codeDot centroids xs rq) ∧
      mseDotGeneric data bits centroids rq = some (codeDot centroids xs rq) ∧
      unpackScaledCentroids data bits xs.length centroids scale =
        some (xs.map fun x => centroidOf centroids x * scale) := by
  obtain ⟨data, hpack, hsize, h⟩ := bitPack_holds xs bits
  refine ⟨data, hpack, hsize, unpackFrom_codes hlt h, ?_, ?_, ?_, ?_⟩
  · intro g hg
    exact decode8_codes hbits hlt h (by omega)
  · exact mseDotScalar_codes hbits hcentroids hlt hlen h hsize
  · rw [mseDotGeneric, dotFrom_codes hcentroids hlt hlen h, zero_add]
  · exact scaledFrom_codes scale hcentroids hlt h

end

/-- Nine codes of three bits: a full group and a tail of one. -/
theorem decoders_agree_nine :
    ∃ data, bitPack [0, 1, 2, 3, 4, 5, 6, 7, 5] 3 = some data ∧ data.length = 4 ∧
      mseDotScalar data 3 [0, 1, 2, 3, 4, 5, 6, 7] [1, 1, 1, 1, 1, 1, 1, 1, 10] =
        some (codeDot [0, 1, 2, 3, 4, 5, 6, 7] [0, 1, 2, 3, 4, 5, 6, 7, 5]
          [1, 1, 1, 1, 1, 1, 1, 1, 10]) := by
  obtain ⟨data, hpack, hsize, -, -, hdot, -⟩ :=
    decoders_agree 3 [0, 1, 2, 3, 4, 5, 6, 7, 5] [0, 1, 2, 3, 4, 5, 6, 7]
      [1, 1, 1, 1, 1, 1, 1, 1, 10] (by decide) (by decide) rfl rfl 2
  exact ⟨data, hpack, hsize, hdot⟩

end RhypeDb.Vectorizer
