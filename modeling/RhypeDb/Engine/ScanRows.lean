import RhypeDb.Engine.FilterScan

/-! What the filter scans return without a limit: the live objects of the type whose field
passes. An index scan is right when the entries are those of the live objects, and an integer
passes by its encoding exactly if it passes by its value. -/

namespace RhypeDb.Engine

open ByteOrder Fallible KeyBuilder List Nat Option SortDedup Storage UInt64

section

variable {store : Store} {typeId fieldId : Id} {pre : Bytes}

theorem mem_objectRows {row : Id × Payload} :
    row ∈ store.objectRows typeId ↔ store.lookup (.object typeId row.1) = some row.2 := by
  rw [SortedMap.lookup_eq_some, Store.objectRows, mem_filterMap]
  constructor
  · rintro ⟨⟨key, data⟩, he, h⟩
    cases key with
    | object t o =>
      simp only [ite_none_right_eq_some, Option.some.injEq] at h
      obtain ⟨rfl, rfl⟩ := h
      exact he
    | _ => cases h
  · intro he
    exact ⟨_, he, by simp⟩

theorem mem_indexRows {row : Bytes × Payload} :
    row ∈ store.indexRows typeId fieldId pre ↔
      store.lookup (.fieldIndex typeId fieldId row.1) = some row.2 ∧ pre <+: row.1 := by
  rw [SortedMap.lookup_eq_some, Store.indexRows, mem_filterMap]
  constructor
  · rintro ⟨⟨key, data⟩, he, h⟩
    cases key with
    | fieldIndex t f entry =>
      simp only [ite_none_right_eq_some, Option.some.injEq] at h
      obtain ⟨⟨rfl, rfl, hpre⟩, rfl⟩ := h
      exact ⟨he, hpre⟩
    | _ => cases h
  · rintro ⟨he, hpre⟩
    exact ⟨_, he, by simp [hpre]⟩

theorem object_lt_object {a b : Id} (h : Key.object typeId a < Key.object typeId b) :
    a.toNat < b.toNat := by
  have h : encode (.object typeId a) < encode (.object typeId b) := h
  simpa [encode, path, append_lt_append_iff, word_lt_word_iff, lt_iff_toNat_lt] using h

theorem pairwise_objectRows :
    (store.objectRows typeId).Pairwise fun a b => a.1.toNat < b.1.toNat := by
  rw [Store.objectRows, pairwise_filterMap]
  refine store.sorted.imp ?_
  rintro ⟨key, data⟩ ⟨key', data'⟩ hlt a ha b hb
  cases key with
  | object t o =>
    cases key' with
    | object t' o' =>
      simp only [ite_none_right_eq_some, Option.some.injEq] at ha hb
      obtain ⟨rfl, rfl⟩ := ha
      obtain ⟨rfl, rfl⟩ := hb
      exact object_lt_object hlt
    | _ => cases hb
  | _ => cases ha

theorem pairwise_indexRows :
    (store.indexRows typeId fieldId pre).Pairwise fun a b => a.1 < b.1 := by
  rw [Store.indexRows, pairwise_filterMap]
  refine store.sorted.imp ?_
  rintro ⟨key, data⟩ ⟨key', data'⟩ hlt a ha b hb
  cases key with
  | fieldIndex t f entry =>
    cases key' with
    | fieldIndex t' f' entry' =>
      simp only [ite_none_right_eq_some, Option.some.injEq] at ha hb
      obtain ⟨⟨rfl, rfl, -⟩, rfl⟩ := ha
      obtain ⟨⟨rfl, rfl, -⟩, rfl⟩ := hb
      have h : encode (.fieldIndex _ _ entry) < encode (.fieldIndex _ _ entry') := hlt
      simpa [encode, path, append_lt_append_iff] using h
    | _ => cases hb
  | _ => cases ha

variable {β : Type} {parse : Bytes → Option (β × Id)} {pass : β → Bool} {stop : Bool}
  {entries : List (Bytes × Payload)}

theorem mem_walkIndex {row : Id × Payload}
    (hstop : stop = true → entries.Pairwise fun a b => ∀ u v, parse a.1 = some u →
      parse b.1 = some v → pass v.1 = true → pass u.1 = true) :
    row ∈ walkIndex parse pass stop entries ↔
      ∃ entry value, (entry, row.2) ∈ entries ∧ parse entry = some (value, row.1) ∧ pass value := by
  induction entries with
  | nil => simp [walkIndex]
  | cons e es ih =>
    have ih := ih fun h => (pairwise_cons.mp (hstop h)).2
    simp only [mem_cons, or_and_right, exists_or]
    rw [← ih, walkIndex]
    cases hparse : parse e.1 with
    | none =>
      refine (or_iff_right ?_).symm
      rintro ⟨entry, value, rfl, hentry, -⟩
      cases hparse.symm.trans hentry
    | some found =>
      obtain ⟨value, objectId⟩ := found
      dsimp only
      have hhead : (∃ entry v, (entry, row.2) = e ∧ parse entry = some (v, row.1) ∧ pass v) ↔
          row = (objectId, e.2) ∧ pass value := by
        constructor
        · rintro ⟨entry, v, rfl, hentry, hpass⟩
          cases hparse.symm.trans hentry
          exact ⟨rfl, hpass⟩
        · rintro ⟨rfl, hpass⟩
          exact ⟨e.1, value, rfl, hparse, hpass⟩
      rw [hhead]
      cases hpass : pass value with
      | true => simp
      | false =>
        simp only [Bool.false_eq_true, if_false, and_false, false_or]
        cases hs : stop with
        | false => simp
        | true =>
          simp only [if_true, not_mem_nil, false_iff]
          rw [hs] at ih
          rw [ih]
          rintro ⟨entry, v, hentry, hv, hvpass⟩
          have := (pairwise_cons.mp (hstop hs)).1 _ hentry _ _ hparse hv hvpass
          rw [hpass] at this
          cases this

theorem walkIndex_sublist :
    (walkIndex parse pass stop entries).Sublist
      (entries.filterMap fun e => (parse e.1).map fun found => (found.2, e.2)) := by
  induction entries with
  | nil => exact .slnil
  | cons e es ih =>
    rw [walkIndex]
    cases hparse : parse e.1 with
    | none =>
      rw [filterMap_cons_none (by rw [hparse]; rfl)]
      exact ih
    | some found =>
      rw [filterMap_cons_some (by rw [hparse]; rfl)]
      dsimp only
      split_ifs
      · exact ih.cons_cons _
      · exact nil_sublist _
      · exact ih.cons _

variable {t : TypeDef} {ifd : IndexedField} {objectId : Id} {fields : FieldMap} {key : Key}
  {kind : IndexedKind}

def encodeFixed : IndexedKind → Value → Option Bytes
  | .integer => encodeIntForZone
  | .bool => encodeBoolForIndex
  | .float => encodeFloatForIndex
  | .string => fun _ => none
  | .bytes => fun _ => none

theorem encodeFixed_length {value : Value} {e : Bytes}
    (h : encodeFixed kind value = some e) : e.length = 8 := by
  cases kind <;> cases value <;> cases h <;> exact be_length 8 _

theorem encodeFixed_null : encodeFixed kind .null = none := by
  cases kind <;> rfl

theorem indexKeyOf_fixed (hs : ifd.kind ≠ .string) (hb : ifd.kind ≠ .bytes) :
    indexKeyOf t objectId fields ifd = some key ↔ ∃ value e, fields.lookup ifd.name = some value ∧
      encodeFixed ifd.kind value = some e ∧
      key = .fieldIndex t.typeId ifd.fieldId (e ++ separator :: word objectId) := by
  have hbuild : ∀ value, buildFieldIndexKey t.typeId ifd.fieldId ifd.kind value objectId =
      (encodeFixed ifd.kind value).map fun e =>
        .fieldIndex t.typeId ifd.fieldId (e ++ separator :: word objectId) := by
    intro value
    cases hk : ifd.kind with
    | integer => rfl
    | bool => rfl
    | float => rfl
    | string => exact absurd hk hs
    | bytes => exact absurd hk hb
  rw [indexKeyOf, bind_eq_some_iff]
  constructor
  · rintro ⟨value, hvalue, h⟩
    split_ifs at h
    rw [hbuild, map_eq_some_iff] at h
    obtain ⟨e, he, rfl⟩ := h
    exact ⟨value, e, hvalue, he, rfl⟩
  · rintro ⟨value, e, hvalue, he, rfl⟩
    refine ⟨value, hvalue, ?_⟩
    rw [if_neg, hbuild, he]
    · rfl
    · rintro rfl
      rw [encodeFixed_null] at he
      cases he

theorem indexKeyOf_string (hs : ifd.kind = .string) :
    indexKeyOf t objectId fields ifd = some key ↔ ∃ s, fields.lookup ifd.name = some (.string s) ∧
      key = .fieldIndex t.typeId ifd.fieldId (encodeBytesForIndex s ++ word objectId) := by
  rw [indexKeyOf, hs, bind_eq_some_iff]
  constructor
  · rintro ⟨value, hvalue, h⟩
    cases value with
    | string s =>
      cases h
      exact ⟨s, hvalue, rfl⟩
    | null => cases h
    | _ => cases h
  · rintro ⟨s, hvalue, rfl⟩
    exact ⟨_, hvalue, rfl⟩

theorem idOf_word : idOf (word objectId) = objectId := by
  rw [idOf, word, ofBe_be_of_lt (toNat_lt_pow objectId), UInt64.ofNat_toNat]

theorem parseOwner_append {front : Bytes} :
    parseOwner (front ++ word objectId) = some ((), objectId) := by
  rw [parseOwner, length_append, word_length, Nat.add_sub_cancel, drop_left, idOf_word]

theorem parseFixed_append {e : Bytes} (he : e.length = 8) :
    parseFixed (e ++ separator :: word objectId) = some (.ofNat (ofBe e), objectId) := by
  have hlen : (e ++ separator :: word objectId).length = 17 := by
    rw [length_append, length_cons, word_length, he]
  have hdrop : (e ++ separator :: word objectId).drop 9 = word objectId := by
    rw [append_cons, drop_left' (by rw [length_append, he]; rfl)]
  rw [parseFixed, if_pos hlen, take_left' he, hdrop, idOf_word]

theorem encodeBytesForIndex_cons (b : Byte) (s : Bytes) :
    encodeBytesForIndex (b :: s) = (if b = 0 then [0, 1] else [b]) ++ encodeBytesForIndex s := by
  rw [encodeBytesForIndex, flatMap_cons, append_assoc]
  rfl

theorem two_le_length_encodeBytesForIndex (s : Bytes) : 2 ≤ (encodeBytesForIndex s).length := by
  rw [encodeBytesForIndex, length_append]
  exact le_add_left _ _

theorem findTerminator_cons {a b : Byte} {rest : Bytes} (h : ¬ (a = 0 ∧ b = 0)) :
    findTerminator (a :: b :: rest) = (findTerminator (b :: rest)).map (· + 1) := by
  rw [findTerminator, if_neg h]

theorem findTerminator_append {a : Bytes} {n : Nat} (h : findTerminator a = some n) (y : Bytes) :
    findTerminator (a ++ y) = some n := by
  induction a generalizing n with
  | nil => cases h
  | cons b a ih =>
    cases a with
    | nil => cases h
    | cons c rest =>
      rw [findTerminator] at h
      rw [cons_append, cons_append, findTerminator]
      split_ifs at h ⊢ with hzero
      · exact h
      · obtain ⟨m, hm, rfl⟩ := map_eq_some_iff.mp h
        have hm' := ih hm
        rw [cons_append] at hm'
        rw [hm']
        rfl

theorem findTerminator_encode (s : Bytes) :
    findTerminator (encodeBytesForIndex s) = some ((encodeBytesForIndex s).length - 2) := by
  induction s with
  | nil => rfl
  | cons b s ih =>
    have hlen := two_le_length_encodeBytesForIndex s
    rw [encodeBytesForIndex_cons]
    cases henc : encodeBytesForIndex s with
    | nil => simp [henc] at hlen
    | cons c rest =>
      rw [henc] at ih hlen
      by_cases hb : b = 0
      · rw [if_pos hb, cons_append, cons_append, nil_append,
          findTerminator_cons (by decide), findTerminator_cons (by simp), ih]
        simp only [map_some, length_cons] at hlen ⊢
        congr 1
        omega
      · rw [if_neg hb, cons_append, nil_append, findTerminator_cons (by simp [hb]), ih]
        simp only [map_some, length_cons] at hlen ⊢
        congr 1
        omega

theorem parseVar_append {s : Bytes} :
    parseVar (encodeBytesForIndex s ++ word objectId) =
      some (encodeBytesForIndex s, objectId) := by
  have hlen := two_le_length_encodeBytesForIndex s
  have htotal : (encodeBytesForIndex s ++ word objectId).length =
      (encodeBytesForIndex s).length + 8 := by
    rw [length_append, word_length]
  have hterm : (encodeBytesForIndex s).length - 2 + 2 = (encodeBytesForIndex s).length := by omega
  rw [parseVar, if_neg (by omega), htotal, Nat.add_sub_cancel, take_left,
    findTerminator_encode, map_some, hterm, take_left, drop_left,
    take_of_length_le (word_length _).le, idOf_word]

theorem encodeBytesForIndex_strictMono : StrictMono encodeBytesForIndex := by
  intro s
  induction s with
  | nil =>
    rintro (_ | ⟨c, r⟩) h
    · exact absurd h (lt_irrefl _)
    · rw [encodeBytesForIndex_cons]
      by_cases hc : c = 0
      · rw [if_pos hc]
        exact cons_lt_cons_iff.mpr (.inr ⟨rfl, cons_lt_cons_iff.mpr (.inl (by decide))⟩)
      · rw [if_neg hc]
        exact cons_lt_cons_iff.mpr (.inl (Fin.pos_iff_ne_zero.mpr hc))
  | cons b s ih =>
    rintro (_ | ⟨c, r⟩) h
    · exact absurd h (not_lt_nil _)
    · rw [encodeBytesForIndex_cons, encodeBytesForIndex_cons]
      rcases cons_lt_cons_iff.mp h with hbc | ⟨rfl, hlt⟩
      · have hc : c ≠ 0 := Fin.ne_zero_of_lt hbc
        rw [if_neg hc]
        by_cases hb : b = 0
        · rw [if_pos hb]
          exact cons_lt_cons_iff.mpr (.inl (Fin.pos_iff_ne_zero.mpr hc))
        · rw [if_neg hb]
          exact cons_lt_cons_iff.mpr (.inl hbc)
      · exact append_lt_append_iff.mpr (ih hlt)

theorem compareOrd_encodeBytesForIndex (s : Bytes) (op : CompareOp) (r : Bytes) :
    compareOrd (encodeBytesForIndex s) op (encodeBytesForIndex r) = compareOrd s op r := by
  rw [compareOrd, compareOrd, ← cmp_eq_compare, ← cmp_eq_compare,
    encodeBytesForIndex_strictMono.cmp_map_eq]

theorem eq_of_encode_isPrefix {s r : Bytes}
    (h : encodeBytesForIndex s <+: encodeBytesForIndex r) : s = r := by
  obtain ⟨y, hy⟩ := h
  have hs := two_le_length_encodeBytesForIndex s
  have hterm := findTerminator_append (findTerminator_encode s) y
  rw [hy, findTerminator_encode, Option.some.injEq] at hterm
  have hlen := congrArg List.length hy
  rw [length_append] at hlen
  have hnil : y = [] := eq_nil_of_length_eq_zero (by omega)
  rw [hnil, append_nil] at hy
  exact encodeBytesForIndex_strictMono.injective hy

theorem toNat_flipMsb (x : UInt64) :
    (flipMsb x).toNat = if x.toNat < 2 ^ 63 then x.toNat + 2 ^ 63 else x.toNat - 2 ^ 63 := by
  have hx := x.toNat_lt
  have hxor : (flipMsb x).toNat = x.toNat ^^^ 2 ^ 63 := by
    rfl
  rw [hxor]
  have hhigh : ∀ {y i : Nat}, y < 2 ^ 64 → 63 < i → y.testBit i = false := fun hy hi =>
    Nat.testBit_lt_two_pow (hy.trans_le (Nat.pow_le_pow_right (by decide) hi))
  apply eq_of_testBit_eq
  intro i
  rw [testBit_xor, testBit_two_pow]
  split_ifs with hlow
  · rw [add_comm]
    rcases lt_trichotomy i 63 with hi | rfl | hi
    · rw [testBit_two_pow_add_gt hi, decide_eq_false (by omega), Bool.xor_false]
    · rw [testBit_two_pow_add_eq, decide_eq_true rfl, Bool.xor_true]
    · rw [hhigh hx hi, hhigh (by omega) hi, decide_eq_false (by omega), Bool.xor_false]
  · obtain ⟨y, hy⟩ := Nat.exists_eq_add_of_le (Nat.not_lt.mp hlow)
    rw [hy, Nat.add_sub_cancel_left]
    rcases lt_trichotomy i 63 with hi | rfl | hi
    · rw [testBit_two_pow_add_gt hi, decide_eq_false (by omega), Bool.xor_false]
    · rw [testBit_two_pow_add_eq, decide_eq_true rfl, Bool.xor_true, Bool.not_not]
    · rw [hhigh (by omega) hi, hhigh (by omega) hi, decide_eq_false (by omega), Bool.xor_false]

theorem toNat_flipMsb_int64 (i : Int64) :
    ((flipMsb i.toUInt64).toNat : Int) = i.toInt + 2 ^ 63 := by
  have hnat : i.toInt = if 2 * i.toUInt64.toNat < 2 ^ 64 then (i.toUInt64.toNat : Int)
      else i.toUInt64.toNat - 2 ^ 64 := BitVec.toInt_eq_toNat_cond _
  rw [toNat_flipMsb]
  split_ifs at hnat ⊢ <;> omega

def intOf : Value → Option Int
  | .u32 n => some n.toNat
  | .u64 n => some n.toNat
  | .i32 n => some n.toInt
  | .i64 n => some n.toInt
  | .dateTime ms => some ms.toInt
  | _ => none

def zoneShift : ScalarType → Int
  | .u32 => 0
  | .u64 => 0
  | _ => 2 ^ 63

theorem word_of_be {n : Nat} (h : n < 2 ^ 64) : (UInt64.ofNat (ofBe (be 8 n))).toNat = n := by
  rw [ofBe_be_of_lt (by omega), toNat_ofNat', mod_eq_of_lt h]

variable {st : ScalarType} {target : Int64} {value : Value}

theorem encodeIntForZone_shift {e : Bytes} (hadmits : st.admits value)
    (he : encodeIntForZone value = some e) :
    ∃ i, intOf value = some i ∧ ((UInt64.ofNat (ofBe e)).toNat : Int) = i + zoneShift st := by
  cases value with
  | u32 n =>
    cases st <;> cases hadmits
    cases he
    refine ⟨_, rfl, ?_⟩
    rw [word_of_be (lt_trans n.toNat_lt (by decide)), zoneShift, add_zero]
  | u64 n =>
    cases st <;> cases hadmits
    cases he
    refine ⟨_, rfl, ?_⟩
    rw [word_of_be n.toNat_lt, zoneShift, add_zero]
  | i32 n =>
    cases st <;> cases hadmits
    cases he
    refine ⟨_, rfl, ?_⟩
    rw [word_of_be (toNat_lt _), toNat_flipMsb_int64, Int32.toInt_toInt64]
    rfl
  | i64 n =>
    cases st <;> cases hadmits
    cases he
    refine ⟨_, rfl, ?_⟩
    rw [word_of_be (toNat_lt _), toNat_flipMsb_int64]
    rfl
  | dateTime ms =>
    cases st <;> cases hadmits
    cases he
    refine ⟨_, rfl, ?_⟩
    rw [word_of_be (toNat_lt _), toNat_flipMsb_int64]
    rfl
  | _ => cases he

theorem holds_eq_compareOrd {value target : UInt64} {a b c : Int} (op : CompareOp)
    (ha : (value.toNat : Int) = a + c) (hb : (target.toNat : Int) = b + c) :
    op.holds value target = compareOrd a op b := by
  have heq : value = target ↔ a = b := by
    rw [← UInt64.toNat_inj]
    omega
  have hlt : value < target ↔ a < b := by
    rw [lt_iff_toNat_lt]
    omega
  have hgt : target < value ↔ b < a := by
    rw [lt_iff_toNat_lt]
    omega
  have hle : value ≤ target ↔ a ≤ b := by
    rw [le_iff_toNat_le]
    omega
  have hge : target ≤ value ↔ b ≤ a := by
    rw [le_iff_toNat_le]
    omega
  rw [compareOrd]
  rcases lt_trichotomy a b with h | h | h
  · rw [compare_lt_iff_lt.mpr h]
    cases op <;> simp [CompareOp.holds, compareWith, heq, hlt, hgt, hle, hge] <;> omega
  · rw [compare_eq_iff_eq.mpr h]
    cases op <;> simp [CompareOp.holds, compareWith, heq, hlt, hgt, hle, hge] <;> omega
  · rw [compare_gt_iff_gt.mpr h]
    cases op <;> simp [CompareOp.holds, compareWith, heq, hlt, hgt, hle, hge] <;> omega

end

section

variable {schema : Schema} {store : Store} {t : TypeDef} {ifd : IndexedField}

def Coded (t : TypeDef) (ifd : IndexedField) (code : Value → Option Bytes) (glue : Bytes) : Prop :=
  ∀ objectId fields key, indexKeyOf t objectId fields ifd = some key ↔
    ∃ value e, fields.lookup ifd.name = some value ∧ code value = some e ∧
      key = .fieldIndex t.typeId ifd.fieldId (e ++ (glue ++ word objectId))

variable {rows : List (Id × Payload)} {pass : Value → Bool} {fieldName : String} {reads : Reads}
  {code : Value → Option Bytes} {glue pre : Bytes} {row : Id × Payload}

theorem mem_passingRows : row ∈ passingRows fieldName pass rows ↔
      row ∈ rows ∧ ∃ value, fieldOf fieldName row = some value ∧ pass value := by
  rw [passingRows, mem_filter, Option.any_eq_true]

theorem nodup_objectRows {typeId : Id} : (store.objectRows typeId).Nodup :=
  pairwise_objectRows.imp fun h heq => by
    subst heq
    exact lt_irrefl _ h

theorem mem_indexRows_coded (hindex : IndexConsistent schema store) (ht : t ∈ schema.types)
    (hifd : ifd ∈ t.indexedFields)
    (hcoded : Coded t ifd code glue) {entry : Bytes} {data : Payload} :
    (entry, data) ∈ store.indexRows t.typeId ifd.fieldId pre ↔
      pre <+: entry ∧ ∃ objectId value e, (objectId, data) ∈ store.objectRows t.typeId ∧
        fieldOf ifd.name (objectId, data) = some value ∧ code value = some e ∧
        entry = e ++ (glue ++ word objectId) := by
  rw [mem_indexRows, hindex t ht ifd hifd, and_comm]
  apply and_congr_right
  intro _
  constructor
  · rintro ⟨objectId, hobject, hkey⟩
    obtain ⟨value, e, hvalue, he, heq⟩ := (hcoded _ _ _).mp hkey
    exact ⟨objectId, value, e, mem_objectRows.mpr hobject, hvalue, he, (Key.fieldIndex.inj heq).2.2⟩
  · rintro ⟨objectId, value, e, hobject, hvalue, he, rfl⟩
    exact ⟨objectId, mem_objectRows.mp hobject, (hcoded _ _ _).mpr ⟨value, e, hvalue, he, rfl⟩⟩

theorem walkIndex_perm (hindex : IndexConsistent schema store) (ht : t ∈ schema.types)
    (hifd : ifd ∈ t.indexedFields)
    (hcoded : Coded t ifd code glue) {β : Type} {parse : Bytes → Option (β × Id)}
    (dec : Bytes → β) {pass : β → Bool} {stop : Bool} {wanted : Bytes → Bool}
    (hparse : ∀ value e objectId, code value = some e →
      parse (e ++ (glue ++ word objectId)) = some (dec e, objectId))
    (hwanted : ∀ value e objectId, code value = some e →
      (pre <+: e ++ (glue ++ word objectId) ∧ pass (dec e) = true ↔ wanted e = true))
    (hstop : stop = true → ∀ value value' e e' objectId objectId', code value = some e →
      code value' = some e' → e ++ (glue ++ word objectId) < e' ++ (glue ++ word objectId') →
      pass (dec e') = true → pass (dec e) = true) :
    (walkIndex parse pass stop (store.indexRows t.typeId ifd.fieldId pre)).Perm
      (passingRows ifd.name (fun value => (code value).any wanted) (store.objectRows t.typeId)) := by
  have hmem : ∀ entry data, (entry, data) ∈ store.indexRows t.typeId ifd.fieldId pre ↔ _ :=
    fun _ _ => mem_indexRows_coded hindex ht hifd hcoded
  rw [perm_ext_iff_of_nodup]
  · intro row
    rw [mem_walkIndex, mem_passingRows]
    · constructor
      · rintro ⟨entry, found, hentry, hfound, hpass⟩
        obtain ⟨hpre, objectId, value, e, hobject, hvalue, he, rfl⟩ := (hmem _ _).mp hentry
        rw [hparse value e objectId he] at hfound
        cases hfound
        refine ⟨hobject, value, hvalue, ?_⟩
        rw [he]
        exact (hwanted value e row.1 he).mp ⟨hpre, hpass⟩
      · rintro ⟨hobject, value, hvalue, hpass⟩
        obtain ⟨e, he, hwant⟩ := Option.any_eq_true _ _ |>.mp hpass
        obtain ⟨hpre, hpass⟩ := (hwanted value e row.1 he).mpr hwant
        exact ⟨_, dec e, (hmem _ _).mpr ⟨hpre, row.1, value, e, hobject, hvalue, he, rfl⟩,
          hparse value e row.1 he, hpass⟩
    · intro hs
      refine pairwise_indexRows.imp_of_mem ?_
      rintro ⟨x, data⟩ ⟨y, data'⟩ hx hy hlt u v hu hv hpass
      obtain ⟨-, objectId, value, e, -, -, he, rfl⟩ := (hmem _ _).mp hx
      obtain ⟨-, objectId', value', e', -, -, he', rfl⟩ := (hmem _ _).mp hy
      rw [hparse value e objectId he] at hu
      rw [hparse value' e' objectId' he'] at hv
      cases hu
      cases hv
      exact hstop hs value value' e e' objectId objectId' he he' hlt hpass
  · refine List.Nodup.sublist walkIndex_sublist (pairwise_filterMap.mpr ?_)
    refine pairwise_indexRows.imp_of_mem ?_
    rintro ⟨x, data⟩ ⟨y, data'⟩ hx hy hlt r hr r' hr' heq
    obtain ⟨-, objectId, value, e, hobject, hvalue, he, rfl⟩ := (hmem _ _).mp hx
    obtain ⟨-, objectId', value', e', hobject', hvalue', he', rfl⟩ := (hmem _ _).mp hy
    rw [hparse value e objectId he] at hr
    rw [hparse value' e' objectId' he'] at hr'
    cases hr
    cases hr'
    -- one object has one value, and so one entry
    cases heq
    cases hvalue.symm.trans hvalue'
    cases he.symm.trans he'
    exact lt_irrefl _ hlt
  · exact nodup_objectRows.filter _

theorem materialize_eq (h : ∀ row ∈ rows, row.2.isEmpty = false) :
    materialize reads t rows = rows.map (.ofRow t.name) := by
  have hfull : rows.filter (fun row => !row.2.isEmpty) = rows :=
    filter_eq_self.mpr fun row hrow => by rw [h row hrow]; rfl
  have hnone : rows.filter (fun row => row.2.isEmpty) = [] :=
    filter_eq_nil_iff.mpr fun row hrow => by rw [h row hrow]; exact Bool.false_ne_true
  rw [materialize, hfull, hnone]
  exact append_nil _

theorem isEmpty_of_mem_passingRows (h : row ∈ passingRows fieldName pass rows) :
    row.2.isEmpty = false := by
  obtain ⟨-, value, hvalue, -⟩ := mem_passingRows.mp h
  obtain ⟨objectId, data⟩ := row
  cases data with
  | empty => cases hvalue
  | _ => rfl

theorem materialize_perm {rows objects : List (Id × Payload)}
    (h : rows.Perm (passingRows fieldName pass objects)) :
    (materialize reads t rows).Perm ((passingRows fieldName pass objects).map (.ofRow t.name)) := by
  rw [materialize_eq fun row hrow => isEmpty_of_mem_passingRows (h.mem_iff.mp hrow)]
  exact h.map _

end

section

variable {schema : Schema} {reads : Reads} {t : TypeDef} {ifd : IndexedField} {target : Bytes}
  {op : CompareOp} {e : Bytes}

theorem ofBe_lt_two_pow (he : e.length = 8) : ofBe e < 2 ^ 64 := by
  have := ofBe_lt e
  rw [he] at this
  exact this

theorem toNat_ofBe (he : e.length = 8) : (UInt64.ofNat (ofBe e)).toNat = ofBe e := by
  rw [toNat_ofNat', mod_eq_of_lt (ofBe_lt_two_pow he)]

theorem ofBe_le_of_append_lt {e' x y : Bytes} (he : e.length = 8) (he' : e'.length = 8)
    (h : e ++ x < e' ++ y) : ofBe e ≤ ofBe e' := by
  by_contra hlt
  have hrev : e' < e := by
    have := be_lt_be (w := 8) (not_le.mp hlt) (ofBe_lt_two_pow he)
    rwa [← he, be_ofBe, he, ← he', be_ofBe] at this
  refine lt_asymm h (append_lt_append hrev (fun hpre => ?_) y x)
  exact lt_irrefl _ (hpre.eq_of_length (he'.trans he.symm) ▸ hrev)

theorem rangeEntries_none {fieldId : Id} :
    rangeEntries reads t fieldId op target none = reads.store.indexRows t.typeId fieldId [] := by
  cases op <;> rfl

theorem isUpper_iff : isUpper op = true ↔ op = .lt ∨ op = .le := decide_eq_true_iff

def encodeText : Value → Option Bytes
  | .string s => some (encodeBytesForIndex s)
  | _ => none

theorem coded_fixed (hs : ifd.kind ≠ .string) (hb : ifd.kind ≠ .bytes) :
    Coded t ifd (encodeFixed ifd.kind) [separator] := fun _ _ _ => indexKeyOf_fixed hs hb

theorem coded_string (hs : ifd.kind = .string) : Coded t ifd encodeText [] := by
  intro objectId fields key
  rw [indexKeyOf_string hs]
  constructor
  · rintro ⟨s, hvalue, rfl⟩
    exact ⟨_, _, hvalue, rfl, rfl⟩
  · rintro ⟨value, e, hvalue, he, rfl⟩
    cases value <;> cases he
    exact ⟨_, hvalue, rfl⟩

theorem filterScanViaIndex_perm (hindex : IndexConsistent schema reads.store) (ht : t ∈ schema.types)
    (hifd : ifd ∈ t.indexedFields) (hs : ifd.kind ≠ .string) (hb : ifd.kind ≠ .bytes)
    (htarget : target.length = 8) (op : CompareOp) :
    (filterScanViaIndex reads t ifd.fieldId op target none).Perm
      ((passingRows ifd.name (fun value => (encodeFixed ifd.kind value).any fun e =>
        op.holds (.ofNat (ofBe e)) (.ofNat (ofBe target))) (reads.store.objectRows t.typeId)).map
          (.ofRow t.name)) := by
  apply materialize_perm
  by_cases hop : op = .eq
  · subst hop
    refine walkIndex_perm hindex ht hifd (coded_fixed hs hb) (fun _ => ()) ?_ ?_ nofun
    · intro value e objectId he
      rw [← append_assoc, parseOwner_append]
    · intro value e objectId he
      have hlen := encodeFixed_length he
      simp only [and_true, CompareOp.holds, beq_iff_eq, ← UInt64.toNat_inj, toNat_ofBe hlen,
        toNat_ofBe htarget]
      rw [← append_assoc]
      constructor
      · intro hpre
        have heq : target ++ [separator] = e ++ [separator] := by
          refine (prefix_of_prefix_length_le hpre (prefix_append _ _) ?_).eq_of_length ?_
          · rw [length_append, length_append, htarget, hlen]
          · rw [length_append, length_append, htarget, hlen]
        rw [append_cancel_right heq]
      · intro heq
        have : e = target := by
          rw [← be_ofBe e, ← be_ofBe target, heq, hlen, htarget]
        rw [this]
        exact prefix_append _ _
  · rw [if_neg hop]
    rw [rangeEntries_none]
    refine walkIndex_perm hindex ht hifd (coded_fixed hs hb)
      (fun e => UInt64.ofNat (ofBe e)) ?_ ?_ ?_
    · intro value e objectId he
      exact parseFixed_append (encodeFixed_length he)
    · intro value e objectId he
      exact and_iff_right nil_prefix
    · intro hupper value value' e e' objectId objectId' he he' hlt hpass
      have hle := ofBe_le_of_append_lt (encodeFixed_length he) (encodeFixed_length he') hlt
      rw [← toNat_ofBe (encodeFixed_length he), ← toNat_ofBe (encodeFixed_length he'),
        ← le_iff_toNat_le] at hle
      rcases isUpper_iff.mp hupper with rfl | rfl
      · simp only [CompareOp.holds, decide_eq_true_eq] at hpass ⊢
        exact UInt64.lt_of_le_of_lt hle hpass
      · simp only [CompareOp.holds, decide_eq_true_eq] at hpass ⊢
        exact UInt64.le_trans hle hpass

theorem filterScanViaIndexVar_coded (hindex : IndexConsistent schema reads.store)
    (ht : t ∈ schema.types) (hifd : ifd ∈ t.indexedFields) {code : Value → Option Bytes}
    (hcoded : Coded t ifd code [])
    (hcode : ∀ value e, code value = some e → ∃ s, e = encodeBytesForIndex s) (target : Bytes)
    (op : CompareOp) :
    (filterScanViaIndexVar reads t ifd.fieldId op (encodeBytesForIndex target) none).Perm
      ((passingRows ifd.name (fun value => (code value).any fun e =>
        compareOrd e op (encodeBytesForIndex target)) (reads.store.objectRows t.typeId)).map
          (.ofRow t.name)) := by
  apply materialize_perm
  by_cases hop : op = .eq
  · subst hop
    refine walkIndex_perm hindex ht hifd hcoded (fun _ => ()) ?_ ?_ nofun
    · intro value e objectId he
      exact parseOwner_append
    · intro value e objectId he
      obtain ⟨s, rfl⟩ := hcode value e he
      rw [and_iff_left rfl, nil_append, compareOrd_encodeBytesForIndex, compareOrd, compareWith,
        decide_eq_true_iff, Option.some.injEq, compare_eq_iff_eq]
      constructor
      · intro hpre
        rcases prefix_or_prefix_of_prefix hpre (prefix_append _ _) with h | h
        · exact (eq_of_encode_isPrefix h).symm
        · exact eq_of_encode_isPrefix h
      · rintro rfl
        exact prefix_append _ _
  · rw [if_neg hop]
    refine walkIndex_perm hindex ht hifd hcoded id ?_ ?_ ?_
    · intro value e objectId he
      obtain ⟨s, rfl⟩ := hcode value e he
      exact parseVar_append
    · intro value e objectId he
      exact and_iff_right nil_prefix
    · intro hupper value value' e e' objectId objectId' he he' hlt hpass
      obtain ⟨s, rfl⟩ := hcode value e he
      obtain ⟨r, rfl⟩ := hcode value' e' he'
      have hle : encodeBytesForIndex s ≤ encodeBytesForIndex r := by
        by_contra hgt
        refine lt_asymm hlt (append_lt_append (not_le.mp hgt) (fun hpre => hgt ?_) _ _)
        rw [eq_of_encode_isPrefix hpre]
      simp only [id, compareOrd, compareWith] at hpass ⊢
      rcases isUpper_iff.mp hupper with rfl | rfl
      · simp only [decide_eq_true_eq, Option.some.injEq, compare_lt_iff_lt] at hpass ⊢
        exact lt_of_le_of_lt hle hpass
      · simp only [decide_eq_true_eq, Option.some.injEq, compare_lt_iff_lt, compare_eq_iff_eq,
          ← le_iff_lt_or_eq] at hpass ⊢
        exact le_trans hle hpass

theorem filterScanViaIndexVar_perm (hindex : IndexConsistent schema reads.store)
    (ht : t ∈ schema.types) (hifd : ifd ∈ t.indexedFields) (hs : ifd.kind = .string) (target : Bytes)
    (op : CompareOp) :
    (filterScanViaIndexVar reads t ifd.fieldId op (encodeBytesForIndex target) none).Perm
      ((passingRows ifd.name (fun value => (encodeText value).any fun e =>
        compareOrd e op (encodeBytesForIndex target)) (reads.store.objectRows t.typeId)).map
          (.ofRow t.name)) := by
  refine filterScanViaIndexVar_coded hindex ht hifd (coded_string hs) ?_ target op
  intro value e he
  cases value <;> cases he
  exact ⟨_, rfl⟩

end

variable {schema : Schema} {reads : Reads} {t : TypeDef} {f : FieldDef} {fieldName : String}
  {value : Value}

def Typed (schema : Schema) (store : Store) : Prop :=
  ∀ t ∈ schema.types, ∀ row ∈ store.objectRows t.typeId, ∀ fieldName value,
    fieldOf fieldName row = some value →
      ∃ f, t.getField fieldName = some f ∧ validateValue f value = .ok ()

theorem checkValue_ok {field expected : String} {admitted : Value → Bool} :
    checkValue field expected admitted value = .ok () ↔ value = .null ∨ admitted value = true := by
  rw [checkValue]
  split_ifs with h
  · simpa using h
  · simpa using h

theorem Typed.scalar (h : Typed schema reads.store) (ht : t ∈ schema.types)
    (hf : t.getField fieldName = some f) {st : ScalarType} (hst : f.fieldType = .scalar st)
    {row : Id × Payload} (hrow : row ∈ reads.store.objectRows t.typeId)
    (hvalue : fieldOf fieldName row = some value) : value = .null ∨ st.admits value := by
  obtain ⟨g, hg, hvalid⟩ := h t ht row hrow fieldName value hvalue
  cases hf.symm.trans hg
  rw [validateValue, hst] at hvalid
  exact checkValue_ok.mp hvalid

theorem passingRows_congr {pass pass' : Value → Bool} {rows : List (Id × Payload)}
    (h : ∀ row ∈ rows, ∀ value, fieldOf fieldName row = some value → pass value = pass' value) :
    passingRows fieldName pass rows = passingRows fieldName pass' rows := by
  apply filter_congr
  intro row hrow
  cases hvalue : fieldOf fieldName row with
  | none => rfl
  | some value => rw [any_some, any_some, h row hrow value hvalue]

theorem findIndexed_eq (ht : t ∈ schema.types) (hf : t.getField fieldName = some f)
    {ifd : IndexedField} (h : findIndexed t fieldName = some ifd) :
    ifd ∈ t.indexedFields ∧ ifd.name = fieldName ∧ ifd = .ofField f := by
  have hmem := mem_of_find?_eq_some h
  have hname : ifd.name = fieldName := by simpa using find?_some h
  refine ⟨hmem, hname, ?_⟩
  obtain ⟨g, hg, rfl⟩ := mem_map.mp hmem
  have hgf := Schema.getField_name ht (mem_filter.mp hg).1
  rw [← hname] at hf
  cases hgf.symm.trans hf
  rfl

end RhypeDb.Engine
