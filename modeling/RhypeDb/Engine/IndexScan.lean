import RhypeDb.Engine.ScanRows

/-! The index of a field answers a comparison as its objects do, looked at one by one. -/

namespace RhypeDb.Engine

open ByteOrder KeyBuilder List Option Storage

def passesBytes (op : CompareOp) (target : Bytes) : Value → Bool
  | .bytes b => compareOrd b op target
  | _ => false

def passesInteger (op : CompareOp) (target : Int) (value : Value) : Bool :=
  (intOf value).any fun i => compareOrd i op target

def passesTarget (op : CompareOp) : Value → Value → Bool
  | .bool target => passesBool op target
  | .string target => passesString op target
  | .bytes target => passesBytes op target
  | target => fun value => (intOf target).any fun i => passesInteger op i value

def encodeBytes : Value → Option Bytes
  | .bytes b => some (encodeBytesForIndex b)
  | _ => none

def indexScan (reads : Reads) (t : TypeDef) (ifd : IndexedField) (op : CompareOp)
    (target : Value) : Option (List Object) :=
  match ifd.kind with
  | .string => (encodeText target).map fun e => filterScanViaIndexVar reads t ifd.fieldId op e none
  | .bytes => (encodeBytes target).map fun e => filterScanViaIndexVar reads t ifd.fieldId op e none
  | kind => (encodeFixed kind target).map fun e => filterScanViaIndex reads t ifd.fieldId op e none

section

variable {schema : Schema} {reads : Reads} {t : TypeDef} {f : FieldDef} {ifd : IndexedField}
  {st : ScalarType} {target : Value}

theorem indexKeyOf_bytes {objectId : Id} {fields : FieldMap} {key : Key} (hb : ifd.kind = .bytes) :
    indexKeyOf t objectId fields ifd = some key ↔ ∃ b, fields.lookup ifd.name = some (.bytes b) ∧
      key = .fieldIndex t.typeId ifd.fieldId (encodeBytesForIndex b ++ word objectId) := by
  rw [indexKeyOf, hb, bind_eq_some_iff]
  constructor
  · rintro ⟨value, hvalue, h⟩
    cases value with
    | bytes b =>
      cases h
      exact ⟨b, hvalue, rfl⟩
    | null => cases h
    | _ => cases h
  · rintro ⟨b, hvalue, rfl⟩
    exact ⟨_, hvalue, rfl⟩

theorem coded_bytes (hb : ifd.kind = .bytes) : Coded t ifd encodeBytes [] := by
  intro objectId fields key
  rw [indexKeyOf_bytes hb]
  constructor
  · rintro ⟨b, hvalue, rfl⟩
    exact ⟨_, _, hvalue, rfl, rfl⟩
  · rintro ⟨value, e, hvalue, he, rfl⟩
    cases value <;> cases he
    exact ⟨_, hvalue, rfl⟩

theorem encodeIntForZone_passes {e : Bytes} (htarget : st.admits target)
    (he : encodeIntForZone target = some e) (op : CompareOp) {value : Value}
    (hvalue : value = .null ∨ st.admits value) :
    ((encodeIntForZone value).any fun e' => op.holds (.ofNat (ofBe e')) (.ofNat (ofBe e))) =
      (intOf target).any fun i => passesInteger op i value := by
  obtain ⟨i, hi, hword⟩ := encodeIntForZone_shift htarget he
  rw [hi, any_some, passesInteger]
  rcases hvalue with rfl | hadmits
  · rfl
  · cases he' : encodeIntForZone value with
    | none => cases value <;> first | rfl | cases he'
    | some e' =>
      obtain ⟨j, hj, hword'⟩ := encodeIntForZone_shift hadmits he'
      rw [hj, any_some, any_some]
      exact holds_eq_compareOrd op hword' hword

theorem integer_target (hkind : (IndexedField.ofField f).kind = .integer)
    (hst : f.fieldType = .scalar st) (hordered : st ≠ .json) (htarget : st.admits target)
    (op : CompareOp) : (∃ e, encodeIntForZone target = some e) ∧
      passesTarget op target = fun value => (intOf target).any fun i => passesInteger op i value := by
  rw [IndexedField.ofField, hst] at hkind
  cases st with
  | string => cases hkind
  | bytes => cases hkind
  | bool => cases hkind
  | f32 => cases hkind
  | f64 => cases hkind
  | json => exact absurd rfl hordered
  | _ =>
    cases target <;> cases htarget
    exact ⟨⟨_, rfl⟩, rfl⟩

theorem kind_target (hst : f.fieldType = .scalar st) (htarget : st.admits target) :
    ((IndexedField.ofField f).kind = .string → ∃ s, target = .string s) ∧
    ((IndexedField.ofField f).kind = .bytes → ∃ b, target = .bytes b) ∧
    ((IndexedField.ofField f).kind = .bool → ∃ b, target = .bool b) := by
  rw [IndexedField.ofField, hst]
  refine ⟨fun hkind => ?_, fun hkind => ?_, fun hkind => ?_⟩
  · cases st <;> cases hkind
    cases target <;> cases htarget
    exact ⟨_, rfl⟩
  · cases st <;> cases hkind
    cases target <;> cases htarget
    exact ⟨_, rfl⟩
  · cases st <;> cases hkind
    cases target <;> cases htarget
    exact ⟨_, rfl⟩

/-- Where the entries of an index are those of the objects, and these hold values of the field's
type or null, scanning the index for a target finds the objects that pass it. -/
theorem index_scan_eq_fallback (hindex : IndexConsistent schema reads.store)
    (ht : t ∈ schema.types) (hf : t.getField f.name = some f)
    (hifd : findIndexed t f.name = some ifd) (hst : f.fieldType = .scalar st)
    (hordered : st ≠ .json) (hfloat : ifd.kind ≠ .float)
    (hvalues : ∀ row ∈ reads.store.objectRows t.typeId, ∀ value,
      fieldOf f.name row = some value → value = .null ∨ st.admits value)
    (htarget : st.admits target) (op : CompareOp) :
    ∃ objects, indexScan reads t ifd op target = some objects ∧
      objects.Perm (filterScanFallback reads t f.name none (passesTarget op target)) := by
  obtain ⟨hmem, hname, hfield⟩ := findIndexed_eq ht hf hifd
  obtain ⟨hstring, hbytes, hbool⟩ := kind_target hst htarget
  have hfallback : ∀ pass, filterScanFallback reads t f.name none pass =
      (passingRows ifd.name pass (reads.store.objectRows t.typeId)).map (.ofRow t.name) := by
    intro pass
    rw [hname]
    rfl
  rw [hfallback]
  unfold indexScan
  cases hkind : ifd.kind with
  | float => exact absurd hkind hfloat
  | string =>
    obtain ⟨s, rfl⟩ := hstring (hfield ▸ hkind)
    refine ⟨_, rfl, ?_⟩
    have hpass : passesTarget op (.string s) = fun value => (encodeText value).any fun e =>
        compareOrd e op (encodeBytesForIndex s) := by
      funext value
      cases value with
      | string r => exact (compareOrd_encodeBytesForIndex r op s).symm
      | _ => rfl
    rw [hpass]
    exact filterScanViaIndexVar_perm hindex ht hmem hkind s op
  | bytes =>
    obtain ⟨b, rfl⟩ := hbytes (hfield ▸ hkind)
    refine ⟨_, rfl, ?_⟩
    have hpass : passesTarget op (.bytes b) = fun value => (encodeBytes value).any fun e =>
        compareOrd e op (encodeBytesForIndex b) := by
      funext value
      cases value with
      | bytes r => exact (compareOrd_encodeBytesForIndex r op b).symm
      | _ => rfl
    have hcode : ∀ value e, encodeBytes value = some e → ∃ s, e = encodeBytesForIndex s := by
      intro value e he
      cases value <;> cases he
      exact ⟨_, rfl⟩
    rw [hpass]
    exact filterScanViaIndexVar_coded hindex ht hmem (coded_bytes hkind) hcode b op
  | bool =>
    obtain ⟨b, rfl⟩ := hbool (hfield ▸ hkind)
    refine ⟨_, rfl, ?_⟩
    have hperm := filterScanViaIndex_perm hindex ht hmem (by rw [hkind]; decide)
      (by rw [hkind]; decide) (be_length 8 (if b then 1 else 0)) op
    rw [hkind] at hperm
    have hpass : passesTarget op (.bool b) = fun value => (encodeFixed .bool value).any fun e =>
        op.holds (.ofNat (ofBe e)) (.ofNat (ofBe (be 8 (if b then 1 else 0)))) := by
      funext value
      cases value with
      | bool r => cases r <;> cases b <;> cases op <;> rfl
      | _ => rfl
    rw [hpass]
    exact hperm
  | integer =>
    obtain ⟨⟨e, he⟩, hpass⟩ := integer_target (hfield ▸ hkind) hst hordered htarget op
    refine ⟨filterScanViaIndex reads t ifd.fieldId op e none, ?_, ?_⟩
    · exact congrArg (Option.map _) he
    · have hperm := filterScanViaIndex_perm hindex ht hmem (by rw [hkind]; decide)
        (by rw [hkind]; decide) (@encodeFixed_length .integer _ _ he) op
      rw [hkind] at hperm
      have hrows : passingRows ifd.name (passesTarget op target)
          (reads.store.objectRows t.typeId) = passingRows ifd.name (fun value =>
            (encodeFixed .integer value).any fun e' =>
              op.holds (.ofNat (ofBe e')) (.ofNat (ofBe e))) (reads.store.objectRows t.typeId) := by
        apply passingRows_congr
        intro row hrow value hvalue
        rw [hname] at hvalue
        rw [hpass]
        exact (encodeIntForZone_passes htarget he op (hvalues row hrow value hvalue)).symm
      rw [hrows]
      exact hperm

def ranksSchema : Schema where
  types :=
    [{ name := "Note"
       typeId := 1
       fields :=
        [{ name := "rank", fieldType := .scalar .i64, directives := [.indexed], fieldId := 1,
           relId := 0 }] }]

def rankField : FieldDef :=
  { name := "rank", fieldType := .scalar .i64, directives := [.indexed], fieldId := 1, relId := 0 }

def rankedNotes : TypeDef := { name := "Note", typeId := 1, fields := [rankField] }

def rankedEvents : List Ledger.Event :=
  [.call (.create "Note" (AList.singleton "rank" (.i64 (-1)))),
    .call (.create "Note" (AList.singleton "rank" (.i64 3))),
    .call (.create "Note" (AList.singleton "rank" .null))]

def rankedReads : Reads where
  store := (Run.exec (Ledger.step ranksSchema) .new rankedEvents).db.store
  scanFiltered typeId _ :=
    (Run.exec (Ledger.step ranksSchema) .new rankedEvents).db.store.objectRows typeId
  scanLimited typeId fieldId pre n :=
    ((Run.exec (Ledger.step ranksSchema) .new rankedEvents).db.store.indexRows typeId fieldId
      pre).take n
  scanFromLimited typeId fieldId start n :=
    (((Run.exec (Ledger.step ranksSchema) .new rankedEvents).db.store.indexRows typeId fieldId
      []).filter fun e => decide (start ≤ e.1)).take n

theorem rankedReads_consistent : IndexConsistent ranksSchema rankedReads.store := by
  have hkeeps : Run.Along (Ledger.step ranksSchema) (KeepsIndex ranksSchema) .new rankedEvents := by
    decide +kernel
  exact (Run.exec_invariant (I := fun l => Indexed ranksSchema l.db.store)
    (fun _ _ h hkeeps => h.step hkeeps) Indexed.empty hkeeps).consistent

theorem index_scan_eq_fallback_ranked : ∃ objects,
    indexScan rankedReads rankedNotes (.ofField rankField) .lt (.i64 0) = some objects ∧
      objects.Perm (filterScanFallback rankedReads rankedNotes "rank" none
        (passesTarget .lt (.i64 0))) := by
  refine @index_scan_eq_fallback ranksSchema rankedReads rankedNotes rankField _ .i64 _
    rankedReads_consistent (mem_singleton_self _) rfl rfl rfl (by decide) (by decide) ?_ rfl
    .lt
  have hall : ∀ row ∈ rankedReads.store.objectRows rankedNotes.typeId,
      (fieldOf "rank" row).all (fun value => decide (value = .null) || ScalarType.i64.admits value) =
        true := by
    decide +kernel
  intro row hrow value hvalue
  have hrow := hall row hrow
  have hvalue : fieldOf "rank" row = some value := hvalue
  rw [hvalue, all_some, Bool.or_eq_true, decide_eq_true_iff] at hrow
  exact hrow

end

/-- `field_index_var`. -/
def varKey (typeId fieldId : Id) (value : Bytes) (objectId : Id) : Bytes :=
  encode (.fieldIndex typeId fieldId (encodeBytesForIndex value ++ word objectId))

variable {typeId fieldId : Id} {a b : Bytes} {i j : Id}

theorem encode_isPrefix_append {rest : Bytes} :
    encodeBytesForIndex a <+: encodeBytesForIndex b ++ rest ↔ a = b := by
  constructor
  · intro h
    rcases prefix_or_prefix_of_prefix h (prefix_append _ _) with h | h
    · exact eq_of_encode_isPrefix h
    · exact (eq_of_encode_isPrefix h).symm
  · rintro rfl
    exact prefix_append _ _

theorem varKey_lt :
    varKey typeId fieldId a i < varKey typeId fieldId b j ↔ a < b ∨ a = b ∧ i < j := by
  have hkey : varKey typeId fieldId a i < varKey typeId fieldId b j ↔
      encodeBytesForIndex a ++ word i < encodeBytesForIndex b ++ word j := by
    simp only [varKey, encode, path, cons_lt_cons_self, append_lt_append_iff]
  have happend : ∀ {a b : Bytes} (i j : Id), a < b →
      encodeBytesForIndex a ++ word i < encodeBytesForIndex b ++ word j := by
    intro a b i j hlt
    refine append_lt_append (encodeBytesForIndex_strictMono hlt) (fun hpre => ?_) _ _
    rw [eq_of_encode_isPrefix hpre] at hlt
    exact lt_irrefl _ hlt
  rw [hkey]
  rcases lt_trichotomy a b with h | rfl | h
  · exact iff_of_true (happend i j h) (.inl h)
  · rw [append_lt_append_iff, word_lt_word_iff]
    exact ⟨fun hlt => .inr ⟨rfl, hlt⟩, fun hlt => hlt.elim (absurd · (lt_irrefl a)) And.right⟩
  · refine iff_of_false (lt_asymm (happend j i h)) ?_
    rintro (hlt | ⟨rfl, -⟩)
    · exact lt_asymm h hlt
    · exact lt_irrefl _ h

theorem varKey_inj : varKey typeId fieldId a i = varKey typeId fieldId b j ↔ a = b ∧ i = j := by
  constructor
  · intro h
    have hentry := (Key.fieldIndex.inj (encode_injective h)).2.2
    have hparse := congrArg parseVar hentry
    rw [parseVar_append, parseVar_append, Option.some.injEq, Prod.mk.injEq] at hparse
    exact ⟨encodeBytesForIndex_strictMono.injective hparse.1, hparse.2⟩
  · rintro ⟨rfl, rfl⟩
    rfl

/-- The encoding keeps the order of values, and says where they end: at its first pair of zero
bytes, whatever follows. The keys of a field are in the order of value and object, and are of one
value and object. -/
theorem encodeBytesForIndex_exact (typeId fieldId : Id) :
    (∀ a b, encodeBytesForIndex a < encodeBytesForIndex b ↔ a < b) ∧
    (∀ a b rest, encodeBytesForIndex a <+: encodeBytesForIndex b ++ rest ↔ a = b) ∧
    (∀ a rest, findTerminator (encodeBytesForIndex a ++ rest) =
      some ((encodeBytesForIndex a).length - 2)) ∧
    (∀ a b i j, varKey typeId fieldId a i < varKey typeId fieldId b j ↔ a < b ∨ a = b ∧ i < j) ∧
    (∀ a b i j, varKey typeId fieldId a i = varKey typeId fieldId b j ↔ a = b ∧ i = j) ∧
    ∀ a i, parseVar (encodeBytesForIndex a ++ word i) = some (encodeBytesForIndex a, i) :=
  ⟨fun _ _ => encodeBytesForIndex_strictMono.lt_iff_lt, fun _ _ _ => encode_isPrefix_append,
    fun a rest => findTerminator_append (findTerminator_encode a) rest, fun _ _ _ _ => varKey_lt,
    fun _ _ _ _ => varKey_inj, fun _ _ => parseVar_append⟩

end RhypeDb.Engine
