import RhypeDb.Storage.Key

/-! Per-block zone maps of `zone.rs`. A zone map records, for each block and field, bounds
on the extracted values of the block's entries; the rows of the serialized map are kept as
rows. -/

namespace RhypeDb.Storage

open List

/-- `ZoneFieldExtractor`: field ids with their order-preserving 64-bit encodings. -/
abbrev ZoneFieldExtractor (V : Type) := InternalKey → V → List (UInt32 × UInt64)

structure ZoneBuilder where
  fieldIds : List UInt32
  bounds : List (List (UInt64 × UInt64))

structure ZoneMap where
  fieldIds : List UInt32
  bounds : List (List (UInt64 × UInt64))

def noData : UInt64 × UInt64 := (~~~0, 0)

inductive CompareOp
  | eq
  | ne
  | lt
  | le
  | gt
  | ge
  deriving DecidableEq, Repr

structure FieldPredicate where
  fieldId : UInt32
  op : CompareOp
  target : UInt64

def CompareOp.holds (op : CompareOp) (value target : UInt64) : Bool :=
  match op with
  | .eq => value == target
  | .ne => value != target
  | .lt => value < target
  | .le => value ≤ target
  | .gt => target < value
  | .ge => target ≤ value

namespace ZoneBuilder

def new : ZoneBuilder := ⟨[], []⟩

/-- Grow the rows to cover `blockIdx`. -/
def grow (b : ZoneBuilder) (blockIdx : Nat) : ZoneBuilder :=
  { b with
    bounds := b.bounds ++ List.replicate (blockIdx + 1 - b.bounds.length)
      (List.replicate b.fieldIds.length noData) }

def column (b : ZoneBuilder) (fieldId : UInt32) : ZoneBuilder :=
  if fieldId ∈ b.fieldIds then b
  else { fieldIds := b.fieldIds ++ [fieldId], bounds := b.bounds.map (· ++ [noData]) }

def widen (b : ZoneBuilder) (blockIdx : Nat) (field : UInt32 × UInt64) : ZoneBuilder :=
  let b := b.column field.1
  { b with
    bounds := b.bounds.modify blockIdx fun row =>
      row.modify (b.fieldIds.idxOf field.1) fun cur => (min cur.1 field.2, max cur.2 field.2) }

def record (b : ZoneBuilder) (blockIdx : Nat) (zoneFields : List (UInt32 × UInt64)) :
    ZoneBuilder :=
  zoneFields.foldl (fun b field => b.widen blockIdx field) (b.grow blockIdx)

/-- `ZoneMap::read_from` of what `write_to` wrote. -/
def toZoneMap (b : ZoneBuilder) : ZoneMap := ⟨b.fieldIds, b.bounds⟩

end ZoneBuilder

namespace ZoneMap

def boundsAt (z : ZoneMap) (blockIdx : Nat) (fieldId : UInt32) : Option (UInt64 × UInt64) :=
  if fieldId ∈ z.fieldIds then
    (z.bounds[blockIdx]?).bind fun row => row[z.fieldIds.idxOf fieldId]?
  else none

def blockCouldMatch (z : ZoneMap) (blockIdx : Nat) (p : FieldPredicate) : Bool :=
  match z.boundsAt blockIdx p.fieldId with
  | none => true
  | some (lo, hi) =>
    if hi < lo then true
    else
      match p.op with
      | .eq => lo ≤ p.target && p.target ≤ hi
      | .ne => true
      | .lt => lo < p.target
      | .le => lo ≤ p.target
      | .gt => p.target < hi
      | .ge => p.target ≤ hi

variable {blockIdx : Nat} {z : ZoneMap}

theorem boundsAt_eq_some {fieldId : UInt32}
    {b : UInt64 × UInt64} : z.boundsAt blockIdx fieldId = some b ↔ fieldId ∈ z.fieldIds ∧
      ∃ row, z.bounds[blockIdx]? = some row ∧ row[z.fieldIds.idxOf fieldId]? = some b := by
  unfold boundsAt
  split_ifs with h
  · rw [Option.bind_eq_some_iff]
    simp only [h, true_and]
  · simp [h]

def Covers (z : ZoneMap) (blockIdx : Nat) (field : UInt32 × UInt64) : Prop :=
  ∃ lo hi, z.boundsAt blockIdx field.1 = some (lo, hi) ∧ lo ≤ field.2 ∧ field.2 ≤ hi

theorem blockCouldMatch_of_covers {p : FieldPredicate}
    {value : UInt64} (hc : z.Covers blockIdx (p.fieldId, value))
    (hp : p.op.holds value p.target = true) : z.blockCouldMatch blockIdx p = true := by
  obtain ⟨lo, hi, hb, hlo, hhi⟩ := hc
  simp only [blockCouldMatch, hb]
  split_ifs with h
  · rfl
  · cases hop : p.op with
    | eq =>
      obtain rfl : value = p.target := by simpa [hop, CompareOp.holds] using hp
      simpa using ⟨hlo, hhi⟩
    | ne => rfl
    | lt => simpa using UInt64.lt_of_le_of_lt hlo (by simpa [hop, CompareOp.holds] using hp)
    | le => simpa using UInt64.le_trans hlo (by simpa [hop, CompareOp.holds] using hp)
    | gt => simpa using UInt64.lt_of_lt_of_le (by simpa [hop, CompareOp.holds] using hp) hhi
    | ge => simpa using UInt64.le_trans (by simpa [hop, CompareOp.holds] using hp) hhi

end ZoneMap

namespace ZoneBuilder

def Rect (b : ZoneBuilder) : Prop := ∀ row ∈ b.bounds, row.length = b.fieldIds.length

variable {b : ZoneBuilder}

theorem rect_grow (hb : b.Rect) (i : Nat) : (b.grow i).Rect := by
  intro row hrow
  rcases mem_append.mp hrow with h | h
  · exact hb row h
  · rw [eq_of_mem_replicate h, length_replicate]
    rfl

theorem rect_column (hb : b.Rect) (f : UInt32) : (b.column f).Rect := by
  unfold column
  split_ifs with h
  · exact hb
  · intro row hrow
    obtain ⟨row', hrow', rfl⟩ := mem_map.mp hrow
    simp only [length_append, length_singleton, hb row' hrow']

theorem rect_widen (hb : b.Rect) (i : Nat) (field : UInt32 × UInt64) : (b.widen i field).Rect := by
  intro row hrow
  simp only [widen] at hrow
  obtain ⟨j, hj, rfl⟩ := mem_iff_getElem.mp hrow
  rw [getElem_modify]
  split_ifs with h
  · rw [length_modify]
    exact rect_column hb field.1 _ (getElem_mem _)
  · exact rect_column hb field.1 _ (getElem_mem _)

variable {field : UInt32 × UInt64} {j : Nat} {i : Nat}

theorem covers_iff :
    b.toZoneMap.Covers i field ↔ field.1 ∈ b.fieldIds ∧ ∃ row cur, b.bounds[i]? = some row ∧
      row[b.fieldIds.idxOf field.1]? = some cur ∧ cur.1 ≤ field.2 ∧ field.2 ≤ cur.2 := by
  constructor
  · rintro ⟨lo, hi, hb, hlo, hhi⟩
    obtain ⟨hmem, row, hrow, hcur⟩ := ZoneMap.boundsAt_eq_some.mp hb
    exact ⟨hmem, row, (lo, hi), hrow, hcur, hlo, hhi⟩
  · rintro ⟨hmem, row, cur, hrow, hcur, hlo, hhi⟩
    exact ⟨cur.1, cur.2, ZoneMap.boundsAt_eq_some.mpr ⟨hmem, row, hrow, hcur⟩, hlo, hhi⟩

theorem covers_grow (i : Nat) (h : b.toZoneMap.Covers j field) :
    (b.grow i).toZoneMap.Covers j field := by
  obtain ⟨hmem, row, cur, hrow, hcur⟩ := covers_iff.mp h
  refine covers_iff.mpr ⟨hmem, row, cur, ?_, hcur⟩
  exact (getElem?_append_left (List.getElem?_eq_some_iff.mp hrow).1).trans hrow

theorem covers_column (f : UInt32) (h : b.toZoneMap.Covers j field) :
    (b.column f).toZoneMap.Covers j field := by
  unfold column
  split_ifs with hf
  · exact h
  · obtain ⟨hmem, row, cur, hrow, hcur, hle⟩ := covers_iff.mp h
    refine covers_iff.mpr ⟨mem_append_left _ hmem, row ++ [noData], cur, ?_, ?_, hle⟩
    · simp only [getElem?_map, hrow, Option.map_some]
    · rw [idxOf_append_of_mem hmem,
        getElem?_append_left (List.getElem?_eq_some_iff.mp hcur).1, hcur]

theorem fieldIds_widen (b : ZoneBuilder) (i : Nat) (field : UInt32 × UInt64) :
    (b.widen i field).fieldIds = (b.column field.1).fieldIds := rfl

theorem bounds_widen (b : ZoneBuilder) (i : Nat) (field : UInt32 × UInt64) :
    (b.widen i field).bounds = (b.column field.1).bounds.modify i fun row =>
      row.modify ((b.column field.1).fieldIds.idxOf field.1)
        fun cur => (min cur.1 field.2, max cur.2 field.2) := rfl

theorem uint64_le_max (a b : UInt64) : a ≤ max a b ∧ b ≤ max a b := by
  change a ≤ (if a ≤ b then b else a) ∧ b ≤ (if a ≤ b then b else a)
  split_ifs with h
  · exact ⟨h, UInt64.le_refl b⟩
  · exact ⟨UInt64.le_refl a, UInt64.le_of_lt (UInt64.not_le.mp h)⟩

theorem covers_widen (i : Nat) (field : UInt32 × UInt64) {field' : UInt32 × UInt64}
    (h : b.toZoneMap.Covers j field') : (b.widen i field).toZoneMap.Covers j field' := by
  obtain ⟨hmem, row, cur, hrow, hcur, hlo, hhi⟩ := covers_iff.mp (covers_column field.1 h)
  rw [covers_iff, fieldIds_widen, bounds_widen]
  refine ⟨hmem, ?_⟩
  by_cases hij : i = j
  · subst hij
    rw [getElem?_modify_eq, hrow]
    by_cases hcol : (b.column field.1).fieldIds.idxOf field.1 =
        (b.column field.1).fieldIds.idxOf field'.1
    · refine ⟨_, (min cur.1 field.2, max cur.2 field.2), rfl, ?_,
        UInt64.le_trans Std.min_le_left hlo, UInt64.le_trans hhi (uint64_le_max cur.2 field.2).1⟩
      rw [hcol, getElem?_modify_eq, hcur]
      rfl
    · exact ⟨_, cur, rfl, (getElem?_modify_ne _ _ hcol).trans hcur, hlo, hhi⟩
  · rw [getElem?_modify_ne _ _ hij]
    exact ⟨row, cur, hrow, hcur, hlo, hhi⟩

theorem mem_fieldIds_column (b : ZoneBuilder) (f : UInt32) : f ∈ (b.column f).fieldIds := by
  unfold column
  split_ifs with h
  · exact h
  · exact mem_append_right _ (mem_singleton_self f)

theorem length_bounds_column (b : ZoneBuilder) (f : UInt32) :
    (b.column f).bounds.length = b.bounds.length := by
  unfold column
  split_ifs with h
  · rfl
  · exact length_map _

theorem covers_widen_self (hb : b.Rect) (hi : i < b.bounds.length)
    (field : UInt32 × UInt64) : (b.widen i field).toZoneMap.Covers i field := by
  have hmem := mem_fieldIds_column b field.1
  have hi' : i < (b.column field.1).bounds.length := (length_bounds_column b field.1).symm ▸ hi
  have hrow := getElem?_eq_getElem hi'
  have hidx : (b.column field.1).fieldIds.idxOf field.1 < (b.column field.1).bounds[i].length := by
    rw [rect_column hb field.1 _ (getElem_mem hi')]
    exact idxOf_lt_length_of_mem hmem
  rw [covers_iff, fieldIds_widen, bounds_widen, getElem?_modify_eq, hrow]
  set cur := ((b.column field.1).bounds[i])[(b.column field.1).fieldIds.idxOf field.1] with hcur
  refine ⟨hmem, _, (min cur.1 field.2, max cur.2 field.2), rfl, ?_,
    Std.min_le_right, (uint64_le_max cur.2 field.2).2⟩
  rw [getElem?_modify_eq, getElem?_eq_getElem hidx]
  rfl

theorem length_bounds_widen (b : ZoneBuilder) (i : Nat) (field : UInt32 × UInt64) :
    (b.widen i field).bounds.length = b.bounds.length := by
  rw [bounds_widen, length_modify, length_bounds_column]

theorem foldl_widen (hb : b.Rect) (hi : i < b.bounds.length) (fields : List (UInt32 × UInt64)) :
    (fields.foldl (fun b field => b.widen i field) b).Rect ∧
      (∀ j field, b.toZoneMap.Covers j field →
        (fields.foldl (fun b field => b.widen i field) b).toZoneMap.Covers j field) ∧
      ∀ field ∈ fields, (fields.foldl (fun b field => b.widen i field) b).toZoneMap.Covers i field := by
  induction fields generalizing b with
  | nil => exact ⟨hb, fun _ _ h => h, by simp⟩
  | cons f fields ih =>
    obtain ⟨hrect, hkeep, hnew⟩ := ih (rect_widen hb i f) ((length_bounds_widen b i f).symm ▸ hi)
    refine ⟨hrect, fun j field h => hkeep j field (covers_widen i f h), fun field hfield => ?_⟩
    rcases mem_cons.mp hfield with rfl | hfield
    · exact hkeep i field (covers_widen_self hb hi field)
    · exact hnew field hfield

theorem covers_record (hb : b.Rect) (i : Nat) (fields : List (UInt32 × UInt64)) :
    (b.record i fields).Rect ∧
      (∀ j field, b.toZoneMap.Covers j field → (b.record i fields).toZoneMap.Covers j field) ∧
      ∀ field ∈ fields, (b.record i fields).toZoneMap.Covers i field := by
  have hi : i < (b.grow i).bounds.length := by
    simp only [grow, length_append, length_replicate]
    omega
  obtain ⟨hrect, hkeep, hnew⟩ := foldl_widen (rect_grow hb i) hi fields
  exact ⟨hrect, fun j field h => hkeep j field (covers_grow i h), hnew⟩

end ZoneBuilder

end RhypeDb.Storage
