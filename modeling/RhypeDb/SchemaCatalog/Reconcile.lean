import RhypeDb.SchemaCatalog.Growth

/-! What a reconciliation leaves of each row: the live rows that the schema does not name are
retired, a dropped type's with all that is of it, and all other rows are as they were. -/

namespace RhypeDb.SchemaCatalog

open Fallible Lineage List SortedMap
open Option hiding mem_map

section

variable {κ : Type} [LinearOrder κ]

theorem lookup_tombstoneRow (reason : RetireReason) (m : SortedMap κ IdEntry) (n k : κ) :
    (tombstoneRow reason m n).lookup k =
      if k = n then (m.lookup k).map fun e => e.tombstone reason else m.lookup k := by
  unfold tombstoneRow
  cases hn : m.lookup n with
  | none =>
    split_ifs with hk
    · rw [hk, hn]
      rfl
    · rfl
  | some e =>
    rw [lookup_insert]
    split_ifs with hk
    · rw [hk, hn]
      rfl
    · rfl

theorem lookup_tombstoneAll (reason : RetireReason) (names : List κ) (m : SortedMap κ IdEntry)
    (k : κ) : (tombstoneAll reason names m).lookup k =
      if k ∈ names then (m.lookup k).map fun e => e.tombstone reason else m.lookup k := by
  induction names generalizing m with
  | nil => rfl
  | cons n names ih =>
    change (tombstoneAll reason names (tombstoneRow reason m n)).lookup k = _
    rw [ih, lookup_tombstoneRow]
    by_cases hk : k = n
    · subst hk
      simp only [if_true, mem_cons, true_or]
      split_ifs
      · -- a second tombstone of the same kind changes nothing
        rw [Option.map_map]
        rfl
      · rfl
    · simp only [mem_cons, hk, false_or, if_false]

variable {schema : Schema} {cat : Catalog} {t : String}

/-- A live row that the schema does not name. -/
def Retires (schema : Schema) (cat : Catalog) (p : Path) : Prop :=
  ∃ e, cat.row p = some e ∧ e.status = .live ∧ ¬ schema.Names p

theorem mem_droppedTypes : t ∈ droppedTypes schema cat ↔ Retires schema cat (.type t) := by
  unfold droppedTypes Retires
  simp only [mem_map, mem_filter, Bool.and_eq_true, decide_eq_true_eq]
  constructor
  · rintro ⟨⟨t', e⟩, ⟨hmem, hlive, hnone⟩, rfl⟩
    refine ⟨e, lookup_eq_some.mpr hmem, hlive, fun hnamed => ?_⟩
    have hsome : (schema.types.lookup t').isSome := hnamed
    rw [isNone_iff_eq_none] at hnone
    rw [hnone] at hsome
    cases hsome
  · rintro ⟨e, hrow, hlive, hnamed⟩
    refine ⟨(t, e), ⟨lookup_eq_some.mp hrow, hlive, ?_⟩, rfl⟩
    have hnot : ¬ (schema.types.lookup t).isSome := hnamed
    rwa [not_isSome_iff_eq_none, ← isNone_iff_eq_none] at hnot

variable {entries : SortedMap Qualified IdEntry} {qual : Qualified}

theorem mem_dropped (named : Qualified → Bool) :
    qual ∈ (entries.entries.filter fun e => decide (e.2.status = .live) &&
        (schema.types.lookup (splitQualified e.1).1).isSome && !named e.1).map Prod.fst ↔
      ∃ e, entries.lookup qual = some e ∧ e.status = .live ∧
        (schema.types.lookup (splitQualified qual).1).isSome ∧ named qual = false := by
  simp only [mem_map, mem_filter, Bool.and_eq_true, decide_eq_true_eq, Bool.not_eq_true']
  constructor
  · rintro ⟨⟨q, e⟩, ⟨hmem, ⟨hlive, htype⟩, hnot⟩, rfl⟩
    exact ⟨e, lookup_eq_some.mpr hmem, hlive, htype, hnot⟩
  · rintro ⟨e, hrow, hlive, htype, hnot⟩
    exact ⟨(qual, e), ⟨lookup_eq_some.mp hrow, ⟨hlive, htype⟩, hnot⟩, rfl⟩

theorem mem_cascaded :
    qual ∈ cascaded schema cat entries ↔ ∃ e, entries.lookup qual = some e ∧ e.status = .live ∧
      Retires schema cat (.type (splitQualified qual).1) := by
  unfold cascaded
  simp only [mem_map, mem_filter, Bool.and_eq_true, decide_eq_true_eq, mem_droppedTypes]
  constructor
  · rintro ⟨⟨q, e⟩, ⟨hmem, hlive, htype⟩, rfl⟩
    exact ⟨e, lookup_eq_some.mpr hmem, hlive, htype⟩
  · rintro ⟨e, hrow, hlive, htype⟩
    exact ⟨(qual, e), ⟨lookup_eq_some.mp hrow, hlive, htype⟩, rfl⟩

theorem Parents.retires_type (h : Parents cat.row) {p : Path} {e : IdEntry}
    (hrow : cat.row p = some e) (hlive : e.status = .live) (hparent : p.parent = some t)
    (htype : schema.types.lookup t = none) : Retires schema cat (.type t) := by
  obtain ⟨e', hrow', hdead⟩ := h p e t hrow hparent
  refine ⟨e', hrow', ?_, fun hnamed => ?_⟩
  · cases hst : e'.status with
    | live => rfl
    | tombstoned =>
      rw [hlive] at hdead
      cases hdead hst
  · have hsome : (schema.types.lookup t).isSome := hnamed
    rw [htype] at hsome
    cases hsome

theorem Schema.not_names_of_type {p : Path} (hparent : p.parent = some t)
    (htype : ¬ (schema.types.lookup t).isSome) : ¬ schema.Names p := by
  rw [not_isSome_iff_eq_none] at htype
  have hfield : ∀ qual : Qualified, (splitQualified qual).1 = t → schema.field? qual = none := by
    rintro qual rfl
    unfold Schema.field?
    rw [htype]
    rfl
  cases p with
  | type name => cases hparent
  | field qual =>
    intro hnamed
    have hsome : (schema.field? qual).isSome := hnamed
    rw [hfield qual (Option.some.inj hparent)] at hsome
    cases hsome
  | relation qual =>
    intro hnamed
    have hany : (schema.field? qual).any FieldDef.isRelation := hnamed
    rw [hfield qual (Option.some.inj hparent)] at hany
    cases hany

theorem mem_dropped_or_cascaded (h : Parents cat.row) (path : Qualified → Path)
    {named : Qualified → Bool} (hrow : ∀ q, cat.row (path q) = entries.lookup q)
    (hparent : ∀ q, (path q).parent = some (splitQualified q).1)
    (hnamed : ∀ q, schema.Names (path q) ↔ named q = true) {dropped : List Qualified}
    (hdropped : ∀ q, q ∈ dropped ↔ ∃ e, entries.lookup q = some e ∧ e.status = .live ∧
      (schema.types.lookup (splitQualified q).1).isSome ∧ named q = false) :
    qual ∈ dropped ∨ qual ∈ cascaded schema cat entries ↔ Retires schema cat (path qual) := by
  rw [hdropped, mem_cascaded]
  constructor
  · rintro (⟨e, he, hlive, -, hnot⟩ | ⟨e, he, hlive, -, -, -, htype⟩)
    · refine ⟨e, (hrow qual).trans he, hlive, fun hnames => ?_⟩
      rw [(hnamed qual).mp hnames] at hnot
      cases hnot
    · exact ⟨e, (hrow qual).trans he, hlive, Schema.not_names_of_type (hparent qual) htype⟩
  · rintro ⟨e, he, hlive, hnot⟩
    rw [hrow] at he
    cases htype : schema.types.lookup (splitQualified qual).1 with
    | some fields =>
      have hname : named qual = false :=
        Bool.eq_false_of_not_eq_true fun hn => hnot ((hnamed qual).mpr hn)
      exact .inl ⟨e, he, hlive, rfl, hname⟩
    | none => exact .inr ⟨e, he, hlive,
        h.retires_type ((hrow qual).trans he) hlive (hparent qual) htype⟩

theorem mem_droppedFields (h : Parents cat.row) :
    qual ∈ droppedFields schema cat ∨ qual ∈ cascaded schema cat cat.fieldEntries ↔
      Retires schema cat (.field qual) := by
  refine mem_dropped_or_cascaded h .field (fun _ => rfl) (fun _ => rfl)
    (fun _ => Iff.rfl) fun q => ?_
  rw [← mem_dropped fun q => (schema.field? q).isSome]
  simp only [droppedFields, not_isSome]

theorem mem_droppedRels (h : Parents cat.row) :
    qual ∈ droppedRels schema cat ∨ qual ∈ cascaded schema cat cat.relEntries ↔
      Retires schema cat (.relation qual) :=
  mem_dropped_or_cascaded h .relation (fun _ => rfl) (fun _ => rfl)
    (fun _ => Iff.rfl) fun _ => mem_dropped fun q => (schema.field? q).any FieldDef.isRelation

end

variable {schema : Schema} {plans : SortedMap Nat PlanRow} {cat cat' : Catalog} {qual : Qualified}
  {e : IdEntry}

structure Reconciled (schema : Schema) (plans : SortedMap Nat PlanRow) (cat grown cat' : Catalog) :
    Prop where
  grows : Grown schema cat grown
  covers : Covers schema grown
  next : cat'.next = grown.next
  retired : ∀ {p}, Retires schema cat p →
    ∃ reason, cat'.row p = (grown.row p).map fun e => e.tombstone reason
  same : ∀ {p}, ¬ Retires schema cat p → cat'.row p = grown.row p
  live : ∀ {p e}, schema.Names p → cat.row p = some e → e.status = .live
  kinds : ∀ {qual e f}, cat.row (.field qual) = some e → schema.field? qual = some f →
    e.kind = schemaKind f.fieldType ∨
      (resumablePlanForKindChange plans qual e.kind (schemaKind f.fieldType)).isSome

theorem retiredId_eq_none {κ : Type} [LinearOrder κ] {entries : SortedMap κ IdEntry} {k : κ}
    (h : retiredId entries k = none) (he : entries.lookup k = some e) :
    e.status = .live := by
  unfold retiredId at h
  rw [he, bind_some] at h
  split_ifs at h with hst
  cases hlive : e.status with
  | live => rfl
  | tombstoned => exact absurd hlive hst

theorem refuseRetired_ok (h : refuseRetired schema cat = .ok ⟨⟩) {p : Path}
    (hp : schema.Names p) (he : cat.row p = some e) : e.status = .live := by
  obtain ⟨_, htypes, hfields⟩ := bind_eq_ok.mp h
  rw [forM_eq_ok] at htypes hfields
  have hfield : ∀ {qual f}, schema.field? qual = some f →
      retiredId cat.fieldEntries qual = none ∧
        (f.isRelation → retiredId cat.relEntries qual = none) := by
    intro qual f hf
    obtain ⟨entry, hentry, hmem, rfl⟩ := Schema.mem_of_field? hf
    have hcheck := forM_eq_ok.mp (hfields entry hentry) f hmem
    unfold refuseRetiredField at hcheck
    dsimp only at hcheck
    cases hret : retiredId cat.fieldEntries (qualified entry.1 f.name) with
    | some id =>
      rw [hret] at hcheck
      cases hcheck
    | none =>
      refine ⟨rfl, fun hrel => ?_⟩
      rw [hret] at hcheck
      cases hret' : retiredId cat.relEntries (qualified entry.1 f.name) with
      | none => rfl
      | some id =>
        rw [hret'] at hcheck
        dsimp only at hcheck
        rw [if_pos hrel] at hcheck
        cases hcheck
  cases p with
  | type name =>
    obtain ⟨fields, hlookup⟩ := isSome_iff_exists.mp hp
    have hcheck := htypes _ (lookup_eq_some.mp hlookup)
    unfold refuseRetiredType at hcheck
    cases hret : retiredId cat.typeEntries name with
    | some id =>
      rw [hret] at hcheck
      cases hcheck
    | none => exact retiredId_eq_none hret he
  | field qual =>
    obtain ⟨f, hf⟩ := isSome_iff_exists.mp hp
    exact retiredId_eq_none (hfield hf).1 he
  | relation qual =>
    obtain ⟨f, hf, hrel⟩ := (Option.any_eq_true _ _).mp hp
    exact retiredId_eq_none ((hfield hf).2 hrel) he

theorem checkKind_ok {f : FieldDef}
    (h : checkKind schema plans (qual, e) = .ok ⟨⟩) (hf : schema.field? qual = some f) :
    e.kind = schemaKind f.fieldType ∨
      (resumablePlanForKindChange plans qual e.kind (schemaKind f.fieldType)).isSome := by
  unfold checkKind at h
  rw [hf] at h
  dsimp only at h
  split_ifs at h with hbad
  rw [not_and_or, not_not, Bool.not_eq_true, isNone_eq_false_iff] at hbad
  exact hbad

theorem lookup_tombstones {entries : SortedMap Qualified IdEntry} {dropped cascade : List Qualified} :
    (qual ∈ dropped ∨ qual ∈ cascade → ∃ reason,
      (tombstoneAll .cascadeParentRetired cascade
        (tombstoneAll .explicitShrink dropped entries)).lookup qual =
        (entries.lookup qual).map fun e => e.tombstone reason) ∧
    (¬ (qual ∈ dropped ∨ qual ∈ cascade) →
      (tombstoneAll .cascadeParentRetired cascade
        (tombstoneAll .explicitShrink dropped entries)).lookup qual = entries.lookup qual) := by
  rw [lookup_tombstoneAll, lookup_tombstoneAll]
  constructor
  · intro hmem
    by_cases hcascade : qual ∈ cascade
    · refine ⟨.cascadeParentRetired, ?_⟩
      split_ifs
      · rw [Option.map_map]
        rfl
      · rfl
    · rw [if_neg hcascade, if_pos (hmem.resolve_right hcascade)]
      exact ⟨_, rfl⟩
  · intro hmem
    rw [not_or] at hmem
    rw [if_neg hmem.1, if_neg hmem.2]

theorem reconcile_ok {allowSchemaShrink : Bool} (hid : Identified reading cat.row cat.next)
    (hparents : Parents cat.row) (h : reconcile schema cat plans allowSchemaShrink = .ok cat') :
    ∃ grown, Reconciled schema plans cat grown cat' := by
  have hparts : refuseRetired schema cat = .ok ⟨⟩ ∧
      cat.fieldEntries.entries.forM (checkKind schema plans) = .ok ⟨⟩ ∧
      ∃ grown, addMissing schema cat = .ok grown ∧ cat'.next = grown.next ∧
        cat'.typeEntries = tombstoneAll .explicitShrink (droppedTypes schema cat)
          grown.typeEntries ∧
        cat'.fieldEntries = tombstoneAll .cascadeParentRetired
          (cascaded schema cat cat.fieldEntries)
          (tombstoneAll .explicitShrink (droppedFields schema cat) grown.fieldEntries) ∧
        cat'.relEntries = tombstoneAll .cascadeParentRetired (cascaded schema cat cat.relEntries)
          (tombstoneAll .explicitShrink (droppedRels schema cat) grown.relEntries) := by
    obtain ⟨_, -, h⟩ := bind_eq_ok.mp h
    obtain ⟨_, hretired, h⟩ := bind_eq_ok.mp h
    obtain ⟨_, hkinds, h⟩ := bind_eq_ok.mp h
    obtain ⟨grown, hgrown, h⟩ := bind_eq_ok.mp h
    cases pure_eq_ok.mp h
    exact ⟨hretired, hkinds, grown, hgrown, rfl, rfl, rfl, rfl⟩
  obtain ⟨hretired, hkinds, grown, hgrown, hnext, htypes, hfields, hrels⟩ := hparts
  have hlive : ∀ {p e}, schema.Names p → cat.row p = some e → e.status = .live := fun hp he =>
    refuseRetired_ok hretired hp he
  obtain ⟨hgrows, hcovers⟩ := addMissing_ok hid hparents
    (fun {t e} hnamed hrow => hlive (p := .type t) hnamed hrow) hgrown
  refine ⟨grown, hgrows, hcovers, hnext, ?_, ?_, hlive, ?_⟩
  · intro p hp
    cases p with
    | type name =>
      refine ⟨.explicitShrink, ?_⟩
      rw [Catalog.row_type, Catalog.row_type, htypes, lookup_tombstoneAll,
        if_pos (mem_droppedTypes.mpr hp)]
    | field qual =>
      rw [Catalog.row_field, Catalog.row_field, hfields]
      exact lookup_tombstones.1 ((mem_droppedFields hparents).mpr hp)
    | relation qual =>
      rw [Catalog.row_relation, Catalog.row_relation, hrels]
      exact lookup_tombstones.1 ((mem_droppedRels hparents).mpr hp)
  · intro p hp
    cases p with
    | type name =>
      rw [Catalog.row_type, Catalog.row_type, htypes, lookup_tombstoneAll,
        if_neg fun hmem => hp (mem_droppedTypes.mp hmem)]
    | field qual =>
      rw [Catalog.row_field, Catalog.row_field, hfields]
      exact lookup_tombstones.2 fun hmem => hp ((mem_droppedFields hparents).mp hmem)
    | relation qual =>
      rw [Catalog.row_relation, Catalog.row_relation, hrels]
      exact lookup_tombstones.2 fun hmem => hp ((mem_droppedRels hparents).mp hmem)
  · intro qual e f hrow hf
    have hmem := lookup_eq_some.mp hrow
    exact checkKind_ok (forM_eq_ok.mp hkinds _ hmem) hf

end RhypeDb.SchemaCatalog
