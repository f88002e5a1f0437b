import RhypeDb.Engine.Cascade
import RhypeDb.Migration.System

/-! What the hook, the backfill, the cutover and the rollback leave in a blob: one statement for
each of them, of the source, the shadow and its version alone. -/

namespace RhypeDb.Migration

open Engine Storage Fallible AList

def Unset (value : Option Value) : Prop := value = none ∨ value = some .null

instance (value : Option Value) : Decidable (Unset value) :=
  inferInstanceAs (Decidable (_ ∨ _))

def OfKind (kind : ScalarType) (value : Option Value) : Prop :=
  Unset value ∨ ∃ v, value = some v ∧ valueToKind v = some kind

instance (kind : ScalarType) (value : Option Value) : Decidable (OfKind kind value) :=
  match value with
  | none => .isTrue (.inl (.inl rfl))
  | some v => decidable_of_iff (Unset (some v) ∨ valueToKind v = some kind) (by
      unfold OfKind
      simp)

def Unshadowed (field : String) (fields : FieldMap) : Prop :=
  fields.lookup (shadowName field) = none ∧ fields.lookup (shadowCvName field) = none

instance (field : String) (fields : FieldMap) : Decidable (Unshadowed field fields) :=
  inferInstanceAs (Decidable (_ ∧ _))

def Convertible (field : String) (p : PinnedPlan) (fields : FieldMap) : Prop :=
  ∃ v, fields.lookup field = some v ∧ valueToKind v = some p.srcKind ∧ p.srcKind ≠ p.targetKind ∧
    ¬ HasCurrentShadow field p.converterVersion fields

def Shadows (field : String) (p : PinnedPlan) (converter : Converter) (objectId : Id)
    (fields : FieldMap) : Prop :=
  ∃ v w, fields.lookup field = some v ∧ v ≠ .null ∧ converter objectId v = .ok w ∧
    valueToKind w = some p.targetKind ∧ fields.lookup (shadowName field) = some w ∧
    fields.lookup (shadowCvName field) = some (.u32 p.converterVersion)

section

variable {v : Value}

theorem unset_some : Unset (some v) ↔ v = .null := by
  unfold Unset
  simp

variable {kind : ScalarType}

theorem not_unset_of_kind (h : valueToKind v = some kind) : ¬ Unset (some v) := by
  rw [unset_some]
  rintro rfl
  cases h

theorem admits_iff : kind.admits v = true ↔ valueToKind v = some kind := by
  cases kind <;> cases v <;> simp [ScalarType.admits, valueToKind]

theorem ofKind_of_validateValue {f : FieldDef} (hkind : f.fieldType = .scalar kind)
    (h : validateValue f v = .ok ()) : OfKind kind (some v) := by
  unfold validateValue checkValue at h
  rw [hkind] at h
  dsimp only at h
  split_ifs at h with hvalid
  rw [Bool.or_eq_true, decide_eq_true_eq] at hvalid
  rcases hvalid with hnull | hadmits
  · exact .inl (unset_some.mpr hnull)
  · exact .inr ⟨v, rfl, admits_iff.mp hadmits⟩

theorem declaredKind_eq_some {field : String} {c : CheckedType} :
    declaredKind field c = some kind ↔
      ∃ f, c.t.getField field = some f ∧ f.fieldType = .scalar kind := by
  unfold declaredKind
  rw [Option.bind_eq_some_iff]
  constructor
  · rintro ⟨f, hf, hkind⟩
    refine ⟨f, hf, ?_⟩
    split at hkind
    next k hk =>
      cases hkind
      exact hk
    · cases hkind
  · rintro ⟨f, hf, hkind⟩
    refine ⟨f, hf, ?_⟩
    rw [hkind]

variable {field : String} {fields blob : FieldMap} {objectId : Id}

theorem applyMigratingFieldHook_eq_ok {hook : Option MigratingFieldHook}
    (h : applyMigratingFieldHook field hook objectId fields = .ok blob) :
    (hook = none ∨ Unset (fields.lookup field)) ∧ blob = fields ∨
    ∃ k converter v w, hook = some k ∧ k.converter = some converter ∧
      fields.lookup field = some v ∧ v ≠ .null ∧ converter objectId v = .ok w ∧
      valueToKind w = some k.targetKind ∧ blob = withShadow field fields w k.converterVersion := by
  unfold applyMigratingFieldHook at h
  split at h
  · cases h
    exact .inl ⟨.inl rfl, rfl⟩
  next k hnone =>
    cases h
    exact .inl ⟨.inr (.inl hnone), rfl⟩
  next k hnull =>
    cases h
    exact .inl ⟨.inr (.inr hnull), rfl⟩
  next k value hnull hvalue =>
    right
    split at h
    · cases h
    next converter hconverter =>
      split at h
      · cases h
      next new hnew =>
        split_ifs at h with hkind
        cases h
        exact ⟨k, converter, value, new, rfl, hconverter, hvalue, hnull, hnew,
          not_not.mp hkind, rfl⟩

theorem armed_hook_eq_ok {p : PinnedPlan} {converter : Converter} {resolved : Bool}
    (h : applyMigratingFieldHook field (some (hookOf converter p resolved)) objectId fields =
      .ok blob) :
    Unset (fields.lookup field) ∧ blob = fields ∨
    ∃ v w, fields.lookup field = some v ∧ v ≠ .null ∧ converter objectId v = .ok w ∧
      valueToKind w = some p.targetKind ∧ blob = withShadow field fields w p.converterVersion := by
  rcases applyMigratingFieldHook_eq_ok h with ⟨hnone | hunset, hblob⟩ |
    ⟨k, c, v, w, hk, hc, hv, hset, hw, hkind, hblob⟩
  · cases hnone
  · exact .inl ⟨hunset, hblob⟩
  · cases hk
    unfold hookOf at hc
    split_ifs at hc
    cases hc
    exact .inr ⟨v, w, hv, hset, hw, hkind, hblob⟩

end

section

variable {field : String} {p : PinnedPlan} {converter : Converter} {objectId : Id}
  {fields blob : FieldMap}

theorem convertRowForBackfill_eq_some
    (h : convertRowForBackfill field p converter objectId fields = .ok (some blob)) :
    Convertible field p fields ∧ ∃ v w, fields.lookup field = some v ∧
      valueToKind v = some p.srcKind ∧ converter objectId v = .ok w ∧
      valueToKind w = some p.targetKind ∧
      blob = withShadow field fields w p.converterVersion := by
  unfold convertRowForBackfill at h
  split at h
  · cases h
  next old hold =>
    split_ifs at h with hskip hkind hcurrent
    · cases h
    · cases h
    rw [not_or] at hskip
    have hsrc := not_not.mp hkind
    split at h
    · cases h
    next new hnew =>
      split_ifs at h with htarget
      cases h
      have hne : p.srcKind ≠ p.targetKind := by
        intro heq
        rw [hsrc, heq] at hskip
        exact hskip.1 rfl
      exact ⟨⟨old, hold, hsrc, hne, hcurrent⟩, old, new, hold, hsrc, hnew, not_not.mp htarget, rfl⟩

theorem cutoverRow_eq_some (h : cutoverRow field p objectId fields = .ok (some blob)) :
    ∃ w, fields.lookup (shadowName field) = some w ∧
      blob = stripShadow field (fields.insert field w) := by
  unfold cutoverRow at h
  split at h
  · split at h
    · cases h
    · cases h
    · split_ifs at h
      cases h
  next w hw =>
    dsimp only at h
    split_ifs at h
    all_goals cases h; exact ⟨w, hw, rfl⟩

theorem cutoverRow_eq_none (h : cutoverRow field p objectId fields = .ok none) :
    fields.lookup (shadowName field) = none ∧
      (Unset (fields.lookup field) ∨
        (∃ v, fields.lookup field = some v ∧ valueToKind v = some p.targetKind) ∨
        p.errorPolicy ≠ .stop) := by
  unfold cutoverRow at h
  split at h
  next hshadow =>
    refine ⟨hshadow, ?_⟩
    split at h
    next hnone => exact .inl (.inl hnone)
    next hnull => exact .inl (.inr hnull)
    next value hnull hvalue =>
      split_ifs at h with hpass
      rcases hpass with htarget | hpolicy
      · exact .inr (.inl ⟨value, hvalue, htarget⟩)
      · exact .inr (.inr hpolicy)
  · dsimp only at h
    split_ifs at h
    cases h

theorem rollbackRow_eq_some (h : rollbackRow field fields = some blob) :
    blob = stripShadow field fields := by
  unfold rollbackRow at h
  split_ifs at h
  exact (Option.some.inj h).symm

theorem rollbackRow_eq_none (h : rollbackRow field fields = none) : Unshadowed field fields := by
  unfold rollbackRow at h
  split_ifs at h with hnone
  exact ⟨Option.isNone_iff_eq_none.mp hnone.1, Option.isNone_iff_eq_none.mp hnone.2⟩

theorem unshadowed_stripShadow : Unshadowed field (stripShadow field fields) :=
  ⟨lookup_stripShadow_shadow, lookup_stripShadow_cv⟩

end

section

variable {l : List (Sigma fun _ : String => Value)} {c : CheckedType} {scalars : FieldMap}
  {kind : ScalarType} {field : String} {updates : FieldMap} {name : String}

theorem validateUpdate_of_mem {u : Sigma fun _ : String => Value}
    (hvalid : l.forM (validateUpdate c.t) = .ok ()) (hu : u ∈ l) :
    validateUpdate c.t u = .ok () := by
  induction l with
  | nil => cases hu
  | cons x l ih =>
    obtain ⟨_, hx, hrest⟩ := bind_eq_ok.mp hvalid
    rcases List.mem_cons.mp hu with rfl | hu
    · exact hx
    · exact ih hrest hu

theorem lookup_eq_none_of_validateUpdate
    (hvalid : updates.entries.forM (validateUpdate c.t) = .ok ()) (hname : c.t.getField name = none) :
    updates.lookup name = none := by
  rw [lookup_eq_none, mem_keys]
  intro hmem
  obtain ⟨u, hu, rfl⟩ := List.mem_map.mp hmem
  have hcheck := validateUpdate_of_mem hvalid hu
  unfold validateUpdate at hcheck
  rw [hname] at hcheck
  cases hcheck

theorem ofKind_of_validateUpdate (hkind : declaredKind field c = some kind)
    (hvalid : updates.entries.forM (validateUpdate c.t) = .ok ()) :
    OfKind kind (updates.lookup field) := by
  cases hv : updates.lookup field with
  | none => exact .inl (.inl rfl)
  | some v =>
    obtain ⟨f, hf, hscalar⟩ := declaredKind_eq_some.mp hkind
    have hcheck := validateUpdate_of_mem hvalid (mem_lookup_iff.mp hv)
    unfold validateUpdate at hcheck
    rw [hf] at hcheck
    exact ofKind_of_validateValue hscalar hcheck

theorem foldlM_collectScalar_lookup {acc : FieldMap}
    (hname : c.t.getField name = none) (hacc : acc.lookup name = none)
    (h : l.foldlM (collectScalar c.t) acc = .ok scalars) : scalars.lookup name = none := by
  refine foldlM_induct (P := fun m : FieldMap => m.lookup name = none) ?_ hacc h
  intro m m' x _ hm hx
  unfold collectScalar at hx
  rw [bind_eq_ok] at hx
  obtain ⟨f, hf, hx⟩ := hx
  rw [bind_eq_ok] at hx
  obtain ⟨_, -, hx⟩ := hx
  have hne : name ≠ x.1 := by
    rintro rfl
    rw [hname] at hf
    cases hf
  split at hx
  · rw [← pure_eq_ok.mp hx, lookup_insert_ne hne]
    exact hm
  · rw [← pure_eq_ok.mp hx]
    exact hm
  · cases hx

theorem ofKind_of_collectScalar
    (hkind : declaredKind field c = some kind) (h : l.foldlM (collectScalar c.t) ∅ = .ok scalars) :
    OfKind kind (scalars.lookup field) := by
  obtain ⟨f, hf, hscalar⟩ := declaredKind_eq_some.mp hkind
  refine foldlM_induct (P := fun m : FieldMap => OfKind kind (m.lookup field)) ?_
    (.inl (.inl (lookup_empty field))) h
  intro m m' x _ hm hx
  obtain ⟨g, hg, hx⟩ := bind_eq_ok.mp hx
  obtain ⟨_, hvalid, hx⟩ := bind_eq_ok.mp hx
  split at hx
  · rw [← pure_eq_ok.mp hx]
    by_cases hname : field = x.1
    · subst hname
      rw [lookup_insert]
      cases hf.symm.trans (require_eq_ok.mp hg)
      exact ofKind_of_validateValue hscalar hvalid
    · rw [lookup_insert_ne hname]
      exact hm
  · rw [← pure_eq_ok.mp hx]
    exact hm
  · cases hx

end

variable {field : String} {c : CheckedType} {hook : Option MigratingFieldHook} {rows : Rows}
  {objectId : Id} {staged : StagedWrite}

theorem ofEngine_eq_ok {α : Type} {x : Except EngineError α} {a : α} :
    ofEngine x = .ok a ↔ x = .ok a := by
  cases x with
  | ok b => exact ⟨fun h => by cases h; rfl, fun h => by cases h; rfl⟩
  | error e => exact ⟨nofun, nofun⟩

theorem stageWrite_create {fields : FieldMap}
    (h : stageWrite field c.t hook rows objectId (.create fields) = .ok staged) :
    ∃ scalars blob, Unshadowed field scalars ∧
      (∀ kind, declaredKind field c = some kind → OfKind kind (scalars.lookup field)) ∧
      applyMigratingFieldHook field hook objectId scalars = .ok blob ∧
      staged = { rows := [(objectId, some blob)],
                 written := [(objectId, scalars.lookup field)] } := by
  unfold stageWrite at h
  rw [bind_eq_ok] at h
  obtain ⟨scalars, hscalars, h⟩ := h
  rw [bind_eq_ok] at h
  obtain ⟨blob, hblob, h⟩ := h
  have hempty : ∀ name, (∅ : FieldMap).lookup name = none := fun name => lookup_empty name
  refine ⟨scalars, blob, ⟨?_, ?_⟩, fun kind hkind => ?_, hblob, (pure_eq_ok.mp h).symm⟩
  · exact foldlM_collectScalar_lookup c.getField_shadow.1 (hempty _) (ofEngine_eq_ok.mp hscalars)
  · exact foldlM_collectScalar_lookup c.getField_shadow.2 (hempty _) (ofEngine_eq_ok.mp hscalars)
  · exact ofKind_of_collectScalar hkind (ofEngine_eq_ok.mp hscalars)

theorem stageWrite_update {id : Id} {updates : FieldMap}
    (h : stageWrite field c.t hook rows objectId (.update id updates) = .ok staged) :
    ∃ old merged blob, rows.lookup id = some old ∧
      merged.lookup field = (updates.lookup field).or (old.lookup field) ∧
      merged.lookup (shadowName field) = old.lookup (shadowName field) ∧
      merged.lookup (shadowCvName field) = old.lookup (shadowCvName field) ∧
      (∀ kind, declaredKind field c = some kind → OfKind kind (updates.lookup field)) ∧
      applyMigratingFieldHook field hook id merged = .ok blob ∧
      staged = { rows := [(id, some blob)],
                 written := (updates.lookup field).toList.map fun value => (id, some value) } := by
  unfold stageWrite at h
  rw [bind_eq_ok] at h
  obtain ⟨_, hvalid, h⟩ := h
  rw [bind_eq_ok] at h
  obtain ⟨old, hold, h⟩ := h
  rw [bind_eq_ok] at h
  obtain ⟨blob, hblob, h⟩ := h
  have hvalid := ofEngine_eq_ok.mp hvalid
  have hold := require_eq_ok.mp (ofEngine_eq_ok.mp hold)
  refine ⟨old, old.merge updates, blob, hold, FieldMap.lookup_merge _ _ _, ?_, ?_,
    fun kind hkind => ofKind_of_validateUpdate hkind hvalid, hblob, (pure_eq_ok.mp h).symm⟩
  · rw [FieldMap.lookup_merge, lookup_eq_none_of_validateUpdate hvalid c.getField_shadow.1]
    rfl
  · rw [FieldMap.lookup_merge, lookup_eq_none_of_validateUpdate hvalid c.getField_shadow.2]
    rfl

theorem stageWrite_delete {id : Id} {cascade : List Id}
    (h : stageWrite field c.t hook rows objectId (.delete id cascade) = .ok staged) :
    staged = { rows := (id :: cascade).map fun id => (id, none),
               written := (id :: cascade).map fun id => (id, none) } := by
  unfold stageWrite at h
  rw [bind_eq_ok] at h
  obtain ⟨_, -, h⟩ := h
  exact (pure_eq_ok.mp h).symm

end RhypeDb.Migration
