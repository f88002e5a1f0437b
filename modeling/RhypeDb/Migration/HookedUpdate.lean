import RhypeDb.Migration.Blobs

/-! Updates while hooks are armed, on any type of the schema. The hook reads the merged fields, so what
is stored decides whether an update that never names the migrating field succeeds. -/

namespace RhypeDb.Migration

open Engine Storage Fallible List

def isShadowSiblingKey (key : String) : Bool :=
  decide ("__shadow".toList <:+ key.toList) || decide ("__shadow_cv".toList <:+ key.toList)

theorem nodupKeys_retain (m : FieldMap) :
    (m.entries.filter fun e => !isShadowSiblingKey e.1).NodupKeys :=
  m.nodupKeys.sublist filter_sublist

def retainFields (m : FieldMap) : FieldMap := ⟨_, nodupKeys_retain m⟩

abbrev Hooks := List (Id × String × MigratingFieldHook)

def hooksOf (hooks : Hooks) (typeId : Id) : List (String × MigratingFieldHook) :=
  (hooks.filter fun e => decide (e.1 = typeId)).map Prod.snd

section

variable (objectId : Id)

def convertShadow (hook : MigratingFieldHook) (value : Value) : Except MigrationError Value :=
  match hook.converter with
  | none => .error .fieldConverterUnresolved
  | some converter =>
    match converter objectId value with
    | .error e => .error (.engine e)
    | .ok new =>
      if valueToKind new ≠ some hook.targetKind then
        .error (.converterReturnedWrongKind objectId (valueToKind new) hook.targetKind)
      else .ok new

def stampShadow (fields : FieldMap) (shadows : List (String × Value))
    (e : String × MigratingFieldHook) : Except MigrationError (List (String × Value)) :=
  match fields.lookup e.1 with
  | none => .ok shadows
  | some .null => .ok shadows
  | some value => do
    let new ← convertShadow objectId e.2 value
    return shadows ++ [(shadowName e.1, new), (shadowCvName e.1, .u32 e.2.converterVersion)]

/-- `apply_migrating_field_hook`, of all hooks of the type. -/
def applyMigratingFieldHooks (hooks : List (String × MigratingFieldHook)) (fields : FieldMap) :
    Except MigrationError FieldMap := do
  let shadows ← hooks.foldlM (stampShadow objectId fields) []
  return shadows.foldl (fun m s => m.insert s.1 s.2) fields

def Accepts (hook : MigratingFieldHook) (value : Option Value) : Prop :=
  Unset value ∨ ∃ v ∈ value, ∃ converter ∈ hook.converter, ∃ new,
    converter objectId v = .ok new ∧ valueToKind new = some hook.targetKind

variable {objectId} {hook : MigratingFieldHook} {fields blob : FieldMap}
  {hooks : List (String × MigratingFieldHook)} {value : Value}

theorem convertShadow_eq_ok {new : Value} : convertShadow objectId hook value = .ok new ↔
    ∃ converter ∈ hook.converter, converter objectId value = .ok new ∧
      valueToKind new = some hook.targetKind := by
  unfold convertShadow
  cases hook.converter with
  | none => exact ⟨fun h => (nomatch h), fun ⟨_, h, _⟩ => nomatch h⟩
  | some converter =>
    dsimp only
    cases hconverted : converter objectId value with
    | error e =>
      refine ⟨fun h => (nomatch h), ?_⟩
      rintro ⟨_, ⟨⟩, h, -⟩
      exact nomatch hconverted.symm.trans h
    | ok value' =>
      dsimp only
      split_ifs with hkind
      · refine ⟨fun h => (nomatch h), ?_⟩
        rintro ⟨_, ⟨⟩, h, hkind'⟩
        cases hconverted.symm.trans h
        exact absurd hkind' hkind
      · constructor
        · rintro ⟨⟩
          exact ⟨converter, rfl, hconverted, not_ne_iff.mp hkind⟩
        · rintro ⟨_, ⟨⟩, h, -⟩
          rw [Except.ok.inj (hconverted.symm.trans h)]

variable {shadows : List (String × Value)} {e : String × MigratingFieldHook}

theorem stampShadow_of_unset (h : Unset (fields.lookup e.1)) :
    stampShadow objectId fields shadows e = .ok shadows := by
  unfold stampShadow
  rcases h with hnone | hnull
  · rw [hnone]
  · rw [hnull]

theorem stampShadow_of_set (hvalue : fields.lookup e.1 = some value)
    (hset : ¬ Unset (fields.lookup e.1)) :
    stampShadow objectId fields shadows e =
      (convertShadow objectId e.2 value).map fun new =>
        shadows ++ [(shadowName e.1, new), (shadowCvName e.1, .u32 e.2.converterVersion)] := by
  unfold stampShadow
  rw [hvalue] at hset ⊢
  cases value with
  | null => exact absurd (.inr rfl) hset
  | _ =>
    dsimp only
    cases convertShadow objectId e.2 _ <;> rfl

theorem stampShadow_isOk :
    (∃ shadows', stampShadow objectId fields shadows e = .ok shadows') ↔
      Accepts objectId e.2 (fields.lookup e.1) := by
  by_cases hunset : Unset (fields.lookup e.1)
  · rw [stampShadow_of_unset hunset]
    exact ⟨fun _ => .inl hunset, fun _ => ⟨_, rfl⟩⟩
  · obtain ⟨value, hvalue⟩ := Option.ne_none_iff_exists'.mp fun h => hunset (.inl h)
    rw [stampShadow_of_set hvalue hunset]
    constructor
    · rintro ⟨shadows', h⟩
      cases hnew : convertShadow objectId e.2 value with
      | error err =>
        rw [hnew] at h
        cases h
      | ok new =>
        obtain ⟨converter, hmem, hconverted, hkind⟩ := convertShadow_eq_ok.mp hnew
        exact .inr ⟨value, hvalue, converter, hmem, new, hconverted, hkind⟩
    · rintro (h | ⟨_, hmem, converter, hconverter, new, hconverted, hkind⟩)
      · exact absurd h hunset
      · cases hvalue.symm.trans hmem
        rw [convertShadow_eq_ok.mpr ⟨converter, hconverter, hconverted, hkind⟩]
        exact ⟨_, rfl⟩

theorem applyMigratingFieldHooks_isOk :
    (∃ blob, applyMigratingFieldHooks objectId hooks fields = .ok blob) ↔
      ∀ e ∈ hooks, Accepts objectId e.2 (fields.lookup e.1) := by
  have hfold : ∀ shadows, (∃ shadows',
      hooks.foldlM (stampShadow objectId fields) shadows = .ok shadows') ↔
        ∀ e ∈ hooks, Accepts objectId e.2 (fields.lookup e.1) := by
    induction hooks with
    | nil => exact fun _ => ⟨fun _ _ h => (nomatch h), fun _ => ⟨_, rfl⟩⟩
    | cons e hooks ih =>
      intro shadows
      rw [foldlM_cons, forall_mem_cons]
      constructor
      · rintro ⟨shadows', h⟩
        obtain ⟨stamped, hstamped, hrest⟩ := bind_eq_ok.mp h
        exact ⟨stampShadow_isOk.mp ⟨stamped, hstamped⟩, (ih stamped).mp ⟨_, hrest⟩⟩
      · rintro ⟨haccepts, hall⟩
        obtain ⟨stamped, hstamped⟩ := stampShadow_isOk.mpr haccepts
        obtain ⟨shadows', hrest⟩ := (ih stamped).mpr hall
        exact ⟨shadows', bind_eq_ok.mpr ⟨stamped, hstamped, hrest⟩⟩
  rw [← hfold []]
  constructor
  · rintro ⟨blob, h⟩
    obtain ⟨shadows, hshadows, -⟩ := bind_eq_ok.mp h
    exact ⟨shadows, hshadows⟩
  · rintro ⟨shadows, hshadows⟩
    exact ⟨_, bind_eq_ok.mpr ⟨shadows, hshadows, rfl⟩⟩

theorem lookup_of_applyMigratingFieldHooks
    (h : applyMigratingFieldHooks objectId hooks fields = .ok blob) {name : String}
    (hname : ∀ e ∈ hooks, name ≠ shadowName e.1 ∧ name ≠ shadowCvName e.1) :
    blob.lookup name = fields.lookup name := by
  obtain ⟨shadows, hshadows, hblob⟩ := bind_eq_ok.mp h
  have hnames : ∀ s ∈ shadows, name ≠ s.1 := by
    refine foldlM_induct (P := fun shadows => ∀ s ∈ shadows, name ≠ s.1) ?_
      (forall_mem_nil _) hshadows
    intro shadows shadows' e hmem hnames hstamp
    by_cases hunset : Unset (fields.lookup e.1)
    · cases (stampShadow_of_unset hunset).symm.trans hstamp
      exact hnames
    · obtain ⟨value, hvalue⟩ := Option.ne_none_iff_exists'.mp fun h => hunset (.inl h)
      rw [stampShadow_of_set hvalue hunset] at hstamp
      cases hnew : convertShadow objectId e.2 value with
      | error err =>
        rw [hnew] at hstamp
        cases hstamp
      | ok new =>
        rw [hnew] at hstamp
        cases hstamp
        intro s hs
        rcases mem_append.mp hs with hs | hs
        · exact hnames s hs
        · rcases mem_cons.mp hs with rfl | hs
          · exact (hname e hmem).1
          · rw [mem_singleton.mp hs]
            exact (hname e hmem).2
  cases hblob
  clear hshadows h
  induction shadows generalizing fields with
  | nil => rfl
  | cons s shadows ih =>
    obtain ⟨hne, hnames⟩ := forall_mem_cons.mp hnames
    rw [foldl_cons, ih hnames, AList.lookup_insert_ne hne]

end

def stripPayload : Payload → Payload
  | .fields m covers => .fields (retainFields m) covers
  | data => data

/-- What the builders of covers read while a hook is armed: `shadow_stripped_blob` of each object. -/
def coverView (hooks : Hooks) (view : View) : View :=
  if hooks.isEmpty then view
  else { view with get := fun key => (view.get key).map fun data => data.map stripPayload }

def coverSource (hooks : Hooks) (data : Payload) : Payload :=
  if hooks.isEmpty then data else stripPayload data

variable (schema : Schema) (view : View) (hooks : Hooks)

def prepareUpdate (typeName : String) (objectId : Id) (updates : FieldMap) :
    Except EngineError (TypeDef × FieldMap × Writes Key Payload) := do
  let t ← require (.typeNotFound typeName) (schema.getType typeName)
  updates.entries.forM (validateUpdate t)
  let existing ← require (.objectNotFound typeName objectId)
    (← view.get (.object t.typeId objectId))
  let fields := existing.deserializeFields
  let unique ← updates.entries.foldlM (updateUnique view t objectId fields) ([], [])
  return (t, fields, unique.1)

/-- The writes of an update after its unique entries; the blob has the shadows, what is merged has
those that were stored. -/
def hookedUpdateWrites (versions : Versions) (t : TypeDef) (objectId : Id)
    (fields merged blob : FieldMap) (anyUpdate : Bool) : Writes Key Payload :=
  t.indexedFields.flatMap
    (maintainIndex t objectId fields merged anyUpdate (serializeFields blob)) ++
  refreshOutboundRevEdges schema (coverView hooks view) versions t objectId
    (some (coverSource hooks (serializeFields blob))) ++
  [(.objectVersion t.typeId objectId, some (.generation (versions t.typeId objectId + 1))),
   (.object t.typeId objectId, some (serializeFields blob))]

structure Updated where
  typeId : Id
  blob : FieldMap
  returned : FieldMap
  writes : Writes Key Payload

/-- `update_with_origin` under the armed hooks. -/
def stageHookedUpdate (versions : Versions) (typeName : String) (objectId : Id)
    (updates : FieldMap) : Except MigrationError Updated := do
  let prepared ← ofEngine (prepareUpdate schema view typeName objectId updates)
  let t := prepared.1
  let merged := prepared.2.1.merge updates
  let blob ← applyMigratingFieldHooks objectId (hooksOf hooks t.typeId) merged
  return {
    typeId := t.typeId
    blob
    returned := merged
    writes := prepared.2.2 ++ hookedUpdateWrites schema view hooks versions t objectId prepared.2.1
      merged blob (!updates.entries.isEmpty) }

variable {schema view hooks} {versions : Versions} {typeName : String} {objectId : Id}
  {updates : FieldMap}

theorem stageHookedUpdate_isOk :
    (∃ u, stageHookedUpdate schema view hooks versions typeName objectId updates = .ok u) ↔
      ∃ prepared, prepareUpdate schema view typeName objectId updates = .ok prepared ∧
        ∀ e ∈ hooksOf hooks prepared.1.typeId,
          Accepts objectId e.2 ((prepared.2.1.merge updates).lookup e.1) := by
  unfold stageHookedUpdate
  cases hprepared : prepareUpdate schema view typeName objectId updates with
  | error err => exact ⟨fun ⟨_, h⟩ => (nomatch h), fun ⟨_, h, _⟩ => nomatch h⟩
  | ok prepared =>
    constructor
    · rintro ⟨u, h⟩
      obtain ⟨_, ⟨⟩, h⟩ := bind_eq_ok.mp h
      obtain ⟨blob, hblob, -⟩ := bind_eq_ok.mp h
      exact ⟨prepared, rfl, applyMigratingFieldHooks_isOk.mp ⟨blob, hblob⟩⟩
    · rintro ⟨_, ⟨⟩, haccepts⟩
      obtain ⟨blob, hblob⟩ := applyMigratingFieldHooks_isOk.mpr haccepts
      exact ⟨_, bind_eq_ok.mpr ⟨prepared, rfl, bind_eq_ok.mpr ⟨blob, hblob, rfl⟩⟩⟩

theorem blob_of_stageHookedUpdate {u : Updated}
    (h : stageHookedUpdate schema view hooks versions typeName objectId updates = .ok u) :
    ∃ prepared, prepareUpdate schema view typeName objectId updates = .ok prepared ∧
      applyMigratingFieldHooks objectId (hooksOf hooks prepared.1.typeId)
        (prepared.2.1.merge updates) = .ok u.blob ∧ u.returned = prepared.2.1.merge updates := by
  obtain ⟨prepared, hprepared, h⟩ := bind_eq_ok.mp h
  obtain ⟨blob, hblob, h⟩ := bind_eq_ok.mp h
  cases h
  cases hprepare : prepareUpdate schema view typeName objectId updates with
  | error err =>
    rw [hprepare] at hprepared
    cases hprepared
  | ok prepared' =>
    rw [hprepare] at hprepared
    cases hprepared
    exact ⟨prepared, rfl, hblob, rfl⟩

theorem prepareUpdate_eq_ok {prepared : TypeDef × FieldMap × Writes Key Payload}
    (h : prepareUpdate schema view typeName objectId updates = .ok prepared) :
    schema.getType typeName = some prepared.1 ∧
      ∃ data, view.get (.object prepared.1.typeId objectId) = .ok (some data) ∧
        prepared.2.1 = data.deserializeFields := by
  obtain ⟨t, ht, h⟩ := bind_eq_ok.mp h
  obtain ⟨_, -, h⟩ := bind_eq_ok.mp h
  obtain ⟨stored, hstored, h⟩ := bind_eq_ok.mp h
  obtain ⟨data, hdata, h⟩ := bind_eq_ok.mp h
  obtain ⟨unique, -, h⟩ := bind_eq_ok.mp h
  cases h
  obtain rfl := require_eq_ok.mp hdata
  exact ⟨require_eq_ok.mp ht, data, hstored, rfl⟩

theorem prepareUpdate_empty {t : TypeDef} {data : Payload} (ht : schema.getType typeName = some t)
    (hdata : view.get (.object t.typeId objectId) = .ok (some data)) :
    prepareUpdate schema view typeName objectId ∅ = .ok (t, data.deserializeFields, []) := by
  unfold prepareUpdate
  rw [ht]
  simp only [Engine.require, ok_bind]
  rw [hdata]
  rfl

/-- The hooks of the type are of other fields than those updated: with them the update succeeds
exactly when it does without them, and leaves the same values in the fields that the catalog admits. -/
def Transparent (schema : Schema) (view : View) (hooks : Hooks) (versions : Versions)
    (typeName : String) (objectId : Id) : Prop :=
  ∀ updates : FieldMap, (∀ t, schema.getType typeName = some t →
      ∀ e ∈ hooksOf hooks t.typeId, updates.lookup e.1 = none) →
    ((∃ u, stageHookedUpdate schema view hooks versions typeName objectId updates = .ok u) ↔
      ∃ u, stageHookedUpdate schema view [] versions typeName objectId updates = .ok u) ∧
    ∀ u u', stageHookedUpdate schema view hooks versions typeName objectId updates = .ok u →
      stageHookedUpdate schema view [] versions typeName objectId updates = .ok u' →
        ∀ name, checkIdentifier name = true → u.blob.lookup name = u'.blob.lookup name

/-- Hooks are transparent to the updates of an object exactly when they take its stored values. -/
theorem transparent_iff (schema : Schema) (view : View) (hooks : Hooks) (versions : Versions)
    (typeName : String) (objectId : Id) :
    Transparent schema view hooks versions typeName objectId ↔
      ∀ t data, schema.getType typeName = some t →
        view.get (.object t.typeId objectId) = .ok (some data) →
        ∀ e ∈ hooksOf hooks t.typeId, Accepts objectId e.2 (data.deserializeFields.lookup e.1) := by
  constructor
  · intro htransparent t data ht hdata
    -- the empty update meets nothing but the hooks
    have hempty := prepareUpdate_empty ht hdata
    have hplain : ∃ u, stageHookedUpdate schema view [] versions typeName objectId ∅ = .ok u :=
      stageHookedUpdate_isOk.mpr ⟨_, hempty, fun _ h => nomatch h⟩
    obtain ⟨prepared, hprepared, haccepts⟩ := stageHookedUpdate_isOk.mp
      ((htransparent ∅ fun _ _ _ _ => rfl).1.mpr hplain)
    cases hempty.symm.trans hprepared
    exact haccepts
  · intro haccepts updates hothers
    refine ⟨?_, ?_⟩
    · constructor
      · intro h
        obtain ⟨prepared, hprepared, -⟩ := stageHookedUpdate_isOk.mp h
        exact stageHookedUpdate_isOk.mpr ⟨prepared, hprepared, fun _ h => nomatch h⟩
      · intro h
        obtain ⟨prepared, hprepared, -⟩ := stageHookedUpdate_isOk.mp h
        obtain ⟨ht, data, hdata, hfields⟩ := prepareUpdate_eq_ok hprepared
        refine stageHookedUpdate_isOk.mpr ⟨prepared, hprepared, fun e he => ?_⟩
        rw [FieldMap.lookup_merge, hothers _ ht e he, hfields]
        exact haccepts _ data ht hdata e he
    · intro u u' hu hu' name hname
      obtain ⟨prepared, hprepared, hblob, -⟩ := blob_of_stageHookedUpdate hu
      obtain ⟨prepared', hprepared', hblob', -⟩ := blob_of_stageHookedUpdate hu'
      cases hprepared.symm.trans hprepared'
      have hshadow : ∀ field, name ≠ shadowName field ∧ name ≠ shadowCvName field := by
        refine fun field => ⟨?_, ?_⟩
        · rintro rfl
          exact nomatch hname.symm.trans (checkIdentifier_append ⟨_, rfl⟩)
        · rintro rfl
          exact nomatch hname.symm.trans (checkIdentifier_append ⟨_, rfl⟩)
      rw [lookup_of_applyMigratingFieldHooks hblob fun e _ => hshadow e.1,
        lookup_of_applyMigratingFieldHooks hblob' fun e _ => hshadow e.1]

def pairSchema : Schema where
  types :=
    [{ name := "Task"
       typeId := 1
       fields :=
        [{ name := "n", fieldType := .scalar .u32, directives := [], fieldId := 1, relId := 0 },
         { name := "m", fieldType := .scalar .u32, directives := [], fieldId := 2, relId := 0 }] }]

def pairStore : Store :=
  Store.empty.apply [(.object 1 1, some (serializeFields (AList.singleton "n" (.u32 5))))]

def rejectingHook : Hooks := [(1, "n", { converter := none, targetKind := .u64, converterVersion := 1 })]

/-- The update names only the other number. -/
theorem unresolved_hook_rejects :
    stageHookedUpdate pairSchema pairStore.view rejectingHook (fun _ _ => 1) "Task" 1
        (AList.singleton "m" (.u32 3)) = .error .fieldConverterUnresolved ∧
      (stageHookedUpdate pairSchema pairStore.view [] (fun _ _ => 1) "Task" 1
        (AList.singleton "m" (.u32 3))).isOk = true ∧
      ¬ Transparent pairSchema pairStore.view rejectingHook (fun _ _ => 1) "Task" 1 := by
  refine ⟨rfl, rfl, fun htransparent => ?_⟩
  obtain ⟨_, hu⟩ := (htransparent (AList.singleton "m" (.u32 3))
    (fun t ht e he => by
      cases ht
      rw [mem_singleton.mp he]
      rfl)).1.mpr ⟨_, rfl⟩
  cases hu

end RhypeDb.Migration
