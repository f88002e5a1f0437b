import RhypeDb.Engine.ObjectIds

/-! The secondary index holds one entry for each live object and indexed field with a value,
with the object's blob in it. Each kind of write keeps this for the objects it touches: puts of
new objects, the rewrite of an update, the tombstones of a delete. -/

namespace RhypeDb.Engine

open Storage Fallible KeyBuilder List Option Schema

/-- The stored entries of every indexed field are those of the live objects, and hold their
blobs. -/
def IndexConsistent (schema : Schema) (store : Store) : Prop :=
  ∀ t ∈ schema.types, ∀ ifd ∈ t.indexedFields, ∀ entry blob,
    store.lookup (.fieldIndex t.typeId ifd.fieldId entry) = some blob ↔
      ∃ objectId, store.lookup (.object t.typeId objectId) = some blob ∧
        indexKeyOf t objectId blob.deserializeFields ifd =
          some (.fieldIndex t.typeId ifd.fieldId entry)

def OwnedBy (t : TypeDef) (ifd : IndexedField) (objectId : Id) (key : Key) : Prop :=
  ∃ front, key = .fieldIndex t.typeId ifd.fieldId (front ++ word objectId)

section

variable {t u : TypeDef} {ifd ifd' : IndexedField} {objectId objectId' : Id} {key : Key}

theorem OwnedBy.unique (h : OwnedBy t ifd objectId key) (h' : OwnedBy u ifd' objectId' key) :
    t.typeId = u.typeId ∧ ifd.fieldId = ifd'.fieldId ∧ objectId = objectId' := by
  obtain ⟨front, rfl⟩ := h
  obtain ⟨front', heq⟩ := h'
  obtain ⟨htype, hfield, hentry⟩ := Key.fieldIndex.inj heq
  refine ⟨htype, hfield, word_inj (append_inj' hentry ?_).2⟩
  rw [word_length, word_length]

theorem ownedBy_of_indexKeyOf {fields : FieldMap} (h : indexKeyOf t objectId fields ifd = some key) :
    OwnedBy t ifd objectId key := by
  rw [indexKeyOf, bind_eq_some_iff] at h
  obtain ⟨value, -, h⟩ := h
  split_ifs at h
  have hfixed : ∀ {encoded : Option Bytes}, (encoded.map fun e =>
      Key.fieldIndex t.typeId ifd.fieldId (e ++ separator :: word objectId)) = some key →
      OwnedBy t ifd objectId key := by
    intro encoded h
    obtain ⟨e, -, rfl⟩ := map_eq_some_iff.mp h
    exact ⟨e ++ [separator], by rw [append_assoc]; rfl⟩
  unfold buildFieldIndexKey at h
  split at h
  · exact hfixed h
  · exact hfixed h
  · exact hfixed h
  · cases h
    exact ⟨_, rfl⟩
  · cases h
    exact ⟨_, rfl⟩
  · cases h

theorem Schema.eq_of_indexedField {schema : Schema} (ht : t ∈ schema.types)
    (hi : ifd ∈ t.indexedFields) (hi' : ifd' ∈ t.indexedFields) (h : ifd.fieldId = ifd'.fieldId) :
    ifd = ifd' := by
  obtain ⟨f, hf, rfl⟩ := mem_map.mp hi
  obtain ⟨g, hg, rfl⟩ := mem_map.mp hi'
  have hnodup := (nodup_flatMap.mp schema.fieldIds).1 t ht
  rw [inj_on_of_nodup_map hnodup (mem_filter.mp hf).1 (mem_filter.mp hg).1 h]

end

def IndexedAt (store : Store) (t : TypeDef) (ifd : IndexedField) (objectId : Id) : Prop :=
  ∀ key, OwnedBy t ifd objectId key → ∀ blob,
    store.lookup key = some blob ↔ store.lookup (.object t.typeId objectId) = some blob ∧
      indexKeyOf t objectId blob.deserializeFields ifd = some key

/-- The index object by object: no entry is without an owner. Object blobs are serialized
fields, so writing one again changes nothing. -/
structure Indexed (schema : Schema) (store : Store) : Prop where
  at_object : ∀ t ∈ schema.types, ∀ ifd ∈ t.indexedFields, ∀ objectId,
    IndexedAt store t ifd objectId
  owned : ∀ t ∈ schema.types, ∀ ifd ∈ t.indexedFields, ∀ entry,
    store.Has (.fieldIndex t.typeId ifd.fieldId entry) →
      ∃ objectId, OwnedBy t ifd objectId (.fieldIndex t.typeId ifd.fieldId entry)
  canonical : ∀ typeId objectId blob, store.lookup (.object typeId objectId) = some blob →
    blob = serializeFields blob.deserializeFields

section

variable {schema : Schema} {store : Store} {writes : Writes Key Payload}

theorem Indexed.consistent (h : Indexed schema store) : IndexConsistent schema store := by
  intro t ht ifd hifd entry blob
  constructor
  · intro hstored
    obtain ⟨objectId, howned⟩ := h.owned t ht ifd hifd entry (by rw [Store.Has, hstored]; rfl)
    exact ⟨objectId, (h.at_object t ht ifd hifd objectId _ howned blob).mp hstored⟩
  · rintro ⟨objectId, hobject⟩
    exact (h.at_object t ht ifd hifd objectId _ (ownedBy_of_indexKeyOf hobject.2) blob).mpr hobject

def Key.isRecord : Key → Bool
  | .object _ _ => true
  | .fieldIndex _ _ _ => true
  | _ => false

theorem Key.isRecord_of_isUniqueIndex {k : Key} (h : k.isUniqueIndex) : k.isRecord = false := by
  cases k with
  | uniqueIndex => rfl
  | _ => cases h

theorem IndexedAt.frame {t : TypeDef} {ifd : IndexedField} {objectId : Id}
    (h : IndexedAt store t ifd objectId) (hobject : ∀ w ∈ writes, w.1 ≠ .object t.typeId objectId)
    (hentry : ∀ w ∈ writes, ¬ OwnedBy t ifd objectId w.1) :
    IndexedAt (store.apply writes) t ifd objectId := by
  intro key howned blob
  have hkey : ∀ w ∈ writes, w.1 ≠ key := fun w hw heq => hentry w hw (heq ▸ howned)
  rw [Store.lookup_apply, Store.lookup_apply, lastWrite_eq_none.mpr hobject,
    lastWrite_eq_none.mpr hkey]
  exact h key howned blob

theorem Indexed.apply (h : Indexed schema store)
    (hblobs : ∀ w ∈ writes, ∀ typeId objectId, w.1 = .object typeId objectId → ∀ blob ∈ w.2,
      blob = serializeFields blob.deserializeFields)
    (hentries : ∀ w ∈ writes, ∀ typeId fieldId entry, w.1 = .fieldIndex typeId fieldId entry →
      ∃ front objectId, entry = front ++ word objectId)
    (hat : ∀ t ∈ schema.types, ∀ ifd ∈ t.indexedFields, ∀ objectId,
      IndexedAt (store.apply writes) t ifd objectId) : Indexed schema (store.apply writes) where
  at_object := hat
  owned := by
    intro t ht ifd hifd entry hstored
    rcases Store.has_apply.mp hstored with ⟨value, hlast⟩ | ⟨-, hstored⟩
    · obtain ⟨front, objectId, rfl⟩ := hentries _ (lastWrite_mem hlast) _ _ _ rfl
      exact ⟨objectId, front, rfl⟩
    · exact h.owned t ht ifd hifd entry hstored
  canonical := by
    intro typeId objectId blob hstored
    rw [Store.lookup_apply] at hstored
    cases hlast : lastWrite writes (.object typeId objectId) with
    | none =>
      rw [hlast] at hstored
      exact h.canonical typeId objectId blob hstored
    | some value =>
      rw [hlast] at hstored
      exact hblobs _ (lastWrite_mem hlast) _ _ rfl blob hstored

theorem Indexed.other (h : Indexed schema store) (hw : ∀ w ∈ writes, w.1.isRecord = false) :
    Indexed schema (store.apply writes) := by
  have hno : ∀ w ∈ writes, ∀ k : Key, k.isRecord → w.1 ≠ k := by
    rintro w hw' k hk rfl
    rw [hw w hw'] at hk
    cases hk
  apply h.apply
  · exact fun w hw' typeId objectId heq => absurd heq (hno w hw' _ rfl)
  · exact fun w hw' typeId fieldId entry heq => absurd heq (hno w hw' _ rfl)
  · intro t ht ifd hifd objectId
    apply (h.at_object t ht ifd hifd objectId).frame
    · exact fun w hw' => hno w hw' _ rfl
    · rintro w hw' ⟨front, heq⟩
      exact hno w hw' _ rfl heq

end

section

variable {schema : Schema} {store : Store} {t : TypeDef} {made made' : List (Id × FieldMap)}
  {writes writes' : Writes Key Payload}

structure Inserts (t : TypeDef) (made : List (Id × FieldMap)) (writes : Writes Key Payload) :
    Prop where
  object : ∀ w ∈ writes, ∀ typeId objectId, w.1 = .object typeId objectId →
    typeId = t.typeId ∧ ∃ fields, (objectId, fields) ∈ made ∧ w.2 = some (serializeFields fields)
  entry : ∀ w ∈ writes, ∀ typeId fieldId entry, w.1 = .fieldIndex typeId fieldId entry →
    ∃ m ∈ made, ∃ ifd ∈ t.indexedFields, indexKeyOf t m.1 m.2 ifd = some w.1 ∧
      w.2 = some (serializeFields m.2)
  put_object : ∀ m ∈ made, (.object t.typeId m.1, some (serializeFields m.2)) ∈ writes
  put_entry : ∀ m ∈ made, ∀ ifd ∈ t.indexedFields, ∀ key ∈ indexKeyOf t m.1 m.2 ifd,
    (key, some (serializeFields m.2)) ∈ writes

theorem Inserts.append (h : Inserts t made writes) (h' : Inserts t made' writes') :
    Inserts t (made ++ made') (writes ++ writes') where
  object := by
    intro w hw typeId objectId heq
    rcases mem_append.mp hw with hw | hw
    · obtain ⟨htype, fields, hm, hv⟩ := h.object w hw typeId objectId heq
      exact ⟨htype, fields, mem_append_left _ hm, hv⟩
    · obtain ⟨htype, fields, hm, hv⟩ := h'.object w hw typeId objectId heq
      exact ⟨htype, fields, mem_append_right _ hm, hv⟩
  entry := by
    intro w hw typeId fieldId entry heq
    rcases mem_append.mp hw with hw | hw
    · obtain ⟨m, hm, hkey⟩ := h.entry w hw typeId fieldId entry heq
      exact ⟨m, mem_append_left _ hm, hkey⟩
    · obtain ⟨m, hm, hkey⟩ := h'.entry w hw typeId fieldId entry heq
      exact ⟨m, mem_append_right _ hm, hkey⟩
  put_object := forall_mem_append.mpr
    ⟨fun m hm => mem_append_left _ (h.put_object m hm),
      fun m hm => mem_append_right _ (h'.put_object m hm)⟩
  put_entry := forall_mem_append.mpr
    ⟨fun m hm ifd hifd key hkey => mem_append_left _ (h.put_entry m hm ifd hifd key hkey),
      fun m hm ifd hifd key hkey => mem_append_right _ (h'.put_entry m hm ifd hifd key hkey)⟩

theorem Inserts.other (h : ∀ w ∈ writes, w.1.isRecord = false) : Inserts t [] writes where
  object := by
    intro w hw typeId objectId heq
    have hrecord := h w hw
    rw [heq] at hrecord
    cases hrecord
  entry := by
    intro w hw typeId fieldId entry heq
    have hrecord := h w hw
    rw [heq] at hrecord
    cases hrecord
  put_object := nofun
  put_entry := nofun

theorem Inserts.at_object (h : Inserts t made writes) (hnodup : (made.map Prod.fst).Nodup)
    (ht : t ∈ schema.types) {ifd : IndexedField} (hifd : ifd ∈ t.indexedFields) {m : Id × FieldMap}
    (hm : m ∈ made) (hat : IndexedAt store t ifd m.1)
    (hfresh : ¬ store.Has (.object t.typeId m.1)) : IndexedAt (store.apply writes) t ifd m.1 := by
  have hsame : ∀ m' ∈ made, m'.1 = m.1 → m' = m :=
    fun m' hm' heq => inj_on_of_nodup_map hnodup hm' hm heq
  have hobject : lastWrite writes (.object t.typeId m.1) = some (some (serializeFields m.2)) := by
    apply lastWrite_of_agree (h.put_object m hm)
    intro w hw heq
    obtain ⟨-, fields, hmem, hv⟩ := h.object w hw _ _ heq
    rw [hv, ← hsame _ hmem rfl]
  intro key howned blob
  have hwritten : ∀ w ∈ writes, w.1 = key →
      indexKeyOf t m.1 m.2 ifd = some key ∧ w.2 = some (serializeFields m.2) := by
    rintro w hw rfl
    obtain ⟨front, heq⟩ := howned
    obtain ⟨m', hm', ifd', hifd', hkey, hv⟩ := h.entry w hw _ _ _ heq
    obtain ⟨-, hfield, hid⟩ := (ownedBy_of_indexKeyOf hkey).unique ⟨front, heq⟩
    rw [eq_of_indexedField ht hifd' hifd hfield, hsame m' hm' hid] at hkey
    exact ⟨hkey, hsame m' hm' hid ▸ hv⟩
  rw [Store.lookup_apply, Store.lookup_apply, hobject, getD_some]
  by_cases hkey : indexKeyOf t m.1 m.2 ifd = some key
  · rw [lastWrite_of_agree (h.put_entry m hm ifd hifd key hkey) fun w hw heq => (hwritten w hw heq).2,
      getD_some, iff_self_and]
    rintro heq
    cases heq
    exact hkey
  · rw [lastWrite_eq_none.mpr fun w hw heq => hkey (hwritten w hw heq).1, getD_none]
    constructor
    · intro hstored
      have hlive := ((hat key howned blob).mp hstored).1
      exact absurd (show store.Has (.object t.typeId m.1) by rw [Store.Has, hlive]; rfl) hfresh
    · rintro ⟨heq, hkey'⟩
      cases heq
      exact absurd hkey' hkey

theorem Indexed.insert (h : Indexed schema store) (hins : Inserts t made writes)
    (ht : t ∈ schema.types) (hnodup : (made.map Prod.fst).Nodup)
    (hfresh : ∀ m ∈ made, ¬ store.Has (.object t.typeId m.1)) :
    Indexed schema (store.apply writes) := by
  apply h.apply
  · intro w hw typeId objectId heq blob hblob
    obtain ⟨-, fields, -, hv⟩ := hins.object w hw typeId objectId heq
    rw [hv] at hblob
    cases hblob
    rfl
  · intro w hw typeId fieldId entry heq
    obtain ⟨m, -, ifd, -, hkey, -⟩ := hins.entry w hw typeId fieldId entry heq
    obtain ⟨front, howned⟩ := ownedBy_of_indexKeyOf hkey
    exact ⟨front, m.1, (Key.fieldIndex.inj (heq.symm.trans howned)).2.2⟩
  · intro u hu ifd hifd objectId
    have hat := h.at_object u hu ifd hifd objectId
    by_cases hmade : u = t ∧ objectId ∈ made.map Prod.fst
    · obtain ⟨rfl, hmem⟩ := hmade
      obtain ⟨m, hm, rfl⟩ := mem_map.mp hmem
      exact hins.at_object hnodup hu hifd hm hat (hfresh m hm)
    · apply hat.frame
      · intro w hw heq
        obtain ⟨htype, fields, hm, -⟩ := hins.object w hw _ _ heq
        exact hmade ⟨eq_of_typeId hu ht htype, mem_map_of_mem hm⟩
      · rintro w hw ⟨front, heq⟩
        obtain ⟨m, hm, ifd', -, hkey, -⟩ := hins.entry w hw _ _ _ heq
        obtain ⟨htype, -, hid⟩ := (ownedBy_of_indexKeyOf hkey).unique ⟨front, heq⟩
        exact hmade ⟨(eq_of_typeId ht hu htype).symm, hid ▸ mem_map_of_mem hm⟩

end

section

variable {schema : Schema} {view : View} {versions : Versions} {t : TypeDef}

variable {objectId : Id} {scalars : FieldMap} {links : List Link}

theorem isRecord_linkPuts {l : Link × Nat} :
    ∀ w ∈ linkPuts schema view versions objectId scalars links l,
      w.1.isRecord = false := by
  simp [linkPuts, Key.isRecord]

theorem createPuts_inserts :
    Inserts t [(objectId, scalars)] (createPuts schema view versions t objectId scalars links) := by
  have hlinks : Inserts t []
      (links.zipIdx.flatMap (linkPuts schema view versions objectId scalars links)) := by
    apply Inserts.other
    intro w hw
    obtain ⟨l, -, hw⟩ := mem_flatMap.mp hw
    exact isRecord_linkPuts w hw
  have hrecord : Inserts t [(objectId, scalars)]
      ((t.indexedFields.filterMap fun ifd =>
        (indexKeyOf t objectId scalars ifd).map fun key => (key, some (serializeFields scalars))) ++
      [(.object t.typeId objectId, some (serializeFields scalars))]) := by
    have hentry : ∀ w ∈ (t.indexedFields.filterMap fun ifd =>
        (indexKeyOf t objectId scalars ifd).map fun key => (key, some (serializeFields scalars))),
        ∃ ifd ∈ t.indexedFields, indexKeyOf t objectId scalars ifd = some w.1 ∧
          w.2 = some (serializeFields scalars) := by
      intro w hw
      obtain ⟨ifd, hifd, hput⟩ := mem_filterMap.mp hw
      obtain ⟨key, hkey, rfl⟩ := map_eq_some_iff.mp hput
      exact ⟨ifd, hifd, hkey, rfl⟩
    constructor
    · intro w hw typeId id heq
      rcases mem_append.mp hw with hw | hw
      · obtain ⟨ifd, -, hkey, -⟩ := hentry w hw
        obtain ⟨front, howned⟩ := ownedBy_of_indexKeyOf hkey
        cases heq.symm.trans howned
      · cases mem_singleton.mp hw
        cases heq
        exact ⟨rfl, scalars, mem_singleton_self _, rfl⟩
    · intro w hw typeId fieldId entry heq
      rcases mem_append.mp hw with hw | hw
      · exact ⟨_, mem_singleton_self _, hentry w hw⟩
      · cases mem_singleton.mp hw
        cases heq
    · rw [forall_mem_singleton]
      exact mem_append_right _ (mem_singleton_self _)
    · rw [forall_mem_singleton]
      intro ifd hifd key hkey
      exact mem_append_left _ (mem_filterMap.mpr
        ⟨ifd, hifd, map_eq_some_iff.mpr ⟨key, hkey, rfl⟩⟩)
  have hall := hrecord.append hlinks
  rw [append_nil, append_assoc] at hall
  exact hall

variable {puts : Writes Key Payload} {staged : List (Key × Id)} {fields : FieldMap}

theorem stageCreateWrites_inserts {staged' : List (Key × Id)}
    (h : stageCreateWrites schema view versions t objectId fields staged = .ok (staged', puts))
    (hstaged : ∀ s ∈ staged, s.1.isUniqueIndex) :
    (∀ s ∈ staged', s.1.isUniqueIndex) ∧ ∃ scalars, Inserts t [(objectId, scalars)] puts := by
  obtain ⟨split, -, -, rfl⟩ := stageCreateWrites_eq_ok h
  exact ⟨stageCreateWrites_keys h hstaged, split.1, createPuts_inserts⟩

variable {made : List (Id × FieldMap)}

theorem Inserts.uniquePuts (h : Inserts t made puts)
    (hstaged : ∀ s ∈ staged, s.1.isUniqueIndex) : Inserts t made (uniquePuts staged ++ puts) :=
  (Inserts.other fun w hw =>
    Key.isRecord_of_isUniqueIndex (isUniqueIndex_uniquePuts hstaged w hw)).append h

variable {writes : Writes Key Payload} {typeName : String} {c' c : Counters} {rows : List FieldMap}
  {batch : Batch}

theorem stageRows_inserts
    (hbatch : Inserts t made batch.puts) (hstaged : ∀ s ∈ batch.staged, s.1.isUniqueIndex)
    (h : stageRows schema view t rows batch c = (.ok writes, c')) :
    ∃ new, Inserts t (made ++ new) writes ∧ new.map Prod.fst = drawnIds c.nextObjectId rows.length := by
  induction rows generalizing batch c made with
  | nil =>
    cases (Prod.mk.inj h).1
    exact ⟨[], (append_nil made).symm ▸ hbatch.uniquePuts hstaged, rfl⟩
  | cons fields rows ih =>
    obtain ⟨staged, puts, hstage, h⟩ := stageRows_cons_eq_ok h
    obtain ⟨hkeys, scalars, hrow⟩ := stageCreateWrites_inserts hstage hstaged
    obtain ⟨new, hnew, hids⟩ := ih (hbatch.append hrow) hkeys h
    refine ⟨(c.nextObjectId, scalars) :: new, ?_, ?_⟩
    · rwa [append_assoc] at hnew
    · rw [map_cons, length_cons, drawnIds_succ]
      exact congrArg (c.nextObjectId :: ·) hids

theorem restoreRows_inserts {rows : List (Id × FieldMap)}
    {rejectExisting : Bool} (hbatch : Inserts t made batch.puts)
    (hstaged : ∀ s ∈ batch.staged, s.1.isUniqueIndex)
    (h : restoreRows schema view t rejectExisting rows batch c = (.ok writes, c')) :
    (∃ new, Inserts t (made ++ new) writes ∧ new.map Prod.fst = rows.map Prod.fst) ∧
      (rejectExisting = true → ∀ row ∈ rows, view.get (.object t.typeId row.1) = .ok none) := by
  induction rows generalizing batch c made with
  | nil =>
    cases (Prod.mk.inj h).1
    exact ⟨⟨[], (append_nil made).symm ▸ hbatch.uniquePuts hstaged, rfl⟩, fun _ => nofun⟩
  | cons row rows ih =>
    obtain ⟨hget, staged, puts, hstage, h⟩ := restoreRows_cons_eq_ok h
    obtain ⟨hkeys, scalars, hrow⟩ := stageCreateWrites_inserts hstage hstaged
    obtain ⟨⟨new, hnew, hids⟩, hrest⟩ := ih (hbatch.append hrow) hkeys h
    refine ⟨⟨(row.1, scalars) :: new, ?_, ?_⟩, fun hreject => ?_⟩
    · rwa [append_assoc] at hnew
    · rw [map_cons, hids, map_cons]
    · exact forall_mem_cons.mpr ⟨hget hreject, hrest hreject⟩

theorem create_inserts (h : create schema view c typeName fields = (.ok writes, c')) :
    ∃ t, schema.getType typeName = some t ∧
      ∃ scalars, Inserts t [(c.nextObjectId, scalars)] writes := by
  obtain ⟨t, ht, staged, puts, hstage, rfl⟩ := create_eq_ok h
  obtain ⟨hkeys, scalars, hins⟩ := stageCreateWrites_inserts hstage (forall_mem_nil _)
  exact ⟨t, ht, scalars, hins.uniquePuts hkeys⟩

theorem createBatch_inserts (h : createBatch schema view c typeName rows = (.ok writes, c')) :
    (rows = [] ∧ writes = []) ∨ ∃ t, schema.getType typeName = some t ∧
      ∃ made, Inserts t made writes ∧ made.map Prod.fst = drawnIds c.nextObjectId rows.length := by
  refine (createBatch_eq_ok h).imp_right fun ⟨t, ht, hrows⟩ => ⟨t, ht, ?_⟩
  have hnone : Inserts t [] ([] : Writes Key Payload) := Inserts.other (forall_mem_nil _)
  exact stageRows_inserts hnone (forall_mem_nil _) hrows

end

section

variable {schema : Schema} {store : Store} {view : View} {versions : Versions} {t : TypeDef}
  {ifd : IndexedField} {objectId : Id} {old new : FieldMap}

variable {w : Key × Option Payload} {serialized : Payload} {anyUpdate : Bool}

theorem ownedBy_of_mem_maintainIndex
    (hw : w ∈ maintainIndex t objectId old new anyUpdate serialized ifd) :
    OwnedBy t ifd objectId w.1 := by
  have hput : ∀ (m : FieldMap) (v : Option Payload),
      ∀ w ∈ ((indexKeyOf t objectId m ifd).toList.map fun key => (key, v)),
        OwnedBy t ifd objectId w.1 := by
    intro m v w hw
    obtain ⟨key, hkey, rfl⟩ := mem_map.mp hw
    exact ownedBy_of_indexKeyOf (mem_toList.mp hkey)
  rw [maintainIndex] at hw
  split_ifs at hw
  · exact (mem_append.mp hw).elim (hput _ _ w) (hput _ _ w)
  · exact hput _ _ w hw
  · cases hw

def EqualIsSame (old new : Option Value) : Prop := Value.optionEq old new = true → old = new

instance (old new : Option Value) : Decidable (EqualIsSame old new) :=
  inferInstanceAs (Decidable (_ → _))

theorem indexKeyOf_congr (h : old.lookup ifd.name = new.lookup ifd.name) :
    indexKeyOf t objectId old ifd = indexKeyOf t objectId new ifd := by
  rw [indexKeyOf, indexKeyOf, h]

theorem lastWrite_toList_map (key? : Option Key) (v : Option Payload) (key : Key) :
    lastWrite (key?.toList.map fun k => (k, v)) key = if key? = some key then some v else none := by
  cases key? with
  | none => rfl
  | some k => exact if_congr some_inj.symm rfl rfl

theorem lastWrite_maintainIndex (key : Key)
    (hsame : EqualIsSame (old.lookup ifd.name) (new.lookup ifd.name)) :
    lastWrite (maintainIndex t objectId old new anyUpdate serialized ifd) key =
      if indexKeyOf t objectId new ifd = some key then
        if Value.optionEq (old.lookup ifd.name) (new.lookup ifd.name) && !anyUpdate then none
        else some (some serialized)
      else if indexKeyOf t objectId old ifd = some key then some none else none := by
  rw [maintainIndex]
  cases heq : Value.optionEq (old.lookup ifd.name) (new.lookup ifd.name) with
  | false =>
    simp only [Bool.not_false, if_true, Bool.false_and, Bool.false_eq_true, if_false]
    rw [lastWrite_append, lastWrite_toList_map, lastWrite_toList_map]
    split_ifs <;> rfl
  | true =>
    rw [indexKeyOf_congr (hsame heq)]
    cases anyUpdate with
    | false => simp
    | true =>
      simp only [Bool.not_true, Bool.false_eq_true, if_false, if_true, Bool.and_false]
      rw [lastWrite_toList_map]
      split_ifs <;> rfl

theorem isRecord_refreshOutboundRevEdges {data : Option Payload} :
    ∀ w ∈ refreshOutboundRevEdges schema view versions t objectId data, w.1.isRecord = false := by
  intro w hw
  rw [refreshOutboundRevEdges] at hw
  split_ifs at hw
  · obtain ⟨f, -, hw⟩ := mem_flatMap.mp hw
    split at hw
    · cases hw
    · obtain ⟨row, -, rfl⟩ := mem_map.mp hw
      rfl
  · cases hw

variable {updates : FieldMap}

theorem record_of_mem_updateWrites
    (hw : w ∈ updateWrites schema view versions t objectId old updates) (hrecord : w.1.isRecord) :
    w = (.object t.typeId objectId, some (serializeFields (old.merge updates))) ∨
      ∃ ifd ∈ t.indexedFields, OwnedBy t ifd objectId w.1 := by
  rw [updateWrites, mem_append, mem_append] at hw
  rcases hw with (hw | hw) | hw
  · obtain ⟨ifd, hifd, hw⟩ := mem_flatMap.mp hw
    exact .inr ⟨ifd, hifd, ownedBy_of_mem_maintainIndex hw⟩
  · rw [isRecord_refreshOutboundRevEdges w hw] at hrecord
    cases hrecord
  · rw [mem_cons, mem_singleton] at hw
    rcases hw with rfl | rfl
    · cases hrecord
    · exact .inl rfl

theorem lastWrite_updateWrites (ht : t ∈ schema.types) (hifd : ifd ∈ t.indexedFields) {key : Key}
    (howned : OwnedBy t ifd objectId key) :
    lastWrite (updateWrites schema view versions t objectId old updates) key =
      lastWrite (maintainIndex t objectId old (old.merge updates) (!updates.entries.isEmpty)
        (serializeFields (old.merge updates)) ifd) key := by
  obtain ⟨front, rfl⟩ := howned
  have hrefresh := @isRecord_refreshOutboundRevEdges schema view versions t objectId
    (some (serializeFields (old.merge updates)))
  rw [updateWrites, lastWrite_append, lastWrite_append]
  rw [lastWrite_eq_none.mpr (by simp), none_or, lastWrite_eq_none.mpr, none_or]
  · apply lastWrite_flatMap_of_only hifd
    intro other hother hne
    rw [lastWrite_eq_none]
    intro w hw heq
    obtain ⟨-, hfield, -⟩ := (ownedBy_of_mem_maintainIndex hw).unique ⟨front, heq⟩
    exact hne (eq_of_indexedField ht hother hifd hfield)
  · intro w hw heq
    have hrecord := hrefresh w hw
    rw [heq] at hrecord
    cases hrecord

theorem FieldMap.merge_of_isEmpty {fields updates : FieldMap} (h : updates.entries.isEmpty = true) :
    fields.merge updates = fields := by
  rw [FieldMap.merge, List.isEmpty_iff.mp h]
  rfl

theorem IndexedAt.update (ht : t ∈ schema.types) (hifd : ifd ∈ t.indexedFields)
    {unique : Writes Key Payload} (hunique : ∀ w ∈ unique, w.1.isUniqueIndex) {existing : Payload}
    (hexisting : store.lookup (.object t.typeId objectId) = some existing)
    (hcanonical : existing = serializeFields existing.deserializeFields)
    (hat : IndexedAt store t ifd objectId)
    (hsame : EqualIsSame (existing.deserializeFields.lookup ifd.name)
      ((existing.deserializeFields.merge updates).lookup ifd.name)) :
    IndexedAt (store.apply (unique ++ updateWrites schema view versions t objectId
      existing.deserializeFields updates)) t ifd objectId := by
  intro key howned blob
  have hnot : lastWrite unique key = none := by
    rw [lastWrite_eq_none]
    rintro w hw rfl
    obtain ⟨front, heq⟩ := howned
    have hindex := hunique w hw
    rw [heq] at hindex
    cases hindex
  have hobject : lastWrite (unique ++ updateWrites schema view versions t objectId
      existing.deserializeFields updates) (.object t.typeId objectId) =
      some (some (serializeFields (existing.deserializeFields.merge updates))) := by
    rw [updateWrites, append_cons _ _ [_], ← append_assoc, lastWrite_concat, if_pos rfl]
  rw [Store.lookup_apply, Store.lookup_apply, hobject, getD_some, lastWrite_append, hnot,
    or_none, lastWrite_updateWrites ht hifd howned, lastWrite_maintainIndex key hsame]
  have hstored := hat key howned
  rw [hexisting] at hstored
  by_cases hnew : indexKeyOf t objectId (existing.deserializeFields.merge updates) ifd = some key
  · have hblob : some (serializeFields (existing.deserializeFields.merge updates)) = some blob ↔
        some (serializeFields (existing.deserializeFields.merge updates)) = some blob ∧
          indexKeyOf t objectId blob.deserializeFields ifd = some key := by
      refine ⟨fun h => ⟨h, ?_⟩, And.left⟩
      cases h
      exact hnew
    split_ifs with hquiet
    · -- nothing was updated, and the stored entry already holds the blob
      rw [Bool.and_eq_true, Bool.not_eq_true', Bool.not_eq_false'] at hquiet
      rw [FieldMap.merge_of_isEmpty hquiet.2, ← hcanonical, getD_none]
      exact hstored blob
    · exact hblob
  · have hgone : ¬ (some (serializeFields (existing.deserializeFields.merge updates)) = some blob ∧
        indexKeyOf t objectId blob.deserializeFields ifd = some key) := by
      rintro ⟨heq, hkey⟩
      cases heq
      exact hnew hkey
    split_ifs with hold
    · exact iff_of_false nofun hgone
    · refine iff_of_false (fun h => hold ?_) hgone
      obtain ⟨heq, hkey⟩ := (hstored blob).mp h
      cases heq
      exact hkey

def KeepsZeros (schema : Schema) (store : Store) (typeName : String) (objectId : Id)
    (updates : FieldMap) : Prop :=
  ∀ t ∈ schema.getType typeName, ∀ existing ∈ store.lookup (.object t.typeId objectId),
    ∀ ifd ∈ t.indexedFields, EqualIsSame (existing.deserializeFields.lookup ifd.name)
      ((existing.deserializeFields.merge updates).lookup ifd.name)

instance (schema : Schema) (store : Store) (typeName : String) (objectId : Id)
    (updates : FieldMap) : Decidable (KeepsZeros schema store typeName objectId updates) :=
  inferInstanceAs (Decidable (∀ t ∈ schema.getType typeName, ∀ existing ∈ _, ∀ ifd ∈ _, _))

theorem Indexed.update (h : Indexed schema store) {c c' : Counters} {typeName : String}
    {writes : Writes Key Payload} (hzeros : KeepsZeros schema store typeName objectId updates)
    (hok : Engine.update schema store.view c typeName objectId updates = (.ok writes, c')) :
    Indexed schema (store.apply writes) := by
  obtain ⟨t, ht, -, existing, hget, unique, hunique, rfl⟩ := update_eq_ok hok
  have htype := (mem_of_getType ht).1
  have hexisting : store.lookup (.object t.typeId objectId) = some existing :=
    Except.ok.inj hget
  have hkeys := updateUniques_keys hunique
  have hrecord : ∀ w ∈ unique.1 ++ updateWrites schema store.view c.versions t objectId
      existing.deserializeFields updates, w.1.isRecord →
      w = (.object t.typeId objectId,
        some (serializeFields (existing.deserializeFields.merge updates))) ∨
      ∃ ifd ∈ t.indexedFields, OwnedBy t ifd objectId w.1 := by
    intro w hw hrecord
    rcases mem_append.mp hw with hw | hw
    · rw [Key.isRecord_of_isUniqueIndex (hkeys w hw)] at hrecord
      cases hrecord
    · exact record_of_mem_updateWrites hw hrecord
  apply h.apply
  · intro w hw typeId id heq blob hblob
    rcases hrecord w hw (by rw [heq]; rfl) with rfl | ⟨ifd, -, front, howned⟩
    · cases hblob
      rfl
    · cases heq.symm.trans howned
  · intro w hw typeId fieldId entry heq
    rcases hrecord w hw (by rw [heq]; rfl) with rfl | ⟨ifd, -, front, howned⟩
    · cases heq
    · exact ⟨front, objectId, (Key.fieldIndex.inj (heq.symm.trans howned)).2.2⟩
  · intro u hu ifd hifd id
    have hat := h.at_object u hu ifd hifd id
    by_cases hself : u = t ∧ id = objectId
    · obtain ⟨rfl, rfl⟩ := hself
      exact hat.update hu hifd hkeys hexisting (h.canonical _ _ _ hexisting)
        (hzeros u ht existing hexisting ifd hifd)
    · apply hat.frame
      · intro w hw heq
        rcases hrecord w hw (by rw [heq]; rfl) with rfl | ⟨ifd', -, front, howned⟩
        · obtain ⟨htypes, rfl⟩ := Key.object.inj heq
          exact hself ⟨(eq_of_typeId htype hu htypes).symm, rfl⟩
        · cases heq.symm.trans howned
      · rintro w hw ⟨front, heq⟩
        rcases hrecord w hw (by rw [heq]; rfl) with rfl | ⟨ifd', -, howned⟩
        · cases heq
        · obtain ⟨htypes, -, rfl⟩ := howned.unique ⟨front, heq⟩
          exact hself ⟨(eq_of_typeId htype hu htypes).symm, rfl⟩

end

section

variable {schema : Schema} {store : Store} {versions : Versions} {a : Arrival} {key : Key}
  {t : TypeDef}

theorem record_of_mem_tombstonesOf (h : key ∈ tombstonesOf schema store.view versions a)
    (hrecord : key.isRecord) :
    key = .object a.1.1 a.1.2 ∨ ∃ t ∈ schema.typeById a.1.1,
      ∃ data ∈ store.lookup (.object t.typeId a.1.2), ∃ ifd ∈ t.indexedFields,
        indexKeyOf t a.1.2 data.deserializeFields ifd = some key := by
  have hedge : ∀ s r t, key ∉ edgeTombstones s r t := by
    rintro s r t hmem
    simp only [edgeTombstones, mem_cons, not_mem_nil, or_false] at hmem
    rcases hmem with rfl | rfl <;> cases hrecord
  rw [tombstonesOf] at h
  split at h
  · cases h
  next t ht =>
    simp only [mem_append] at h
    rcases h with ((h | h) | h) | h
    · right
      refine ⟨t, ht, ?_⟩
      rw [storedEntries] at h
      split at h
      next data hdata =>
        refine ⟨data, Except.ok.inj hdata, ?_⟩
        rw [entryTombstones, mem_append] at h
        rcases h with h | h
        · obtain ⟨f, -, hf⟩ := mem_filterMap.mp h
          split_ifs at hf
          obtain ⟨value, -, hf⟩ := bind_eq_some_iff.mp hf
          split_ifs at hf
          cases hf
          cases hrecord
        · obtain ⟨ifd, hifd, hkey⟩ := mem_filterMap.mp h
          exact ⟨ifd, hifd, hkey⟩
      · cases h
    · obtain ⟨inc, -, h⟩ := mem_flatMap.mp h
      obtain ⟨row, -, h⟩ := mem_flatMap.mp h
      exact absurd h (hedge _ _ _)
    · rcases mem_append.mp h with h | h
      · obtain ⟨c, -, h⟩ := mem_flatMap.mp h
        exact absurd h (hedge _ _ _)
      · obtain ⟨rel, -, h⟩ := mem_flatMap.mp h
        obtain ⟨row, -, h⟩ := mem_flatMap.mp h
        exact absurd h (hedge _ _ _)
    · left
      rw [ownTombstones, mem_cons] at h
      refine h.resolve_right fun h => ?_
      split_ifs at h
      · cases mem_singleton.mp h
        cases hrecord
      · cases h

theorem object_mem_tombstonesOf (ht : schema.typeById a.1.1 = some t) :
    .object a.1.1 a.1.2 ∈ tombstonesOf schema store.view versions a := by
  rw [tombstonesOf, ht]
  exact mem_append_right _ mem_cons_self

theorem entry_mem_tombstonesOf (ht : schema.typeById a.1.1 = some t) {data : Payload}
    (hdata : store.lookup (.object t.typeId a.1.2) = some data) {ifd : IndexedField}
    (hifd : ifd ∈ t.indexedFields)
    (hkey : indexKeyOf t a.1.2 data.deserializeFields ifd = some key) :
    key ∈ tombstonesOf schema store.view versions a := by
  have hget : store.view.get (.object t.typeId a.1.2) = .ok (some data) := congrArg Except.ok hdata
  rw [tombstonesOf, ht]
  apply mem_append_left
  apply mem_append_left
  apply mem_append_left
  rw [storedEntries, hget]
  exact mem_append_right _ (mem_filterMap.mpr ⟨ifd, hifd, hkey⟩)

theorem Indexed.tombstone (h : Indexed schema store) {arrivals : List Arrival} {arena : List Key}
    (harena : ∀ k, k ∈ arena ↔ ∃ a ∈ arrivals, k ∈ tombstonesOf schema store.view versions a) :
    Indexed schema (store.apply (arena.map fun key => (key, none))) := by
  have hentry : ∀ w ∈ arena.map fun key => (key, (none : Option Payload)),
      ∀ {u : TypeDef} {ifd : IndexedField} {id : Id}, u ∈ schema.types → OwnedBy u ifd id w.1 →
        ∃ a ∈ arrivals, a.1 = (u.typeId, id) := by
    rintro w hw u ifd id hu ⟨front, heq⟩
    obtain ⟨key, hkey, rfl⟩ := mem_map.mp hw
    obtain ⟨a, ha, hmem⟩ := (harena key).mp hkey
    have heq : key = _ := heq
    rcases record_of_mem_tombstonesOf hmem (by rw [heq]; rfl) with hobj | ⟨t, ht, _, -, ifd', -, hk⟩
    · cases hobj.symm.trans heq
    · obtain ⟨htypes, -, hid⟩ := (ownedBy_of_indexKeyOf hk).unique ⟨front, heq⟩
      exact ⟨a, ha, Prod.ext ((mem_of_typeById ht).2.symm.trans htypes) hid⟩
  apply h.apply
  · intro w hw typeId id _ blob hblob
    obtain ⟨key, -, rfl⟩ := mem_map.mp hw
    cases hblob
  · intro w hw typeId fieldId entry heq
    obtain ⟨key, hkey, rfl⟩ := mem_map.mp hw
    obtain ⟨a, -, hmem⟩ := (harena key).mp hkey
    have heq : key = _ := heq
    rcases record_of_mem_tombstonesOf hmem (by rw [heq]; rfl) with hobj | ⟨t, -, _, -, ifd, -, hk⟩
    · cases hobj.symm.trans heq
    · obtain ⟨front, howned⟩ := ownedBy_of_indexKeyOf hk
      exact ⟨front, a.1.2, (Key.fieldIndex.inj (heq.symm.trans howned)).2.2⟩
  · intro u hu ifd hifd id
    have hat := h.at_object u hu ifd hifd id
    by_cases hvisited : ∃ a ∈ arrivals, a.1 = (u.typeId, id)
    · -- the object goes, and with it every entry it has
      obtain ⟨a, ha, hid⟩ := hvisited
      have htype : schema.typeById a.1.1 = some u := by
        rw [hid]
        exact typeById_typeId hu
      have hobject : .object u.typeId id ∈ arena := by
        rw [harena]
        have hown := @object_mem_tombstonesOf schema store versions a u htype
        rw [hid] at hown
        exact ⟨a, ha, hown⟩
      intro key howned blob
      rw [Store.lookup_apply_tombstones, Store.lookup_apply_tombstones, if_pos hobject]
      refine iff_of_false (fun hstored => ?_) fun h => nomatch h.1
      split_ifs at hstored with hkey
      obtain ⟨hlive, hindex⟩ := (hat key howned blob).mp hstored
      have hid' : a.1.2 = id := congrArg Prod.snd hid
      rw [← hid'] at hlive hindex
      exact hkey ((harena key).mpr ⟨a, ha, entry_mem_tombstonesOf htype hlive hifd hindex⟩)
    · apply hat.frame
      · intro w hw heq
        obtain ⟨key, hkey, rfl⟩ := mem_map.mp hw
        obtain ⟨a, ha, hmem⟩ := (harena key).mp hkey
        have heq : key = _ := heq
        exact hvisited ⟨a, ha, eq_of_object_mem (heq ▸ hmem)⟩
      · exact fun w hw howned => hvisited (hentry w hw hu howned)

theorem Indexed.delete (h : Indexed schema store) {c c' : Counters} {typeName : String}
    {objectId : Id} {writes : Writes Key Payload}
    (hok : Engine.delete schema store.view c typeName objectId = (.ok writes, c')) :
    Indexed schema (store.apply writes) := by
  obtain ⟨typeId, -, walk, hwalk, rfl⟩ := delete_eq_ok hok
  exact h.tombstone (deleteInner_cascade hwalk).1

end

variable {schema : Schema} {store : Store} {versions : Versions}

theorem Indexed.empty : Indexed schema .empty where
  at_object := fun _ _ _ _ _ _ _ _ => ⟨nofun, nofun⟩
  owned := nofun
  canonical := nofun

def FreshIds (schema : Schema) (store : Store) (typeName : String) (ids : List Id) : Prop :=
  ids.Nodup ∧ ∀ t ∈ schema.getType typeName, ∀ id ∈ ids, ¬ store.Has (.object t.typeId id)

instance (schema : Schema) (store : Store) (typeName : String) (ids : List Id) :
    Decidable (FreshIds schema store typeName ids) :=
  have (t : TypeDef) : Decidable (∀ id ∈ ids, ¬ store.Has (.object t.typeId id)) :=
    List.decidableBAll _ _
  inferInstanceAs (Decidable (_ ∧ ∀ t ∈ schema.getType typeName, _))

variable {writes : Writes Key Payload} {typeName : String} {c c' : Counters}

theorem Indexed.create (h : Indexed schema store) {fields : FieldMap}
    (hfresh : FreshIds schema store typeName (drawnIds c.nextObjectId 1))
    (hok : Engine.create schema store.view c typeName fields = (.ok writes, c')) :
    Indexed schema (store.apply writes) := by
  obtain ⟨t, ht, scalars, hins⟩ := create_inserts hok
  apply h.insert hins (mem_of_getType ht).1 (nodup_singleton _)
  rw [forall_mem_singleton]
  apply hfresh.2 t ht
  rw [drawnIds_succ]
  exact mem_cons_self

theorem Indexed.createBatch (h : Indexed schema store) {rows : List FieldMap}
    (hfresh : FreshIds schema store typeName (drawnIds c.nextObjectId rows.length))
    (hok : Engine.createBatch schema store.view c typeName rows = (.ok writes, c')) :
    Indexed schema (store.apply writes) := by
  rcases createBatch_inserts hok with ⟨-, rfl⟩ | ⟨t, ht, made, hins, hids⟩
  · exact h
  · apply h.insert hins (mem_of_getType ht).1
    · rw [hids]
      exact hfresh.1
    · intro m hm
      exact hfresh.2 t ht _ (hids ▸ mem_map_of_mem hm)

theorem Indexed.restore (h : Indexed schema store) {rows : List (Id × FieldMap)}
    {rejectExisting : Bool} (hnodup : (rows.map Prod.fst).Nodup)
    (hfresh : rejectExisting = false → FreshIds schema store typeName (rows.map Prod.fst))
    (hok : restoreObjects schema store.view c typeName rows rejectExisting = (.ok writes, c')) :
    Indexed schema (store.apply writes) := by
  rw [restoreObjects] at hok
  split_ifs at hok with hempty
  · cases (Prod.mk.inj hok).1
    exact h
  · cases ht : schema.getType typeName with
    | none =>
      rw [ht] at hok
      cases (Prod.mk.inj hok).1
    | some t =>
      rw [ht] at hok
      dsimp only at hok
      split at hok
      · cases (Prod.mk.inj hok).1
      next writes' c₁ hrows =>
        cases (Prod.mk.inj hok).1
        have hnone : Inserts t [] ([] : Writes Key Payload) := Inserts.other (forall_mem_nil _)
        obtain ⟨⟨made, hins, hids⟩, habsent⟩ :=
          restoreRows_inserts hnone (forall_mem_nil _) hrows
        rw [nil_append] at hins
        apply h.insert hins (mem_of_getType ht).1
        · rw [hids]
          exact hnodup
        · intro m hm
          have hmem : m.1 ∈ rows.map Prod.fst := hids ▸ mem_map_of_mem hm
          cases hreject : rejectExisting with
          | false => exact (hfresh hreject).2 t ht m.1 hmem
          | true =>
            obtain ⟨row, hrow, hid⟩ := mem_map.mp hmem
            have hget := habsent hreject row hrow
            rw [hid] at hget
            rw [Store.Has, Except.ok.inj hget]
            exact Bool.false_ne_true

theorem isRecord_edges {s r t : Id} {value rev : Option Payload} :
    ∀ w ∈ ([(.edge s r t, value), (.reverseEdge t r s, rev)] : Writes Key Payload),
      w.1.isRecord = false := by
  simp [Key.isRecord]

variable {sourceType fieldName : String} {sourceId targetId : Id}

theorem isRecord_link {edgeFields : Option FieldMap}
    (hok : link schema store.view versions sourceType sourceId fieldName targetId edgeFields = .ok
      writes) : ∀ w ∈ writes, w.1.isRecord = false := by
  obtain ⟨t, f, rel, target, source, data, -, -, -, -, -, -, rfl⟩ := link_eq_ok hok
  exact isRecord_edges

theorem isRecord_unlink (hok : unlink schema sourceType sourceId fieldName targetId = .ok writes) :
    ∀ w ∈ writes, w.1.isRecord = false := by
  obtain ⟨t, f, -, -, rfl⟩ := unlink_eq_ok hok
  exact isRecord_edges

theorem isRecord_refreshCovers {typeId targetId : Id}
    (hok : refreshCoversForTarget schema store.view versions typeId targetId = .ok writes) :
    ∀ w ∈ writes, w.1.isRecord = false := by
  refine foldlM_induct (P := fun ws : Writes Key Payload => ∀ w ∈ ws, w.1.isRecord = false) ?_
    (forall_mem_nil _) hok
  intro ws ws' source _ hws hstep
  obtain ⟨data, -, hstep⟩ := bind_eq_ok.mp hstep
  split at hstep
  · cases hstep
    exact forall_mem_append.mpr ⟨hws, isRecord_refreshOutboundRevEdges⟩
  · cases hstep
    exact hws

/-- New objects take ids that are free for their type, a restore names each id once, and no
update replaces an indexed float zero by the other. -/
def KeepsIndex (schema : Schema) (l : Ledger) : Ledger.Event → Prop
  | .call (.create typeName _) =>
    FreshIds schema l.db.store typeName (drawnIds l.db.counters.nextObjectId 1)
  | .call (.createBatch typeName rows) =>
    FreshIds schema l.db.store typeName (drawnIds l.db.counters.nextObjectId rows.length)
  | .call (.update typeName objectId updates) =>
    KeepsZeros schema l.db.store typeName objectId updates
  | .restore typeName rows rejectExisting => (rows.map Prod.fst).Nodup ∧
    (rejectExisting = false → FreshIds schema l.db.store typeName (rows.map Prod.fst))
  | _ => True

instance (schema : Schema) (l : Ledger) : ∀ event, Decidable (KeepsIndex schema l event)
  | .call (.create _ _) => inferInstanceAs (Decidable (FreshIds _ _ _ _))
  | .call (.createBatch _ _) => inferInstanceAs (Decidable (FreshIds _ _ _ _))
  | .call (.update _ _ _) => inferInstanceAs (Decidable (KeepsZeros _ _ _ _ _))
  | .restore _ _ _ => inferInstanceAs (Decidable (_ ∧ (_ → _)))
  | .call (.delete _ _) => .isTrue trivial
  | .call (.link _ _ _ _ _) => .isTrue trivial
  | .call (.unlink _ _ _ _) => .isTrue trivial
  | .call (.refreshCovers _ _) => .isTrue trivial
  | .reopen => .isTrue trivial

theorem Indexed.call {db : Database} {call : Database.Call} (h : Indexed schema db.store)
    {handed restored : List Id} (hkeeps : KeepsIndex schema ⟨db, handed, restored⟩ (.call call)) :
    Indexed schema (db.step schema call).store := by
  rcases db.step_cases schema call with ⟨-, -, -, heq⟩ | ⟨writes, c, hstage, heq⟩
  · rw [heq]
    exact h
  · rw [heq]
    cases call with
    | create typeName fields => exact h.create hkeeps hstage
    | createBatch typeName rows => exact h.createBatch hkeeps hstage
    | update typeName objectId updates => exact h.update hkeeps hstage
    | delete typeName objectId => exact h.delete hstage
    | link sourceType sourceId fieldName targetId edgeFields =>
      exact h.other (isRecord_link (Prod.mk.inj hstage).1)
    | unlink sourceType sourceId fieldName targetId =>
      exact h.other (isRecord_unlink (Prod.mk.inj hstage).1)
    | refreshCovers typeId objectId => exact h.other (isRecord_refreshCovers (Prod.mk.inj hstage).1)

theorem Indexed.step {l : Ledger} {event : Ledger.Event} (h : Indexed schema l.db.store)
    (hkeeps : KeepsIndex schema l event) : Indexed schema (l.step schema event).db.store := by
  cases event with
  | call call => exact h.call hkeeps
  | restore typeName rows rejectExisting =>
    rw [Ledger.step]
    split
    next writes c hout => exact h.restore hkeeps.1 hkeeps.2 hout
    · exact h
  | reopen => exact h

/-- In every run that meets the condition, the stored entries of every indexed field are the
keys of the live objects' values and hold their blobs. -/
theorem index_consistent (schema : Schema) (events : List Ledger.Event)
    (h : Run.Along (Ledger.step schema) (KeepsIndex schema) .new events) :
    IndexConsistent schema (Run.exec (Ledger.step schema) .new events).db.store := by
  have hinv := Run.exec_invariant (I := fun l => Indexed schema l.db.store)
    (fun _ _ h hkeeps => h.step hkeeps) Indexed.empty h
  exact hinv.consistent

def scoresSchema : Schema where
  types :=
    [{ name := "User"
       typeId := 1
       fields :=
        [{ name := "score", fieldType := .scalar .f64, directives := [.indexed], fieldId := 1,
           relId := 0 }] }]

def scored (bits : UInt64) : FieldMap := AList.singleton "score" (.f64 bits)

/-- The calls that return `Ok`; a restore only where it rejects the ids in use. -/
def Succeeds (schema : Schema) (l : Ledger) : Ledger.Event → Prop
  | .call call =>
    ((Database.stage schema l.db.store.view l.db.counters call).1.toOption).isSome = true
  | .restore typeName rows rejectExisting => rejectExisting = true ∧
    ((restoreObjects schema l.db.store.view l.db.counters typeName rows
      rejectExisting).1.toOption).isSome = true
  | .reopen => False

instance (schema : Schema) (l : Ledger) : ∀ event, Decidable (Succeeds schema l event)
  | .call _ => inferInstanceAs (Decidable (_ = _))
  | .restore _ _ _ => inferInstanceAs (Decidable (_ ∧ _))
  | .reopen => inferInstanceAs (Decidable False)

def rescored : List Ledger.Event :=
  [.call (.create "User" (scored 1)), .call (.update "User" 1 (scored 2)),
    .call (.delete "User" 1), .restore "User" [(1, scored 3)] true]

theorem index_consistent_rescored :
    IndexConsistent scoresSchema (Run.exec (Ledger.step scoresSchema) .new rescored).db.store :=
  index_consistent scoresSchema rescored (by decide +kernel)

theorem not_indexConsistent {t : TypeDef} (ht : t ∈ schema.types) {ifd : IndexedField}
    (hifd : ifd ∈ t.indexedFields) {front : Bytes} {objectId : Id}
    (hstored : store.Has (.fieldIndex t.typeId ifd.fieldId (front ++ word objectId)))
    (hlive : ((store.lookup (.object t.typeId objectId)).bind fun blob =>
      indexKeyOf t objectId blob.deserializeFields ifd) ≠
        some (.fieldIndex t.typeId ifd.fieldId (front ++ word objectId))) :
    ¬ IndexConsistent schema store := by
  intro h
  obtain ⟨blob, hblob⟩ := isSome_iff_exists.mp hstored
  obtain ⟨id, hobject, hkey⟩ := (h t ht ifd hifd _ blob).mp hblob
  obtain ⟨-, -, rfl⟩ := (ownedBy_of_indexKeyOf hkey).unique ⟨front, rfl⟩
  exact hlive (bind_eq_some_iff.mpr ⟨blob, hobject, hkey⟩)

def scoreField : IndexedField := { name := "score", fieldId := 1, kind := .float }

def scoreFront (bits : UInt64) : Bytes := encodeF64ForIndex bits ++ [separator]

def zeroCrossed : List Ledger.Event :=
  [.call (.create "User" (scored 0x8000000000000000)), .call (.update "User" 1 (scored 0))]

theorem zero_leaves_entry : ¬ ∀ (schema : Schema) (events : List Ledger.Event),
    Run.Along (Ledger.step schema) (Succeeds schema) .new events →
    IndexConsistent schema (Run.exec (Ledger.step schema) .new events).db.store := by
  intro hall
  have h := hall scoresSchema zeroCrossed (by decide +kernel)
  exact @not_indexConsistent scoresSchema _ _ (mem_singleton_self _) scoreField
    (mem_singleton_self _) (scoreFront 0x8000000000000000) 1 (by decide +kernel)
    (by decide +kernel) h

end RhypeDb.Engine
