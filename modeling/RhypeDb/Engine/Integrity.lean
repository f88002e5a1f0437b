import RhypeDb.Basic.Run
import RhypeDb.Engine.Cascade

/-! Referential integrity: every stored edge joins two stored objects and has its mirror, and
every stored reverse edge has its edge. Creates, updates, links and unlinks keep it. A delete
keeps it when the edges that its cascade does not scan lead to where the cover says or to
objects that it reaches. -/

namespace RhypeDb.Engine

open DepthFirst Fallible List Option Storage

def Alive (store : Store) (id : Id) : Prop := ∃ typeId, store.Has (.object typeId id)

def Key.objectId? : Key → Option Id
  | .object _ objectId => some objectId
  | _ => none

instance (store : Store) (id : Id) : Decidable (Alive store id) :=
  decidable_of_iff (∃ e ∈ store.entries, e.1.objectId? = some id) <| by
    constructor
    · rintro ⟨⟨key, value⟩, he, hid⟩
      cases key with
      | object typeId objectId =>
        cases hid
        exact ⟨typeId, Option.isSome_iff_exists.mpr ⟨value, SortedMap.lookup_eq_some.mpr he⟩⟩
      | _ => cases hid
    · rintro ⟨typeId, hobj⟩
      obtain ⟨value, hvalue⟩ := Option.isSome_iff_exists.mp hobj
      exact ⟨_, SortedMap.lookup_eq_some.mp hvalue, rfl⟩

structure ReferentialIntegrity (store : Store) : Prop where
  edge : ∀ s r t, store.Has (.edge s r t) →
    Alive store s ∧ Alive store t ∧ store.Has (.reverseEdge t r s)
  reverse : ∀ s r t, store.Has (.reverseEdge t r s) → store.Has (.edge s r t)

def Mirrored (store : Store) : Prop :=
  ∀ s r t, store.Has (.edge s r t) ↔ store.Has (.reverseEdge t r s)

/-- The relation with id `r` leads from the type of `s` to the type of `t`. -/
def Joins (schema : Schema) (has : Key → Prop) (s r t : Id) : Prop :=
  ∃ τ ∈ schema.types, ∃ f ∈ τ.fields, ∃ rel, f.relation? = some rel ∧ f.relId = r ∧
    ∃ target, schema.typeId rel.targetType = some target ∧
      has (.object τ.typeId s) ∧ has (.object target t)

variable {schema : Schema}

theorem Joins.mono {has has' : Key → Prop} {s r t : Id}
    (h : Joins schema has s r t)
    (hsub : ∀ typeId id, has (.object typeId id) → has' (.object typeId id)) :
    Joins schema has' s r t := by
  obtain ⟨τ, hτ, f, hf, rel, hrel, hr, target, htarget, hs, ht⟩ := h
  exact ⟨τ, hτ, f, hf, rel, hrel, hr, target, htarget, hsub _ _ hs, hsub _ _ ht⟩

structure Integrity (schema : Schema) (store : Store) : Prop where
  mirror : ∀ s r t, store.Has (.edge s r t) ↔ store.Has (.reverseEdge t r s)
  joins : ∀ s r t, store.Has (.edge s r t) → Joins schema store.Has s r t

theorem Integrity.referential {store : Store} (h : Integrity schema store) :
    ReferentialIntegrity store where
  edge := by
    intro s r t hedge
    obtain ⟨τ, -, f, -, rel, -, -, target, -, hs, ht⟩ := h.joins s r t hedge
    exact ⟨⟨τ.typeId, hs⟩, ⟨target, ht⟩, (h.mirror s r t).mp hedge⟩
  reverse := fun s r t => (h.mirror s r t).mpr

def Key.isGraph : Key → Bool
  | .object _ _ => true
  | .edge _ _ _ => true
  | .reverseEdge _ _ _ => true
  | _ => false

section

variable {store : Store} {whole writes writes' : Writes Key Payload}

/-- The writes add objects and mirrored edges between objects that are stored or added too.
`whole` is everything the transaction writes. -/
structure Adds (schema : Schema) (store : Store) (whole writes : Writes Key Payload) : Prop where
  puts : ∀ w ∈ writes, w.1.isGraph → w.2.isSome
  edges : ∀ s r t, .edge s r t ∈ writes.map Prod.fst →
    .reverseEdge t r s ∈ whole.map Prod.fst ∧
      Joins schema (fun k => k ∈ whole.map Prod.fst ∨ store.Has k) s r t
  reverse : ∀ s r t, .reverseEdge t r s ∈ writes.map Prod.fst →
    .edge s r t ∈ whole.map Prod.fst ∨ store.Has (.edge s r t)

theorem Adds.append (h : Adds schema store whole writes) (h' : Adds schema store whole writes') :
    Adds schema store whole (writes ++ writes') where
  puts := forall_mem_append.mpr ⟨h.puts, h'.puts⟩
  edges := by
    intro s r t hmem
    rw [map_append, mem_append] at hmem
    exact hmem.elim (h.edges s r t) (h'.edges s r t)
  reverse := by
    intro s r t hmem
    rw [map_append, mem_append] at hmem
    exact hmem.elim (h.reverse s r t) (h'.reverse s r t)

theorem Adds.of_not_graph (h : ∀ w ∈ writes, w.1.isGraph = false) :
    Adds schema store whole writes where
  puts := fun w hw hgraph => absurd hgraph (by rw [h w hw]; exact Bool.false_ne_true)
  edges := by
    intro s r t hmem
    obtain ⟨w, hw, hkey⟩ := mem_map.mp hmem
    exact absurd (h w hw) (by rw [hkey]; exact Bool.noConfusion)
  reverse := by
    intro s r t hmem
    obtain ⟨w, hw, hkey⟩ := mem_map.mp hmem
    exact absurd (h w hw) (by rw [hkey]; exact Bool.noConfusion)

theorem Adds.object (typeId objectId : Id) (value : Payload) :
    Adds schema store whole [(.object typeId objectId, some value)] where
  puts := by simp
  edges := by simp
  reverse := by simp

theorem Adds.edge {s r t : Id} {value rev : Payload}
    (hrev : .reverseEdge t r s ∈ whole.map Prod.fst) (hedge : .edge s r t ∈ whole.map Prod.fst)
    (hjoins : Joins schema (fun k => k ∈ whole.map Prod.fst ∨ store.Has k) s r t) :
    Adds schema store whole [(.edge s r t, some value), (.reverseEdge t r s, some rev)] where
  puts := by simp
  edges := by
    intro s' r' t' hmem
    simp only [map_cons, map_nil, mem_cons, Key.edge.injEq, reduceCtorEq,
      not_mem_nil, or_false] at hmem
    obtain ⟨rfl, rfl, rfl⟩ := hmem
    exact ⟨hrev, hjoins⟩
  reverse := by
    intro s' r' t' hmem
    simp only [map_cons, map_nil, mem_cons, Key.reverseEdge.injEq, reduceCtorEq,
      not_mem_nil, or_false, false_or] at hmem
    obtain ⟨rfl, rfl, rfl⟩ := hmem
    exact .inl hedge

theorem Adds.flatMap {α : Type} {l : List α} {g : α → Writes Key Payload}
    (h : ∀ x ∈ l, Adds schema store whole (g x)) : Adds schema store whole (l.flatMap g) := by
  induction l with
  | nil => exact Adds.of_not_graph nofun
  | cons x l ih =>
    rw [forall_mem_cons] at h
    exact h.1.append (ih h.2)

theorem Adds.has_apply (hadd : Adds schema store whole writes) {k : Key} (hk : k.isGraph) :
    (store.apply writes).Has k ↔ k ∈ writes.map Prod.fst ∨ store.Has k :=
  Store.has_apply_puts fun w hw heq => hadd.puts w hw (heq ▸ hk)

theorem Mirrored.add (h : Mirrored store) (hadd : Adds schema store writes writes) :
    Mirrored (store.apply writes) := by
  intro s r t
  rw [hadd.has_apply rfl, hadd.has_apply rfl]
  constructor
  · rintro (hmem | hold)
    · exact .inl (hadd.edges s r t hmem).1
    · exact .inr ((h s r t).mp hold)
  · rintro (hmem | hold)
    · exact hadd.reverse s r t hmem
    · exact .inr ((h s r t).mpr hold)

theorem Integrity.add (h : Integrity schema store) (hadd : Adds schema store writes writes) :
    Integrity schema (store.apply writes) where
  mirror := Mirrored.add h.mirror hadd
  joins := by
    intro s r t hedge
    rw [hadd.has_apply rfl] at hedge
    rcases hedge with hmem | hold
    · exact (hadd.edges s r t hmem).2.mono fun typeId id hobj => (hadd.has_apply rfl).mpr hobj
    · exact (h.joins s r t hold).mono fun typeId id hobj => (hadd.has_apply rfl).mpr (.inr hobj)

end

section

variable {view : View} {c c' : Counters} {typeName : String} {t : TypeDef}
  {writes : Writes Key Payload} {objectId : Id} {rows : List FieldMap} {batch : Batch}
  {fields : FieldMap}

theorem create_eq_ok (h : create schema view c typeName fields = (.ok writes, c')) :
    ∃ t, schema.getType typeName = some t ∧ ∃ staged puts,
      stageCreateWrites schema view c.versions t c.nextObjectId fields [] = .ok (staged, puts) ∧
      writes = uniquePuts staged ++ puts := by
  rw [create] at h
  cases ht : schema.getType typeName with
  | none =>
    rw [ht] at h
    cases (Prod.mk.inj h).1
  | some t =>
    rw [ht] at h
    dsimp only at h
    cases hstage : stageCreateWrites schema view c.versions t c.nextObjectId fields [] with
    | error e =>
      rw [hstage] at h
      cases (Prod.mk.inj h).1
    | ok staged =>
      rw [hstage] at h
      cases (Prod.mk.inj h).1
      exact ⟨t, rfl, staged.1, staged.2, hstage, rfl⟩

theorem stageRows_cons_eq_ok
    (h : stageRows schema view t (fields :: rows) batch c = (.ok writes, c')) :
    ∃ staged puts,
      stageCreateWrites schema view c.versions t c.nextObjectId fields batch.staged =
        .ok (staged, puts) ∧
      stageRows schema view t rows
        { objectIds := batch.objectIds ++ [c.nextObjectId], staged, puts := batch.puts ++ puts }
        (Counters.bumpVersion { c with nextObjectId := c.nextObjectId + 1 } t.typeId
          c.nextObjectId) = (.ok writes, c') := by
  rw [stageRows] at h
  cases hstage : stageCreateWrites schema view c.versions t c.nextObjectId fields batch.staged with
  | error e =>
    rw [hstage] at h
    cases (Prod.mk.inj h).1
  | ok row =>
    rw [hstage] at h
    exact ⟨row.1, row.2, rfl, h⟩

theorem restoreRows_cons_eq_ok {rejectExisting : Bool} {rows : List (Id × FieldMap)}
    (h : restoreRows schema view t rejectExisting ((objectId, fields) :: rows) batch c =
      (.ok writes, c')) :
    (rejectExisting = true → view.get (.object t.typeId objectId) = .ok none) ∧
    ∃ staged puts,
      stageCreateWrites schema view c.versions t objectId fields batch.staged =
        .ok (staged, puts) ∧
      restoreRows schema view t rejectExisting rows
        { objectIds := batch.objectIds ++ [objectId], staged, puts := batch.puts ++ puts }
        (c.bumpVersion t.typeId objectId) = (.ok writes, c') := by
  rw [restoreRows] at h
  split at h
  · cases (Prod.mk.inj h).1
  · cases (Prod.mk.inj h).1
  · next hget =>
    refine ⟨fun hreject => (if_pos hreject).symm.trans hget, ?_⟩
    cases hstage : stageCreateWrites schema view c.versions t objectId fields batch.staged with
    | error e =>
      rw [hstage] at h
      cases (Prod.mk.inj h).1
    | ok row =>
      rw [hstage] at h
      exact ⟨row.1, row.2, rfl, h⟩

theorem createBatch_eq_ok (h : createBatch schema view c typeName rows = (.ok writes, c')) :
    (rows = [] ∧ writes = []) ∨ ∃ t, schema.getType typeName = some t ∧
      stageRows schema view t rows { objectIds := [], staged := [], puts := [] } c =
        (.ok writes, c') := by
  rw [createBatch] at h
  split_ifs at h with hempty
  · cases (Prod.mk.inj h).1
    exact .inl ⟨List.isEmpty_iff.mp hempty, rfl⟩
  · cases ht : schema.getType typeName with
    | none =>
      rw [ht] at h
      cases (Prod.mk.inj h).1
    | some t =>
      rw [ht] at h
      exact .inr ⟨t, rfl, h⟩

theorem update_eq_ok {updates : FieldMap}
    (h : update schema view c typeName objectId updates = (.ok writes, c')) :
    ∃ t, schema.getType typeName = some t ∧ updates.entries.forM (validateUpdate t) = .ok () ∧
      ∃ existing, view.get (.object t.typeId objectId) = .ok (some existing) ∧ ∃ unique,
        updates.entries.foldlM (updateUnique view t objectId existing.deserializeFields) ([], []) =
          .ok unique ∧
        writes = unique.1 ++
          updateWrites schema view c.versions t objectId existing.deserializeFields updates := by
  rw [update] at h
  cases hstage : stageUpdate schema view c.versions typeName objectId updates with
  | error e =>
    rw [hstage] at h
    cases (Prod.mk.inj h).1
  | ok staged =>
    rw [hstage] at h
    cases (Prod.mk.inj h).1
    rw [stageUpdate] at hstage
    simp only [bind_eq_ok, require_eq_ok] at hstage
    obtain ⟨t, ht, u, hvalid, found, hget, existing, hfound, unique, hunique, hstage⟩ := hstage
    cases hstage
    exact ⟨t, ht, hvalid, existing, hfound ▸ hget, unique, hunique, rfl⟩

theorem delete_eq_ok (h : delete schema view c typeName objectId = (.ok writes, c')) :
    ∃ typeId, schema.typeId typeName = some typeId ∧ ∃ walk,
      deleteInner schema view c.versions (deleteFuel schema view) true
        { deleted := [], arena := [] } ((typeId, objectId), none) = .ok walk ∧
      writes = walk.arena.map fun key => (key, none) := by
  rw [delete] at h
  cases ht : schema.typeId typeName with
  | none =>
    rw [ht] at h
    cases (Prod.mk.inj h).1
  | some typeId =>
    rw [ht] at h
    dsimp only at h
    cases hwalk : deleteInner schema view c.versions (deleteFuel schema view) true
      { deleted := [], arena := [] } ((typeId, objectId), none) with
    | error e =>
      rw [hwalk] at h
      cases (Prod.mk.inj h).1
    | ok walk =>
      rw [hwalk] at h
      cases (Prod.mk.inj h).1
      exact ⟨typeId, rfl, walk, hwalk, rfl⟩

variable {sourceType fieldName : String} {sourceId targetId : Id}

theorem link_eq_ok {versions : Versions} {edgeFields : Option FieldMap}
    (h : link schema view versions sourceType sourceId fieldName targetId edgeFields = .ok writes) :
    ∃ t f rel target source data, schema.getType sourceType = some t ∧
      t.getField fieldName = some f ∧ f.relation? = some rel ∧
      schema.typeId rel.targetType = some target ∧
      view.get (.object t.typeId sourceId) = .ok (some source) ∧
      view.get (.object target targetId) = .ok (some data) ∧
      writes =
        [(.edge sourceId f.relId targetId, some ((edgeFields.map serializeFields).getD .empty)),
          (.reverseEdge targetId f.relId sourceId, some (buildCoveringRevValue schema view versions
            t sourceId (some source) fieldName targetId))] := by
  rw [link] at h
  simp only [bind_eq_ok, require_eq_ok] at h
  obtain ⟨t, ht, f, hf, rel, hrel, -, -, target, htarget, found, hget, source, rfl, found', hget',
    data, rfl, h⟩ := h
  cases h
  exact ⟨t, f, rel, target, source, data, ht, hf, hrel, htarget, hget, hget', rfl⟩

theorem unlink_eq_ok (h : unlink schema sourceType sourceId fieldName targetId = .ok writes) :
    ∃ t f, schema.getType sourceType = some t ∧ t.getField fieldName = some f ∧
      writes = (edgeTombstones sourceId f.relId targetId).map fun key => (key, none) := by
  rw [unlink] at h
  simp only [bind_eq_ok, require_eq_ok] at h
  obtain ⟨t, ht, f, hf, -, -, h⟩ := h
  cases h
  exact ⟨t, f, ht, hf, rfl⟩

end

section

variable {view : View} {versions : Versions} {t : TypeDef}

def LinkOk (schema : Schema) (view : View) (t : TypeDef) (l : Link) : Prop :=
  ∃ f ∈ t.fields, ∃ rel, f.forward? = some rel ∧ f.relId = l.relId ∧
    ∃ target, schema.typeId rel.targetType = some target ∧
      view.get (.object target l.targetId) = .ok (some l.targetData)

variable {field : Sigma fun _ : String => Value} {acc : FieldMap × List Link}

theorem splitField_cases {acc' : FieldMap × List Link}
    (h : splitField schema view versions t acc field = .ok acc') :
    ∃ f, t.getField field.1 = some f ∧ validateValue f field.2 = .ok () ∧
      ((∃ l, LinkOk schema view t l ∧ l.fieldName = field.1 ∧ l.relId = f.relId ∧
          f.relation?.isSome ∧ f.isScalar = false ∧ acc' = (acc.1, acc.2 ++ [l])) ∨
        (f.isScalar = false ∧ acc' = acc) ∨
        (f.isScalar = true ∧ acc' = (acc.1.insert field.1 field.2, acc.2))) := by
  rw [splitField] at h
  simp only [bind_eq_ok, require_eq_ok] at h
  obtain ⟨f, hf, u, hvalid, h⟩ := h
  refine ⟨f, hf, hvalid, ?_⟩
  have hmem := (TypeDef.mem_of_getField hf).1
  cases htype : f.fieldType with
  | scalar scalar =>
    rw [htype] at h
    cases h
    exact .inr (.inr ⟨by rw [FieldDef.isScalar, htype], rfl⟩)
  | vector dimensions =>
    rw [htype] at h
    cases h
  | relation rel =>
    have hscalar : f.isScalar = false := by rw [FieldDef.isScalar, htype]
    rw [htype] at h
    split_ifs at h with hinv hnull
    · cases h
      exact .inr (.inl ⟨hscalar, rfl⟩)
    · simp only [bind_eq_ok, require_eq_ok] at h
      obtain ⟨targetId, -, targetTypeId, htt, found, hget, targetData, hdata, h⟩ := h
      cases h
      have hrel : f.relation? = some rel := by rw [FieldDef.relation?, htype]
      refine .inl ⟨_, ⟨f, hmem, rel, ?_, rfl, targetTypeId, htt, hdata ▸ hget⟩, rfl, rfl,
        by rw [hrel]; rfl, hscalar, rfl⟩
      rw [FieldDef.forward?, if_neg hinv, hrel]

theorem links_ok {fields : FieldMap}
    (h : fields.entries.foldlM (splitField schema view versions t) (∅, []) = .ok acc) :
    ∀ l ∈ acc.2, LinkOk schema view t l := by
  apply foldlM_induct (P := fun acc : FieldMap × List Link => ∀ l ∈ acc.2, LinkOk schema view t l) _ _ h
  · intro s s' field _ hs hstep
    obtain ⟨f, -, -, ⟨l, hl, -, -, -, -, rfl⟩ | ⟨-, rfl⟩ | ⟨-, rfl⟩⟩ := splitField_cases hstep
    · exact forall_mem_append.mpr ⟨hs, by simpa using hl⟩
    · exact hs
    · exact hs
  · exact nofun

def Key.isUniqueIndex : Key → Bool
  | .uniqueIndex _ _ _ => true
  | _ => false

theorem Key.isGraph_of_isUniqueIndex {k : Key} (h : k.isUniqueIndex) : k.isGraph = false := by
  cases k with
  | uniqueIndex => rfl
  | _ => cases h

variable {staged staged' : List (Key × Id)} {objectId : Id}

theorem checkUniqueAndInsert_ok {f : FieldDef} {value : Value}
    (h : checkUniqueAndInsert view t f value objectId staged = .ok staged') :
    staged' = (uniqueKey t f value, objectId) :: staged := by
  rw [checkUniqueAndInsert] at h
  simp only [bind_eq_ok] at h
  obtain ⟨-, -, -, -, h⟩ := h
  cases h
  rfl

theorem stageUnique_keys (hs : ∀ s ∈ staged, s.1.isUniqueIndex)
    (h : stageUnique view t objectId staged field = .ok staged') :
    ∀ s ∈ staged', s.1.isUniqueIndex := by
  rw [stageUnique] at h
  simp only [bind_eq_ok, require_eq_ok] at h
  obtain ⟨f, -, h⟩ := h
  split_ifs at h with hunique
  · rw [checkUniqueAndInsert_ok h]
    exact forall_mem_cons.mpr ⟨rfl, hs⟩
  · cases h
    exact hs

variable {fields : FieldMap} {puts : Writes Key Payload}

theorem stageCreateWrites_eq_ok
    (h : stageCreateWrites schema view versions t objectId fields staged = .ok (staged', puts)) :
    ∃ split, fields.entries.foldlM (splitField schema view versions t) (∅, []) = .ok split ∧
      split.1.entries.foldlM (stageUnique view t objectId) staged = .ok staged' ∧
      createPuts schema view versions t objectId split.1 split.2 = puts := by
  rw [stageCreateWrites] at h
  simp only [bind_eq_ok] at h
  obtain ⟨split, hsplit, staged₁, hunique, h⟩ := h
  obtain ⟨rfl, rfl⟩ := Prod.mk.inj (pure_eq_ok.mp h)
  exact ⟨split, hsplit, hunique, rfl⟩

theorem stageCreateWrites_keys
    (h : stageCreateWrites schema view versions t objectId fields staged = .ok (staged', puts))
    (hstaged : ∀ s ∈ staged, s.1.isUniqueIndex) : ∀ s ∈ staged', s.1.isUniqueIndex := by
  obtain ⟨split, -, hunique, -⟩ := stageCreateWrites_eq_ok h
  exact foldlM_induct (P := fun staged : List (Key × Id) => ∀ s ∈ staged, s.1.isUniqueIndex)
    (fun s s' field _ hs hstep => stageUnique_keys hs hstep) hstaged hunique

theorem isGraph_indexKeyOf {ifd : IndexedField} {key : Key}
    (h : indexKeyOf t objectId fields ifd = some key) : key.isGraph = false := by
  rw [indexKeyOf, bind_eq_some_iff] at h
  obtain ⟨value, -, h⟩ := h
  split_ifs at h
  unfold buildFieldIndexKey at h
  split at h
  · obtain ⟨encoded, -, rfl⟩ := map_eq_some_iff.mp h
    rfl
  · obtain ⟨encoded, -, rfl⟩ := map_eq_some_iff.mp h
    rfl
  · obtain ⟨encoded, -, rfl⟩ := map_eq_some_iff.mp h
    rfl
  · cases h
    rfl
  · cases h
    rfl
  · cases h

end

variable {store : Store} {versions : Versions} {t : TypeDef}

variable {objectId : Id} {whole : Writes Key Payload}

theorem createPuts_adds (ht : t ∈ schema.types) {scalars : FieldMap} {links : List Link}
    (hlinks : ∀ l ∈ links, LinkOk schema store.view t l)
    (hwhole : createPuts schema store.view versions t objectId scalars links ⊆ whole) :
    Adds schema store whole (createPuts schema store.view versions t objectId scalars links) := by
  have hkeys : ∀ w ∈ createPuts schema store.view versions t objectId scalars links,
      w.1 ∈ whole.map Prod.fst := fun w hw => mem_map_of_mem (hwhole hw)
  refine Adds.append ?_ (Adds.append (Adds.object t.typeId objectId _) (Adds.flatMap ?_))
  · apply Adds.of_not_graph
    intro w hw
    obtain ⟨ifd, -, hkey⟩ := mem_filterMap.mp hw
    obtain ⟨key, hkey', rfl⟩ := map_eq_some_iff.mp hkey
    exact isGraph_indexKeyOf hkey'
  · intro l hl
    have hmem : ∀ w ∈ linkPuts schema store.view versions objectId scalars links l,
        w.1 ∈ whole.map Prod.fst := by
      intro w hw
      apply hkeys
      apply mem_append_right
      apply mem_cons_of_mem
      exact mem_flatMap.mpr ⟨l, hl, hw⟩
    obtain ⟨f, hf, rel, hrel, hr, target, htarget, hget⟩ :=
      hlinks l.1 (fst_mem_of_mem_zipIdx hl)
    refine Adds.edge (hmem _ (mem_cons_of_mem _ mem_cons_self))
      (hmem _ mem_cons_self) ?_
    refine ⟨t, ht, f, hf, rel, FieldDef.relation_of_forward hrel, hr, target, htarget, .inl ?_, .inr ?_⟩
    · exact hkeys _ (mem_append_right _ mem_cons_self)
    · rw [Store.Has, Except.ok.inj hget]
      rfl

variable {fields : FieldMap}

theorem stageCreateWrites_adds (ht : t ∈ schema.types) {staged staged' : List (Key × Id)}
    {puts whole : Writes Key Payload}
    (h : stageCreateWrites schema store.view versions t objectId fields staged = .ok (staged',
      puts)) (hstaged : ∀ s ∈ staged, s.1.isUniqueIndex) (hwhole : puts ⊆ whole) :
    (∀ s ∈ staged', s.1.isUniqueIndex) ∧ Adds schema store whole puts := by
  obtain ⟨split, hsplit, -, rfl⟩ := stageCreateWrites_eq_ok h
  exact ⟨stageCreateWrites_keys h hstaged, createPuts_adds ht (links_ok hsplit) hwhole⟩

variable {staged : List (Key × Id)}

theorem isUniqueIndex_uniquePuts (h : ∀ s ∈ staged, s.1.isUniqueIndex) :
    ∀ w ∈ uniquePuts staged, w.1.isUniqueIndex := by
  intro w hw
  obtain ⟨s, hs, rfl⟩ := mem_map.mp hw
  exact h s (mem_reverse.mp hs)

theorem isGraph_uniquePuts (h : ∀ s ∈ staged, s.1.isUniqueIndex) :
    ∀ w ∈ uniquePuts staged, w.1.isGraph = false :=
  fun w hw => Key.isGraph_of_isUniqueIndex (isUniqueIndex_uniquePuts h w hw)

variable {writes : Writes Key Payload} {c c' : Counters} {typeName : String} {targetId : Id}
  {updates : FieldMap} {view : View} {rows : List FieldMap}

theorem create_adds (hok : create schema store.view c typeName fields = (.ok writes, c')) :
    Adds schema store writes writes := by
  obtain ⟨t, ht, staged, puts, hstage, rfl⟩ := create_eq_ok hok
  obtain ⟨hkeys, hadds⟩ := stageCreateWrites_adds (Schema.mem_of_getType ht).1 hstage
    (forall_mem_nil _) (subset_append_right (uniquePuts staged) puts)
  exact (Adds.of_not_graph (isGraph_uniquePuts hkeys)).append hadds

theorem stageRows_ok {batch : Batch}
    (hstaged : ∀ s ∈ batch.staged, s.1.isUniqueIndex) (ht : t ∈ schema.types)
    (h : stageRows schema store.view t rows batch c = (.ok writes, c')) :
    ∃ staged puts, writes = uniquePuts staged ++ (batch.puts ++ puts) ∧
      (∀ s ∈ staged, s.1.isUniqueIndex) ∧
      ∀ whole, puts ⊆ whole → Adds schema store whole puts := by
  induction rows generalizing batch c with
  | nil =>
    cases (Prod.mk.inj h).1
    exact ⟨batch.staged, [], by rw [append_nil], hstaged, fun _ _ => .of_not_graph nofun⟩
  | cons fields rows ih =>
    obtain ⟨staged, puts, hstage, h⟩ := stageRows_cons_eq_ok h
    have hkeys := (stageCreateWrites_adds ht hstage hstaged (List.Subset.refl puts)).1
    obtain ⟨staged', rest, hwrites, hstaged', hadds⟩ := ih hkeys h
    refine ⟨staged', puts ++ rest, ?_, hstaged', fun whole hwhole => ?_⟩
    · rw [hwrites, append_assoc batch.puts]
    · obtain ⟨hrow, hrest⟩ := append_subset.mp hwhole
      exact (stageCreateWrites_adds ht hstage hstaged hrow).2.append (hadds whole hrest)

theorem createBatch_adds (hok : createBatch schema store.view c typeName rows = (.ok writes, c')) :
    Adds schema store writes writes := by
  rcases createBatch_eq_ok hok with ⟨-, rfl⟩ | ⟨t, ht, hrows⟩
  · exact .of_not_graph (forall_mem_nil _)
  · obtain ⟨staged, puts, rfl, hstaged, hadds⟩ :=
      stageRows_ok (forall_mem_nil _) (Schema.mem_of_getType ht).1 hrows
    exact (Adds.of_not_graph (isGraph_uniquePuts hstaged)).append
      (hadds _ (subset_append_right _ _))

theorem refreshOutboundRevEdges_adds {data : Option Payload} :
    Adds schema store whole
      (refreshOutboundRevEdges schema store.view versions t objectId data) := by
  rw [refreshOutboundRevEdges]
  split_ifs with hforward
  · apply Adds.flatMap
    intro f hf
    cases f.forward? with
    | none => exact .of_not_graph nofun
    | some rel =>
      constructor
      · intro w hw _
        obtain ⟨row, -, rfl⟩ := mem_map.mp hw
        rfl
      · simp
      · intro s r t' hmem
        obtain ⟨w, hw, hkey⟩ := mem_map.mp hmem
        obtain ⟨row, hrow, rfl⟩ := mem_map.mp hw
        cases hkey
        exact .inr (Store.has_of_mem_scanEdges hrow)
  · exact .of_not_graph nofun

theorem updateUnique_keys {acc acc' : Writes Key Payload × List (Key × Id)}
    {field : Sigma fun _ : String => Value} (hacc : ∀ w ∈ acc.1, w.1.isUniqueIndex)
    (h : updateUnique view t objectId fields acc field = .ok acc') :
    ∀ w ∈ acc'.1, w.1.isUniqueIndex := by
  rw [updateUnique] at h
  simp only [bind_eq_ok, require_eq_ok] at h
  obtain ⟨f, -, h⟩ := h
  split_ifs at h with hunique hnull
  · cases h
    refine forall_mem_append.mpr ⟨hacc, ?_⟩
    split
    · split_ifs
      · exact nofun
      · simp [uniqueKey, Key.isUniqueIndex]
    · exact nofun
  · obtain ⟨staged, -, h⟩ := bind_eq_ok.mp h
    cases h
    refine forall_mem_append.mpr ⟨forall_mem_append.mpr ⟨hacc, ?_⟩, ?_⟩
    · split
      · split_ifs
        · exact nofun
        · simp [uniqueKey, Key.isUniqueIndex]
      · exact nofun
    · simp [uniqueKey, Key.isUniqueIndex]
  · cases h
    exact hacc

theorem updateWrites_adds :
    Adds schema store whole
      (updateWrites schema store.view versions t objectId fields updates) := by
  refine Adds.append (Adds.append ?_ refreshOutboundRevEdges_adds) ?_
  · apply Adds.flatMap
    intro ifd _
    apply Adds.of_not_graph
    have hput : ∀ (m : FieldMap) (v : Option Payload),
        ∀ w ∈ ((indexKeyOf t objectId m ifd).toList.map fun key => (key, v)),
          w.1.isGraph = false := by
      intro m v w hw
      obtain ⟨key, hkey, rfl⟩ := mem_map.mp hw
      exact isGraph_indexKeyOf (mem_toList.mp hkey)
    rw [maintainIndex]
    split_ifs
    · exact forall_mem_append.mpr ⟨hput _ _, hput _ _⟩
    · exact hput _ _
    · exact nofun
  · have hversion : ∀ value, Adds schema store whole [(.objectVersion t.typeId objectId, some value)] :=
      fun value => .of_not_graph (by simp [Key.isGraph])
    exact (hversion _).append (Adds.object t.typeId objectId _)

theorem updateUniques_keys {unique : Writes Key Payload × List (Key × Id)}
    (h : updates.entries.foldlM (updateUnique view t objectId fields) ([], []) = .ok unique) :
    ∀ w ∈ unique.1, w.1.isUniqueIndex :=
  foldlM_induct
    (P := fun acc : Writes Key Payload × List (Key × Id) => ∀ w ∈ acc.1, w.1.isUniqueIndex)
    (fun _ _ _ _ hs hstep => updateUnique_keys hs hstep) (forall_mem_nil _) h

theorem update_adds
    (hok : update schema store.view c typeName objectId updates = (.ok writes, c')) :
    Adds schema store writes writes := by
  obtain ⟨t, -, -, existing, -, unique, hunique, rfl⟩ := update_eq_ok hok
  refine Adds.append (Adds.of_not_graph fun w hw => ?_) updateWrites_adds
  exact Key.isGraph_of_isUniqueIndex (updateUniques_keys hunique w hw)

theorem link_adds {sourceType fieldName : String} {sourceId : Id} {edgeFields : Option FieldMap}
    (hok : link schema store.view versions sourceType sourceId fieldName targetId edgeFields = .ok
      writes) : Adds schema store writes writes := by
  obtain ⟨t, f, rel, target, source, data, ht, hf, hrel, htarget, hsource, hdata, rfl⟩ :=
    link_eq_ok hok
  refine Adds.edge (by simp) (by simp) ⟨t, (Schema.mem_of_getType ht).1, f,
    (TypeDef.mem_of_getField hf).1, rel, hrel, rfl, target, htarget, .inr ?_, .inr ?_⟩
  · rw [Store.Has, Except.ok.inj hsource]
    rfl
  · rw [Store.Has, Except.ok.inj hdata]
    rfl

theorem refreshCovers_adds {typeId : Id}
    (hok : refreshCoversForTarget schema store.view versions typeId targetId = .ok writes) :
    Adds schema store writes writes := by
  refine foldlM_induct (P := fun ws => Adds schema store writes ws) ?_
    (Adds.of_not_graph (by exact nofun)) hok
  intro ws ws' source _ hws hstep
  obtain ⟨data, -, hstep⟩ := bind_eq_ok.mp hstep
  split at hstep
  · cases hstep
    exact hws.append refreshOutboundRevEdges_adds
  · cases hstep
    exact hws

end RhypeDb.Engine
