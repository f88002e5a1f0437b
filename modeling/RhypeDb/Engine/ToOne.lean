import RhypeDb.Engine.Links
import RhypeDb.Engine.Settled

/-! How many targets a to-one relation has, and where the value of a relation field goes. A
create makes an edge of it, a link adds an edge beside those there, and an update keeps it among
the scalars. -/

namespace RhypeDb.Engine

open Fallible List Schema Storage

def IsToOne (schema : Schema) (r : Id) : Prop :=
  ∃ τ ∈ schema.types, ∃ f ∈ τ.fields, ∃ rel, f.relation? = some rel ∧ rel.isMany = false ∧
    f.relId = r

structure ToOne (schema : Schema) (store : Store) : Prop where
  one : ∀ r, IsToOne schema r → ∀ s t t', store.Has (.edge s r t) → store.Has (.edge s r t') → t = t'
  scalars : ∀ τ ∈ schema.types, ∀ id data, store.lookup (.object τ.typeId id) = some data →
    ∀ f ∈ τ.fields, f.relation?.isSome → f.name ∉ data.deserializeFields

section

variable {schema : Schema} {store : Store} {writes : Writes Key Payload} {k : Key}

def Puts (writes : Writes Key Payload) (k : Key) : Prop := ∃ value, (k, some value) ∈ writes

theorem puts_or_has (h : (store.apply writes).Has k) : Puts writes k ∨ store.Has k := by
  rcases Store.has_apply.mp h with ⟨value, hvalue⟩ | ⟨-, hold⟩
  · exact .inl ⟨value, lastWrite_mem hvalue⟩
  · exact .inr hold

theorem not_puts_tombstones {keys : List Key} : ¬ Puts (keys.map fun key => (key, none)) k := by
  rintro ⟨value, hmem⟩
  obtain ⟨key, -, heq⟩ := mem_map.mp hmem
  cases heq

theorem ToOne.apply (h : ToOne schema store)
    (hedges : ∀ r, IsToOne schema r → ∀ s t t', Puts writes (.edge s r t) →
      Puts writes (.edge s r t') ∨ store.Has (.edge s r t') → t = t')
    (hobjects : ∀ τ ∈ schema.types, ∀ id data, (.object τ.typeId id, some data) ∈ writes →
      ∀ f ∈ τ.fields, f.relation?.isSome → f.name ∉ data.deserializeFields) :
    ToOne schema (store.apply writes) where
  one := by
    intro r hr s t t' ht ht'
    rcases puts_or_has ht with hput | hold
    · exact hedges r hr s t t' hput (puts_or_has ht')
    · rcases puts_or_has ht' with hput' | hold'
      · exact (hedges r hr s t' t hput' (.inr hold)).symm
      · exact h.one r hr s t t' hold hold'
  scalars := by
    intro τ hτ id data hdata
    rw [Store.lookup_apply] at hdata
    cases hlast : lastWrite writes (.object τ.typeId id) with
    | none =>
      rw [hlast] at hdata
      exact h.scalars τ hτ id data hdata
    | some last =>
      rw [hlast] at hdata
      obtain rfl : last = some data := hdata
      exact hobjects τ hτ id data (lastWrite_mem hlast)

end

section

variable {schema : Schema} {view : View} {versions : Versions} {t : TypeDef} {ids ids' : List Id}
  {writes writes' : Writes Key Payload} {staged : List (Key × Id)}

def OnlyScalars (t : TypeDef) (fields : FieldMap) : Prop :=
  ∀ name ∈ fields, ∃ f, t.getField name = some f ∧ f.isScalar

/-- The writes put objects of the type with scalars only, and edges from the ids, one to each
relation. -/
structure Rows (t : TypeDef) (ids : List Id) (writes : Writes Key Payload) : Prop where
  object : ∀ a id data, (.object a id, some data) ∈ writes →
    a = t.typeId ∧ OnlyScalars t data.deserializeFields
  source : ∀ s r u, Puts writes (.edge s r u) → s ∈ ids
  one : ∀ s r u u', Puts writes (.edge s r u) → Puts writes (.edge s r u') → u = u'

theorem puts_append {k : Key} : Puts (writes ++ writes') k ↔ Puts writes k ∨ Puts writes' k := by
  simp only [Puts, mem_append, exists_or]

theorem Rows.append (h : Rows t ids writes) (h' : Rows t ids' writes') (hdisj : ids.Disjoint ids') :
    Rows t (ids ++ ids') (writes ++ writes') where
  object := by
    intro a id data hmem
    exact (mem_append.mp hmem).elim (h.object a id data) (h'.object a id data)
  source := by
    intro s r u hput
    rw [mem_append]
    exact (puts_append.mp hput).imp (h.source s r u) (h'.source s r u)
  one := by
    intro s r u u' hput hput'
    rw [puts_append] at hput hput'
    rcases hput with hput | hput
    · rcases hput' with hput' | hput'
      · exact h.one s r u u' hput hput'
      · exact absurd (h'.source s r u' hput') (hdisj (h.source s r u hput))
    · rcases hput' with hput' | hput'
      · exact absurd (h'.source s r u hput) (hdisj (h.source s r u' hput'))
      · exact h'.one s r u u' hput hput'

theorem Rows.other (hobject : ∀ a id, ¬ Puts writes (.object a id))
    (hedge : ∀ s r u, ¬ Puts writes (.edge s r u)) : Rows t [] writes where
  object := fun a id data hmem => absurd ⟨data, hmem⟩ (hobject a id)
  source := fun s r u hput => absurd hput (hedge s r u)
  one := fun s r u _ hput _ => absurd hput (hedge s r u)

theorem Rows.uniquePuts (hstaged : ∀ s ∈ staged, s.1.isUniqueIndex)
    (h : Rows t ids writes) : Rows t ids (uniquePuts staged ++ writes) := by
  have hnone : ∀ k : Key, k.isUniqueIndex = false → ¬ Puts (Engine.uniquePuts staged) k := by
    rintro k hk ⟨value, hmem⟩
    have hkey : k.isUniqueIndex := isUniqueIndex_uniquePuts hstaged _ hmem
    rw [hk] at hkey
    cases hkey
  have hother : Rows t [] (Engine.uniquePuts staged) :=
    .other (fun _ _ => hnone _ rfl) (fun _ _ _ => hnone _ rfl)
  exact hother.append h (disjoint_nil_left ids)

theorem splitFields_links {l : List (Sigma fun _ : String => Value)} {acc acc' : FieldMap × List Link}
    (h : l.foldlM (splitField schema view versions t) acc = .ok acc') :
    ∃ new, acc'.2 = acc.2 ++ new ∧ (new.map Link.fieldName).Sublist (l.map Sigma.fst) ∧
      ∀ n ∈ new, ∃ f ∈ t.fields, f.name = n.fieldName ∧ f.relation?.isSome ∧ n.relId = f.relId := by
  induction l generalizing acc with
  | nil =>
    cases h
    exact ⟨[], (append_nil _).symm, List.Sublist.refl [], forall_mem_nil _⟩
  | cons field l ih =>
    rw [foldlM_cons, bind_eq_ok] at h
    obtain ⟨mid, hstep, h⟩ := h
    obtain ⟨new, hnew, hsub, hlinks⟩ := ih h
    obtain ⟨f, hf, -, hcase⟩ := splitField_cases hstep
    rcases hcase with ⟨n, -, hname, hid, hrel, -, rfl⟩ | ⟨-, rfl⟩ | ⟨-, rfl⟩
    · refine ⟨n :: new, ?_, ?_, ?_⟩
      · rw [hnew, append_assoc]
        rfl
      · rw [map_cons, map_cons, hname]
        exact hsub.cons_cons _
      · obtain ⟨hmem, hfname⟩ := TypeDef.mem_of_getField hf
        exact forall_mem_cons.mpr ⟨⟨f, hmem, hfname.trans hname.symm, hrel, hid⟩, hlinks⟩
    · exact ⟨new, hnew, hsub.cons _, hlinks⟩
    · exact ⟨new, hnew, hsub.cons _, hlinks⟩

variable {fields : FieldMap}

variable {acc : FieldMap × List Link} {objectId : Id}

theorem link_eq_of_relId (ht : t ∈ schema.types)
    (h : fields.entries.foldlM (splitField schema view versions t) (∅, []) = .ok acc) {l l' : Link}
    (hl : l ∈ acc.2) (hl' : l' ∈ acc.2) (hid : l.relId = l'.relId) : l = l' := by
  obtain ⟨new, hnew, hsub, hlinks⟩ := splitFields_links h
  rw [hnew, nil_append] at hl hl'
  obtain ⟨f, hf, hname, hrel, hr⟩ := hlinks l hl
  obtain ⟨f', hf', hname', hrel', hr'⟩ := hlinks l' hl'
  obtain ⟨-, rfl⟩ := eq_of_relId ht ht hf hf' hrel hrel' (by rw [← hr, ← hr', hid])
  have hnodup : (new.map Link.fieldName).Nodup := hsub.nodup fields.nodupKeys
  exact inj_on_of_nodup_map hnodup hl hl' (hname.symm.trans hname')

theorem splitFields_onlyScalars
    (h : fields.entries.foldlM (splitField schema view versions t) (∅, []) = .ok acc) :
    OnlyScalars t acc.1 := by
  apply foldlM_induct (P := fun acc : FieldMap × List Link => OnlyScalars t acc.1) _ _ h
  · intro s s' field _ hs hstep
    obtain ⟨f, hf, -, hcase⟩ := splitField_cases hstep
    rcases hcase with ⟨n, -, -, -, -, -, rfl⟩ | ⟨-, rfl⟩ | ⟨hscalar, rfl⟩
    · exact hs
    · exact hs
    · intro name hname
      rcases (AList.mem_insert _).mp hname with rfl | hname
      · exact ⟨f, hf, hscalar⟩
      · exact hs name hname
  · intro name hname
    exact absurd hname (AList.notMem_empty name)

theorem edge_of_puts_createPuts {scalars : FieldMap} {links : List Link} {s r u : Id}
    (h : Puts (createPuts schema view versions t objectId scalars links) (.edge s r u)) :
    ∃ l ∈ links, s = objectId ∧ r = l.relId ∧ u = l.targetId := by
  obtain ⟨value, hmem⟩ := h
  rw [createPuts, mem_append, mem_cons] at hmem
  rcases hmem with hmem | heq | hmem
  · obtain ⟨ifd, -, hput⟩ := mem_filterMap.mp hmem
    obtain ⟨key, hkey, heq⟩ := Option.map_eq_some_iff.mp hput
    have hgraph := isGraph_indexKeyOf hkey
    rw [(Prod.mk.inj heq).1] at hgraph
    cases hgraph
  · cases heq
  · obtain ⟨l, hl, hmem⟩ := mem_flatMap.mp hmem
    rw [linkPuts, mem_cons, mem_singleton] at hmem
    rcases hmem with heq | heq
    · cases heq
      exact ⟨l.1, fst_mem_of_mem_zipIdx hl, rfl, rfl, rfl⟩
    · cases heq

theorem stageCreateWrites_rows (ht : t ∈ schema.types)
    {staged' : List (Key × Id)} {puts : Writes Key Payload}
    (h : stageCreateWrites schema view versions t objectId fields staged = .ok (staged', puts)) :
    Rows t [objectId] puts := by
  obtain ⟨split, hsplit, -, rfl⟩ := stageCreateWrites_eq_ok h
  constructor
  · intro a id data hmem
    obtain ⟨rfl, made, hmade, hdata⟩ := createPuts_inserts.object _ hmem a id rfl
    cases mem_singleton.mp hmade
    cases hdata
    exact ⟨rfl, splitFields_onlyScalars hsplit⟩
  · intro s r u hput
    obtain ⟨l, -, rfl, -⟩ := edge_of_puts_createPuts hput
    exact mem_singleton_self s
  · intro s r u u' hput hput'
    obtain ⟨l, hl, -, rfl, rfl⟩ := edge_of_puts_createPuts hput
    obtain ⟨l', hl', -, hid, rfl⟩ := edge_of_puts_createPuts hput'
    rw [link_eq_of_relId ht hsplit hl hl' hid]

theorem stageRows_rows (ht : t ∈ schema.types) {rows : List FieldMap} {batch : Batch}
    {c c' : Counters} (hbatch : Rows t ids batch.puts)
    (hstaged : ∀ s ∈ batch.staged, s.1.isUniqueIndex)
    (hnodup : (ids ++ drawnIds c.nextObjectId rows.length).Nodup)
    (h : stageRows schema view t rows batch c = (.ok writes, c')) :
    Rows t (ids ++ drawnIds c.nextObjectId rows.length) writes := by
  induction rows generalizing batch c ids with
  | nil =>
    cases (Prod.mk.inj h).1
    rw [length_nil, drawnIds, range_zero, map_nil, append_nil]
    exact hbatch.uniquePuts hstaged
  | cons fields rows ih =>
    obtain ⟨staged, puts, hstage, h⟩ := stageRows_cons_eq_ok h
    rw [length_cons, drawnIds_succ, append_cons] at hnodup ⊢
    have hdisj : ids.Disjoint [c.nextObjectId] :=
      (nodup_append'.mp (nodup_append'.mp hnodup).1).2.2
    have hkeys := stageCreateWrites_keys hstage hstaged
    refine ih ?_ hkeys ?_ h
    · exact hbatch.append (stageCreateWrites_rows ht hstage) hdisj
    · exact hnodup

end

/-- A link by a to-one relation goes where the relation leads already, if it leads anywhere; an
update names no relation field; the counter does not wrap around. -/
def KeepsToOne (schema : Schema) (db : Database) (call : Database.Call) : Prop :=
  db.counters.nextObjectId.toNat + Ledger.draws call < 2 ^ 64 ∧
    match call with
    | .link sourceType sourceId fieldName targetId _ =>
      ∀ t ∈ schema.getType sourceType, ∀ f ∈ t.getField fieldName, ∀ rel ∈ f.relation?,
        rel.isMany = false → ∀ row ∈ db.store.view.scanEdges sourceId f.relId, row.1 = targetId
    | .update typeName _ updates =>
      ∀ t ∈ schema.getType typeName, ∀ f ∈ t.fields, f.relation?.isSome → f.name ∉ updates
    | _ => True

instance (schema : Schema) (db : Database) : ∀ call, Decidable (KeepsToOne schema db call)
  | .create _ _ => inferInstanceAs (Decidable (_ ∧ True))
  | .createBatch _ _ => inferInstanceAs (Decidable (_ ∧ True))
  | .delete _ _ => inferInstanceAs (Decidable (_ ∧ True))
  | .unlink _ _ _ _ => inferInstanceAs (Decidable (_ ∧ True))
  | .refreshCovers _ _ => inferInstanceAs (Decidable (_ ∧ True))
  | .link _ sourceId _ targetId _ =>
    have (f : FieldDef) : Decidable (∀ row ∈ db.store.view.scanEdges sourceId f.relId,
        row.1 = targetId) := List.decidableBAll _ _
    inferInstanceAs (Decidable (_ ∧ ∀ t ∈ _, ∀ f ∈ _, ∀ rel ∈ _, _ → _))
  | .update _ _ updates =>
    have (t : TypeDef) : Decidable (∀ f ∈ t.fields, f.relation?.isSome → f.name ∉ updates) :=
      List.decidableBAll _ _
    inferInstanceAs (Decidable (_ ∧ ∀ t ∈ _, _))

section

variable {schema : Schema} {view : View} {versions : Versions} {t : TypeDef} {objectId : Id}

variable {fields updates : FieldMap}

theorem FieldMap.mem_merge {name : String} (h : name ∈ fields.merge updates) :
    name ∈ fields ∨ name ∈ updates := by
  have hfold : ∀ (l : List (Sigma fun _ : String => Value)) (m : FieldMap),
      name ∈ l.foldl (fun m u => m.insert u.1 u.2) m → name ∈ m ∨ name ∈ l.map Sigma.fst := by
    intro l
    induction l with
    | nil => exact fun m hm => .inl hm
    | cons u l ih =>
      intro m hm
      rcases ih _ hm with hm | hm
      · rcases (AList.mem_insert _).mp hm with rfl | hm
        · exact .inr mem_cons_self
        · exact .inl hm
      · exact .inr (mem_cons_of_mem _ hm)
  exact hfold updates.entries fields h

variable {s r u : Id}

theorem refreshOutboundRevEdges_ne_edge {data : Option Payload} :
    ∀ w ∈ refreshOutboundRevEdges schema view versions t objectId data, w.1 ≠ .edge s r u := by
  intro w hw
  rw [refreshOutboundRevEdges] at hw
  split_ifs at hw
  · obtain ⟨f, -, hw⟩ := mem_flatMap.mp hw
    split at hw
    · cases hw
    · obtain ⟨row, -, rfl⟩ := mem_map.mp hw
      exact Key.noConfusion
  · cases hw

variable {writes : Writes Key Payload}

theorem refreshCovers_ne_edge {typeId targetId : Id}
    (h : refreshCoversForTarget schema view versions typeId targetId = .ok writes) :
    ∀ w ∈ writes, w.1 ≠ .edge s r u := by
  refine foldlM_induct (P := fun ws : Writes Key Payload => ∀ w ∈ ws, w.1 ≠ .edge s r u) ?_
    (forall_mem_nil _) h
  intro ws ws' source _ hws hstep
  obtain ⟨data, -, hstep⟩ := bind_eq_ok.mp hstep
  split at hstep
  · cases hstep
    exact forall_mem_append.mpr ⟨hws, refreshOutboundRevEdges_ne_edge⟩
  · cases hstep
    exact hws

theorem updateWrites_ne_edge :
    ∀ w ∈ updateWrites schema view versions t objectId fields updates, w.1 ≠ .edge s r u := by
  intro w hw
  rw [updateWrites, mem_append, mem_append] at hw
  rcases hw with (hw | hw) | hw
  · obtain ⟨ifd, -, hw⟩ := mem_flatMap.mp hw
    obtain ⟨front, howned⟩ := ownedBy_of_mem_maintainIndex hw
    rw [howned]
    exact Key.noConfusion
  · exact refreshOutboundRevEdges_ne_edge w hw
  · rw [mem_cons, mem_singleton] at hw
    rcases hw with rfl | rfl
    · exact Key.noConfusion
    · exact Key.noConfusion

theorem update_ne_edge {c c' : Counters} {typeName : String} {updates : FieldMap}
    (h : update schema view c typeName objectId updates = (.ok writes, c')) :
    ∀ w ∈ writes, w.1 ≠ .edge s r u := by
  obtain ⟨t, -, -, existing, -, unique, hunique, rfl⟩ := update_eq_ok h
  refine forall_mem_append.mpr ⟨fun w hw heq => ?_, updateWrites_ne_edge⟩
  have hkey := updateUniques_keys hunique w hw
  rw [heq] at hkey
  cases hkey

end

/-- To-one relations with a counter above every stored object and every source of an edge. -/
structure SingleTargets (schema : Schema) (db : Database) : Prop where
  toOne : ToOne schema db.store
  objects : ∀ a id, db.store.Has (.object a id) → id.toNat < db.counters.nextObjectId.toNat
  sources : ∀ s r t, db.store.Has (.edge s r t) → s.toNat < db.counters.nextObjectId.toNat

variable {schema : Schema} {db : Database} {writes : Writes Key Payload}

theorem not_puts_of_ne {k : Key} (h : ∀ w ∈ writes, w.1 ≠ k) : ¬ Puts writes k := by
  rintro ⟨value, hmem⟩
  exact h _ hmem rfl

theorem ToOne.no_edges (h : ToOne schema db.store) (hedge : ∀ s r u, ¬ Puts writes (.edge s r u))
    (hobject : ∀ a id, ¬ Puts writes (.object a id)) : ToOne schema (db.store.apply writes) :=
  h.apply (fun _ _ s r _ hput => absurd hput (hedge s _ r))
    fun τ _ id data hmem => absurd ⟨data, hmem⟩ (hobject τ.typeId id)

theorem ToOne.rows (h : ToOne schema db.store) {t : TypeDef} (ht : t ∈ schema.types) {ids : List Id}
    (hrows : Rows t ids writes) (hfresh : ∀ s ∈ ids, ∀ r u, ¬ db.store.Has (.edge s r u)) :
    ToOne schema (db.store.apply writes) := by
  apply h.apply
  · rintro r - s u u' hput (hput' | hold)
    · exact hrows.one s r u u' hput hput'
    · exact absurd hold (hfresh s (hrows.source s r u hput) r u')
  · intro τ hτ id data hmem f hf hrel hname
    obtain ⟨htype, hscalars⟩ := hrows.object _ id data hmem
    obtain rfl := eq_of_typeId hτ ht htype
    obtain ⟨g, hg, hscalar⟩ := hscalars f.name hname
    obtain rfl := Option.some.inj ((getField_name hτ hf).symm.trans hg)
    rw [FieldDef.isScalar] at hscalar
    rw [FieldDef.relation?] at hrel
    split at hscalar
    · rename_i heq
      rw [heq] at hrel
      cases hrel
    · cases hscalar

variable {typeName : String} {c c' : Counters} {call : Database.Call}

theorem create_rows {fields : FieldMap}
    (h : create schema db.store.view c typeName fields = (.ok writes, c')) :
    ∃ t ∈ schema.types, Rows t (drawnIds c.nextObjectId 1) writes := by
  obtain ⟨t, ht, staged, puts, hstage, rfl⟩ := create_eq_ok h
  have htype := (mem_of_getType ht).1
  have hkeys := stageCreateWrites_keys hstage (forall_mem_nil _)
  refine ⟨t, htype, ?_⟩
  rw [drawnIds_succ]
  exact (stageCreateWrites_rows htype hstage).uniquePuts hkeys

theorem createBatch_rows {rows : List FieldMap}
    (hwrap : c.nextObjectId.toNat + rows.length < 2 ^ 64)
    (h : createBatch schema db.store.view c typeName rows = (.ok writes, c')) :
    writes = [] ∨ ∃ t ∈ schema.types, Rows t (drawnIds c.nextObjectId rows.length) writes := by
  rcases createBatch_eq_ok h with ⟨-, rfl⟩ | ⟨t, ht, hrows⟩
  · exact .inl rfl
  · have htype := (mem_of_getType ht).1
    have hnone : Rows t [] ([] : Writes Key Payload) :=
      .other (fun _ _ => not_puts_of_ne (forall_mem_nil _))
        fun _ _ _ => not_puts_of_ne (forall_mem_nil _)
    exact .inr ⟨t, htype, stageRows_rows htype hnone (forall_mem_nil _)
      (nodup_drawnIds hwrap) hrows⟩

theorem stage_sources {c : Counters}
    (hwrap : db.counters.nextObjectId.toNat + Ledger.draws call < 2 ^ 64)
    (h : Database.stage schema db.store.view db.counters call = (.ok writes, c)) {s r u : Id}
    (hput : Puts writes (.edge s r u)) :
    (∃ a, db.store.Has (.object a s)) ∨
      s ∈ drawnIds db.counters.nextObjectId (Ledger.draws call) := by
  cases call with
  | create typeName fields =>
    obtain ⟨t, -, hrows⟩ := create_rows h
    exact .inr (hrows.source s r u hput)
  | createBatch typeName rows =>
    rcases createBatch_rows hwrap h with rfl | ⟨t, -, hrows⟩
    · exact absurd hput (not_puts_of_ne (forall_mem_nil _))
    · exact .inr (hrows.source s r u hput)
  | update typeName objectId updates => exact absurd hput (not_puts_of_ne (update_ne_edge h))
  | delete typeName objectId =>
    obtain ⟨typeId, -, walk, -, rfl⟩ := delete_eq_ok h
    exact absurd hput not_puts_tombstones
  | link sourceType sourceId fieldName targetId edgeFields =>
    obtain ⟨t, f, rel, target, source, data, -, -, -, -, hsource, -, rfl⟩ :=
      link_eq_ok (Prod.mk.inj h).1
    obtain ⟨value, hmem⟩ := hput
    rw [mem_cons, mem_singleton] at hmem
    rcases hmem with heq | heq
    · cases heq
      refine .inl ⟨t.typeId, ?_⟩
      rw [Store.Has, Except.ok.inj hsource]
      rfl
    · cases heq
  | unlink sourceType sourceId fieldName targetId =>
    obtain ⟨t, f, -, -, rfl⟩ := unlink_eq_ok (Prod.mk.inj h).1
    exact absurd hput not_puts_tombstones
  | refreshCovers typeId objectId =>
    exact absurd hput (not_puts_of_ne (refreshCovers_ne_edge (Prod.mk.inj h).1))

variable {sourceType fieldName : String} {sourceId : Id}

theorem ToOne.link (h : ToOne schema db.store) {targetId : Id} {edgeFields : Option FieldMap}
    (hkeeps : KeepsToOne schema db (.link sourceType sourceId fieldName targetId edgeFields))
    (hok : Engine.link schema db.store.view db.counters.versions sourceType sourceId fieldName
      targetId edgeFields = .ok writes) : ToOne schema (db.store.apply writes) := by
  obtain ⟨t, f, rel, target, source, data, ht, hf, hrel, -, -, -, rfl⟩ := link_eq_ok hok
  have hputs : ∀ {s r u : Id}, Puts [(Key.edge sourceId f.relId targetId,
      some ((edgeFields.map serializeFields).getD .empty)), (.reverseEdge targetId f.relId sourceId,
      some (buildCoveringRevValue schema db.store.view db.counters.versions t sourceId (some source)
        fieldName targetId))] (.edge s r u) → s = sourceId ∧ r = f.relId ∧ u = targetId := by
    rintro s r u ⟨value, hmem⟩
    rw [mem_cons, mem_singleton] at hmem
    rcases hmem with heq | heq
    · cases heq
      exact ⟨rfl, rfl, rfl⟩
    · cases heq
  apply h.apply
  · rintro r ⟨τ, hτ, g, hg, grel, hgrel, hmany, rfl⟩ s u u' hput hother
    obtain ⟨rfl, hid, rfl⟩ := hputs hput
    obtain ⟨-, rfl⟩ := eq_of_relId hτ (mem_of_getType ht).1 hg
      (TypeDef.mem_of_getField hf).1 (by rw [hgrel]; rfl) (by rw [hrel]; rfl) hid
    rcases hother with hput' | hold
    · exact (hputs hput').2.2.symm
    · obtain ⟨value, hrow⟩ := Store.exists_mem_scanEdges hold
      exact (hkeeps.2 t ht g hf grel hgrel hmany _ hrow).symm
  · intro τ _ id blob hmem
    rw [mem_cons, mem_singleton] at hmem
    rcases hmem with heq | heq
    · cases heq
    · cases heq

theorem ToOne.update (h : ToOne schema db.store) {objectId : Id} {updates : FieldMap}
    (hkeeps : ∀ t ∈ schema.getType typeName, ∀ f ∈ t.fields, f.relation?.isSome → f.name ∉ updates)
    (hok : Engine.update schema db.store.view c typeName objectId updates = (.ok writes, c')) :
    ToOne schema (db.store.apply writes) := by
  apply h.apply
  · exact fun r _ s u _ hput => absurd hput (not_puts_of_ne (update_ne_edge hok))
  · obtain ⟨t, ht, -, existing, hget, unique, hunique, rfl⟩ := update_eq_ok hok
    have htype := (mem_of_getType ht).1
    intro τ hτ id data hmem f hf hrel hname
    rcases mem_append.mp hmem with hmem | hmem
    · cases updateUniques_keys hunique _ hmem
    · rcases record_of_mem_updateWrites hmem rfl with heq | ⟨ifd, -, front, howned⟩
      · obtain ⟨hkey, hdata⟩ := Prod.mk.inj heq
        obtain ⟨htypes, rfl⟩ := Key.object.inj hkey
        obtain rfl := eq_of_typeId hτ htype htypes
        obtain rfl := Option.some.inj hdata
        rcases FieldMap.mem_merge hname with hold | hnew
        · exact h.scalars τ hτ id existing (Except.ok.inj hget) f hf hrel hold
        · exact hkeeps τ ht f hf hrel hnew
      · cases howned

theorem SingleTargets.step (h : SingleTargets schema db)
    (hkeeps : KeepsToOne schema db call) : SingleTargets schema (db.step schema call) := by
  obtain ⟨hle, hok⟩ := nextObjectId_step schema hkeeps.1
  have hobjects := objects_below_step schema h.objects hkeeps.1
  rcases db.step_cases schema call with ⟨-, -, -, heq⟩ | ⟨writes, c, hstage, heq⟩
  · refine ⟨?_, hobjects, ?_⟩
    · rw [heq]
      exact h.toOne
    · intro s r t hedge
      rw [heq] at hedge
      exact (h.sources s r t hedge).trans_le hle
  · refine ⟨?_, hobjects, ?_⟩
    · -- an id just drawn has no edges yet
      have hfresh : ∀ s ∈ drawnIds db.counters.nextObjectId (Ledger.draws call), ∀ r u,
          ¬ db.store.Has (.edge s r u) := by
        intro s hs r u hedge
        exact absurd (h.sources s r u hedge) (Nat.not_lt.mpr (mem_drawnIds hkeeps.1 hs).1)
      rw [heq]
      cases call with
      | create typeName fields =>
        obtain ⟨t, ht, hrows⟩ := create_rows hstage
        exact h.toOne.rows ht hrows hfresh
      | createBatch typeName rows =>
        rcases createBatch_rows hkeeps.1 hstage with rfl | ⟨t, ht, hrows⟩
        · exact h.toOne
        · exact h.toOne.rows ht hrows hfresh
      | update typeName objectId updates => exact h.toOne.update hkeeps.2 hstage
      | delete typeName objectId =>
        obtain ⟨typeId, -, walk, -, rfl⟩ := delete_eq_ok hstage
        exact h.toOne.no_edges (fun _ _ _ => not_puts_tombstones) fun _ _ => not_puts_tombstones
      | link sourceType sourceId fieldName targetId edgeFields =>
        exact h.toOne.link hkeeps (Prod.mk.inj hstage).1
      | unlink sourceType sourceId fieldName targetId =>
        obtain ⟨t, f, -, -, rfl⟩ := unlink_eq_ok (Prod.mk.inj hstage).1
        exact h.toOne.no_edges (fun _ _ _ => not_puts_tombstones) fun _ _ => not_puts_tombstones
      | refreshCovers typeId objectId =>
        have hrefresh := (Prod.mk.inj hstage).1
        refine h.toOne.no_edges (fun _ _ _ => not_puts_of_ne (refreshCovers_ne_edge hrefresh))
          fun a id => not_puts_of_ne fun w hw heq => ?_
        have hrecord := isRecord_refreshCovers hrefresh w hw
        rw [heq] at hrecord
        cases hrecord
    · intro s r t hedge
      rw [hok writes c hstage]
      rw [heq] at hedge
      rcases puts_or_has hedge with hput | hold
      · rcases stage_sources hkeeps.1 hstage hput with ⟨a, hobj⟩ | hdrawn
        · exact Nat.lt_add_right _ (h.objects a s hobj)
        · exact (mem_drawnIds hkeeps.1 hdrawn).2
      · exact Nat.lt_add_right _ (h.sources s r t hold)

theorem reports_update (hmirror : Mirrored db.store) (typeName : String) (objectId : Id)
    (updates : FieldMap) {target : Id} :
    Reports schema (db.step schema (.update typeName objectId updates)).store sourceType sourceId
      fieldName target ↔ Reports schema db.store sourceType sourceId fieldName target := by
  apply reports_congr (hmirror.step schema _) hmirror
  intro s r t
  rcases db.step_cases schema (.update typeName objectId updates) with
    ⟨-, -, -, heq⟩ | ⟨writes, c, hstage, heq⟩
  · rw [heq]
  · rw [heq, Store.Has, Store.Has, Store.lookup_apply,
      lastWrite_eq_none.mpr (update_ne_edge hstage), Option.getD_none]

/-- In every run that meets the condition, a to-one relation has one target at most and no object
holds a relation field. An update that sets a relation to an id leaves it a target exactly if it
was one. -/
theorem to_one_kept (schema : Schema) (calls : List Database.Call)
    (hkeeps : Run.Along (Database.step schema) (KeepsToOne schema) Database.new calls) :
    let db := Run.exec (Database.step schema) Database.new calls
    ToOne schema db.store ∧ ∀ typeName objectId updates fieldName value target,
      updates.lookup fieldName = some value → value.targetId = some target →
      (Reports schema (db.step schema (.update typeName objectId updates)).store typeName objectId
        fieldName target ↔ Reports schema db.store typeName objectId fieldName target) := by
  have hnew : SingleTargets schema Database.new :=
    { toOne := ⟨fun _ _ _ _ _ => nofun, fun _ _ _ _ => nofun⟩, objects := nofun, sources := nofun }
  have hsingle := Run.exec_invariant (I := SingleTargets schema)
    (fun _ _ h hstep => h.step hstep) hnew hkeeps
  exact ⟨hsingle.toOne, fun typeName objectId updates _ _ _ _ _ =>
    reports_update (.exec schema calls) typeName objectId updates⟩

def moved : List Database.Call :=
  [.create "User" ∅, .create "User" ∅, .create "Post" (AList.singleton "author" (.u64 1)),
    .unlink "Post" 3 "author" 1, .link "Post" 3 "author" 2 none]

theorem to_one_kept_moved :
    ToOne blogSchema (Run.exec (Database.step blogSchema) Database.new moved).store ∧
      Reports blogSchema ((Run.exec (Database.step blogSchema) Database.new moved).step blogSchema
        (.update "Post" 3 (AList.singleton "author" (.u64 2)))).store "Post" 3 "author" 2 := by
  obtain ⟨hone, hupdate⟩ := to_one_kept blogSchema moved (by decide +kernel)
  exact ⟨hone, (hupdate "Post" 3 (AList.singleton "author" (.u64 2)) "author" (.u64 2) 2 rfl
    rfl).mpr (by decide +kernel)⟩

def Accepted (schema : Schema) (db : Database) (call : Database.Call) : Prop :=
  (Database.stage schema db.store.view db.counters call).1.isOk

instance (schema : Schema) (db : Database) (call : Database.Call) :
    Decidable (Accepted schema db call) :=
  inferInstanceAs (Decidable (_ = true))

def relinked : List Database.Call :=
  [.create "User" ∅, .create "User" ∅, .create "Post" (AList.singleton "author" (.u64 1)),
    .link "Post" 3 "author" 2 none]

def reassigned : List Database.Call :=
  [.create "User" ∅, .create "User" ∅, .create "Post" (AList.singleton "author" (.u64 1)),
    .update "Post" 3 (AList.singleton "author" (.u64 2))]

/-- The link leaves two targets; the update leaves its target out and the field in the object. -/
theorem to_one_forked :
    (Run.Along (Database.step blogSchema) (Accepted blogSchema) Database.new relinked ∧
      ¬ ToOne blogSchema (Run.exec (Database.step blogSchema) Database.new relinked).store) ∧
    Run.Along (Database.step blogSchema) (Accepted blogSchema) Database.new reassigned ∧
      ¬ Reports blogSchema (Run.exec (Database.step blogSchema) Database.new reassigned).store
        "Post" 3 "author" 2 ∧
      ¬ ToOne blogSchema (Run.exec (Database.step blogSchema) Database.new reassigned).store := by
  refine ⟨⟨by decide +kernel, fun h => ?_⟩, by decide +kernel, by decide +kernel, fun h => ?_⟩
  · have hauthor : IsToOne blogSchema 1 :=
      ⟨postType, by decide, authorField, by decide, _, rfl, rfl, rfl⟩
    exact absurd (h.one 1 hauthor 3 1 2 (by decide +kernel) (by decide +kernel)) (by decide)
  · have hname : ∃ data ∈ (Run.exec (Database.step blogSchema) Database.new reassigned).store.lookup
        (.object 1 3), "author" ∈ data.deserializeFields := by decide +kernel
    obtain ⟨data, hdata, hmem⟩ := hname
    exact h.scalars postType (by decide) 3 data hdata authorField (by decide) rfl hmem

end RhypeDb.Engine
