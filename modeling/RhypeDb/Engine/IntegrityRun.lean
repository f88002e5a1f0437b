import RhypeDb.Engine.Integrity

/-! Deletes and runs. The walk of a delete tombstones the edges that it scans and those that a
cover names. What it does not scan, it may miss. -/

namespace RhypeDb.Engine

open DepthFirst Fallible List Storage

def Paired (keys : List Key) : Prop := ∀ s r t, .edge s r t ∈ keys ↔ .reverseEdge t r s ∈ keys

namespace Paired

variable {keys keys' : List Key}

theorem append (h : Paired keys) (h' : Paired keys') : Paired (keys ++ keys') := by
  intro s r t
  rw [mem_append, mem_append, h s r t, h' s r t]

theorem of_not_graph (h : ∀ k ∈ keys, k.isGraph = false) : Paired keys := by
  intro s r t
  constructor
  · exact fun hmem => absurd (h _ hmem) Bool.noConfusion
  · exact fun hmem => absurd (h _ hmem) Bool.noConfusion

theorem flatMap {α : Type} {l : List α} {g : α → List Key} (h : ∀ x ∈ l, Paired (g x)) :
    Paired (l.flatMap g) := by
  intro s r t
  rw [mem_flatMap, mem_flatMap]
  exact exists_congr fun x => and_congr_right fun hx => h x hx s r t

theorem edgeTombstones (s r t : Id) : Paired (edgeTombstones s r t) := by
  intro s' r' t'
  simp only [Engine.edgeTombstones, mem_cons, Key.edge.injEq, Key.reverseEdge.injEq,
    reduceCtorEq, not_mem_nil, or_false, false_or]
  tauto

end Paired

section

variable {schema : Schema} {view : View} {versions : Versions} {a : Arrival} {objectId : Id}

theorem isGraph_storedEntries {t : TypeDef} :
    ∀ k ∈ storedEntries view t objectId, k.isGraph = false := by
  intro k hk
  rw [storedEntries] at hk
  split at hk
  · rcases mem_append.mp hk with hk | hk
    · obtain ⟨f, -, hf⟩ := mem_filterMap.mp hk
      split_ifs at hf
      obtain ⟨value, -, hf⟩ := Option.bind_eq_some_iff.mp hf
      split_ifs at hf
      cases hf
      rfl
    · obtain ⟨ifd, -, hkey⟩ := mem_filterMap.mp hk
      exact isGraph_indexKeyOf hkey
  · cases hk

theorem paired_tombstonesOf : Paired (tombstonesOf schema view versions a) := by
  rw [tombstonesOf]
  split
  · exact .of_not_graph (forall_mem_nil _)
  · refine Paired.append (Paired.append (Paired.append (.of_not_graph isGraph_storedEntries) ?_) ?_) ?_
    · exact Paired.flatMap fun inc _ => Paired.flatMap fun row _ => .edgeTombstones _ _ _
    · refine Paired.append (Paired.flatMap fun c _ => .edgeTombstones _ _ _) ?_
      exact Paired.flatMap fun rel _ => Paired.flatMap fun row _ => .edgeTombstones _ _ _
    · intro s r t
      rw [ownTombstones]
      split_ifs <;> simp

theorem eq_of_object_mem {typeId : Id}
    (h : .object typeId objectId ∈ tombstonesOf schema view versions a) :
    a.1 = (typeId, objectId) := by
  have hedge : ∀ s r t, Key.object typeId objectId ∉ edgeTombstones s r t := by
    simp [edgeTombstones]
  rw [tombstonesOf] at h
  split at h
  · cases h
  · simp only [mem_append] at h
    rcases h with ((h | h) | h) | h
    · exact absurd (isGraph_storedEntries _ h) Bool.noConfusion
    · obtain ⟨inc, -, h⟩ := mem_flatMap.mp h
      obtain ⟨row, -, h⟩ := mem_flatMap.mp h
      exact absurd h (hedge _ _ _)
    · rcases mem_append.mp h with h | h
      · obtain ⟨c, -, h⟩ := mem_flatMap.mp h
        exact absurd h (hedge _ _ _)
      · obtain ⟨rel, -, h⟩ := mem_flatMap.mp h
        obtain ⟨row, -, h⟩ := mem_flatMap.mp h
        exact absurd h (hedge _ _ _)
    · rw [ownTombstones] at h
      split_ifs at h with hversion
      · simp only [mem_cons, Key.object.injEq, reduceCtorEq, not_mem_nil, or_false] at h
        exact Prod.ext h.1.symm h.2.symm
      · simp only [mem_cons, Key.object.injEq, not_mem_nil, or_false] at h
        exact Prod.ext h.1.symm h.2.symm

theorem edge_mem_edgeTombstones (s r t : Id) : Key.edge s r t ∈ edgeTombstones s r t :=
  mem_cons_self

variable {store : Store} {t : TypeDef} {target : Id}

theorem inbound_tombstoned (ht : schema.typeById a.1.1 = some t) {inc : IncomingRelation}
    (hinc : inc ∈ schema.incomingRelations a.1.1) {s : Id}
    (h : store.Has (.reverseEdge a.1.2 inc.relId s)) :
    .edge s inc.relId a.1.2 ∈ tombstonesOf schema store.view versions a := by
  obtain ⟨value, hvalue⟩ := Store.exists_mem_scanReverseEdges h
  rw [tombstonesOf, ht]
  apply mem_append_left
  apply mem_append_left
  apply mem_append_right
  refine mem_flatMap.mpr ⟨inc, hinc, mem_flatMap.mpr ⟨_, hvalue, ?_⟩⟩
  exact edge_mem_edgeTombstones s inc.relId a.1.2

theorem outbound_tombstoned (ht : schema.typeById a.1.1 = some t) {rel : ForwardRelMeta}
    (hrel : rel ∈ t.forwardRelations) (hscan : rel.relId ∉ coveredRelIds t a.2)
    (h : store.Has (.edge a.1.2 rel.relId target)) :
    .edge a.1.2 rel.relId target ∈ tombstonesOf schema store.view versions a := by
  obtain ⟨value, hvalue⟩ := Store.exists_mem_scanEdges h
  rw [tombstonesOf, ht]
  apply mem_append_left
  apply mem_append_right
  apply mem_append_right
  refine mem_flatMap.mpr ⟨rel, mem_filter.mpr ⟨hrel, by simpa using hscan⟩, ?_⟩
  exact mem_flatMap.mpr ⟨_, hvalue, edge_mem_edgeTombstones _ _ _⟩

theorem covered_tombstoned (ht : schema.typeById a.1.1 = some t) {r : Id}
    (h : (r, target) ∈ coveredTargets t a.2) :
    .edge a.1.2 r target ∈ tombstonesOf schema view versions a := by
  rw [tombstonesOf, ht]
  apply mem_append_left
  apply mem_append_right
  apply mem_append_left
  exact mem_flatMap.mpr ⟨_, h, edge_mem_edgeTombstones _ _ _⟩

end

def cascade (schema : Schema) (view : View) (root : Id × Id) : List Arrival :=
  (search (cascadeChildren schema view) (deleteFuel schema view) [] (root, none)).getD []

/-- Some reached object is the target `t` of a relation with id `r`. -/
def Reaches (schema : Schema) (reached : List Arrival) (r t : Id) : Prop :=
  ∃ a ∈ reached, a.1.2 = t ∧ ∃ inc ∈ schema.incomingRelations a.1.1, inc.relId = r

instance (schema : Schema) (reached : List Arrival) (r t : Id) :
    Decidable (Reaches schema reached r t) :=
  inferInstanceAs (Decidable (∃ a ∈ reached, _))

/-- Every edge that the cascade will not scan, of an object it reaches, leads to where the
cover says or to a reached object. -/
def CoversTell (schema : Schema) (store : Store) (root : Id × Id) : Prop :=
  ∀ a ∈ cascade schema store.view root, ∀ τ ∈ schema.typeById a.1.1,
    ∀ r ∈ coveredRelIds τ a.2, ∀ row ∈ store.view.scanEdges a.1.2 r,
      (r, row.1) ∈ coveredTargets τ a.2 ∨ Reaches schema (cascade schema store.view root) r row.1

/-- No edge at a reached object is stored under the id of an `@inverse` field. -/
def OnlyForward (schema : Schema) (store : Store) (root : Id × Id) : Prop :=
  ∀ a ∈ cascade schema store.view root, ∀ e ∈ store.edges, a.1.2 = e.1 ∨ a.1.2 = e.2.2 →
    ∃ τ ∈ schema.types, ∃ rel ∈ τ.forwardRelations, rel.relId = e.2.1

structure CleanCascade (schema : Schema) (store : Store) (root : Id × Id) : Prop where
  covers : CoversTell schema store root
  forward : OnlyForward schema store root

instance decidableTold (schema : Schema) (reached : List Arrival) (covered : List (Id × Id))
    (r : Id) (rows : List (Id × Payload)) :
    Decidable (∀ row ∈ rows, (r, row.1) ∈ covered ∨ Reaches schema reached r row.1) :=
  decidable_of_iff (∀ row ∈ rows, (∃ c ∈ covered, c = (r, row.1)) ∨ Reaches schema reached r row.1)
    (by simp only [exists_eq_right])

instance (schema : Schema) (store : Store) (root : Id × Id) :
    Decidable (CoversTell schema store root) :=
  have (a : Arrival) (τ : TypeDef) : Decidable (∀ r ∈ coveredRelIds τ a.2,
      ∀ row ∈ store.view.scanEdges a.1.2 r, (r, row.1) ∈ coveredTargets τ a.2 ∨
        Reaches schema (cascade schema store.view root) r row.1) :=
    @List.decidableBAll _ _ (fun r => decidableTold schema _ _ r _) _
  inferInstanceAs (Decidable (∀ a ∈ cascade schema store.view root, _))

instance (schema : Schema) (store : Store) (root : Id × Id) :
    Decidable (OnlyForward schema store root) :=
  have (a : Arrival) : Decidable (∀ e ∈ store.edges, a.1.2 = e.1 ∨ a.1.2 = e.2.2 →
      ∃ τ ∈ schema.types, ∃ rel ∈ τ.forwardRelations, rel.relId = e.2.1) := List.decidableBAll _ _
  inferInstanceAs (Decidable (∀ a ∈ cascade schema store.view root, _))

instance (schema : Schema) (store : Store) (root : Id × Id) :
    Decidable (CleanCascade schema store root) :=
  decidable_of_iff (CoversTell schema store root ∧ OnlyForward schema store root)
    ⟨fun h => ⟨h.1, h.2⟩, fun h => ⟨h.covers, h.forward⟩⟩

section

variable {schema : Schema} {store : Store} {versions : Versions} {root : Id × Id} {walk : Walk}
  {keys : List Key}

theorem Mirrored.remove (h : Mirrored store) (hpair : Paired keys) :
    Mirrored (store.apply (keys.map fun key => (key, none))) := by
  intro s r t
  rw [Store.has_apply_tombstones, Store.has_apply_tombstones, hpair s r t, h s r t]

theorem Integrity.remove (h : Integrity schema store) (hpair : Paired keys)
    (hjoins : ∀ s r t, store.Has (.edge s r t) → .edge s r t ∉ keys →
      Joins schema (fun k => k ∉ keys ∧ store.Has k) s r t) :
    Integrity schema (store.apply (keys.map fun key => (key, none))) where
  mirror := Mirrored.remove h.mirror hpair
  joins := by
    intro s r t hedge
    rw [Store.has_apply_tombstones] at hedge
    exact (hjoins s r t hedge.2 hedge.1).mono fun _ _ hobj =>
      Store.has_apply_tombstones.mpr hobj

theorem Integrity.unlink (h : Integrity schema store) {sourceType fieldName : String}
    {sourceId targetId : Id} {writes : Writes Key Payload}
    (hok : unlink schema sourceType sourceId fieldName targetId = .ok writes) :
    Integrity schema (store.apply writes) := by
  obtain ⟨t, f, -, -, rfl⟩ := unlink_eq_ok hok
  apply h.remove (.edgeTombstones _ _ _)
  intro s r t hedge _
  exact (h.joins s r t hedge).mono fun typeId id hobj => ⟨by simp [edgeTombstones], hobj⟩

theorem deleteInner_cascade
    (h : deleteInner schema store.view versions (deleteFuel schema store.view) true
      { deleted := [], arena := [] } (root, none) = .ok walk) :
    (∀ k, k ∈ walk.arena ↔ ∃ a ∈ cascade schema store.view root,
      k ∈ tombstonesOf schema store.view versions a) ∧
    (∀ a ∈ cascade schema store.view root,
      (schema.typeById a.1.1).isSome ∧ ¬ Denied schema store.view a.1) ∧
    ∃ data, store.view.get (.object root.1 root.2) = .ok (some data) := by
  obtain ⟨new, hsearch, henters⟩ := deleteInner_search
    (show ({ deleted := [], arena := [] } : Walk).deleted = visited [] from rfl) h
  have hcascade : cascade schema store.view root = new := by
    rw [cascade, hsearch]
    rfl
  rw [hcascade]
  obtain ⟨t, mid, -, -, hread, -⟩ := deleteInner_succ h (by exact nofun)
  exact ⟨fun k => by simpa using henters.arena k, henters.known, hread rfl⟩

theorem deleteInner_paired
    (h : deleteInner schema store.view versions (deleteFuel schema store.view) true
      { deleted := [], arena := [] } (root, none) = .ok walk) : Paired walk.arena := by
  intro s r t
  rw [(deleteInner_cascade h).1, (deleteInner_cascade h).1]
  exact exists_congr fun a => and_congr_right fun _ => paired_tombstonesOf s r t

theorem CleanCascade.forward_of_touched (h : CleanCascade schema store root)
    {τ : TypeDef} {f : FieldDef} {rel : RelationType} (hτ : τ ∈ schema.types) (hf : f ∈ τ.fields)
    (hrel : f.relation? = some rel) {a : Arrival} (ha : a ∈ cascade schema store.view root)
    {s t : Id} (hedge : store.Has (.edge s f.relId t)) (htouch : a.1.2 = s ∨ a.1.2 = t) :
    f.forward? = some rel := by
  obtain ⟨τ', hτ', fwd, hfwd, hid⟩ :=
    h.forward a ha (s, f.relId, t) (Store.mem_edges.mpr hedge) htouch
  obtain ⟨g, hg, grel, hgrel, rfl⟩ := TypeDef.mem_forwardRelations.mp hfwd
  obtain ⟨-, rfl⟩ := Schema.eq_of_relId hτ' hτ hg hf
    (by rw [FieldDef.relation_of_forward hgrel]; rfl) (by rw [hrel]; rfl) hid
  rw [FieldDef.relation_of_forward hgrel] at hrel
  rw [hgrel, hrel]

theorem Integrity.deleteInner (h : Integrity schema store) (hclean : CleanCascade schema store root)
    (hok : deleteInner schema store.view versions (deleteFuel schema store.view) true
      { deleted := [], arena := [] } (root, none) = .ok walk) :
    Integrity schema (store.apply (walk.arena.map fun key => (key, none))) := by
  obtain ⟨harena, hknown, -⟩ := deleteInner_cascade hok
  have hgone : ∀ a ∈ cascade schema store.view root, ∀ k,
      k ∈ tombstonesOf schema store.view versions a → k ∈ walk.arena :=
    fun a ha k hk => (harena k).mpr ⟨a, ha, hk⟩
  -- an edge to a reached object goes with the object's inbound edges
  have hinbound : ∀ s r t, store.Has (.edge s r t) →
      Reaches schema (cascade schema store.view root) r t → .edge s r t ∈ walk.arena := by
    rintro s r t hedge ⟨a, ha, rfl, inc, hinc, rfl⟩
    obtain ⟨τ, hτ⟩ := Option.isSome_iff_exists.mp (hknown a ha).1
    exact hgone a ha _ (inbound_tombstoned hτ hinc ((h.mirror _ _ _).mp hedge))
  apply h.remove (deleteInner_paired hok)
  intro s r t hedge hkept
  obtain ⟨τ, hτ, f, hf, rel, hrel, rfl, target, htarget, hs, ht⟩ := h.joins s r t hedge
  refine ⟨τ, hτ, f, hf, rel, hrel, rfl, target, htarget, ⟨?_, hs⟩, ⟨?_, ht⟩⟩
  · -- were the source reached, its edge would be scanned, named by the cover, or inbound
    intro hmem
    obtain ⟨a, ha, hkey⟩ := (harena _).mp hmem
    have hroot := eq_of_object_mem hkey
    have htype : schema.typeById a.1.1 = some τ := by rw [hroot, Schema.typeById_typeId hτ]
    have hid : a.1.2 = s := by rw [hroot]
    have hforward := hclean.forward_of_touched hτ hf hrel ha hedge (.inl hid)
    have hfwd := TypeDef.mem_forwardRelations.mpr ⟨f, hf, rel, hforward, rfl⟩
    subst hid
    by_cases hscan : f.relId ∈ coveredRelIds τ a.2
    · obtain ⟨value, hrow⟩ := Store.exists_mem_scanEdges hedge
      rcases hclean.covers a ha τ htype _ hscan _ hrow with hnamed | hreach
      · exact hkept (hgone a ha _ (covered_tombstoned htype hnamed))
      · exact hkept (hinbound _ _ _ hedge hreach)
    · exact hkept (hgone a ha _ (outbound_tombstoned htype hfwd hscan hedge))
  · intro hmem
    obtain ⟨a, ha, hkey⟩ := (harena _).mp hmem
    have hroot := eq_of_object_mem hkey
    have hid : a.1.2 = t := by rw [hroot]
    have hforward := hclean.forward_of_touched hτ hf hrel ha hedge (.inr hid)
    refine hkept (hinbound _ _ _ hedge ⟨a, ha, hid, _, Schema.mem_incomingRelations.mpr
      ⟨τ, hτ, f, hf, rel, hforward, ?_, rfl⟩, rfl⟩)
    rw [hroot]
    exact htarget

end

structure Database where
  store : Store
  counters : Counters

namespace Database

def new : Database := { store := .empty, counters := { nextObjectId := 1, versions := fun _ _ => 0 } }

inductive Call
  | create (typeName : String) (fields : FieldMap)
  | createBatch (typeName : String) (rows : List FieldMap)
  | update (typeName : String) (objectId : Id) (updates : FieldMap)
  | delete (typeName : String) (objectId : Id)
  | link (sourceType : String) (sourceId : Id) (fieldName : String) (targetId : Id)
      (edgeFields : Option FieldMap)
  | unlink (sourceType : String) (sourceId : Id) (fieldName : String) (targetId : Id)
  | refreshCovers (typeId objectId : Id)

def stage (schema : Schema) (view : View) (c : Counters) : Call → Staged
  | .create typeName fields => Engine.create schema view c typeName fields
  | .createBatch typeName rows => Engine.createBatch schema view c typeName rows
  | .update typeName objectId updates => Engine.update schema view c typeName objectId updates
  | .delete typeName objectId => Engine.delete schema view c typeName objectId
  | .link sourceType sourceId fieldName targetId edgeFields =>
    (Engine.link schema view c.versions sourceType sourceId fieldName targetId edgeFields, c)
  | .unlink sourceType sourceId fieldName targetId =>
    (Engine.unlink schema sourceType sourceId fieldName targetId, c)
  | .refreshCovers typeId objectId =>
    (refreshCoversForTarget schema view c.versions typeId objectId, c)

/-- A call that runs alone: its commit meets no conflict, and an error commits nothing. -/
def step (schema : Schema) (db : Database) (call : Call) : Database :=
  match stage schema db.store.view db.counters call with
  | (.ok writes, c) => { store := db.store.apply writes, counters := c }
  | (.error _, c) => { db with counters := c }

theorem step_cases (schema : Schema) (db : Database) (call : Call) :
    (∃ e c, stage schema db.store.view db.counters call = (.error e, c) ∧
      (db.step schema call).store = db.store) ∨
      ∃ writes c, stage schema db.store.view db.counters call = (.ok writes, c) ∧
        (db.step schema call).store = db.store.apply writes := by
  rw [step]
  rcases stage schema db.store.view db.counters call with ⟨e | writes, c⟩
  · exact .inl ⟨e, c, rfl, rfl⟩
  · exact .inr ⟨writes, c, rfl, rfl⟩

theorem stage_cases {schema : Schema} {store : Store} {c c' : Counters} {call : Call}
    {writes : Writes Key Payload} (h : stage schema store.view c call = (.ok writes, c')) :
    Adds schema store writes writes ∨
      (∃ typeName objectId, call = .delete typeName objectId ∧
        Engine.delete schema store.view c typeName objectId = (.ok writes, c')) ∨
      ∃ sourceType sourceId fieldName targetId,
        call = .unlink sourceType sourceId fieldName targetId ∧
          Engine.unlink schema sourceType sourceId fieldName targetId = .ok writes := by
  cases call with
  | create typeName fields => exact .inl (create_adds h)
  | createBatch typeName rows => exact .inl (createBatch_adds h)
  | update typeName objectId updates => exact .inl (update_adds h)
  | delete typeName objectId => exact .inr (.inl ⟨_, _, rfl, h⟩)
  | link sourceType sourceId fieldName targetId edgeFields =>
    exact .inl (link_adds (Prod.mk.inj h).1)
  | unlink sourceType sourceId fieldName targetId =>
    exact .inr (.inr ⟨_, _, _, _, rfl, (Prod.mk.inj h).1⟩)
  | refreshCovers typeId objectId => exact .inl (refreshCovers_adds (Prod.mk.inj h).1)

end Database

/-- The condition on a delete: if the object is there and nothing reached denies, the cascade
misses no edge. -/
def CleanDelete (schema : Schema) (store : Store) (root : Id × Id) : Prop :=
  store.Has (.object root.1 root.2) →
    (∀ a ∈ cascade schema store.view root, ¬ Denied schema store.view a.1) →
    CleanCascade schema store root

instance (schema : Schema) (store : Store) (root : Id × Id) :
    Decidable (CleanDelete schema store root) :=
  inferInstanceAs (Decidable (_ → _ → _))

def CleanStep (schema : Schema) (db : Database) : Database.Call → Prop
  | .delete typeName objectId => ∀ typeId ∈ schema.typeId typeName,
    CleanDelete schema db.store (typeId, objectId)
  | _ => True

instance (schema : Schema) (db : Database) : ∀ call, Decidable (CleanStep schema db call)
  | .delete _ objectId =>
    Option.decidableForallMem (p := fun typeId => CleanDelete schema db.store (typeId, objectId)) _
  | .create _ _ => .isTrue trivial
  | .createBatch _ _ => .isTrue trivial
  | .update _ _ _ => .isTrue trivial
  | .link _ _ _ _ _ => .isTrue trivial
  | .unlink _ _ _ _ => .isTrue trivial
  | .refreshCovers _ _ => .isTrue trivial

variable {schema : Schema} {store : Store}

theorem Integrity.empty : Integrity schema .empty where
  mirror := fun _ _ _ => ⟨nofun, nofun⟩
  joins := nofun

theorem Integrity.delete (h : Integrity schema store) {c c' : Counters} {typeName : String}
    {objectId : Id} {writes : Writes Key Payload}
    (hclean : ∀ typeId ∈ schema.typeId typeName, CleanDelete schema store (typeId, objectId))
    (hok : Engine.delete schema store.view c typeName objectId = (.ok writes, c')) :
    Integrity schema (store.apply writes) := by
  obtain ⟨typeId, ht, walk, hwalk, rfl⟩ := delete_eq_ok hok
  obtain ⟨-, hknown, data, hdata⟩ := deleteInner_cascade hwalk
  apply h.deleteInner (hclean typeId ht ?_ fun a ha => (hknown a ha).2) hwalk
  rw [Store.Has, Except.ok.inj hdata]
  rfl

theorem Integrity.step {db : Database} {call : Database.Call} (h : Integrity schema db.store)
    (hclean : CleanStep schema db call) : Integrity schema (db.step schema call).store := by
  rcases Database.step_cases schema db call with ⟨-, -, -, heq⟩ | ⟨writes, c, hstage, heq⟩
  · rw [heq]
    exact h
  · rw [heq]
    rcases Database.stage_cases hstage with hadds | ⟨_, _, rfl, hdel⟩ | ⟨_, _, _, _, rfl, hunlink⟩
    · exact h.add hadds
    · exact h.delete hclean hdel
    · exact h.unlink hunlink

theorem delete_ne_outOfFuel (schema : Schema) (store : Store) (c : Counters) (typeName : String)
    (objectId : Id) :
    (Engine.delete schema store.view c typeName objectId).1 ≠ .error .outOfFuel := by
  rw [Engine.delete]
  cases schema.typeId typeName with
  | none =>
    intro h
    cases h
  | some typeId =>
    have hids : ∀ n r, ∀ row ∈ store.view.scanReverseEdges n r,
        row.1 ∈ (store.entries.filterMap fun e => e.1.reverseSource).toFinset := by
      rintro n r ⟨s, value⟩ hrow
      rw [Store.mem_scanReverseEdges, SortedMap.lookup_eq_some] at hrow
      exact mem_toFinset.mpr (mem_filterMap.mpr ⟨_, hrow, rfl⟩)
    have hcard : (store.entries.filterMap fun e => e.1.reverseSource).toFinset.card ≤
        store.view.size := (toFinset_card_le _).trans (length_filterMap_le _ _)
    have hget : ∀ key, store.view.get key ≠ .error .outOfFuel := by
      intro key h
      cases h
    have hfuel := @deleteInner_ne_outOfFuel schema store.view c.versions true []
      { deleted := [], arena := [] } ((typeId, objectId), none) _ hget rfl
      (isSome_search_deleteFuel hcard hids (typeId, objectId))
    dsimp only
    cases hwalk : Engine.deleteInner schema store.view c.versions (deleteFuel schema store.view)
      true { deleted := [], arena := [] } ((typeId, objectId), none) with
    | ok walk =>
      intro h
      cases h
    | error e =>
      intro h
      cases h
      exact hfuel hwalk

/-- In every run of object writes whose deletes miss no edge, every stored edge joins two
stored objects and has its mirror. -/
theorem referential_integrity (schema : Schema) (calls : List Database.Call)
    (hclean : Run.Along (Database.step schema) (CleanStep schema) Database.new calls) :
    ReferentialIntegrity (Run.exec (Database.step schema) Database.new calls).store :=
  (Run.exec_invariant (I := fun db : Database => Integrity schema db.store)
    (fun _ _ h hstep => h.step hstep) Integrity.empty hclean).referential

def ownersSchema : Schema where
  types :=
    [{ name := "User", typeId := 1, fields := [] },
     { name := "Doc"
       typeId := 2
       fields :=
        [{ name := "owners", fieldType := .relation ⟨"User", true, []⟩,
           directives := [.onDelete .cascade], fieldId := 1, relId := 1 }] }]

def ownedDoc : List Database.Call :=
  [.create "User" ∅, .create "User" ∅, .create "Doc" (AList.singleton "owners" (.u64 1)),
    .link "Doc" 3 "owners" 2 none, .unlink "Doc" 3 "owners" 2, .delete "User" 1]

theorem referential_integrity_ownedDoc :
    ReferentialIntegrity (Run.exec (Database.step ownersSchema) Database.new ownedDoc).store :=
  referential_integrity ownersSchema ownedDoc (by decide +kernel)

def sharedDoc : List Database.Call :=
  [.create "User" ∅, .create "User" ∅, .create "Doc" (AList.singleton "owners" (.u64 1)),
    .link "Doc" 3 "owners" 2 none, .delete "User" 1]

/-- The edge to the other owner stays behind. -/
theorem cascade_leaves_edge : ¬ ∀ (schema : Schema) (calls : List Database.Call),
    ReferentialIntegrity (Run.exec (Database.step schema) Database.new calls).store := by
  intro hall
  have hedge : (Run.exec (Database.step ownersSchema) Database.new sharedDoc).store.Has
      (.edge 3 1 2) := by decide +kernel
  have hdead : ¬ Alive (Run.exec (Database.step ownersSchema) Database.new sharedDoc).store 3 := by
    decide +kernel
  exact hdead ((hall ownersSchema sharedDoc).edge 3 1 2 hedge).1

end RhypeDb.Engine
