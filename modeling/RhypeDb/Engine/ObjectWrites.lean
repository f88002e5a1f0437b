import RhypeDb.Engine.Settled

/-! Which stored objects a call of the engine changes: a create puts those it draws ids for, an
update rewrites one that is there, and a delete removes what the cascading relations lead to from
one that is there. -/

namespace RhypeDb.Engine

open DepthFirst List Storage

def Differs (store store' : Store) (n : Id × Id) : Prop :=
  store'.lookup (.object n.1 n.2) ≠ store.lookup (.object n.1 n.2)

instance (store store' : Store) (n : Id × Id) : Decidable (Differs store store' n) :=
  inferInstanceAs (Decidable (_ ≠ _))

def CascadesTo (schema : Schema) (store : Store) (root n : Id × Id) : Prop :=
  Relation.ReflTransGen (fun a b => ∃ c ∈ cascadeChildren schema store.view a, c.1 = b) root n

section

variable {store store' store'' : Store} {writes : Writes Key Payload} {n : Id × Id}

theorem not_differs_self : ¬ Differs store store n := fun h => h rfl

theorem Differs.split (h : Differs store store'' n) :
    Differs store store' n ∨ Differs store' store'' n := by
  by_cases hsame : store'.lookup (.object n.1 n.2) = store.lookup (.object n.1 n.2)
  · right
    rw [Differs, hsame]
    exact h
  · exact .inl hsame

theorem Differs.exists_write (h : Differs store (store.apply writes) n) :
    ∃ w ∈ writes, w.1 = .object n.1 n.2 := by
  unfold Differs at h
  rw [Store.lookup_apply] at h
  cases hlast : lastWrite writes (.object n.1 n.2) with
  | none =>
    rw [hlast] at h
    exact absurd rfl h
  | some value => exact ⟨_, lastWrite_mem hlast, rfl⟩

theorem not_differs_of_not_record (hw : ∀ w ∈ writes, w.1.isRecord = false) :
    ¬ Differs store (store.apply writes) n := by
  intro h
  obtain ⟨w, hmem, heq⟩ := h.exists_write
  have hrecord := hw w hmem
  rw [heq] at hrecord
  cases hrecord

variable {k : Key}

theorem has_of_removal (hnone : ∀ w ∈ writes, w.2 = none) (h : (store.apply writes).Has k) :
    k ∉ writes.map Prod.fst ∧ store.Has k := by
  rw [Store.has_apply] at h
  rcases h with ⟨value, hvalue⟩ | h
  · cases hnone _ (lastWrite_mem hvalue)
  · exact h

end

variable {schema : Schema} {store : Store} {c c' : Counters} {writes : Writes Key Payload}
  {n : Id × Id} {typeName : String} {objectId : Id}

theorem create_differs {fields : FieldMap}
    (h : create schema store.view c typeName fields = (.ok writes, c'))
    (hdiff : Differs store (store.apply writes) n) :
    ∃ t, schema.getType typeName = some t ∧ n = (t.typeId, c.nextObjectId) := by
  obtain ⟨t, ht, scalars, hins⟩ := create_inserts h
  obtain ⟨w, hw, heq⟩ := hdiff.exists_write
  obtain ⟨htype, fields', hmade, -⟩ := hins.object w hw n.1 n.2 heq
  rw [mem_singleton] at hmade
  exact ⟨t, ht, Prod.ext htype (Prod.mk.inj hmade).1⟩

theorem createBatch_differs {rows : List FieldMap}
    (h : createBatch schema store.view c typeName rows = (.ok writes, c'))
    (hdiff : Differs store (store.apply writes) n) :
    ∃ t, schema.getType typeName = some t ∧ n.1 = t.typeId ∧
      n.2 ∈ drawnIds c.nextObjectId rows.length := by
  obtain ⟨w, hw, heq⟩ := hdiff.exists_write
  rcases createBatch_inserts h with ⟨-, rfl⟩ | ⟨t, ht, made, hins, hids⟩
  · cases hw
  · obtain ⟨htype, fields, hmade, -⟩ := hins.object w hw n.1 n.2 heq
    refine ⟨t, ht, htype, ?_⟩
    rw [← hids]
    exact mem_map_of_mem hmade

theorem update_objects {updates : FieldMap}
    (h : update schema store.view c typeName objectId updates = (.ok writes, c')) :
    ∃ t, schema.getType typeName = some t ∧ store.Has (.object t.typeId objectId) ∧
      ∀ w ∈ writes, ∀ a id, w.1 = .object a id →
        (a, id) = (t.typeId, objectId) ∧ w.2.isSome := by
  obtain ⟨t, ht, -, existing, hget, unique, hunique, rfl⟩ := update_eq_ok h
  have hhas : store.Has (.object t.typeId objectId) := by
    rw [Store.Has, Except.ok.inj hget]
    rfl
  refine ⟨t, ht, hhas, ?_⟩
  intro w hw a id heq
  rcases mem_append.mp hw with hw | hw
  · have hkey := updateUniques_keys hunique w hw
    rw [heq] at hkey
    cases hkey
  · rcases record_of_mem_updateWrites hw (by rw [heq]; rfl) with rfl | ⟨ifd, -, front, howned⟩
    · cases heq
      exact ⟨rfl, rfl⟩
    · cases heq.symm.trans howned

theorem delete_objects (h : delete schema store.view c typeName objectId = (.ok writes, c')) :
    ∃ t, schema.getType typeName = some t ∧ store.Has (.object t.typeId objectId) ∧
      (∀ w ∈ writes, w.2 = none) ∧ (.object t.typeId objectId, none) ∈ writes ∧
      ∀ w ∈ writes, ∀ a id, w.1 = .object a id →
        CascadesTo schema store (t.typeId, objectId) (a, id) := by
  obtain ⟨typeId, htypeId, walk, hwalk, rfl⟩ := delete_eq_ok h
  obtain ⟨t, ht, rfl⟩ := Option.map_eq_some_iff.mp htypeId
  obtain ⟨new, hsearch, henters⟩ := deleteInner_search
    (show ({ deleted := [], arena := [] } : Walk).deleted = visited [] from rfl) hwalk
  obtain ⟨-, -, data, hdata⟩ := deleteInner_cascade hwalk
  have hhas : store.Has (.object t.typeId objectId) := by
    rw [Store.Has, Except.ok.inj hdata]
    rfl
  have hstart : CascadesTo schema store (t.typeId, objectId) (t.typeId, objectId) := .refl
  have hreach : ∀ b ∈ new, CascadesTo schema store (t.typeId, objectId) b.1 :=
    forall_search (P := fun b : Arrival => CascadesTo schema store (t.typeId, objectId) b.1)
      (fun b hb child hchild => hb.tail ⟨child, hchild, rfl⟩) hstart (forall_mem_nil _) hsearch
  refine ⟨t, ht, hhas, ?_, ?_, ?_⟩
  · intro w hw
    obtain ⟨key, -, rfl⟩ := mem_map.mp hw
    rfl
  · -- the root is the first that the search enters
    have hroot : ((t.typeId, objectId), none) ∈ new := mem_search_nil hsearch
    obtain ⟨u, hu⟩ := Option.isSome_iff_exists.mp (henters.known _ hroot).1
    refine mem_map.mpr ⟨_, (henters.arena _).mpr (.inr ⟨_, hroot, ?_⟩), rfl⟩
    exact object_mem_tombstonesOf (a := ((t.typeId, objectId), none)) hu
  · intro w hw a id heq
    obtain ⟨key, hkey, rfl⟩ := mem_map.mp hw
    rw [henters.arena] at hkey
    obtain ⟨b, hb, hkey⟩ := hkey.resolve_left (not_mem_nil)
    have hrecord : key.isRecord := by
      rw [show key = .object a id from heq]
      rfl
    rcases record_of_mem_tombstonesOf hkey hrecord with rfl | ⟨u, -, d, -, ifd, -, hentry⟩
    · cases heq
      exact hreach b hb
    · rw [show key = .object a id from heq] at hentry
      obtain ⟨front, howned⟩ := ownedBy_of_indexKeyOf hentry
      cases howned

theorem cascades_of_removal (hnone : ∀ w ∈ writes, w.2 = none) {a b : Id × Id}
    (h : ∃ child ∈ cascadeChildren schema (store.apply writes).view a, child.1 = b) :
    ∃ child ∈ cascadeChildren schema store.view a, child.1 = b := by
  obtain ⟨child, hchild, rfl⟩ := h
  obtain ⟨inc, hinc, hrows⟩ := mem_flatMap.mp hchild
  unfold cascadeRows at hrows
  split_ifs at hrows with hpolicy
  · obtain ⟨row, hrow, rfl⟩ := mem_map.mp hrows
    have hhas : (store.apply writes).Has (.reverseEdge a.2 inc.relId row.1) := by
      rw [Store.Has, Store.mem_scanReverseEdges.mp hrow]
      rfl
    obtain ⟨value, hvalue⟩ := Store.exists_mem_scanReverseEdges (has_of_removal hnone hhas).2
    refine ⟨((inc.sourceTypeId, row.1), some (inc.relId, value)), ?_, rfl⟩
    apply mem_flatMap.mpr ⟨inc, hinc, _⟩
    unfold cascadeRows
    rw [if_pos hpolicy]
    exact mem_map.mpr ⟨(row.1, value), hvalue, rfl⟩
  · cases hrows

theorem CascadesTo.of_removal {root : Id × Id} (hnone : ∀ w ∈ writes, w.2 = none)
    (h : CascadesTo schema (store.apply writes) root n) : CascadesTo schema store root n :=
  Relation.ReflTransGen.mono (fun _ _ hchild => cascades_of_removal hnone hchild) _ _ h

end RhypeDb.Engine
