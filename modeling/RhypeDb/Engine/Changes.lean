import RhypeDb.Engine.DeleteOutcome

/-! The operations that publish change events, and the objects that each publishes one of: just
those whose rows it has staged a write of. -/

namespace RhypeDb.Engine

open DepthFirst List Storage

inductive Request
  | create (typeName : String) (fields : FieldMap)
  | createBatch (typeName : String) (rows : List FieldMap) (fits : rows.length < 2 ^ 64)
  | update (typeName : String) (objectId : Id) (updates : FieldMap)
  | delete (typeName : String) (objectId : Id)

def Request.call : Request → Database.Call
  | .create typeName fields => .create typeName fields
  | .createBatch typeName rows _ => .createBatch typeName rows
  | .update typeName objectId updates => .update typeName objectId updates
  | .delete typeName objectId => .delete typeName objectId

def Request.isDelete : Request → Bool
  | .delete _ _ => true
  | _ => false

/-- The objects of the events, those of a delete as its walk has entered them. -/
def Request.objects (schema : Schema) (view : View) (c : Counters) : Request → List (Id × Id)
  | .create typeName _ =>
    (schema.getType typeName).toList.map fun t => (t.typeId, c.nextObjectId)
  | .createBatch typeName rows _ =>
    (schema.getType typeName).toList.flatMap fun t =>
      (drawnIds c.nextObjectId rows.length).map fun id => (t.typeId, id)
  | .update typeName objectId _ =>
    (schema.getType typeName).toList.map fun t => (t.typeId, objectId)
  | .delete typeName objectId =>
    match schema.typeId typeName with
    | none => []
    | some typeId =>
      match deleteInner schema view c.versions (deleteFuel schema view) true
        { deleted := [], arena := [] } ((typeId, objectId), none) with
      | .ok walk => walk.deleted
      | .error _ => []

def WritesRow (writes : Writes Key Payload) (n : Id × Id) : Prop :=
  ∃ w ∈ writes, w.1 = .object n.1 n.2

instance (writes : Writes Key Payload) (n : Id × Id) : Decidable (WritesRow writes n) :=
  inferInstanceAs (Decidable (∃ w ∈ writes, _))

variable {schema : Schema} {store : Store} {c c' : Counters} {writes : Writes Key Payload}

theorem nodup_drawnIds_of_lt {next : Id} {n : Nat} (h : n < 2 ^ 64) : (drawnIds next n).Nodup := by
  refine List.Nodup.map_on (fun i hi j hj heq => ?_) nodup_range
  rw [mem_range] at hi hj
  have hsame : UInt64.ofNat i = UInt64.ofNat j := (UInt64.add_right_inj next).mp heq
  have hnat := congrArg UInt64.toNat hsame
  rw [UInt64.toNat_ofNat_of_lt' (hi.trans h), UInt64.toNat_ofNat_of_lt' (hj.trans h)] at hnat
  exact hnat

theorem deleted_of_delete {typeName : String} {objectId typeId : Id}
    (htype : schema.typeId typeName = some typeId)
    (h : delete schema store.view c typeName objectId = (.ok writes, c')) :
    ∃ walk, (deleteInner schema store.view c.versions (deleteFuel schema store.view) true
        { deleted := [], arena := [] } ((typeId, objectId), none) = .ok walk) ∧
      walk.deleted.Nodup ∧
      ∀ n, n ∈ walk.deleted ↔ CascadesTo schema store (typeId, objectId) n := by
  obtain ⟨typeId', htype', walk, hwalk, -⟩ := delete_eq_ok h
  cases htype.symm.trans htype'
  obtain ⟨new, hsearch, henters⟩ := deleteInner_search
    (show ({ deleted := [], arena := [] } : Walk).deleted = visited [] from rfl) hwalk
  have hdeleted : walk.deleted = visited new := henters.deleted
  have hcascade : cascade schema store.view (typeId, objectId) = new := by
    unfold cascade
    rw [hsearch]
    rfl
  refine ⟨walk, hwalk, ?_, fun n => ?_⟩
  · rw [hdeleted]
    exact nodup_search hsearch nodup_nil
  · rw [hdeleted]
    constructor
    · intro hn
      obtain ⟨a, ha, rfl⟩ := mem_map.mp hn
      have hstart : CascadesTo schema store (typeId, objectId) (typeId, objectId) := .refl
      exact forall_search (P := fun b : Arrival => CascadesTo schema store (typeId, objectId) b.1)
        (fun b hb child hchild => hb.tail ⟨child, hchild, rfl⟩) hstart (forall_mem_nil _)
        hsearch a ha
    · intro hn
      rw [← hcascade]
      exact mem_visited_cascade hwalk hn

theorem objects_spec {request : Request}
    (h : Database.stage schema store.view c request.call = (.ok writes, c')) :
    (request.objects schema store.view c).Nodup ∧
      ∀ n, n ∈ request.objects schema store.view c ↔ WritesRow writes n := by
  cases request with
  | create typeName fields =>
    obtain ⟨t, ht, scalars, hputs⟩ := create_inserts h
    have hobjects : (Request.create typeName fields).objects schema store.view c =
        [(t.typeId, c.nextObjectId)] := by
      simp only [Request.objects, ht, Option.toList_some, map_singleton]
    rw [hobjects]
    refine ⟨nodup_singleton _, fun n => ?_⟩
    rw [mem_singleton]
    constructor
    · rintro rfl
      exact ⟨_, hputs.put_object _ (mem_singleton_self _), rfl⟩
    · rintro ⟨w, hw, heq⟩
      obtain ⟨htype, fields', hmade, -⟩ := hputs.object w hw n.1 n.2 heq
      rw [mem_singleton] at hmade
      exact Prod.ext htype (Prod.mk.inj hmade).1
  | createBatch typeName rows fits =>
    obtain ⟨rfl, rfl⟩ | ⟨t, ht, made, hins, hids⟩ := createBatch_inserts h
    · have hnone : (Request.createBatch typeName [] fits).objects schema store.view c = [] := by
        exact flatMap_eq_nil_iff.mpr fun t _ => rfl
      rw [hnone]
      refine ⟨nodup_nil, fun n => iff_of_false not_mem_nil ?_⟩
      rintro ⟨w, hw, -⟩
      cases hw
    · have hobjects : (Request.createBatch typeName rows fits).objects schema store.view c =
          (drawnIds c.nextObjectId rows.length).map fun id => (t.typeId, id) := by
        simp only [Request.objects, ht, Option.toList_some, flatMap_singleton]
      rw [hobjects]
      constructor
      · exact (nodup_drawnIds_of_lt fits).map fun i j heq => (Prod.mk.inj heq).2
      · intro n
        rw [mem_map, ← hids]
        constructor
        · rintro ⟨id, hid, rfl⟩
          obtain ⟨m, hm, rfl⟩ := mem_map.mp hid
          exact ⟨_, hins.put_object m hm, rfl⟩
        · rintro ⟨w, hw, heq⟩
          obtain ⟨htype, fields', hmade, -⟩ := hins.object w hw n.1 n.2 heq
          exact ⟨n.2, mem_map_of_mem hmade, Prod.ext htype.symm rfl⟩
  | update typeName objectId updates =>
    obtain ⟨t, ht, -, hwritten⟩ := update_objects h
    have hobjects : (Request.update typeName objectId updates).objects schema store.view c =
        [(t.typeId, objectId)] := by
      simp only [Request.objects, ht, Option.toList_some, map_singleton]
    rw [hobjects]
    refine ⟨nodup_singleton _, fun n => ?_⟩
    rw [mem_singleton]
    constructor
    · rintro rfl
      obtain ⟨t', ht', -, existing, -, unique, -, rfl⟩ := update_eq_ok h
      cases ht.symm.trans ht'
      have hput : (.object t.typeId objectId, some (serializeFields
          (existing.deserializeFields.merge updates))) ∈ updateWrites schema store.view c.versions t
          objectId existing.deserializeFields updates :=
        mem_append_right _ (mem_cons_of_mem _ (mem_singleton_self _))
      exact ⟨_, mem_append_right _ hput, rfl⟩
    · rintro ⟨w, hw, heq⟩
      exact (hwritten w hw n.1 n.2 heq).1
  | delete typeName objectId =>
    obtain ⟨t, ht, -, hnone, -, -⟩ := delete_objects h
    have htype : schema.typeId typeName = some t.typeId := by
      unfold Schema.typeId
      rw [ht]
      rfl
    obtain ⟨walk, hwalk, hnodup, hreach⟩ := deleted_of_delete htype h
    obtain ⟨-, hwrites⟩ := delete_removes h htype
    have hobjects : (Request.delete typeName objectId).objects schema store.view c =
        walk.deleted := by
      simp only [Request.objects, htype, hwalk]
    rw [hobjects]
    refine ⟨hnodup, fun n => ?_⟩
    rw [hreach, ← hwrites]
    constructor
    · exact fun hw => ⟨_, hw, rfl⟩
    · rintro ⟨w, hw, heq⟩
      have hw' : w = (.object n.1 n.2, none) := Prod.ext heq (hnone w hw)
      exact hw' ▸ hw

end RhypeDb.Engine
