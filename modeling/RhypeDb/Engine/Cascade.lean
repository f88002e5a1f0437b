import RhypeDb.Basic.DepthFirst
import RhypeDb.Basic.Fallible
import RhypeDb.Engine.Database

/-! A delete as a depth-first search: it visits the objects that the cascading reverse edges
of the root lead to, each by the edge that reached it first, and tombstones for each what
`tombstonesOf` lists. -/

namespace RhypeDb.Engine

open DepthFirst Fallible List Storage

theorem require_eq_ok {α : Type} {e : EngineError} {o : Option α} {a : α} :
    require e o = .ok a ↔ o = some a := by
  cases o with
  | none => exact ⟨nofun, nofun⟩
  | some b => exact ⟨fun h => by cases h; rfl, fun h => by cases h; rfl⟩

variable (schema : Schema) (view : View) (versions : Versions)

/-- The sources a cascading relation brings in, with the values of their reverse edges. -/
def cascadeRows (objectId : Id) (inc : IncomingRelation) : List Arrival :=
  if inc.policy = .cascade then
    (view.scanReverseEdges objectId inc.relId).map fun row =>
      ((inc.sourceTypeId, row.1), some (inc.relId, row.2))
  else []

def cascadeChildren (n : Id × Id) : List Arrival :=
  (schema.incomingRelations n.1).flatMap (cascadeRows view n.2)

def storedEntries (t : TypeDef) (objectId : Id) : List Key :=
  match view.get (.object t.typeId objectId) with
  | .ok (some data) => entryTombstones t objectId data.deserializeFields
  | _ => []

def tombstonesOf (a : Arrival) : List Key :=
  match schema.typeById a.1.1 with
  | none => []
  | some t =>
    storedEntries view t a.1.2 ++ (schema.incomingRelations a.1.1).flatMap
      (inboundTombstones view a.1.2) ++ outboundTombstones view t a.1.2 a.2 ++
      ownTombstones versions a.1.1 a.1.2

def Denied (n : Id × Id) : Prop :=
  ∃ inc ∈ schema.incomingRelations n.1, inc.policy = .deny ∧
    view.scanReverseEdges n.2 inc.relId ≠ []

instance (n : Id × Id) : Decidable (Denied schema view n) :=
  inferInstanceAs (Decidable (∃ inc ∈ _, _))

variable {schema view versions}

variable {t : TypeDef} {objectId : Id} {acc : List Key × List Arrival}
  {incs : List IncomingRelation}

theorem stageInbound_ok
    {acc' : List Key × List Arrival} (h : stageInbound view t objectId incs acc = .ok acc') :
    acc'.1 = acc.1 ++ incs.flatMap (inboundTombstones view objectId) ∧
    acc'.2 = acc.2 ++ incs.flatMap (cascadeRows view objectId) ∧
    ∀ inc ∈ incs, inc.policy = .deny → view.scanReverseEdges objectId inc.relId = [] := by
  induction incs generalizing acc with
  | nil =>
    cases h
    simp
  | cons inc incs ih =>
    rw [stageInbound] at h
    simp only [List.isEmpty_iff] at h
    by_cases hrows : view.scanReverseEdges objectId inc.relId = []
    · rw [if_pos hrows] at h
      obtain ⟨harena, hqueue, hdeny⟩ := ih h
      simpa [harena, hqueue, inboundTombstones, cascadeRows, hrows] using hdeny
    · rw [if_neg hrows] at h
      cases hpolicy : inc.policy with
      | deny =>
        rw [hpolicy] at h
        cases h
      | remove =>
        rw [hpolicy] at h
        obtain ⟨harena, hqueue, hdeny⟩ := ih h
        simpa [harena, hqueue, cascadeRows, hpolicy] using hdeny
      | cascade =>
        rw [hpolicy] at h
        obtain ⟨harena, hqueue, hdeny⟩ := ih h
        simpa [harena, hqueue, cascadeRows, hpolicy] using hdeny

theorem entryTombstones_eq_nil (hu : t.hasUnique = false) (hi : t.hasIndexed = false)
    (objectId : Id) (fields : FieldMap) : entryTombstones t objectId fields = [] := by
  have hu' : ∀ f ∈ t.fields, f.isUnique = false := by simpa [TypeDef.hasUnique] using hu
  have hi' : t.indexedFields = [] := by
    rw [TypeDef.indexedFields, map_eq_nil_iff, filter_eq_nil_iff]
    simpa [TypeDef.hasIndexed] using hi
  rw [entryTombstones, hi', filterMap_nil, append_nil, filterMap_eq_nil_iff]
  intro f hf
  simp [hu' f hf]

variable {verify : Bool} {objectIds : Finset Id} {arrivals : List Arrival} {walk walk' : Walk}
  {a : Arrival} {fuel : Nat} {typeId : Id}

theorem readForDelete_ok {data : Option Payload} (hid : t.typeId = typeId)
    (h : readForDelete view t typeId objectId verify = .ok data) :
    (verify = true → ∃ d, view.get (.object typeId objectId) = .ok (some d)) ∧
    (data.map fun d => entryTombstones t objectId d.deserializeFields).getD [] =
      storedEntries view t objectId := by
  subst hid
  rw [readForDelete] at h
  by_cases hread : (t.hasUnique || t.hasIndexed || t.hasScalar || verify) = true
  · rw [if_pos hread, bind_eq_ok] at h
    obtain ⟨found, hget, h⟩ := h
    split_ifs at h with hmissing
    cases h
    constructor
    · rintro rfl
      cases data with
      | none => exact absurd rfl hmissing
      | some d => exact ⟨d, hget⟩
    · rw [storedEntries, hget]
      cases data <;> rfl
  · -- nothing was read, and the type has nothing to read
    rw [if_neg hread] at h
    cases h
    simp only [Bool.or_eq_true, not_or, Bool.not_eq_true] at hread
    refine ⟨fun hverify => absurd hverify (by simp [hread.2]), ?_⟩
    have hnil := entryTombstones_eq_nil hread.1.1.1 hread.1.1.2 objectId
    rw [storedEntries]
    split
    · rw [hnil]
      rfl
    · rfl

theorem deleteInner_succ (h : deleteInner schema view versions (fuel + 1) verify walk a = .ok walk')
    (hnew : a.1 ∉ walk.deleted) :
    ∃ t mid, schema.typeById a.1.1 = some t ∧ ¬ Denied schema view a.1 ∧
      (verify = true → ∃ data, view.get (.object a.1.1 a.1.2) = .ok (some data)) ∧
      (cascadeChildren schema view a.1).foldlM (deleteInner schema view versions fuel false)
        ⟨walk.deleted ++ [a.1], walk.arena ++ storedEntries view t a.1.2 ++
          (schema.incomingRelations a.1.1).flatMap (inboundTombstones view a.1.2)⟩ = .ok mid ∧
      walk' = ⟨mid.deleted, mid.arena ++ outboundTombstones view t a.1.2 a.2 ++
        ownTombstones versions a.1.1 a.1.2⟩ := by
  rw [deleteInner, if_neg hnew] at h
  simp only [bind_eq_ok, require_eq_ok] at h
  obtain ⟨t, ht, data, hdata, acc, hacc, mid, hmid, hwalk⟩ := h
  have hid := (Schema.mem_of_typeById ht).2
  obtain ⟨hread, hentries⟩ := readForDelete_ok hid hdata
  obtain ⟨harena, hqueue, hdeny⟩ := stageInbound_ok hacc
  refine ⟨t, mid, ht, ?_, hread, ?_, ?_⟩
  · rintro ⟨inc, hinc, hpolicy, hrows⟩
    exact hrows (hdeny inc hinc hpolicy)
  · rw [hentries] at harena
    rw [harena, hqueue] at hmid
    exact hmid
  · cases hwalk
    rfl

/-- The walk from `walk` to `walk'` enters the objects of `new` after those of `arrivals`. -/
structure Enters (schema : Schema) (view : View) (versions : Versions) (walk walk' : Walk)
    (arrivals new : List Arrival) : Prop where
  deleted : walk'.deleted = visited (arrivals ++ new)
  arena : ∀ k, k ∈ walk'.arena ↔
    k ∈ walk.arena ∨ ∃ a ∈ new, k ∈ tombstonesOf schema view versions a
  known : ∀ a ∈ new, (schema.typeById a.1.1).isSome ∧ ¬ Denied schema view a.1

namespace Enters

variable {mid : Walk} {new new' : List Arrival}

theorem refl (h : walk.deleted = visited arrivals) :
    Enters schema view versions walk walk arrivals [] :=
  ⟨by rw [append_nil, h], by simp, nofun⟩

theorem trans (h : Enters schema view versions walk mid arrivals new)
    (h' : Enters schema view versions mid walk' (arrivals ++ new) new') :
    Enters schema view versions walk walk' arrivals (new ++ new') where
  deleted := by rw [h'.deleted, append_assoc]
  arena := by
    intro k
    rw [h'.arena, h.arena, or_assoc]
    simp only [mem_append, or_and_right, exists_or]
  known := forall_mem_append.mpr ⟨h.known, h'.known⟩

theorem enter {t : TypeDef} (ht : schema.typeById a.1.1 = some t) (hdeny : ¬ Denied schema view a.1)
    (h : Enters schema view versions
      ⟨visited (arrivals ++ [a]), walk.arena ++ storedEntries view t a.1.2 ++
        (schema.incomingRelations a.1.1).flatMap (inboundTombstones view a.1.2)⟩
      mid (arrivals ++ [a]) new) :
    Enters schema view versions walk
      ⟨mid.deleted, mid.arena ++ outboundTombstones view t a.1.2 a.2 ++
        ownTombstones versions a.1.1 a.1.2⟩ arrivals (a :: new) where
  deleted := by simpa using h.deleted
  arena := by
    intro k
    have htomb : k ∈ tombstonesOf schema view versions a ↔
        k ∈ storedEntries view t a.1.2 ∨
        k ∈ (schema.incomingRelations a.1.1).flatMap (inboundTombstones view a.1.2) ∨
        k ∈ outboundTombstones view t a.1.2 a.2 ∨ k ∈ ownTombstones versions a.1.1 a.1.2 := by
      rw [tombstonesOf, ht]
      simp only [mem_append, or_assoc]
    rw [mem_append, mem_append, h.arena, mem_append, mem_append]
    simp only [mem_cons, or_and_right, exists_or, exists_eq_left, htomb]
    generalize (∃ b ∈ new, k ∈ tombstonesOf schema view versions b) = later
    clear htomb h
    tauto
  known := forall_mem_cons.mpr ⟨⟨by rw [ht]; rfl, hdeny⟩, h.known⟩

end Enters

theorem deleteInner_search (hwalk : walk.deleted = visited arrivals)
    (h : deleteInner schema view versions fuel verify walk a = .ok walk') :
    ∃ new, search (cascadeChildren schema view) fuel arrivals a = some (arrivals ++ new) ∧
      Enters schema view versions walk walk' arrivals new := by
  induction fuel generalizing verify walk walk' a arrivals with
  | zero => cases h
  | succ fuel ih =>
    rw [search_succ, ← hwalk]
    by_cases hmem : a.1 ∈ walk.deleted
    · rw [if_pos hmem]
      rw [deleteInner, if_pos hmem] at h
      cases h
      exact ⟨[], by rw [append_nil], .refl hwalk⟩
    · rw [if_neg hmem]
      obtain ⟨t, mid, ht, hdeny, -, hfold, rfl⟩ := deleteInner_succ h hmem
      -- the queue, object by object
      have hqueue : ∀ (queue : List Arrival) (walk mid : Walk) (arrivals : List Arrival),
          walk.deleted = visited arrivals →
          queue.foldlM (deleteInner schema view versions fuel false) walk = .ok mid →
          ∃ new, queue.foldlM (search (cascadeChildren schema view) fuel) arrivals =
            some (arrivals ++ new) ∧ Enters schema view versions walk mid arrivals new := by
        intro queue
        induction queue with
        | nil =>
          intro walk mid arrivals hwalk hfold
          cases hfold
          exact ⟨[], by rw [append_nil]; rfl, .refl hwalk⟩
        | cons b queue ihq =>
          intro walk mid arrivals hwalk hfold
          rw [foldlM_cons, bind_eq_ok] at hfold
          obtain ⟨next, hnext, hfold⟩ := hfold
          obtain ⟨new, hsearch, henters⟩ := ih hwalk hnext
          obtain ⟨new', hsearch', henters'⟩ := ihq next mid _ henters.deleted hfold
          refine ⟨new ++ new', ?_, henters.trans henters'⟩
          rw [foldlM_cons, hsearch, ← append_assoc]
          exact hsearch'
      have hdeleted : walk.deleted ++ [a.1] = visited (arrivals ++ [a]) := by
        rw [visited_append, hwalk]
        rfl
      rw [hdeleted] at hfold
      obtain ⟨new, hsearch, henters⟩ := hqueue _ _ _ (arrivals ++ [a]) rfl hfold
      refine ⟨a :: new, ?_, .enter ht hdeny henters⟩
      rw [hsearch, append_assoc]
      rfl

theorem readForDelete_ne_outOfFuel (hread : ∀ k, view.get k ≠ .error .outOfFuel) :
    readForDelete view t typeId objectId verify ≠ .error .outOfFuel := by
  intro h
  rw [readForDelete] at h
  split_ifs at h
  rcases bind_eq_error.mp h with h | ⟨data, -, h⟩
  · exact hread _ h
  · split_ifs at h
    cases h

theorem stageInbound_ne_outOfFuel : stageInbound view t objectId incs acc ≠ .error .outOfFuel := by
  induction incs generalizing acc with
  | nil => exact nofun
  | cons inc incs ih =>
    rw [stageInbound]
    split_ifs
    · exact ih
    · cases inc.policy with
      | deny => exact nofun
      | remove => exact ih
      | cascade => exact ih

theorem deleteInner_ne_outOfFuel (hread : ∀ k, view.get k ≠ .error .outOfFuel)
    (hwalk : walk.deleted = visited arrivals)
    (hsearch : (search (cascadeChildren schema view) fuel arrivals a).isSome) :
    deleteInner schema view versions fuel verify walk a ≠ .error .outOfFuel := by
  induction fuel generalizing verify walk a arrivals with
  | zero => cases hsearch
  | succ fuel ih =>
    rw [search_succ] at hsearch
    rw [deleteInner, hwalk]
    split_ifs at hsearch ⊢ with hmem
    · exact nofun
    · have hqueue : ∀ (queue : List Arrival) (walk : Walk) (arrivals : List Arrival),
          walk.deleted = visited arrivals →
          (queue.foldlM (search (cascadeChildren schema view) fuel) arrivals).isSome →
          queue.foldlM (deleteInner schema view versions fuel false) walk ≠ .error .outOfFuel := by
        intro queue
        induction queue with
        | nil => exact fun _ _ _ _ => nofun
        | cons b queue ihq =>
          intro walk arrivals hwalk hsearch hfail
          rw [foldlM_cons, Option.bind_eq_bind, Option.isSome_bind, Option.any_eq_true] at hsearch
          obtain ⟨mid, hmid, hrest⟩ := hsearch
          rcases bind_eq_error.mp hfail with hfail | ⟨next, hnext, hfail⟩
          · exact ih hwalk (by rw [hmid]; rfl) hfail
          · obtain ⟨new, hnew, henters⟩ := deleteInner_search hwalk hnext
            rw [hmid] at hnew
            cases hnew
            exact ihq next _ henters.deleted hrest hfail
      intro hfail
      rcases bind_eq_error.mp hfail with hfail | ⟨t, -, hfail⟩
      · cases h : schema.typeById a.1.1 with
        | none =>
          rw [h] at hfail
          cases hfail
        | some t =>
          rw [h] at hfail
          cases hfail
      · rcases bind_eq_error.mp hfail with hfail | ⟨data, -, hfail⟩
        · exact readForDelete_ne_outOfFuel hread hfail
        · rcases bind_eq_error.mp hfail with hfail | ⟨acc, hacc, hfail⟩
          · exact stageInbound_ne_outOfFuel hfail
          · rcases bind_eq_error.mp hfail with hfail | ⟨walk', -, hfail⟩
            · refine hqueue _ _ (arrivals ++ [a]) ?_ ?_ hfail
              · rw [visited_append]
                rfl
              · rw [(stageInbound_ok hacc).2.1, nil_append]
                exact hsearch
            · cases hfail

theorem children_mem
    (hids : ∀ n inc, ∀ row ∈ view.scanReverseEdges n inc, row.1 ∈ objectIds) (n : Id × Id) :
    ∀ a ∈ cascadeChildren schema view n,
      a.1 ∈ (schema.types.map TypeDef.typeId).toFinset ×ˢ objectIds := by
  intro a ha
  obtain ⟨inc, hinc, ha⟩ := mem_flatMap.mp ha
  rw [cascadeRows] at ha
  split_ifs at ha
  · obtain ⟨row, hrow, rfl⟩ := mem_map.mp ha
    obtain ⟨t, ht, f, -, rel, -, -, rfl⟩ := Schema.mem_incomingRelations.mp hinc
    rw [Finset.mem_product, mem_toFinset]
    exact ⟨mem_map_of_mem ht, hids _ _ row hrow⟩
  · cases ha

theorem isSome_search_deleteFuel (hcard : objectIds.card ≤ view.size)
    (hids : ∀ n inc, ∀ row ∈ view.scanReverseEdges n inc, row.1 ∈ objectIds) (root : Id × Id) :
    (search (cascadeChildren schema view) (deleteFuel schema view) [] (root, none)).isSome := by
  have htypes : (schema.types.map TypeDef.typeId).toFinset.card ≤ schema.types.length :=
    (toFinset_card_le _).trans_eq (length_map _)
  refine isSome_search
    (U := insert root ((schema.types.map TypeDef.typeId).toFinset ×ˢ objectIds)) ?_ ?_ ?_
  · exact fun n _ c hc => Finset.mem_insert_of_mem (children_mem hids n c hc)
  · exact Finset.mem_insert_self root _
  · calc _ ≤ (insert root ((schema.types.map TypeDef.typeId).toFinset ×ˢ objectIds)).card :=
          Finset.card_filter_le _ _
      _ ≤ ((schema.types.map TypeDef.typeId).toFinset ×ˢ objectIds).card + 1 :=
          Finset.card_insert_le _ _
      _ = (schema.types.map TypeDef.typeId).toFinset.card * objectIds.card + 1 := by
          rw [Finset.card_product]
      _ ≤ schema.types.length * view.size + 1 := Nat.succ_le_succ (Nat.mul_le_mul htypes hcard)
      _ < deleteFuel schema view := Nat.lt_succ_self _

end RhypeDb.Engine
