import RhypeDb.Engine.ObjectWrites

/-! When a delete goes through, and what it removes, by the state that it finds: the object is
there, nothing that the cascade leads to denies, and all of that goes. -/

namespace RhypeDb.Engine

open DepthFirst Fallible List Option Storage

def Deletable (schema : Schema) (store : Store) (root : Id × Id) : Prop :=
  store.Has (.object root.1 root.2) ∧
    ∀ n, CascadesTo schema store root n → ¬ Denied schema store.view n

def Removes (schema : Schema) (store : Store) : Database.Call → Id × Id → Prop
  | .delete typeName objectId, n => ∃ typeId ∈ schema.typeId typeName,
    Deletable schema store (typeId, objectId) ∧ CascadesTo schema store (typeId, objectId) n
  | _, _ => False

section

variable {schema : Schema} {store : Store} {versions : Versions} {root n : Id × Id} {walk : Walk}
  {a : Arrival} {verify : Bool} {e : EngineError} {objectId : Id} {view : View} {t : TypeDef}

theorem foldlM_error {σ α ε : Type*} {f : σ → α → Except ε σ} {l : List α} {s : σ} {e : ε}
    (h : l.foldlM f s = .error e) : ∃ a ∈ l, ∃ s', f s' a = .error e := by
  induction l generalizing s with
  | nil => cases h
  | cons a l ih =>
    obtain hhead | ⟨s', -, htail⟩ := bind_eq_error.mp h
    · exact ⟨a, mem_cons_self, s, hhead⟩
    · obtain ⟨b, hb, hfail⟩ := ih htail
      exact ⟨b, mem_cons_of_mem a hb, hfail⟩

theorem denied_of_stageInbound {incs : List IncomingRelation} {acc : List Key × List Arrival}
    (h : stageInbound view t objectId incs acc = .error e) :
    ∃ inc ∈ incs, inc.policy = .deny ∧ view.scanReverseEdges objectId inc.relId ≠ [] := by
  induction incs generalizing acc with
  | nil => cases h
  | cons inc incs ih =>
    have hlater : (∃ acc', stageInbound view t objectId incs acc' = .error e) →
        ∃ inc' ∈ inc :: incs, inc'.policy = .deny ∧
          view.scanReverseEdges objectId inc'.relId ≠ [] := by
      rintro ⟨acc', hfail⟩
      obtain ⟨inc', hmem, hdeny⟩ := ih hfail
      exact ⟨inc', mem_cons_of_mem inc hmem, hdeny⟩
    unfold stageInbound at h
    simp only [List.isEmpty_iff] at h
    by_cases hrows : view.scanReverseEdges objectId inc.relId = []
    · rw [if_pos hrows] at h
      exact hlater ⟨_, h⟩
    · rw [if_neg hrows] at h
      cases hpolicy : inc.policy with
      | deny => exact ⟨inc, mem_cons_self, hpolicy, hrows⟩
      | remove =>
        rw [hpolicy] at h
        exact hlater ⟨_, h⟩
      | cascade =>
        rw [hpolicy] at h
        exact hlater ⟨_, h⟩

theorem absent_of_readForDelete {typeId : Id}
    (h : readForDelete store.view t typeId objectId verify = .error e) :
    verify = true ∧ ¬ store.Has (.object typeId objectId) := by
  unfold readForDelete at h
  split_ifs at h
  obtain hread | ⟨data, hget, h⟩ := bind_eq_error.mp h
  · cases hread
  · split_ifs at h with hmissing
    rw [Bool.and_eq_true] at hmissing
    refine ⟨hmissing.2, fun hhas => ?_⟩
    have hlookup : store.lookup (.object typeId objectId) = data := Except.ok.inj hget
    rw [Store.Has, hlookup, isNone_iff_eq_none.mp hmissing.1] at hhas
    exact Bool.noConfusion hhas

theorem known_of_cascadeChildren
    (h : a ∈ cascadeChildren schema view n) : (schema.typeById a.1.1).isSome := by
  obtain ⟨inc, hinc, ha⟩ := mem_flatMap.mp h
  unfold cascadeRows at ha
  split_ifs at ha
  · obtain ⟨row, -, rfl⟩ := mem_map.mp ha
    obtain ⟨t, ht, f, -, rel, -, -, rfl⟩ := Schema.mem_incomingRelations.mp hinc
    unfold Schema.typeById
    rw [find?_isSome]
    exact ⟨t, ht, decide_eq_true rfl⟩
  · cases ha

theorem deleteInner_error {fuel : Nat} (hknown : (schema.typeById a.1.1).isSome)
    (h : deleteInner schema store.view versions fuel verify walk a = .error e) :
    e = .outOfFuel ∨ (verify = true ∧ ¬ store.Has (.object a.1.1 a.1.2)) ∨
      ∃ n, CascadesTo schema store a.1 n ∧ Denied schema store.view n := by
  induction fuel generalizing verify walk a with
  | zero =>
    cases h
    exact .inl rfl
  | succ fuel ih =>
    obtain ⟨t, ht⟩ := isSome_iff_exists.mp hknown
    unfold deleteInner at h
    split_ifs at h
    rw [ht] at h
    change (readForDelete store.view t a.1.1 a.1.2 verify >>= fun _ => _) = _ at h
    obtain hfail | ⟨data, -, h⟩ := bind_eq_error.mp h
    · exact .inr (.inl (absent_of_readForDelete hfail))
    · obtain hfail | ⟨acc, hacc, h⟩ := bind_eq_error.mp h
      · obtain ⟨inc, hinc, hdeny⟩ := denied_of_stageInbound hfail
        exact .inr (.inr ⟨a.1, .refl, inc, hinc, hdeny⟩)
      · obtain hfail | ⟨walk', -, h⟩ := bind_eq_error.mp h
        · -- one of the children fails, and the cascade leads on from it
          obtain ⟨b, hb, walk', hfail⟩ := foldlM_error hfail
          rw [(stageInbound_ok hacc).2.1, nil_append] at hb
          obtain hfuel | ⟨hverify, -⟩ | ⟨n, hreach, hdeny⟩ := ih (known_of_cascadeChildren hb) hfail
          · exact .inl hfuel
          · exact Bool.noConfusion hverify
          · exact .inr (.inr ⟨n, .head ⟨b, hb, rfl⟩ hreach, hdeny⟩)
        · cases h

theorem mem_visited_cascade
    (h : deleteInner schema store.view versions (deleteFuel schema store.view) true
      { deleted := [], arena := [] } (root, none) = .ok walk)
    (hreach : CascadesTo schema store root n) :
    n ∈ visited (cascade schema store.view root) := by
  obtain ⟨new, hsearch, -⟩ := deleteInner_search
    (show ({ deleted := [], arena := [] } : Walk).deleted = visited [] from rfl) h
  have hcascade : cascade schema store.view root = new := by
    unfold cascade
    rw [hsearch]
    rfl
  rw [hcascade]
  have hclosed := closed_search hsearch
  induction hreach with
  | refl => exact mem_map_of_mem (mem_search_nil hsearch)
  | tail _ hchild ih =>
    obtain ⟨b, hb, rfl⟩ := mem_map.mp ih
    obtain ⟨c, hc, rfl⟩ := hchild
    obtain hold | hall := hclosed b hb
    · exact absurd hold not_mem_nil
    · exact hall c hc

end

section

variable {schema : Schema} {store : Store} {c c' : Counters} {typeName : String} {objectId : Id}
  {typeId : Id} {writes : Writes Key Payload}

theorem delete_ok (htype : schema.typeId typeName = some typeId)
    (hdel : Deletable schema store (typeId, objectId)) :
    ∃ writes c', delete schema store.view c typeName objectId = (.ok writes, c') := by
  have hfuel := delete_ne_outOfFuel schema store c typeName objectId
  have hknown : (schema.typeById typeId).isSome := by
    obtain ⟨t, ht, rfl⟩ := map_eq_some_iff.mp htype
    unfold Schema.typeById
    rw [find?_isSome]
    exact ⟨t, (Schema.mem_of_getType ht).1, decide_eq_true rfl⟩
  unfold delete at hfuel ⊢
  rw [htype] at hfuel ⊢
  dsimp only at hfuel ⊢
  cases hwalk : deleteInner schema store.view c.versions (deleteFuel schema store.view) true
    { deleted := [], arena := [] } ((typeId, objectId), none) with
  | ok walk => exact ⟨_, _, rfl⟩
  | error e =>
    rw [hwalk] at hfuel
    obtain rfl | ⟨-, habsent⟩ | ⟨n, hreach, hdeny⟩ :=
      deleteInner_error (a := ((typeId, objectId), none)) hknown hwalk
    · exact absurd rfl hfuel
    · exact absurd hdel.1 habsent
    · exact absurd hdeny (hdel.2 n hreach)

theorem delete_removes (h : delete schema store.view c typeName objectId = (.ok writes, c'))
    (htype : schema.typeId typeName = some typeId) :
    Deletable schema store (typeId, objectId) ∧ ∀ n : Id × Id,
      ((.object n.1 n.2, none) ∈ writes ↔ CascadesTo schema store (typeId, objectId) n) := by
  obtain ⟨t, ht, hhas, hnone, -, hreach⟩ := delete_objects h
  have hid : typeId = t.typeId := by
    unfold Schema.typeId at htype
    rw [ht] at htype
    exact (Option.some.inj htype).symm
  subst hid
  obtain ⟨typeId', htype', walk, hwalk, rfl⟩ := delete_eq_ok h
  rw [htype] at htype'
  cases htype'
  obtain ⟨harena, hknown, -⟩ := deleteInner_cascade hwalk
  refine ⟨⟨hhas, fun n hn => ?_⟩, fun n => ⟨fun hmem => ?_, fun hn => ?_⟩⟩
  · obtain ⟨a, ha, rfl⟩ := mem_map.mp (mem_visited_cascade hwalk hn)
    exact (hknown a ha).2
  · exact hreach _ hmem n.1 n.2 rfl
  · obtain ⟨a, ha, rfl⟩ := mem_map.mp (mem_visited_cascade hwalk hn)
    obtain ⟨u, hu⟩ := isSome_iff_exists.mp (hknown a ha).1
    refine mem_map.mpr ⟨_, (harena _).mpr ⟨a, ha, ?_⟩, rfl⟩
    exact object_mem_tombstonesOf hu

end

section

variable {schema : Schema} {db : Database} {call : Database.Call} {n : Id × Id} {store : Store}

theorem has_of_puts {writes : Writes Key Payload} {k : Key}
    (hputs : ∀ w ∈ writes, w.1 = k → w.2.isSome) (h : store.Has k) :
    (store.apply writes).Has k := (Store.has_apply_puts hputs).mpr (.inr h)

theorem exists_of_removes (h : Removes schema store call n) :
    ∃ typeName objectId, call = .delete typeName objectId := by
  cases call with
  | delete typeName objectId => exact ⟨typeName, objectId, rfl⟩
  | _ => exact False.elim h

theorem gone_iff (h : db.store.Has (.object n.1 n.2)) :
    ¬ (db.step schema call).store.Has (.object n.1 n.2) ↔ Removes schema db.store call n := by
  by_cases hdelete : ∃ typeName objectId, call = .delete typeName objectId
  · obtain ⟨typeName, objectId, rfl⟩ := hdelete
    rcases db.step_cases schema (.delete typeName objectId) with
      ⟨e, c, hstage, heq⟩ | ⟨writes, c, hstage, heq⟩
    · rw [heq]
      refine iff_of_false (not_not_intro h) ?_
      rintro ⟨typeId, htype, hdel, -⟩
      obtain ⟨writes, c', hok⟩ := delete_ok (c := db.counters) htype hdel
      cases hok.symm.trans hstage
    · obtain ⟨t, ht, -, hnone, -, -⟩ := delete_objects hstage
      have htype : schema.typeId typeName = some t.typeId := by
        unfold Schema.typeId
        rw [ht]
        rfl
      obtain ⟨hdel, hmem⟩ := delete_removes hstage htype
      have hwrites : (db.store.apply writes).Has (.object n.1 n.2) ↔
          ¬ (.object n.1 n.2, none) ∈ writes := by
        constructor
        · intro hhas hw
          exact (has_of_removal hnone hhas).1 (mem_map_of_mem hw)
        · intro hw
          refine has_of_puts (fun w hmem hkey => ?_) h
          have hw' : w = (.object n.1 n.2, none) := Prod.ext hkey (hnone w hmem)
          exact absurd (hw' ▸ hmem) hw
      rw [heq, hwrites, not_not, hmem]
      constructor
      · exact fun hreach => ⟨t.typeId, htype, hdel, hreach⟩
      · rintro ⟨typeId, htype', -, hreach⟩
        cases htype.symm.trans htype'
        exact hreach
  · refine iff_of_false (not_not_intro ?_) fun hremoves => hdelete (exists_of_removes hremoves)
    rcases db.step_cases schema call with ⟨-, -, -, heq⟩ | ⟨writes, c, hstage, heq⟩
    · rw [heq]
      exact h
    · rw [heq]
      refine has_of_puts (fun w hw hkey => ?_) h
      rcases Database.stage_cases hstage with hadds | ⟨_, _, hcall, -⟩ | ⟨_, _, _, _, rfl, hunlink⟩
      · exact hadds.puts w hw (by rw [hkey]; rfl)
      · exact absurd ⟨_, _, hcall⟩ hdelete
      · obtain ⟨t, f, -, -, rfl⟩ := unlink_eq_ok hunlink
        obtain ⟨key, hmem, rfl⟩ := mem_map.mp hw
        simp [edgeTombstones, show key = .object n.1 n.2 from hkey] at hmem

end

end RhypeDb.Engine
