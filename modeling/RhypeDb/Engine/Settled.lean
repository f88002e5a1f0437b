import RhypeDb.Engine.IndexConsistency

/-! What runs of object writes that miss no edge leave behind besides integrity: an object id is
stored under one type, and under none that the counter has yet to hand out. -/

namespace RhypeDb.Engine

open Fallible List Storage

structure Settled (schema : Schema) (db : Database) : Prop where
  integrity : Integrity schema db.store
  oneType : ∀ a b id, db.store.Has (.object a id) → db.store.Has (.object b id) → a = b
  below : ∀ a id, db.store.Has (.object a id) → id.toNat < db.counters.nextObjectId.toNat

section

variable {schema : Schema} {store : Store} {writes : Writes Key Payload} {ids : List Id}
  {typeId : Id}

def PutsObjects (store : Store) (typeId : Id) (ids : List Id) (writes : Writes Key Payload) :
    Prop :=
  ∀ w ∈ writes, ∀ a id, w.1 = .object a id → w.2.isSome →
    store.Has (.object a id) ∨ a = typeId ∧ id ∈ ids

theorem PutsObjects.has_apply (h : PutsObjects store typeId ids writes) {a id : Id}
    (hhas : (store.apply writes).Has (.object a id)) :
    store.Has (.object a id) ∨ a = typeId ∧ id ∈ ids := by
  rw [Store.has_apply] at hhas
  rcases hhas with ⟨value, hvalue⟩ | ⟨-, hold⟩
  · exact h _ (lastWrite_mem hvalue) a id rfl rfl
  · exact .inl hold

theorem PutsObjects.of_not_record
    (h : ∀ w ∈ writes, w.1.isRecord = false) : PutsObjects store typeId ids writes := by
  intro w hw a id heq
  have hrecord := h w hw
  rw [heq] at hrecord
  cases hrecord

theorem PutsObjects.of_inserts {t : TypeDef} {made : List (Id × FieldMap)}
    (h : Inserts t made writes) : PutsObjects store t.typeId (made.map Prod.fst) writes := by
  intro w hw a id heq _
  obtain ⟨htype, fields, hmade, -⟩ := h.object w hw a id heq
  exact .inr ⟨htype, mem_map_of_mem hmade⟩

theorem stage_putsObjects {c c' : Counters} {call : Database.Call}
    (h : Database.stage schema store.view c call = (.ok writes, c')) :
    ∃ typeId, PutsObjects store typeId (drawnIds c.nextObjectId (Ledger.draws call)) writes := by
  cases call with
  | create typeName fields =>
    obtain ⟨t, -, scalars, hins⟩ := create_inserts h
    have hdrawn : drawnIds c.nextObjectId 1 = [c.nextObjectId] := by
      rw [drawnIds_succ]
      rfl
    exact ⟨t.typeId, hdrawn ▸ .of_inserts hins⟩
  | createBatch typeName rows =>
    rcases createBatch_inserts h with ⟨-, rfl⟩ | ⟨t, -, made, hins, hids⟩
    · exact ⟨0, forall_mem_nil _⟩
    · refine ⟨t.typeId, ?_⟩
      rw [Ledger.draws, ← hids]
      exact .of_inserts hins
  | update typeName objectId updates =>
    refine ⟨0, ?_⟩
    obtain ⟨t, -, -, existing, hget, unique, hunique, rfl⟩ := update_eq_ok h
    have hkeys := updateUniques_keys hunique
    intro w hw a id heq _
    rcases mem_append.mp hw with hw | hw
    · have hkey := hkeys w hw
      rw [heq] at hkey
      cases hkey
    · rcases record_of_mem_updateWrites hw (by rw [heq]; rfl) with rfl | ⟨ifd, -, front, howned⟩
      · cases heq
        left
        rw [Store.Has, Except.ok.inj hget]
        rfl
      · cases heq.symm.trans howned
  | delete typeName objectId =>
    refine ⟨0, ?_⟩
    obtain ⟨typeId, -, walk, -, rfl⟩ := delete_eq_ok h
    intro w hw a id _ hsome
    obtain ⟨key, -, rfl⟩ := mem_map.mp hw
    cases hsome
  | link sourceType sourceId fieldName targetId edgeFields =>
    exact ⟨0, .of_not_record (isRecord_link (Prod.mk.inj h).1)⟩
  | unlink sourceType sourceId fieldName targetId =>
    exact ⟨0, .of_not_record (isRecord_unlink (Prod.mk.inj h).1)⟩
  | refreshCovers typeId objectId =>
    exact ⟨0, .of_not_record (isRecord_refreshCovers (Prod.mk.inj h).1)⟩

end

/-- The call's delete misses no edge and the counter does not wrap around. -/
def CleanCall (schema : Schema) (db : Database) (call : Database.Call) : Prop :=
  CleanStep schema db call ∧ db.counters.nextObjectId.toNat + Ledger.draws call < 2 ^ 64

instance (schema : Schema) (db : Database) (call : Database.Call) :
    Decidable (CleanCall schema db call) :=
  inferInstanceAs (Decidable (_ ∧ _))

variable {schema : Schema} {db : Database} {call : Database.Call}

theorem Settled.new (schema : Schema) : Settled schema .new := ⟨.empty, nofun, nofun⟩

theorem nextObjectId_step (schema : Schema)
    (hwrap : db.counters.nextObjectId.toNat + Ledger.draws call < 2 ^ 64) :
    db.counters.nextObjectId.toNat ≤ (db.step schema call).counters.nextObjectId.toNat ∧
      ∀ writes c, Database.stage schema db.store.view db.counters call = (.ok writes, c) →
        (db.step schema call).counters.nextObjectId.toNat =
          db.counters.nextObjectId.toNat + Ledger.draws call := by
  obtain ⟨k, hk, hnext, hok⟩ := @nextObjectId_stage schema db.store.view db.counters call
  rw [Ledger.step_counters, hnext, Ledger.toNat_add_ofNat (by omega)]
  refine ⟨Nat.le_add_right _ _, fun writes c h => ?_⟩
  rw [hok writes (by rw [h])]

theorem objects_below_step (schema : Schema)
    (hbelow : ∀ a id, db.store.Has (.object a id) → id.toNat < db.counters.nextObjectId.toNat)
    (hwrap : db.counters.nextObjectId.toNat + Ledger.draws call < 2 ^ 64) (a id : Id)
    (hhas : (db.step schema call).store.Has (.object a id)) :
    id.toNat < (db.step schema call).counters.nextObjectId.toNat := by
  obtain ⟨hle, hok⟩ := nextObjectId_step schema hwrap
  rcases db.step_cases schema call with ⟨-, -, -, heq⟩ | ⟨writes, c, hstage, heq⟩
  · rw [heq] at hhas
    exact (hbelow a id hhas).trans_le hle
  · rw [hok writes c hstage]
    rw [heq] at hhas
    obtain ⟨typeId, hputs⟩ := stage_putsObjects hstage
    rcases hputs.has_apply hhas with hold | ⟨-, hdrawn⟩
    · exact Nat.lt_add_right _ (hbelow a id hold)
    · exact (mem_drawnIds hwrap hdrawn).2

theorem Settled.step (h : Settled schema db)
    (hclean : CleanCall schema db call) : Settled schema (db.step schema call) where
  integrity := h.integrity.step hclean.1
  below := objects_below_step schema h.below hclean.2
  oneType := by
    rcases db.step_cases schema call with ⟨-, -, -, heq⟩ | ⟨writes, c, hstage, heq⟩
    · rw [heq]
      exact h.oneType
    · rw [heq]
      obtain ⟨typeId, hputs⟩ := stage_putsObjects hstage
      intro a b id ha hb
      -- an id just drawn is above every stored one
      rcases hputs.has_apply ha with ha | ⟨rfl, hdrawn⟩
      · rcases hputs.has_apply hb with hb | ⟨-, hdrawn⟩
        · exact h.oneType a b id ha hb
        · exact absurd (h.below a id ha) (Nat.not_lt.mpr (mem_drawnIds hclean.2 hdrawn).1)
      · rcases hputs.has_apply hb with hb | ⟨rfl, -⟩
        · exact absurd (h.below b id hb) (Nat.not_lt.mpr (mem_drawnIds hclean.2 hdrawn).1)
        · rfl

theorem Settled.exec {calls : List Database.Call}
    (hclean : Run.Along (Database.step schema) (CleanCall schema) .new calls) :
    Settled schema (Run.exec (Database.step schema) .new calls) :=
  Run.exec_invariant (I := Settled schema) (fun _ _ h hstep => h.step hstep) (.new schema) hclean

end RhypeDb.Engine
