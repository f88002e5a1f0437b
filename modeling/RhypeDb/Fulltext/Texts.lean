import RhypeDb.Engine.ObjectWrites
import RhypeDb.Fulltext.IndexRows

/-! The text that each object of a field's type has, and how a call changes it: the staged changes
name every object whose text is not the same behind the commit, with both texts. -/

namespace RhypeDb.Fulltext

open ByteOrder Engine List Storage

def textAt (ff : FulltextField) (store : Store) (id : Id) : Option Bytes :=
  storedText ff (store.lookup (.object ff.typeId id))

structure Changed (text text' : Id → Option Bytes) (changes : List (Id × Change)) : Prop where
  nodup : (changes.map Prod.fst).Nodup
  old : ∀ c ∈ changes, text c.1 = c.2.old
  new : ∀ c ∈ changes, text' c.1 = c.2.new
  frame : ∀ id ∉ changes.map Prod.fst, text' id = text id

def DrawsFresh (schema : Schema) (store : Store) (next : Id) : Database.Call → Prop
  | .create typeName _ => FreshIds schema store typeName (drawnIds next 1)
  | .createBatch typeName rows => FreshIds schema store typeName (drawnIds next rows.length)
  | _ => True

instance (schema : Schema) (store : Store) (next : Id) :
    ∀ call, Decidable (DrawsFresh schema store next call)
  | .create _ _ => inferInstanceAs (Decidable (FreshIds _ _ _ _))
  | .createBatch _ _ => inferInstanceAs (Decidable (FreshIds _ _ _ _))
  | .update _ _ _ => .isTrue trivial
  | .delete _ _ => .isTrue trivial
  | .link _ _ _ _ _ => .isTrue trivial
  | .unlink _ _ _ _ => .isTrue trivial
  | .refreshCovers _ _ => .isTrue trivial

section

variable {ff : FulltextField} {store : Store} {writes : Writes Key Payload} {id : Id}

theorem mem_writtenIds {typeId : Id} :
    id ∈ writtenIds typeId writes ↔ ∃ w ∈ writes, w.1 = .object typeId id := by
  unfold writtenIds
  rw [mem_dedup, mem_filterMap]
  refine exists_congr fun w => and_congr_right fun _ => ?_
  constructor
  · intro h
    split at h
    next a b heq =>
      split_ifs at h with ha
      rw [heq, ha, Option.some.inj h]
    · cases h
  · intro h
    rw [h]
    exact if_pos rfl

theorem textAt_apply_of_not_written (h : id ∉ writtenIds ff.typeId writes) :
    textAt ff (store.apply writes) id = textAt ff store id := by
  have hlast : lastWrite writes (.object ff.typeId id) = none := by
    rw [lastWrite_eq_none]
    exact fun w hw heq => h (mem_writtenIds.mpr ⟨w, hw, heq⟩)
  rw [textAt, Store.lookup_apply, hlast]
  rfl

theorem map_fst_changeOf (view : View) (ids : List Id) :
    (ids.map fun id => (id, changeOf ff view writes id)).map Prod.fst = ids := by
  rw [map_map]
  exact map_id _

theorem changed_written (hputs : ∀ w ∈ writes, ∀ id, w.1 = .object ff.typeId id → w.2.isSome →
      ¬ store.Has (.object ff.typeId id)) :
    Changed (textAt ff store) (textAt ff (store.apply writes))
      ((writtenIds ff.typeId writes).map fun id => (id, changeOf ff store.view writes id)) where
  nodup := by
    rw [map_fst_changeOf]
    exact nodup_dedup _
  old := by
    rw [forall_mem_map]
    intro id _
    unfold changeOf
    split
    next data hlast =>
      have hfree := hputs _ (lastWrite_mem hlast) id rfl rfl
      have hnone : store.lookup (.object ff.typeId id) = none := by
        rwa [Store.Has, Option.not_isSome_iff_eq_none] at hfree
      rw [textAt, hnone]
      rfl
    · rfl
  new := by
    rw [forall_mem_map]
    intro id hid
    obtain ⟨w, hw, heq⟩ := mem_writtenIds.mp hid
    obtain ⟨value, hlast⟩ := Option.isSome_iff_exists.mp
      (isSome_lastWrite.mpr (List.mem_map.mpr ⟨w, hw, heq⟩))
    unfold changeOf textAt
    rw [Store.lookup_apply, hlast]
    cases value with
    | none => rfl
    | some data => rfl
  frame := by
    intro id hid
    rw [map_fst_changeOf] at hid
    exact textAt_apply_of_not_written hid

theorem Changed.of_no_records (hrecord : ∀ w ∈ writes, w.1.isRecord = false) :
    Changed (textAt ff store) (textAt ff (store.apply writes))
      ((writtenIds ff.typeId writes).map fun id => (id, changeOf ff store.view writes id)) := by
  apply changed_written
  intro w hw id heq
  have h := hrecord w hw
  rw [heq] at h
  cases h

end

variable {schema : Schema} {store : Store} {c c' : Counters} {ff : FulltextField}
  {writes : Writes Key Payload}

variable {typeName : String} {call : Database.Call} {updates : FieldMap} {objectId : Id}

theorem create_puts {fields : FieldMap}
    (hfresh : FreshIds schema store typeName (drawnIds c.nextObjectId 1))
    (hok : create schema store.view c typeName fields = (.ok writes, c')) :
    ∀ w ∈ writes, ∀ a id, w.1 = .object a id → ¬ store.Has (.object a id) := by
  intro w hw a id heq
  obtain ⟨t, ht, scalars, hins⟩ := create_inserts hok
  obtain ⟨rfl, fields', hmade, -⟩ := hins.object w hw a id heq
  rw [mem_singleton] at hmade
  rw [(Prod.mk.inj hmade).1]
  apply hfresh.2 t ht
  rw [drawnIds_succ]
  exact mem_cons_self

theorem createBatch_puts {rows : List FieldMap}
    (hfresh : FreshIds schema store typeName (drawnIds c.nextObjectId rows.length))
    (hok : createBatch schema store.view c typeName rows = (.ok writes, c')) :
    ∀ w ∈ writes, ∀ a id, w.1 = .object a id → ¬ store.Has (.object a id) := by
  intro w hw a id heq
  rcases createBatch_inserts hok with ⟨-, rfl⟩ | ⟨t, ht, made, hins, hids⟩
  · cases hw
  · obtain ⟨rfl, fields, hmade, -⟩ := hins.object w hw a id heq
    exact hfresh.2 t ht _ (hids ▸ mem_map_of_mem hmade)

theorem lastWrite_update
    (hok : update schema store.view c typeName objectId updates = (.ok writes, c')) :
    ∃ t, schema.getType typeName = some t ∧ ∃ existing,
      store.lookup (.object t.typeId objectId) = some existing ∧
      lastWrite writes (.object t.typeId objectId) =
        some (some (serializeFields (existing.deserializeFields.merge updates))) ∧
      ∀ w ∈ writes, ∀ a id, w.1 = .object a id → a = t.typeId ∧ id = objectId := by
  obtain ⟨t, ht, -, existing, hget, unique, hunique, rfl⟩ := update_eq_ok hok
  refine ⟨t, ht, existing, Except.ok.inj hget, ?_, ?_⟩
  · have hlast : lastWrite (updateWrites schema store.view c.versions t objectId
        existing.deserializeFields updates) (.object t.typeId objectId) =
        some (some (serializeFields (existing.deserializeFields.merge updates))) := by
      apply lastWrite_of_agree
      · unfold updateWrites
        simp
      · intro w hw heq
        rcases record_of_mem_updateWrites hw (by rw [heq]; rfl) with rfl | ⟨ifd, -, front, howned⟩
        · rfl
        · cases heq.symm.trans howned
    rw [lastWrite_append, hlast]
    rfl
  · intro w hw a id heq
    obtain ⟨t', ht', -, hobjects⟩ := update_objects hok
    obtain rfl : t = t' := Option.some.inj (ht.symm.trans ht')
    exact Prod.mk.inj (hobjects w hw a id heq).1

theorem changed_update
    (hok : update schema store.view c typeName objectId updates = (.ok writes, c')) :
    Changed (textAt ff store) (textAt ff (store.apply writes))
      (changes ff schema store.view (.update typeName objectId updates) writes) := by
  obtain ⟨t, ht, existing, hexisting, hlast, honly⟩ := lastWrite_update hok
  have htypeId : schema.typeId typeName = some t.typeId := by rw [Schema.typeId, ht]; rfl
  have hframe : ∀ id, id = objectId ∨
      textAt ff (store.apply writes) id = textAt ff store id := by
    intro id
    by_cases hid : id = objectId
    · exact .inl hid
    · right
      apply textAt_apply_of_not_written
      rw [mem_writtenIds]
      rintro ⟨w, hw, heq⟩
      exact hid (honly w hw _ _ heq).2
  have hafter : t.typeId = ff.typeId → textAt ff (store.apply writes) objectId =
      textOf ((updates.lookup ff.name).or (existing.deserializeFields.lookup ff.name)) := by
    intro htype
    rw [textAt, ← htype, Store.lookup_apply, hlast, ← FieldMap.lookup_merge]
    rfl
  have hbefore : t.typeId = ff.typeId → textAt ff store objectId =
      textOf (existing.deserializeFields.lookup ff.name) := by
    intro htype
    rw [textAt, ← htype, hexisting]
    rfl
  unfold changes
  dsimp only
  rw [htypeId]
  by_cases htype : some t.typeId = some ff.typeId
  · rw [if_pos htype]
    replace htype := Option.some.inj htype
    cases hlookup : updates.lookup ff.name with
    | none =>
      -- another field's update leaves the text
      refine ⟨nodup_nil, nofun, nofun, fun id _ => ?_⟩
      rcases hframe id with rfl | hsame
      · rw [hafter htype, hbefore htype, hlookup, Option.none_or]
      · exact hsame
    | some newValue =>
      refine ⟨nodup_singleton _, ?_, ?_, fun id hid => ?_⟩
      · rw [forall_mem_singleton]
        rfl
      · rw [forall_mem_singleton]
        rw [hafter htype, hlookup]
        rfl
      · exact (hframe id).resolve_left fun heq => hid (heq ▸ mem_singleton_self _)
  · rw [if_neg htype]
    refine ⟨nodup_nil, nofun, nofun, fun id _ => textAt_apply_of_not_written ?_⟩
    rw [mem_writtenIds]
    rintro ⟨w, hw, heq⟩
    exact htype (congrArg some (honly w hw _ _ heq).1.symm)

theorem object_mem_of_changes (hok : Database.stage schema store.view c call = (.ok writes, c')) :
    ∀ ch ∈ changes ff schema store.view call writes,
      (.object ff.typeId ch.1) ∈ writes.map Prod.fst := by
  have hwritten : ∀ ch ∈ (writtenIds ff.typeId writes).map fun id =>
      (id, changeOf ff store.view writes id), .object ff.typeId ch.1 ∈ writes.map Prod.fst := by
    rw [forall_mem_map]
    intro id hid
    obtain ⟨w, hw, heq⟩ := mem_writtenIds.mp hid
    exact List.mem_map.mpr ⟨w, hw, heq⟩
  cases call with
  | update typeName objectId updates =>
    obtain ⟨t, ht, existing, -, hlast, -⟩ := lastWrite_update hok
    have htypeId : schema.typeId typeName = some t.typeId := by rw [Schema.typeId, ht]; rfl
    unfold changes
    dsimp only
    rw [htypeId]
    by_cases htype : some t.typeId = some ff.typeId
    · rw [if_pos htype]
      cases updates.lookup ff.name with
      | none => exact nofun
      | some newValue =>
        rw [forall_mem_singleton]
        rw [← Option.some.inj htype]
        exact mem_map_of_mem (lastWrite_mem hlast)
    · rw [if_neg htype]
      exact nofun
  | _ => exact hwritten

theorem changed_stage (hfresh : DrawsFresh schema store c.nextObjectId call)
    (hok : Database.stage schema store.view c call = (.ok writes, c')) :
    Changed (textAt ff store) (textAt ff (store.apply writes))
      (changes ff schema store.view call writes) := by
  cases call with
  | create typeName fields =>
    exact changed_written fun w hw id heq _ => create_puts hfresh hok w hw _ id heq
  | createBatch typeName rows =>
    exact changed_written fun w hw id heq _ => createBatch_puts hfresh hok w hw _ id heq
  | update typeName objectId updates => exact changed_update hok
  | delete typeName objectId =>
    obtain ⟨t, -, -, hnone, -, -⟩ := delete_objects hok
    apply changed_written
    intro w hw id _ hsome
    rw [hnone w hw] at hsome
    cases hsome
  | link sourceType sourceId fieldName targetId edgeFields =>
    exact Changed.of_no_records (isRecord_link (Prod.mk.inj hok).1)
  | unlink sourceType sourceId fieldName targetId =>
    exact Changed.of_no_records (isRecord_unlink (Prod.mk.inj hok).1)
  | refreshCovers typeId objectId =>
    exact Changed.of_no_records (isRecord_refreshCovers (Prod.mk.inj hok).1)

end RhypeDb.Fulltext
