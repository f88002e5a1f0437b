import RhypeDb.Engine.ScanRows
import RhypeDb.Engine.Settled

/-! Writes check every field against its declaration, so stored objects hold declared fields with
values of their types in every run. -/

namespace RhypeDb.Engine

open Fallible List Schema Storage

section

variable {t : TypeDef} {m : FieldMap} {name : String} {value : Value}

def Checked (t : TypeDef) (m : FieldMap) : Prop :=
  ∀ name value, m.lookup name = some value →
    ∃ f, t.getField name = some f ∧ validateValue f value = .ok ()

theorem Checked.empty : Checked t ∅ := by
  intro name value h
  cases h

theorem Checked.insert (h : Checked t m) {f : FieldDef} (hf : t.getField name = some f)
    (hvalid : validateValue f value = .ok ()) : Checked t (m.insert name value) := by
  intro other v hv
  by_cases heq : other = name
  · subst heq
    rw [AList.lookup_insert] at hv
    cases hv
    exact ⟨f, hf, hvalid⟩
  · rw [AList.lookup_insert_ne heq] at hv
    exact h other v hv

theorem Checked.merge (h : Checked t m) {updates : FieldMap}
    (hvalid : updates.entries.forM (validateUpdate t) = .ok ()) : Checked t (m.merge updates) := by
  rw [FieldMap.merge]
  generalize updates.entries = fields at hvalid
  induction fields generalizing m with
  | nil => exact h
  | cons field fields ih =>
    obtain ⟨_, hfield, hrest⟩ := bind_eq_ok.mp hvalid
    obtain ⟨f, hf, hvalid⟩ := bind_eq_ok.mp hfield
    exact ih (h.insert (require_eq_ok.mp hf) hvalid) hrest

end

section

variable {schema : Schema} {view : View} {versions : Versions} {store : Store} {t : TypeDef}
  {writes writes' : Writes Key Payload} {c' c : Counters} {batch : Batch} {objectId : Id}
  {staged : List (Key × Id)}

def PutsChecked (schema : Schema) (writes : Writes Key Payload) : Prop :=
  ∀ t ∈ schema.types, ∀ id blob, (.object t.typeId id, some blob) ∈ writes →
    Checked t blob.deserializeFields

theorem Typed.apply (h : Typed schema store) (hputs : PutsChecked schema writes) :
    Typed schema (store.apply writes) := by
  intro t ht row hrow name value hvalue
  rw [mem_objectRows, Store.lookup_apply] at hrow
  cases hlast : lastWrite writes (.object t.typeId row.1) with
  | none =>
    rw [hlast, Option.getD_none] at hrow
    exact h t ht row (mem_objectRows.mpr hrow) name value hvalue
  | some written =>
    rw [hlast, Option.getD_some] at hrow
    subst hrow
    exact hputs t ht row.1 row.2 (lastWrite_mem hlast) name value hvalue

theorem PutsChecked.of_not_record (h : ∀ w ∈ writes, w.1.isRecord = false) :
    PutsChecked schema writes := by
  intro t _ id blob hw
  cases h _ hw

theorem PutsChecked.append (h : PutsChecked schema writes) (h' : PutsChecked schema writes') :
    PutsChecked schema (writes ++ writes') := by
  intro t ht id blob hw
  rcases mem_append.mp hw with hw | hw
  · exact h t ht id blob hw
  · exact h' t ht id blob hw

theorem PutsChecked.uniquePuts (h : PutsChecked schema writes)
    (hstaged : ∀ s ∈ staged, s.1.isUniqueIndex) :
    PutsChecked schema (uniquePuts staged ++ writes) := by
  refine .append (.of_not_record fun w hw => ?_) h
  exact Key.isRecord_of_isUniqueIndex (isUniqueIndex_uniquePuts hstaged w hw)

theorem PutsChecked.of_inserts {made : List (Id × FieldMap)} (ht : t ∈ schema.types)
    (h : Inserts t made writes) (hmade : ∀ m ∈ made, Checked t m.2) :
    PutsChecked schema writes := by
  intro u hu id blob hw
  obtain ⟨htype, fields, hfields, hblob⟩ := h.object _ hw u.typeId id rfl
  obtain rfl := eq_of_typeId hu ht htype
  cases hblob
  exact hmade _ hfields

theorem splitField_checked {fields : List (Sigma fun _ : String => Value)}
    {split : FieldMap × List Link}
    (h : fields.foldlM (splitField schema view versions t) (∅, []) = .ok split) :
    Checked t split.1 := by
  refine foldlM_induct (P := fun acc : FieldMap × List Link => Checked t acc.1) ?_
    Checked.empty h
  intro acc acc' field _ hacc hstep
  obtain ⟨f, hf, hvalid, ⟨l, -, -, -, -, -, rfl⟩ | ⟨-, rfl⟩ | ⟨-, rfl⟩⟩ := splitField_cases hstep
  · exact hacc
  · exact hacc
  · exact hacc.insert hf hvalid

theorem stageCreateWrites_checked (ht : t ∈ schema.types) {fields : FieldMap}
    {staged' : List (Key × Id)} {puts : Writes Key Payload}
    (h : stageCreateWrites schema view versions t objectId fields staged = .ok (staged', puts)) :
    PutsChecked schema puts := by
  obtain ⟨split, hsplit, -, rfl⟩ := stageCreateWrites_eq_ok h
  refine .of_inserts ht createPuts_inserts fun m hm => ?_
  obtain rfl := mem_singleton.mp hm
  exact splitField_checked hsplit

theorem stageRows_checked (ht : t ∈ schema.types) {rows : List FieldMap}
    (hbatch : PutsChecked schema batch.puts)
    (hstaged : ∀ s ∈ batch.staged, s.1.isUniqueIndex)
    (h : stageRows schema view t rows batch c = (.ok writes, c')) : PutsChecked schema writes := by
  induction rows generalizing batch c with
  | nil =>
    cases (Prod.mk.inj h).1
    exact hbatch.uniquePuts hstaged
  | cons fields rows ih =>
    obtain ⟨staged, puts, hstage, h⟩ := stageRows_cons_eq_ok h
    exact ih (hbatch.append (stageCreateWrites_checked ht hstage))
      (stageCreateWrites_keys hstage hstaged) h

theorem restoreRows_checked (ht : t ∈ schema.types) {rows : List (Id × FieldMap)}
    {rejectExisting : Bool} (hbatch : PutsChecked schema batch.puts)
    (hstaged : ∀ s ∈ batch.staged, s.1.isUniqueIndex)
    (h : restoreRows schema view t rejectExisting rows batch c = (.ok writes, c')) :
    PutsChecked schema writes := by
  induction rows generalizing batch c with
  | nil =>
    cases (Prod.mk.inj h).1
    exact hbatch.uniquePuts hstaged
  | cons row rows ih =>
    obtain ⟨-, staged, puts, hstage, h⟩ := restoreRows_cons_eq_ok h
    exact ih (hbatch.append (stageCreateWrites_checked ht hstage))
      (stageCreateWrites_keys hstage hstaged) h

theorem Typed.update (h : Typed schema store) {typeName : String} {updates : FieldMap}
    (hok : Engine.update schema store.view c typeName objectId updates = (.ok writes, c')) :
    PutsChecked schema writes := by
  obtain ⟨t, ht, hvalid, existing, hget, unique, hunique, rfl⟩ := update_eq_ok hok
  have hkeys := updateUniques_keys hunique
  refine .append (.of_not_record fun w hw => Key.isRecord_of_isUniqueIndex (hkeys w hw)) ?_
  intro u hu id blob hw
  rcases record_of_mem_updateWrites hw rfl with heq | ⟨ifd, -, front, howned⟩
  · obtain ⟨hkey, hblob⟩ := Prod.mk.inj heq
    obtain ⟨htype, rfl⟩ := Key.object.inj hkey
    obtain rfl := eq_of_typeId hu (mem_of_getType ht).1 htype
    cases hblob
    have hrow : (id, existing) ∈ store.objectRows u.typeId :=
      mem_objectRows.mpr (Except.ok.inj hget)
    exact Checked.merge (fun name value => h u hu _ hrow name value) hvalid
  · cases howned

end

variable {schema : Schema} {store : Store} {writes : Writes Key Payload} {c' c : Counters}

theorem Typed.stage (h : Typed schema store) {call : Database.Call}
    (hok : Database.stage schema store.view c call = (.ok writes, c')) :
    PutsChecked schema writes := by
  cases call with
  | create typeName fields =>
    obtain ⟨t, ht, staged, puts, hstage, rfl⟩ := create_eq_ok hok
    have hkeys := stageCreateWrites_keys hstage (forall_mem_nil _)
    exact (stageCreateWrites_checked (mem_of_getType ht).1 hstage).uniquePuts hkeys
  | createBatch typeName rows =>
    rcases createBatch_eq_ok hok with ⟨-, rfl⟩ | ⟨t, ht, hrows⟩
    · exact .of_not_record (forall_mem_nil _)
    · exact stageRows_checked (mem_of_getType ht).1 (.of_not_record (forall_mem_nil _))
        (forall_mem_nil _) hrows
  | update typeName objectId updates => exact h.update hok
  | delete typeName objectId =>
    obtain ⟨typeId, -, walk, -, rfl⟩ := delete_eq_ok hok
    intro t _ id blob hw
    obtain ⟨key, -, heq⟩ := mem_map.mp hw
    cases heq
  | link sourceType sourceId fieldName targetId edgeFields =>
    exact .of_not_record (isRecord_link (Prod.mk.inj hok).1)
  | unlink sourceType sourceId fieldName targetId =>
    exact .of_not_record (isRecord_unlink (Prod.mk.inj hok).1)
  | refreshCovers typeId objectId =>
    exact .of_not_record (isRecord_refreshCovers (Prod.mk.inj hok).1)

theorem restoreObjects_checked {view : View} {typeName : String}
    {rows : List (Id × FieldMap)} {rejectExisting : Bool}
    (hok : restoreObjects schema view c typeName rows rejectExisting = (.ok writes, c')) :
    PutsChecked schema writes := by
  rw [restoreObjects] at hok
  split at hok
  · cases (Prod.mk.inj hok).1
    exact .of_not_record (forall_mem_nil _)
  · split at hok
    · cases (Prod.mk.inj hok).1
    · next t ht =>
      split at hok
      · cases (Prod.mk.inj hok).1
      · next rest c'' hrows =>
        cases (Prod.mk.inj hok).1
        exact restoreRows_checked (mem_of_getType ht).1
          (.of_not_record (forall_mem_nil _)) (forall_mem_nil _) hrows

theorem Typed.empty : Typed schema .empty := by
  intro t _ row hrow
  cases mem_objectRows.mp hrow

theorem Typed.call {db : Database} (h : Typed schema db.store) (call : Database.Call) :
    Typed schema (db.step schema call).store := by
  rcases db.step_cases schema call with ⟨-, -, -, heq⟩ | ⟨writes, c, hstage, heq⟩
  · rw [heq]
    exact h
  · rw [heq]
    exact h.apply (h.stage hstage)

theorem Typed.step {l : Ledger} (h : Typed schema l.db.store) (event : Ledger.Event) :
    Typed schema (l.step schema event).db.store := by
  cases event with
  | call call => exact h.call call
  | restore typeName rows rejectExisting =>
    rw [Ledger.step]
    split
    next writes c hout => exact h.apply (restoreObjects_checked hout)
    · exact h
  | reopen => exact h

theorem Typed.exec (schema : Schema) (events : List Ledger.Event) :
    Typed schema (Run.exec (Ledger.step schema) .new events).db.store := by
  have halways : Run.Along (Ledger.step schema) (fun _ _ => True) .new events :=
    Run.along_of_forall fun _ _ => trivial
  exact Run.exec_invariant (I := fun l : Ledger => Typed schema l.db.store)
    (fun _ event h _ => h.step event) Typed.empty halways

end RhypeDb.Engine
