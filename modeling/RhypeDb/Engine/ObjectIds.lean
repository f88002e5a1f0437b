import RhypeDb.Engine.IntegrityRun

/-! Object ids over a whole life of the data: creates draw them from a counter in memory,
restores bring their own, and `open` rebuilds the counter from the objects that happen to be
live. An id above all live ones is handed out a second time after a reopen. -/

namespace RhypeDb.Engine

open List Storage UInt64

structure Ledger where
  db : Database
  handed : List Id
  restored : List Id

namespace Ledger

def new : Ledger := { db := .new, handed := [], restored := [] }

inductive Event
  | call (call : Database.Call)
  | restore (typeName : String) (rows : List (Id × FieldMap)) (rejectExisting : Bool)
  | reopen

def used (l : Ledger) : List Id := l.handed ++ l.restored

def draws : Database.Call → Nat
  | .create _ _ => 1
  | .createBatch _ rows => rows.length
  | _ => 0

def handedOut (schema : Schema) (db : Database) (call : Database.Call) : List Id :=
  match (Database.stage schema db.store.view db.counters call).1 with
  | .ok _ => (List.range (draws call)).map fun i => db.counters.nextObjectId + UInt64.ofNat i
  | .error _ => []

def step (schema : Schema) (l : Ledger) : Event → Ledger
  | .call call =>
    { l with
      db := l.db.step schema call
      handed := l.handed ++ handedOut schema l.db call }
  | .restore typeName rows rejectExisting =>
    match restoreObjects schema l.db.store.view l.db.counters typeName rows rejectExisting with
    | (.ok writes, c) =>
      { l with
        db := { store := l.db.store.apply writes, counters := c }
        restored := l.restored ++ rows.map Prod.fst }
    | (.error _, c) => { l with db := { l.db with counters := c } }
  | .reopen => { l with db := { l.db with counters := openCounters schema l.db.store } }

/-- The counter does not wrap around, restored ids are new, and at a reopen every id used so far
is at most some live one. -/
def Sound (schema : Schema) (l : Ledger) : Event → Prop
  | .call call => l.db.counters.nextObjectId.toNat + draws call < 2 ^ 64
  | .restore _ rows _ => ∀ row ∈ rows, row.1 ∉ l.used ∧ row.1.toNat + 1 < 2 ^ 64
  | .reopen => (∀ id ∈ l.used, ∃ live ∈ liveIds schema l.db.store, id ≤ live) ∧
    ∀ live ∈ liveIds schema l.db.store, live.toNat + 1 < 2 ^ 64

instance (schema : Schema) (l : Ledger) : ∀ event, Decidable (Sound schema l event)
  | .call _ => inferInstanceAs (Decidable (_ < _))
  | .restore _ rows _ =>
    inferInstanceAs (Decidable (∀ row ∈ rows, row.1 ∉ l.used ∧ row.1.toNat + 1 < 2 ^ 64))
  | .reopen =>
    have : Decidable (∀ id ∈ l.used, ∃ live ∈ liveIds schema l.db.store, id ≤ live) :=
      List.decidableBAll _ _
    have : Decidable (∀ live ∈ liveIds schema l.db.store, live.toNat + 1 < 2 ^ 64) :=
      List.decidableBAll _ _
    instDecidableAnd

end Ledger

section

def drawnIds (next : Id) (n : Nat) : List Id := (List.range n).map fun i => next + UInt64.ofNat i

theorem drawnIds_succ (next : Id) (n : Nat) :
    drawnIds next (n + 1) = next :: drawnIds (next + 1) n := by
  rw [drawnIds, drawnIds, range_succ_eq_map, map_cons, map_map]
  congr 1
  · exact UInt64.add_zero _
  · apply map_congr_left
    intro i _
    rw [Function.comp_apply, Nat.succ_eq_add_one, UInt64.ofNat_add, UInt64.add_assoc,
      UInt64.add_comm 1]
    rfl

theorem Ledger.toNat_add_ofNat {a : Id} {n : Nat} (h : a.toNat + n < 2 ^ 64) :
    (a + UInt64.ofNat n).toNat = a.toNat + n := by
  have hn : n < UInt64.size := by
    show n < 2 ^ 64
    omega
  rw [UInt64.toNat_add, UInt64.toNat_ofNat_of_lt' hn, Nat.mod_eq_of_lt h]

variable {next : Id} {n : Nat}

theorem mem_drawnIds (hwrap : next.toNat + n < 2 ^ 64) {id : Id} (h : id ∈ drawnIds next n) :
    next.toNat ≤ id.toNat ∧ id.toNat < next.toNat + n := by
  obtain ⟨i, hi, rfl⟩ := mem_map.mp h
  rw [mem_range] at hi
  rw [Ledger.toNat_add_ofNat (by omega)]
  omega

theorem nodup_drawnIds (hwrap : next.toNat + n < 2 ^ 64) : (drawnIds next n).Nodup := by
  apply List.Nodup.map_on _ nodup_range
  intro i hi j hj heq
  rw [mem_range] at hi hj
  have hnat := congrArg UInt64.toNat heq
  rw [Ledger.toNat_add_ofNat (by omega), Ledger.toNat_add_ofNat (by omega)] at hnat
  omega

variable {schema : Schema} {view : View} {t : TypeDef}

theorem nextObjectId_foldl {α : Type} (f : Counters → α → Counters)
    (hf : ∀ c a, (f c a).nextObjectId = c.nextObjectId) (l : List α) (c : Counters) :
    (l.foldl f c).nextObjectId = c.nextObjectId := by
  induction l generalizing c with
  | nil => rfl
  | cons a l ih => rw [foldl_cons, ih, hf]

theorem nextObjectId_create (c : Counters) (typeName : String) (fields : FieldMap) :
    ∃ k ≤ 1, (create schema view c typeName fields).2.nextObjectId =
        c.nextObjectId + UInt64.ofNat k ∧
      ∀ writes, (create schema view c typeName fields).1 = .ok writes → k = 1 := by
  unfold create
  cases schema.getType typeName with
  | none => exact ⟨0, Nat.zero_le 1, by simp, nofun⟩
  | some t =>
    dsimp only
    refine ⟨1, le_rfl, ?_, fun _ _ => rfl⟩
    split
    · rfl
    · rfl

theorem nextObjectId_stageRows (rows : List FieldMap) (batch : Batch) (c : Counters) :
    ∃ k ≤ rows.length, (stageRows schema view t rows batch c).2.nextObjectId =
        c.nextObjectId + UInt64.ofNat k ∧
      ∀ writes, (stageRows schema view t rows batch c).1 = .ok writes → k = rows.length := by
  induction rows generalizing batch c with
  | nil => exact ⟨0, le_rfl, by simp [stageRows], fun _ _ => rfl⟩
  | cons fields rows ih =>
    rw [stageRows]
    split
    · refine ⟨1, by simp, ?_, fun _ h => by cases h⟩
      exact nextObjectId_foldl (fun c id => c.rollbackVersion t.typeId id) (fun _ _ => rfl) _ _
    · rename_i staged puts hstage
      obtain ⟨k, hk, hnext, hok⟩ :=
        ih ⟨batch.objectIds ++ [c.nextObjectId], staged, batch.puts ++ puts⟩
          (Counters.bumpVersion ⟨c.nextObjectId + 1, c.versions⟩ t.typeId c.nextObjectId)
      refine ⟨k + 1, by simpa using hk, ?_, fun writes hw => by rw [hok writes hw, length_cons]⟩
      rw [hnext, UInt64.ofNat_add, UInt64.add_comm (UInt64.ofNat k), ← UInt64.add_assoc]
      rfl

theorem nextObjectId_restoreRows (rejectExisting : Bool) (rows : List (Id × FieldMap))
    (batch : Batch) (c : Counters) :
    (restoreRows schema view t rejectExisting rows batch c).2.nextObjectId = c.nextObjectId := by
  induction rows generalizing batch c with
  | nil => rfl
  | cons row rows ih =>
    rw [restoreRows]
    split
    · rfl
    · exact nextObjectId_foldl (fun c id => c.rollbackVersion t.typeId id) (fun _ _ => rfl) _ _
    · split
      · exact nextObjectId_foldl (fun c id => c.rollbackVersion t.typeId id) (fun _ _ => rfl) _ _
      · exact ih _ _

theorem nextObjectId_stage (c : Counters) (call : Database.Call) :
    ∃ k ≤ Ledger.draws call, (Database.stage schema view c call).2.nextObjectId =
        c.nextObjectId + UInt64.ofNat k ∧
      ∀ writes, (Database.stage schema view c call).1 = .ok writes → k = Ledger.draws call := by
  have hzero : ∀ {c' : Counters} {call' : Database.Call} {r : Except EngineError (Writes Key Payload)},
      c'.nextObjectId = c.nextObjectId → Ledger.draws call' = 0 →
      ∃ k ≤ Ledger.draws call', c'.nextObjectId = c.nextObjectId + UInt64.ofNat k ∧
        ∀ writes, r = .ok writes → k = Ledger.draws call' := by
    intro c' call' r hc hdraws
    exact ⟨0, Nat.zero_le _, by simp [hc], fun _ _ => hdraws.symm⟩
  cases call with
  | create typeName fields => exact nextObjectId_create c typeName fields
  | createBatch typeName rows =>
    rw [Database.stage, createBatch]
    split
    · rename_i hempty
      exact hzero rfl (by simpa [Ledger.draws] using hempty)
    · split
      · exact ⟨0, Nat.zero_le _, by simp, fun _ h => by cases h⟩
      · exact nextObjectId_stageRows rows _ c
  | update typeName objectId updates =>
    refine hzero ?_ rfl
    rw [Database.stage, update]
    split
    · rfl
    · rfl
  | delete typeName objectId =>
    refine hzero ?_ rfl
    rw [Database.stage, delete]
    split
    · rfl
    · split
      · rfl
      · exact nextObjectId_foldl (fun c (d : Id × Id) => c.forgetVersion d.1 d.2) (fun _ _ => rfl) _ _
  | _ => exact hzero rfl rfl

end

namespace Ledger

variable {schema : Schema} {l : Ledger} {ids : List Id}

theorem step_counters (db : Database) (call : Database.Call) :
    (db.step schema call).counters = (Database.stage schema db.store.view db.counters call).2 := by
  rw [Database.step]
  split
  · rename_i h
    rw [h]
  · rename_i h
    rw [h]

theorem handedOut_spec {db : Database} {call : Database.Call}
    (h : db.counters.nextObjectId.toNat + draws call < 2 ^ 64) :
    db.counters.nextObjectId ≤ (db.step schema call).counters.nextObjectId ∧
      (handedOut schema db call).Nodup ∧ ∀ id ∈ handedOut schema db call,
        db.counters.nextObjectId ≤ id ∧ id < (db.step schema call).counters.nextObjectId := by
  obtain ⟨k, hk, hnext, hok⟩ := @nextObjectId_stage schema db.store.view db.counters call
  rw [step_counters, hnext, le_iff_toNat_le, toNat_add_ofNat (by omega)]
  refine ⟨by omega, ?_⟩
  rw [handedOut]
  split
  · rename_i writes hwrites
    obtain rfl := hok writes hwrites
    refine ⟨nodup_drawnIds h, fun id hid => ?_⟩
    obtain ⟨hle, hlt⟩ := mem_drawnIds h hid
    rw [le_iff_toNat_le, lt_iff_toNat_lt, toNat_add_ofNat h]
    exact ⟨hle, hlt⟩
  · exact ⟨nodup_nil, nofun⟩

theorem le_foldl_max {a id : Id} (h : id = a ∨ id ∈ ids) : id ≤ ids.foldl max a := by
  have hmax : ∀ x y : Id, x ≤ max x y ∧ y ≤ max x y := by
    intro x y
    show x ≤ (if x ≤ y then y else x) ∧ y ≤ (if x ≤ y then y else x)
    simp only [le_iff_toNat_le]
    split <;> omega
  induction ids generalizing a id with
  | nil =>
    obtain rfl : id = a := by simpa using h
    exact UInt64.le_refl id
  | cons b ids ih =>
    rcases h with rfl | h
    · exact UInt64.le_trans (hmax id b).1 (ih (.inl rfl))
    · rcases mem_cons.mp h with rfl | h
      · exact UInt64.le_trans (hmax a id).2 (ih (.inl rfl))
      · exact ih (.inr h)

theorem foldl_max_mem (ids : List Id) (a : Id) : ids.foldl max a = a ∨ ids.foldl max a ∈ ids := by
  induction ids generalizing a with
  | nil => exact .inl rfl
  | cons b ids ih =>
    rw [foldl_cons]
    have hmax : max a b = a ∨ max a b = b := by
      show (if a ≤ b then b else a) = a ∨ (if a ≤ b then b else a) = b
      split
      · exact .inr rfl
      · exact .inl rfl
    rcases ih (max a b) with h | h
    · rw [h]
      rcases hmax with h' | h'
      · exact .inl h'
      · rw [h']
        exact .inr mem_cons_self
    · exact .inr (mem_cons_of_mem b h)

theorem lt_foldl_max_add_one (h : ∀ id ∈ ids, id.toNat + 1 < 2 ^ 64) {id : Id}
    (hid : id ∈ ids) : id < ids.foldl max 0 + 1 := by
  have hle := le_foldl_max (a := 0) (.inr hid)
  have hlt : (ids.foldl max 0).toNat + 1 < 2 ^ 64 := by
    rcases foldl_max_mem ids 0 with h0 | hmem
    · rw [h0]
      decide
    · exact h _ hmem
  have hsucc := @toNat_add_ofNat (ids.foldl max 0) 1 hlt
  rw [le_iff_toNat_le] at hle
  show id.toNat < (ids.foldl max 0 + UInt64.ofNat 1).toNat
  omega

/-- Every used id is below the counter; no id was handed out twice or also restored. -/
structure Inv (l : Ledger) : Prop where
  below : ∀ id ∈ l.used, id < l.db.counters.nextObjectId
  nodup : l.handed.Nodup
  apart : ∀ id ∈ l.handed, id ∉ l.restored

theorem nextObjectId_restoreObjects {view : View} {c : Counters} {typeName : String}
    {rows : List (Id × FieldMap)} {rejectExisting : Bool}
    (hrows : ∀ row ∈ rows, row.1.toNat + 1 < 2 ^ 64) :
    c.nextObjectId ≤
        (restoreObjects schema view c typeName rows rejectExisting).2.nextObjectId ∧
      ∀ writes, (restoreObjects schema view c typeName rows rejectExisting).1 = .ok writes →
        ∀ row ∈ rows, row.1 <
          (restoreObjects schema view c typeName rows rejectExisting).2.nextObjectId := by
  rw [restoreObjects]
  split
  · rename_i hempty
    rw [List.isEmpty_iff.mp hempty]
    exact ⟨UInt64.le_refl _, fun _ _ => nofun⟩
  split
  · exact ⟨UInt64.le_refl _, nofun⟩
  rename_i t ht
  have hsame := @nextObjectId_restoreRows schema view t rejectExisting rows
    { objectIds := [], staged := [], puts := [] } c
  split
  · rename_i hout
    rw [hout] at hsame
    exact ⟨by rw [← hsame]; exact UInt64.le_refl _, nofun⟩
  · rename_i writes c' hout
    rw [hout] at hsame
    have hmax := fun id h => @le_foldl_max [(rows.map Prod.fst).foldl max 0 + 1] c'.nextObjectId id h
    refine ⟨hmax _ (.inl hsame.symm), fun _ _ row hrow => ?_⟩
    have hlt : row.1 < (rows.map Prod.fst).foldl max 0 + 1 := by
      apply lt_foldl_max_add_one
      · simpa using fun id fields hmem => hrows (id, fields) hmem
      · exact mem_map_of_mem hrow
    exact UInt64.lt_of_lt_of_le hlt (hmax _ (.inr mem_cons_self))

theorem Inv.step (h : Inv l) {event : Event} (hsound : Sound schema l event) :
    Inv (l.step schema event) := by
  cases event with
  | call call =>
    obtain ⟨hle, hnodup, hspan⟩ := @handedOut_spec schema l.db call hsound
    have hold : ∀ id ∈ l.used, id ∉ handedOut schema l.db call := by
      intro id hid hnew
      exact UInt64.not_lt.mpr (hspan id hnew).1 (h.below id hid)
    refine ⟨?_, ?_, ?_⟩
    · intro id hid
      have hcases : id ∈ l.used ∨ id ∈ handedOut schema l.db call := by
        simp only [Ledger.step, used, mem_append] at hid ⊢
        tauto
      rcases hcases with hused | hnew
      · exact UInt64.lt_of_lt_of_le (h.below id hused) hle
      · exact (hspan id hnew).2
    · rw [Ledger.step, nodup_append']
      refine ⟨h.nodup, hnodup, fun id hid => hold id (mem_append_left _ hid)⟩
    · intro id hid hrestored
      rcases mem_append.mp hid with hid | hid
      · exact h.apart id hid hrestored
      · exact hold id (mem_append_right _ hrestored) hid
  | restore typeName rows rejectExisting =>
    obtain ⟨hle, hbelow⟩ := @nextObjectId_restoreObjects schema l.db.store.view l.db.counters
      typeName rows rejectExisting fun row hrow => (hsound row hrow).2
    rw [Ledger.step]
    split
    · rename_i writes c hout
      rw [hout] at hle hbelow
      refine ⟨?_, h.nodup, ?_⟩
      · intro id hid
        have hcases : id ∈ l.used ∨ id ∈ rows.map Prod.fst := by
          simp only [used, mem_append] at hid ⊢
          tauto
        rcases hcases with hused | hnew
        · exact UInt64.lt_of_lt_of_le (h.below id hused) hle
        · obtain ⟨row, hrow, rfl⟩ := mem_map.mp hnew
          exact hbelow writes rfl row hrow
      · intro id hid hrestored
        rcases mem_append.mp hrestored with hr | hr
        · exact h.apart id hid hr
        · obtain ⟨row, hrow, rfl⟩ := mem_map.mp hr
          exact (hsound row hrow).1 (mem_append_left _ hid)
    · rename_i e c hout
      rw [hout] at hle
      exact ⟨fun id hid => UInt64.lt_of_lt_of_le (h.below id hid) hle, h.nodup, h.apart⟩
  | reopen =>
    refine ⟨fun id hid => ?_, h.nodup, h.apart⟩
    obtain ⟨live, hlive, hle⟩ := hsound.1 id hid
    exact UInt64.lt_of_le_of_lt hle (lt_foldl_max_add_one hsound.2 hlive)

theorem Inv.new : Inv .new := ⟨nofun, nodup_nil, nofun⟩

/-- In every run that meets the condition, no id is handed out twice or is also a restored one. -/
theorem object_ids_distinct (schema : Schema) (events : List Event)
    (h : Run.Along (step schema) (Sound schema) .new events) :
    (Run.exec (step schema) .new events).handed.Nodup ∧
      ∀ id ∈ (Run.exec (step schema) .new events).handed,
        id ∉ (Run.exec (step schema) .new events).restored := by
  have hinv := Run.exec_invariant (I := Inv) (fun _ _ h hsound => h.step hsound) Inv.new h
  exact ⟨hinv.nodup, hinv.apart⟩

def olderDeleted : List Event :=
  [.call (.create "User" ∅), .call (.create "User" ∅), .restore "User" [(7, ∅)] true,
    .call (.delete "User" 1), .reopen, .call (.create "User" ∅)]

theorem object_ids_distinct_olderDeleted :
    (Run.exec (step ownersSchema) .new olderDeleted).handed = [1, 2, 8] ∧
      (Run.exec (step ownersSchema) .new olderDeleted).handed.Nodup ∧
      ∀ id ∈ (Run.exec (step ownersSchema) .new olderDeleted).handed,
        id ∉ (Run.exec (step ownersSchema) .new olderDeleted).restored :=
  ⟨by decide +kernel, object_ids_distinct ownersSchema olderDeleted (by decide +kernel)⟩

def newestDeleted : List Event :=
  [.call (.create "User" ∅), .call (.delete "User" 1), .reopen, .call (.create "User" ∅)]

theorem object_id_reused :
    (Run.exec (step ownersSchema) .new newestDeleted).handed = [1, 1] ∧
      ¬ (Run.exec (step ownersSchema) .new newestDeleted).handed.Nodup := by decide +kernel

end Ledger

end RhypeDb.Engine
