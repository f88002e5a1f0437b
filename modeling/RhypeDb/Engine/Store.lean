import RhypeDb.Engine.Keys

/-! What a transaction reads, and the logical store that committed writes build up. -/

namespace RhypeDb.Engine

open List SortedMap Storage

/-- The reads of a transaction at its snapshot: point reads, and the prefix scans of one
source's or one target's edges under a relation, in id order. No scan returns more than
`size` rows. -/
structure View where
  get : Key → Except EngineError (Option Payload)
  scanEdges : (sourceId relId : Id) → List (Id × Payload)
  scanReverseEdges : (targetId relId : Id) → List (Id × Payload)
  size : Nat

abbrev Store := SortedMap Key Payload

namespace Store

def empty : Store := SortedMap.empty

def apply (store : Store) (writes : Writes Key Payload) : Store :=
  writes.foldl (fun m w =>
    match w.2 with
    | some value => m.insert w.1 value
    | none => m.erase w.1) store

def Has (store : Store) (k : Key) : Prop := (store.lookup k).isSome

instance (store : Store) (k : Key) : Decidable (store.Has k) :=
  inferInstanceAs (Decidable (_ = true))

def view (store : Store) : View where
  get k := .ok (store.lookup k)
  scanEdges sourceId relId := store.entries.filterMap fun e =>
    match e.1 with
    | .edge s r t => if s = sourceId ∧ r = relId then some (t, e.2) else none
    | _ => none
  scanReverseEdges targetId relId := store.entries.filterMap fun e =>
    match e.1 with
    | .reverseEdge t r s => if t = targetId ∧ r = relId then some (s, e.2) else none
    | _ => none
  size := store.entries.length

def edges (store : Store) : List (Id × Id × Id) := store.entries.filterMap fun e =>
  match e.1 with
  | .edge s r t => some (s, r, t)
  | _ => none

variable {store : Store}

variable {s r t : Id} {value : Payload}

theorem mem_edges : (s, r, t) ∈ store.edges ↔ store.Has (.edge s r t) := by
  rw [Has, Option.isSome_iff_exists, edges, mem_filterMap]
  simp only [lookup_eq_some]
  constructor
  · rintro ⟨⟨key, value⟩, he, h⟩
    cases key with
    | edge s' r' t' =>
      obtain ⟨rfl, rfl, rfl⟩ := h
      exact ⟨value, he⟩
    | _ => cases h
  · rintro ⟨value, he⟩
    exact ⟨_, he, rfl⟩

theorem lookup_apply (store : Store) (writes : Writes Key Payload) (k : Key) :
    (store.apply writes).lookup k = (lastWrite writes k).getD (store.lookup k) := by
  induction writes using List.reverseRecOn with
  | nil => rfl
  | append_singleton writes w ih =>
    rw [lastWrite_concat, apply, foldl_append, foldl_cons, foldl_nil]
    obtain ⟨key, _ | value⟩ := w
    · rw [lookup_erase]
      by_cases hk : key = k
      · simp [hk]
      · rw [if_neg (Ne.symm hk), if_neg hk]
        exact ih
    · rw [lookup_insert]
      by_cases hk : key = k
      · simp [hk]
      · rw [if_neg (Ne.symm hk), if_neg hk]
        exact ih

theorem mem_scanEdges :
    (t, value) ∈ store.view.scanEdges s r ↔ store.lookup (.edge s r t) = some value := by
  rw [lookup_eq_some, view, mem_filterMap]
  constructor
  · rintro ⟨⟨key, v⟩, he, h⟩
    cases key with
    | edge s' r' t' =>
      simp only [Option.ite_none_right_eq_some, Option.some.injEq, Prod.mk.injEq] at h
      obtain ⟨⟨rfl, rfl⟩, rfl, rfl⟩ := h
      exact he
    | _ => cases h
  · intro he
    exact ⟨_, he, by simp⟩

theorem mem_scanReverseEdges :
    (s, value) ∈ store.view.scanReverseEdges t r ↔
      store.lookup (.reverseEdge t r s) = some value := by
  rw [lookup_eq_some, view, mem_filterMap]
  constructor
  · rintro ⟨⟨key, v⟩, he, h⟩
    cases key with
    | reverseEdge t' r' s' =>
      simp only [Option.ite_none_right_eq_some, Option.some.injEq, Prod.mk.injEq] at h
      obtain ⟨⟨rfl, rfl⟩, rfl, rfl⟩ := h
      exact he
    | _ => cases h
  · intro he
    exact ⟨_, he, by simp⟩

theorem has_of_mem_scanEdges {s r : Id} {row : Id × Payload}
    (h : row ∈ store.view.scanEdges s r) : store.Has (.edge s r row.1) := by
  rw [Has, mem_scanEdges.mp h]
  rfl

theorem exists_mem_scanEdges (h : store.Has (.edge s r t)) :
    ∃ value, (t, value) ∈ store.view.scanEdges s r := by
  obtain ⟨value, hvalue⟩ := Option.isSome_iff_exists.mp h
  exact ⟨value, mem_scanEdges.mpr hvalue⟩

theorem exists_mem_scanReverseEdges (h : store.Has (.reverseEdge t r s)) :
    ∃ value, (s, value) ∈ store.view.scanReverseEdges t r := by
  obtain ⟨value, hvalue⟩ := Option.isSome_iff_exists.mp h
  exact ⟨value, mem_scanReverseEdges.mpr hvalue⟩

section

variable {writes : Writes Key Payload} {k : Key} {keys : List Key}

theorem has_apply : (store.apply writes).Has k ↔
    (∃ value, lastWrite writes k = some (some value)) ∨
      (k ∉ writes.map Prod.fst ∧ store.Has k) := by
  rw [Has, lookup_apply]
  cases hw : lastWrite writes k with
  | none =>
    have : k ∉ writes.map Prod.fst := by
      rw [← isSome_lastWrite, hw]
      simp
    simp [Has, this]
  | some last =>
    have : k ∈ writes.map Prod.fst := by
      rw [← isSome_lastWrite, hw]
      rfl
    cases last <;> simp [this]

theorem has_apply_puts (hputs : ∀ w ∈ writes, w.1 = k → w.2.isSome) :
    (store.apply writes).Has k ↔ k ∈ writes.map Prod.fst ∨ store.Has k := by
  rw [has_apply]
  by_cases hk : k ∈ writes.map Prod.fst
  · obtain ⟨v, hv⟩ := Option.isSome_iff_exists.mp (isSome_lastWrite.mpr hk)
    obtain ⟨value, hvalue⟩ := Option.isSome_iff_exists.mp (hputs _ (lastWrite_mem hv) rfl)
    have hput : lastWrite writes k = some (some value) := hv.trans (congrArg some hvalue)
    simp [hk, hput]
  · have hnone : lastWrite writes k = none := by
      rw [← Option.not_isSome_iff_eq_none, isSome_lastWrite]
      exact hk
    simp [hk, hnone]

theorem has_apply_tombstones :
    (store.apply (keys.map fun key => (key, none))).Has k ↔ k ∉ keys ∧ store.Has k := by
  rw [has_apply, map_map]
  have hkeys : (keys.map (Prod.fst ∘ fun key => (key, (none : Option Payload)))) = keys := by
    simp [Function.comp_def]
  rw [hkeys]
  constructor
  · rintro (⟨value, h⟩ | h)
    · obtain ⟨key, -, heq⟩ := mem_map.mp (lastWrite_mem h)
      cases heq
    · exact h
  · exact .inr

theorem lookup_apply_tombstones :
    (store.apply (keys.map fun key => (key, none))).lookup k =
      if k ∈ keys then none else store.lookup k := by
  rw [lookup_apply]
  by_cases hk : k ∈ keys
  · have hlast : lastWrite (keys.map fun key => (key, (none : Option Payload))) k = some none := by
      apply lastWrite_of_agree (mem_map.mpr ⟨k, hk, rfl⟩)
      simp
    rw [hlast, if_pos hk]
    rfl
  · have hlast : lastWrite (keys.map fun key => (key, (none : Option Payload))) k = none := by
      rw [lastWrite_eq_none, forall_mem_map]
      rintro key hkey rfl
      exact hk hkey
    rw [hlast, if_neg hk]
    rfl

end

end Store

end RhypeDb.Engine
