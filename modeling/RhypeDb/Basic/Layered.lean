import Mathlib.Data.List.Basic

/-! First-hit lookup through a list of layers: every layer before the one that decides
has to be passed over. -/

namespace RhypeDb.Layered

open List

variable {α β : Type*}

def FirstHit (skip hit : α → Prop) : List α → Prop
  | [] => False
  | x :: xs => hit x ∨ skip x ∧ FirstHit skip hit xs

variable {skip hit : α → Prop}

theorem firstHit_append {xs ys : List α} :
    FirstHit skip hit (xs ++ ys) ↔
      FirstHit skip hit xs ∨ (∀ x ∈ xs, skip x) ∧ FirstHit skip hit ys := by
  induction xs with
  | nil => simp [FirstHit]
  | cons x xs ih =>
    simp only [cons_append, FirstHit, ih, forall_mem_cons]
    tauto

variable {xs : List α}

theorem FirstHit.exists_mem (h : FirstHit skip hit xs) : ∃ x ∈ xs, hit x := by
  induction xs with
  | nil => exact h.elim
  | cons x xs ih =>
    rcases h with h | ⟨-, h⟩
    · exact ⟨x, mem_cons_self, h⟩
    · obtain ⟨y, hy, hhit⟩ := ih h
      exact ⟨y, mem_cons_of_mem x hy, hhit⟩

variable {skip' hit' : α → Prop} {f : α → Option β}

theorem FirstHit.mono (h : FirstHit skip hit xs) (hskip : ∀ x ∈ xs, skip x → skip' x)
    (hhit : ∀ x ∈ xs, hit x → hit' x) : FirstHit skip' hit' xs := by
  induction xs with
  | nil => exact h
  | cons x xs ih =>
    rw [forall_mem_cons] at hskip hhit
    exact h.imp (hhit.1) (And.imp hskip.1 fun h => ih h hskip.2 hhit.2)

theorem firstHit_congr (hskip : ∀ x ∈ xs, (skip x ↔ skip' x)) (hhit : ∀ x ∈ xs, (hit x ↔ hit' x)) :
    FirstHit skip hit xs ↔ FirstHit skip' hit' xs :=
  ⟨fun h => h.mono (fun x hx => (hskip x hx).mp) fun x hx => (hhit x hx).mp,
    fun h => h.mono (fun x hx => (hskip x hx).mpr) fun x hx => (hhit x hx).mpr⟩

theorem FirstHit.findSome? {b : β} (h : FirstHit skip hit xs)
    (hskip : ∀ x ∈ xs, skip x → f x = none) (hhit : ∀ x ∈ xs, hit x → f x = some b) :
    xs.findSome? f = some b := by
  induction xs with
  | nil => exact h.elim
  | cons x xs ih =>
    rw [forall_mem_cons] at hskip hhit
    rw [findSome?_cons]
    rcases h with h | ⟨hs, h⟩
    · rw [hhit.1 h]
    · rw [hskip.1 hs]
      exact ih h hskip.2 hhit.2

theorem findSome?_eq_some_iff {b : β} :
    xs.findSome? f = some b ↔ FirstHit (fun x => f x = none) (fun x => f x = some b) xs := by
  induction xs with
  | nil => simp [FirstHit]
  | cons x xs ih =>
    rw [findSome?_cons, FirstHit, ← ih]
    cases f x <;> simp

end RhypeDb.Layered
