import Mathlib.Data.List.Destutter
import Mathlib.Data.List.Sort

/-! Sorting by a key and dropping all but the first of each run of equal keys; dropping all
repeats of a list. -/

namespace RhypeDb.SortDedup

open List

variable {α κ : Type*} [LinearOrder κ] (key : α → κ)

/-- `sort_by_key`, which is stable, then `dedup_by_key`. -/
def sortDedupBy (l : List α) : List α :=
  (l.insertionSort fun a b => key a ≤ key b).destutter fun a b => key a ≠ key b

variable {key} {l : List α} {a : α}

theorem mem_of_mem_sortDedupBy (h : a ∈ sortDedupBy key l) : a ∈ l :=
  (mem_insertionSort _).mp ((destutter_sublist _ _).mem h)

theorem isChain_and {R S : α → α → Prop} (hR : l.IsChain R) (hS : l.IsChain S) :
    l.IsChain fun a b => R a b ∧ S a b := by
  induction l with
  | nil => exact .nil
  | cons a l ih =>
    cases l with
    | nil => exact .singleton a
    | cons b l =>
      rw [isChain_cons_cons] at hR hS ⊢
      exact ⟨⟨hR.1, hS.1⟩, ih hR.2 hS.2⟩

theorem pairwise_sortDedupBy : (sortDedupBy key l).Pairwise fun a b => key a < key b := by
  have hle : (l.insertionSort fun a b => key a ≤ key b).Pairwise fun a b => key a ≤ key b := by
    exact pairwise_insertionSort _ l
  have hlt := isChain_and ((hle.sublist (destutter_sublist _ _)).isChain)
    (isChain_destutter (R := fun a b : α => key a ≠ key b) _)
  have htrans : IsTrans α fun a b => key a ≤ key b ∧ key a ≠ key b :=
    ⟨fun a b c hab hbc => by
      have hac := (lt_of_le_of_ne hab.1 hab.2).trans (lt_of_le_of_ne hbc.1 hbc.2)
      exact ⟨hac.le, hac.ne⟩⟩
  exact hlt.pairwise.imp fun h => lt_of_le_of_ne h.1 h.2

/-- What the first `n` leave out is behind the last of them. -/
theorem mem_take_or_last_lt {n : Nat} (hl : l.Pairwise fun a b => key a < key b)
    (hn : 1 ≤ n) (ha : a ∈ l) :
    a ∈ l.take n ∨ n < l.length ∧ ∃ last ∈ (l.take n).getLast?, key last < key a := by
  rw [← take_append_drop n l] at hl
  rw [← take_append_drop n l, mem_append] at ha
  rcases ha with hfirst | hlater
  · exact .inl hfirst
  · have hlength : n < l.length := by
      by_contra hle
      rw [drop_eq_nil_of_le (Nat.le_of_not_lt hle)] at hlater
      cases hlater
    have hne : l.take n ≠ [] := by
      intro hnil
      have hlen := congrArg List.length hnil
      rw [length_take, length_nil] at hlen
      omega
    exact .inr ⟨hlength, _, getLast?_eq_some_getLast hne,
      (pairwise_append.mp hl).2.2 _ (getLast_mem hne) a hlater⟩

theorem exists_mem_destutter' {x : α} (h : x ∈ a :: l) :
    ∃ y ∈ l.destutter' (fun a b => key a ≠ key b) a, key y = key x := by
  induction l generalizing a with
  | nil =>
    rw [mem_singleton] at h
    subst h
    exact ⟨x, mem_singleton_self x, rfl⟩
  | cons b l ih =>
    rw [destutter'_cons]
    split_ifs with hne
    · rcases mem_cons.mp h with rfl | h
      · exact ⟨x, mem_cons_self, rfl⟩
      · obtain ⟨y, hy, hkey⟩ := ih h
        exact ⟨y, mem_cons_of_mem a hy, hkey⟩
    · -- `b` has the key of `a`, which stands for it
      rw [not_not] at hne
      rcases mem_cons.mp h with rfl | h
      · exact ih mem_cons_self
      · rcases mem_cons.mp h with rfl | h
        · exact ⟨a, mem_destutter' _ _ _, hne⟩
        · exact ih (mem_cons_of_mem a h)

theorem exists_mem_sortDedupBy {x : α} (h : x ∈ l) : ∃ y ∈ sortDedupBy key l, key y = key x := by
  rw [← mem_insertionSort (fun a b => key a ≤ key b)] at h
  unfold sortDedupBy
  cases hl : l.insertionSort fun a b => key a ≤ key b with
  | nil =>
    rw [hl] at h
    cases h
  | cons a tail =>
    rw [hl] at h
    exact exists_mem_destutter' h

theorem mem_sortDedupBy (hinj : ∀ a ∈ l, ∀ b ∈ l, key a = key b → a = b) :
    a ∈ sortDedupBy key l ↔ a ∈ l := by
  constructor
  · exact mem_of_mem_sortDedupBy
  · intro ha
    obtain ⟨y, hy, hkey⟩ : ∃ y ∈ sortDedupBy key l, key y = key a := exists_mem_sortDedupBy ha
    rwa [← hinj y (mem_of_mem_sortDedupBy hy) a ha hkey]

theorem eq_of_mem_iff {l₁ l₂ : List α} (h₁ : l₁.Pairwise fun a b => key a < key b)
    (h₂ : l₂.Pairwise fun a b => key a < key b) (h : ∀ a, a ∈ l₁ ↔ a ∈ l₂) : l₁ = l₂ := by
  exact h₁.eq_of_mem_iff h₂ fun {a} => h a

variable {β : Type*} [BEq β]

end RhypeDb.SortDedup
