import Mathlib.Data.Finset.Card
import Mathlib.Data.List.Lex
import Mathlib.Data.List.Pairwise
import Mathlib.Data.List.TakeWhile

/-! Ordered maps as association lists with increasing keys, the order a tree or skip
list iterates in. The list is determined by what it contains. -/

namespace RhypeDb

open List

/-- An ordered map. -/
@[ext]
structure SortedMap (κ β : Type*) [LinearOrder κ] where
  entries : List (κ × β)
  sorted : entries.Pairwise fun a b => a.1 < b.1

namespace SortedMap

variable {κ β : Type*} [LinearOrder κ]

instance [DecidableEq β] : DecidableEq (SortedMap κ β) := fun _ _ =>
  decidable_of_iff _ SortedMap.ext_iff.symm

def insertEntry (k : κ) (v : β) : List (κ × β) → List (κ × β)
  | [] => [(k, v)]
  | e :: es =>
    if k < e.1 then (k, v) :: e :: es
    else if e.1 < k then e :: insertEntry k v es
    else (k, v) :: es

variable {es : List (κ × β)} {k : κ}

variable {x : κ × β} {v : β}

theorem mem_insertEntry (hs : es.Pairwise fun a b => a.1 < b.1) :
    x ∈ insertEntry k v es ↔ x = (k, v) ∨ x ∈ es ∧ x.1 ≠ k := by
  induction es with
  | nil => simp [insertEntry]
  | cons e es ih =>
    obtain ⟨hhead, htail⟩ := pairwise_cons.mp hs
    unfold insertEntry
    split_ifs with h₁ h₂
    · have hne : ∀ y ∈ e :: es, y.1 ≠ k := by
        rintro y hy rfl
        rcases mem_cons.mp hy with rfl | hy
        · exact lt_irrefl _ h₁
        · exact lt_asymm h₁ (hhead y hy)
      simp only [mem_cons (b := (k, v))]
      exact or_congr_right (iff_self_and.mpr (hne x))
    · rw [mem_cons, ih htail, mem_cons]
      have hek : e.1 ≠ k := h₂.ne
      constructor
      · rintro (rfl | rfl | ⟨hx, hk⟩)
        · exact .inr ⟨.inl rfl, hek⟩
        · exact .inl rfl
        · exact .inr ⟨.inr hx, hk⟩
      · rintro (rfl | ⟨rfl | hx, hk⟩)
        · exact .inr (.inl rfl)
        · exact .inl rfl
        · exact .inr (.inr ⟨hx, hk⟩)
    · have hek : e.1 = k := le_antisymm (not_lt.mp h₁) (not_lt.mp h₂)
      subst hek
      rw [mem_cons, mem_cons]
      constructor
      · rintro (rfl | hx)
        · exact .inl rfl
        · exact .inr ⟨.inr hx, (hhead x hx).ne'⟩
      · rintro (rfl | ⟨rfl | hx, hk⟩)
        · exact .inl rfl
        · exact absurd rfl hk
        · exact .inr hx

theorem sorted_insertEntry (hs : es.Pairwise fun a b => a.1 < b.1) :
    (insertEntry k v es).Pairwise fun a b => a.1 < b.1 := by
  induction es with
  | nil => exact pairwise_singleton _ _
  | cons e es ih =>
    obtain ⟨hhead, htail⟩ := pairwise_cons.mp hs
    unfold insertEntry
    split_ifs with h₁ h₂
    · refine pairwise_cons.mpr ⟨fun y hy => ?_, hs⟩
      rcases mem_cons.mp hy with rfl | hy
      · exact h₁
      · exact h₁.trans (hhead y hy)
    · refine pairwise_cons.mpr ⟨fun y hy => ?_, ih htail⟩
      rcases (mem_insertEntry htail).mp hy with rfl | ⟨hy, -⟩
      · exact h₂
      · exact hhead y hy
    · have hek : e.1 = k := le_antisymm (not_lt.mp h₁) (not_lt.mp h₂)
      exact pairwise_cons.mpr ⟨fun y hy => hek ▸ hhead y hy, htail⟩

def empty : SortedMap κ β := ⟨[], List.Pairwise.nil⟩

def insert (m : SortedMap κ β) (k : κ) (v : β) : SortedMap κ β :=
  ⟨insertEntry k v m.entries, sorted_insertEntry m.sorted⟩

def erase (m : SortedMap κ β) (k : κ) : SortedMap κ β :=
  ⟨m.entries.filter fun e => decide (e.1 ≠ k), m.sorted.filter _⟩

def insertAll (m : SortedMap κ β) (es : List (κ × β)) : SortedMap κ β :=
  es.foldl (fun m e => m.insert e.1 e.2) m

def eraseAll (m : SortedMap κ β) (ks : List κ) : SortedMap κ β := ks.foldl erase m

def lookup (m : SortedMap κ β) (k : κ) : Option β :=
  (m.entries.find? fun e => decide (e.1 = k)).map Prod.snd

/-- The entries from `k` on. -/
def range (m : SortedMap κ β) (k : κ) : List (κ × β) :=
  m.entries.dropWhile fun e => decide (e.1 < k)

variable {m : SortedMap κ β}

theorem mem_insert : x ∈ (m.insert k v).entries ↔ x = (k, v) ∨ x ∈ m.entries ∧ x.1 ≠ k :=
  mem_insertEntry m.sorted

theorem eq_of_mem {x y : κ × β} (hx : x ∈ m.entries) (hy : y ∈ m.entries) (h : x.1 = y.1) :
    x = y := by
  by_contra hne
  have hdistinct : m.entries.Pairwise fun a b => a.1 ≠ b.1 := m.sorted.imp fun hab => hab.ne
  have : Std.Symm fun a b : κ × β => a.1 ≠ b.1 := ⟨fun _ _ => Ne.symm⟩
  exact hdistinct.forall hx hy hne h

theorem lookup_eq_some : m.lookup k = some v ↔ (k, v) ∈ m.entries := by
  unfold lookup
  constructor
  · intro h
    obtain ⟨e, he, rfl⟩ := Option.map_eq_some_iff.mp h
    have hk : e.1 = k := by simpa using find?_some he
    exact hk ▸ mem_of_find?_eq_some he
  · intro h
    cases hf : m.entries.find? fun e => decide (e.1 = k) with
    | none => simpa using find?_eq_none.mp hf _ h
    | some e =>
      have hk : e.1 = k := by simpa using find?_some hf
      rw [eq_of_mem (mem_of_find?_eq_some hf) h hk]
      rfl

theorem range_split (m : SortedMap κ β) (k : κ) : ∃ pre, m.entries = pre ++ m.range k ∧
    (∀ e ∈ pre, e.1 < k) ∧ ∀ e ∈ m.range k, k ≤ e.1 := by
  have hsplit : m.entries = (m.entries.takeWhile fun e => decide (e.1 < k)) ++ m.range k := by
    rw [range, takeWhile_append_dropWhile]
  refine ⟨m.entries.takeWhile fun e => decide (e.1 < k), hsplit, ?_, ?_⟩
  · intro e he
    simpa using mem_takeWhile_imp he
  · cases hr : m.range k with
    | nil => simp
    | cons x xs =>
      have hx : k ≤ x.1 := by
        have hhead := head?_dropWhile_not (fun e : κ × β => decide (e.1 < k)) m.entries
        rw [show m.entries.dropWhile (fun e => decide (e.1 < k)) = x :: xs from hr] at hhead
        simpa using hhead
      have hs := m.sorted
      rw [hsplit, hr, pairwise_append, pairwise_cons] at hs
      intro e he
      rcases mem_cons.mp he with rfl | he
      · exact hx
      · exact hx.trans (hs.2.1.1 e he).le

@[simp] theorem lookup_empty (k : κ) : (empty : SortedMap κ β).lookup k = none := rfl

theorem lookup_insert (m : SortedMap κ β) (k : κ) (v : β) (k' : κ) :
    (m.insert k v).lookup k' = if k' = k then some v else m.lookup k' := by
  refine Option.ext fun w => ?_
  split_ifs with h
  · subst h
    rw [lookup_eq_some, mem_insert]
    simp [eq_comm]
  · rw [lookup_eq_some, lookup_eq_some, mem_insert]
    simp [h]

theorem lookup_erase (m : SortedMap κ β) (k k' : κ) :
    (m.erase k).lookup k' = if k' = k then none else m.lookup k' := by
  refine Option.ext fun w => ?_
  split_ifs with h
  · rw [lookup_eq_some, erase, mem_filter]
    simp [h]
  · rw [lookup_eq_some, lookup_eq_some, erase, mem_filter]
    simp [h]

theorem lookup_eraseAll (m : SortedMap κ β) (ks : List κ) (k : κ) :
    (m.eraseAll ks).lookup k = if k ∈ ks then none else m.lookup k := by
  induction ks generalizing m with
  | nil => rfl
  | cons k' ks ih =>
    change ((m.erase k').eraseAll ks).lookup k = _
    rw [ih, lookup_erase]
    by_cases hks : k ∈ ks
    · rw [if_pos hks, if_pos (mem_cons_of_mem _ hks)]
    · rw [if_neg hks]
      simp only [mem_cons, hks, or_false]

theorem lookup_insertAll_of_notMem (m : SortedMap κ β) (hk : k ∉ es.map Prod.fst) :
    (m.insertAll es).lookup k = m.lookup k := by
  induction es generalizing m with
  | nil => rfl
  | cons e es ih =>
    rw [map_cons, mem_cons, not_or] at hk
    change ((m.insert e.1 e.2).insertAll es).lookup k = _
    rw [ih _ hk.2, lookup_insert, if_neg hk.1]

theorem lookup_insertAll_of_mem {e : κ × β} (m : SortedMap κ β) (hnodup : (es.map Prod.fst).Nodup)
    (he : e ∈ es) : (m.insertAll es).lookup e.1 = some e.2 := by
  induction es generalizing m with
  | nil => cases he
  | cons e' es ih =>
    rw [map_cons, nodup_cons] at hnodup
    change ((m.insert e'.1 e'.2).insertAll es).lookup e.1 = _
    rcases mem_cons.mp he with rfl | he
    · rw [lookup_insertAll_of_notMem _ hnodup.1, lookup_insert, if_pos rfl]
    · exact ih _ hnodup.2 he

def mapValues (f : κ → β → β) (m : SortedMap κ β) : SortedMap κ β :=
  ⟨m.entries.map fun e => (e.1, f e.1 e.2), List.pairwise_map.mpr m.sorted⟩

theorem entries_eq_of_mem_iff {es fs : List (κ × β)} (he : es.Pairwise fun a b => a.1 < b.1)
    (hf : fs.Pairwise fun a b => a.1 < b.1) (h : ∀ x, x ∈ es ↔ x ∈ fs) : es = fs := by
  have hnodup : ∀ {l : List (κ × β)}, (l.Pairwise fun a b => a.1 < b.1) → l.Nodup := by
    intro l hl
    refine List.Pairwise.imp ?_ hl
    rintro a b hab rfl
    exact lt_irrefl _ hab
  refine List.Perm.eq_of_pairwise ?_ he hf
    ((perm_ext_iff_of_nodup (hnodup he) (hnodup hf)).mpr h)
  intro a b _ _ hab hba
  exact absurd hab (lt_asymm hba)

theorem eq_of_lookup {m m' : SortedMap κ β} (h : ∀ k, m.lookup k = m'.lookup k) : m = m' := by
  apply SortedMap.ext
  apply entries_eq_of_mem_iff m.sorted m'.sorted
  intro x
  rw [← Prod.mk.eta (p := x), ← lookup_eq_some, ← lookup_eq_some, h]

theorem mem_take_iff (hs : es.Pairwise fun a b => a.1 < b.1) {n : Nat} :
    x ∈ es.take n ↔ x ∈ es ∧
      ∀ s : Finset κ, (∀ j ∈ s, j < x.1 ∧ ∃ v, (j, v) ∈ es) → s.card < n := by
  constructor
  · intro hx
    refine ⟨mem_of_mem_take hx, fun s hbelow => ?_⟩
    obtain ⟨front, back, hsplit⟩ := append_of_mem hx
    have hlen : front.length < n := by
      have := congrArg List.length hsplit
      simp only [length_take, length_append, length_cons] at this
      omega
    -- every smaller key stands in front of `x`
    have hsub : s ⊆ (front.map Prod.fst).toFinset := by
      intro j hj
      obtain ⟨hlt, v, hv⟩ := hbelow j hj
      rw [mem_toFinset, mem_map]
      refine ⟨(j, v), ?_, rfl⟩
      rw [← take_append_drop n es, hsplit, append_assoc, mem_append] at hv
      rcases hv with hv | hv
      · exact hv
      · rw [← take_append_drop n es, hsplit, append_assoc, pairwise_append,
          cons_append, pairwise_cons] at hs
        rcases mem_cons.mp hv with heq | hv
        · rw [← heq] at hlt
          exact absurd hlt (lt_irrefl j)
        · exact absurd hlt (lt_asymm (hs.2.1.1 (j, v) hv))
    calc s.card ≤ (front.map Prod.fst).toFinset.card := Finset.card_le_card hsub
      _ ≤ (front.map Prod.fst).length := toFinset_card_le _
      _ = front.length := length_map _
      _ < n := hlen
  · rintro ⟨hx, hbelow⟩
    obtain ⟨front, back, rfl⟩ := append_of_mem hx
    rw [pairwise_append] at hs
    have hnodup : (front.map Prod.fst).Nodup :=
      pairwise_map.mpr (hs.1.imp fun h => h.ne)
    have hcard := hbelow (front.map Prod.fst).toFinset ?_
    · rw [toFinset_card_of_nodup hnodup, length_map] at hcard
      rw [take_append, mem_append]
      right
      obtain ⟨d, hd⟩ := Nat.exists_eq_add_of_lt hcard
      rw [show n - front.length = d + 1 by omega, take_succ_cons]
      exact mem_cons_self
    · intro j hj
      obtain ⟨y, hy, rfl⟩ := mem_map.mp (mem_toFinset.mp hj)
      exact ⟨hs.2.2 y hy x mem_cons_self, y.2, mem_append_left _ hy⟩

end SortedMap
end RhypeDb
