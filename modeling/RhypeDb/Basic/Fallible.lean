import Mathlib.Tactic.Common

/-! Peeling apart computations that may fail. -/

namespace RhypeDb.Fallible

open List

universe u

variable {ε : Type*} {α β σ : Type u}

variable {f : α → Except ε β} {x : Except ε α} {l : List α} {a : α}

theorem bind_eq_ok {b : β} : (x >>= f) = .ok b ↔ ∃ a, x = .ok a ∧ f a = .ok b := by
  cases x with
  | error e => exact ⟨nofun, fun ⟨_, h, _⟩ => nomatch h⟩
  | ok a => exact ⟨fun h => ⟨a, rfl, h⟩, fun ⟨_, ha, h⟩ => by cases ha; exact h⟩

theorem bind_eq_error {e : ε} :
    (x >>= f) = .error e ↔ x = .error e ∨ ∃ a, x = .ok a ∧ f a = .error e := by
  cases x with
  | error e' =>
    constructor
    · intro h
      cases h
      exact .inl rfl
    · rintro (h | ⟨_, h, _⟩)
      · cases h
        rfl
      · cases h
  | ok a =>
    constructor
    · exact fun h => .inr ⟨a, rfl, h⟩
    · rintro (h | ⟨_, ha, h⟩)
      · cases h
      · cases ha
        exact h

theorem ok_bind : (Except.ok a >>= f) = f a := rfl

theorem pure_eq_ok {b : α} : (pure a : Except ε α) = .ok b ↔ a = b :=
  ⟨fun h => by cases h; rfl, fun h => by rw [h]; rfl⟩

theorem foldlM_induct {f : σ → α → Except ε σ} {P : σ → Prop} {l : List α}
    (hstep : ∀ s s' x, x ∈ l → P s → f s x = .ok s' → P s') {s s' : σ} (hs : P s)
    (h : l.foldlM f s = .ok s') : P s' := by
  induction l generalizing s with
  | nil =>
    cases h
    exact hs
  | cons x l ih =>
    rw [foldlM_cons, bind_eq_ok] at h
    obtain ⟨t, ht, h⟩ := h
    apply ih (fun s s' y hy => hstep s s' y (mem_cons_of_mem x hy)) _ h
    exact hstep s t x mem_cons_self hs ht

theorem foldlM_fixed {f : σ → α → Except ε σ} {s : σ}
    (h : ∀ x ∈ l, f s x = .ok s) : l.foldlM f s = .ok s := by
  induction l with
  | nil => rfl
  | cons x l ih =>
    rw [forall_mem_cons] at h
    rw [foldlM_cons, h.1]
    exact ih h.2

variable {xs : List α} {ys : List β}

theorem exists_of_mem_mapM (h : xs.mapM f = .ok ys) {y : β} (hy : y ∈ ys) :
    ∃ x ∈ xs, f x = .ok y := by
  induction xs generalizing ys with
  | nil =>
    cases h
    cases hy
  | cons x xs ih =>
    rw [mapM_cons] at h
    obtain ⟨first, hfirst, h⟩ := bind_eq_ok.mp h
    obtain ⟨rest, hrest, h⟩ := bind_eq_ok.mp h
    cases h
    rcases List.mem_cons.mp hy with rfl | hy
    · exact ⟨x, mem_cons_self, hfirst⟩
    · obtain ⟨x', hx', hval⟩ := ih hrest hy
      exact ⟨x', mem_cons_of_mem x hx', hval⟩

theorem exists_of_mem_of_mapM (h : xs.mapM f = .ok ys) {x : α} (hx : x ∈ xs) :
    ∃ y ∈ ys, f x = .ok y := by
  induction xs generalizing ys with
  | nil => cases hx
  | cons x' xs ih =>
    rw [mapM_cons] at h
    obtain ⟨first, hfirst, h⟩ := bind_eq_ok.mp h
    obtain ⟨rest, hrest, h⟩ := bind_eq_ok.mp h
    cases h
    rcases List.mem_cons.mp hx with rfl | hx
    · exact ⟨first, mem_cons_self, hfirst⟩
    · obtain ⟨y, hy, hval⟩ := ih hrest hx
      exact ⟨y, mem_cons_of_mem first hy, hval⟩

theorem map_eq_ok {f : α → β} {b : β} : x.map f = .ok b ↔ ∃ a, x = .ok a ∧ f a = b := by
  cases x with
  | error e => exact ⟨nofun, fun ⟨_, h, _⟩ => nomatch h⟩
  | ok a => exact ⟨fun h => ⟨a, rfl, Except.ok.inj h⟩, fun ⟨_, ha, h⟩ => by cases ha; rw [← h]; rfl⟩

theorem isOk_iff : x.isOk ↔ ∃ a, x = .ok a := by
  cases x with
  | error e => exact ⟨nofun, nofun⟩
  | ok a => exact ⟨fun _ => ⟨a, rfl⟩, fun _ => rfl⟩

theorem map_isOk (x : Except ε α) (f : α → β) : (x.map f).isOk = x.isOk := by
  cases x with
  | error e => rfl
  | ok a => rfl

theorem mapM_eq_ok {g : α → β} (h : ∀ x ∈ xs, f x = .ok (g x)) : xs.mapM f = .ok (xs.map g) := by
  induction xs with
  | nil => rfl
  | cons x xs ih =>
    rw [forall_mem_cons] at h
    rw [mapM_cons, h.1, ih h.2]
    rfl

def Within (x y : Except ε α) : Prop := ∀ a, x = .ok a → y = .ok a

theorem Within.refl (x : Except ε α) : Within x x := fun _ h => h

theorem Within.bind {x y : Except ε α} {f g : α → Except ε β} (h : Within x y)
    (hfg : ∀ a, Within (f a) (g a)) : Within (x >>= f) (y >>= g) := by
  intro b hb
  obtain ⟨a, ha, hb⟩ := bind_eq_ok.mp hb
  exact bind_eq_ok.mpr ⟨a, h a ha, hfg a b hb⟩

theorem Within.foldlM {f g : σ → α → Except ε σ} (h : ∀ s x, Within (f s x) (g s x)) (l : List α)
    (s : σ) : Within (l.foldlM f s) (l.foldlM g s) := by
  induction l generalizing s with
  | nil => exact .refl _
  | cons x l ih => exact Within.bind (h s x) ih

/-- A check that fails with the given error. -/
def require (c : Prop) [Decidable c] (e : ε) : Except ε Unit := if c then .ok () else .error e

@[simp] theorem require_eq_ok {c : Prop} [Decidable c] {e : ε} {u : Unit} :
    require c e = .ok u ↔ c := by
  unfold require
  split_ifs with h
  · exact ⟨fun _ => h, fun _ => rfl⟩
  · exact ⟨nofun, fun hc => absurd hc h⟩

theorem forM_eq_ok {f : α → Except ε PUnit} : xs.forM f = .ok ⟨⟩ ↔ ∀ x ∈ xs, f x = .ok ⟨⟩ := by
  induction xs with
  | nil => exact ⟨fun _ => nofun, fun _ => rfl⟩
  | cons x xs ih =>
    rw [forM_eq_forM, forM_cons, bind_eq_ok, forall_mem_cons, ← ih]
    constructor
    · rintro ⟨_, hx, hxs⟩
      exact ⟨hx, hxs⟩
    · rintro ⟨hx, hxs⟩
      exact ⟨⟨⟩, hx, hxs⟩

end RhypeDb.Fallible
