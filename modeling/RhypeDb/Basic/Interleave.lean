import Mathlib.Order.Monotone.Defs
import RhypeDb.Basic.Run

/-! Programs of atomic steps on a state that they share. The states are ordered by what the
programs can make of one: a fact that is monotone in this order, once a program knows it, stays
true whatever the others do. -/

namespace RhypeDb.Interleave

variable {σ α β : Type}

/-- A program has returned, has panicked, has used up the turns of a loop, or is about to change
the state, and to go on with what it sees of the state before the change. -/
inductive Prog (σ α : Type)
  | ret (a : α)
  | panicked
  | spent
  | step (update : σ → σ) (next : σ → Prog σ α)

namespace Prog

def bind : Prog σ α → (α → Prog σ β) → Prog σ β
  | ret a, f => f a
  | panicked, _ => panicked
  | spent, _ => spent
  | step update next, f => step update fun s => (next s).bind f

instance : Monad (Prog σ) where
  pure := ret
  bind := bind

/-- One atomic section; `none` is a panic, which leaves the state as it is. -/
def atomic (f : σ → Option (α × σ)) : Prog σ α :=
  step (fun s => ((f s).map Prod.snd).getD s) fun s => ((f s).map fun r => ret r.1).getD panicked

def load (f : σ → α) : Prog σ α := atomic fun s => some (f s, s)

def write (f : σ → σ) : Prog σ Unit := atomic fun s => some ((), f s)

def result : Prog σ α → Option α
  | ret a => some a
  | _ => none

/-- The program on a state that it has for itself. -/
def run : Prog σ α → σ → Option (α × σ)
  | ret a, s => some (a, s)
  | panicked, _ => none
  | spent, _ => none
  | step update next, s => (next s).run (update s)

@[simp] theorem run_pure (a : α) (s : σ) : (pure a : Prog σ α).run s = some (a, s) := rfl

@[simp] theorem run_bind (p : Prog σ α) (f : α → Prog σ β) (s : σ) :
    (p >>= f).run s = (p.run s).bind fun r => (f r.1).run r.2 := by
  induction p generalizing s with
  | ret a => rfl
  | panicked => rfl
  | spent => rfl
  | step update next ih => exact ih s (update s)

@[simp] theorem run_load (f : σ → α) (s : σ) : (load f).run s = some (f s, s) := rfl

end Prog

open Prog

structure System (σ α : Type) where
  shared : σ
  programs : List (Prog σ α)

/-- The next step of one of the programs; one that has ended takes none. -/
def System.advance (sys : System σ α) (i : ℕ) : System σ α :=
  match sys.programs[i]? with
  | some (.step update next) => ⟨update sys.shared, sys.programs.set i (next sys.shared)⟩
  | _ => sys

variable [Preorder σ] {inv : σ → Prop}

/-- From a state on, whatever the others do in between: no step of the program panics, each keeps
the invariant and stays in the order, and where it returns it knows `Q`. -/
def Keeps (inv : σ → Prop) (Q : α → σ → Prop) : Prog σ α → σ → Prop
  | .ret a, s => Q a s
  | .panicked, _ => False
  | .spent, _ => True
  | .step update next, s => ∀ s', s ≤ s' → inv s' →
      inv (update s') ∧ s' ≤ update s' ∧ Keeps inv Q (next s') (update s')

variable {Q : α → σ → Prop} {Q' : β → σ → Prop} {p : Prog σ α} {s s' : σ}

theorem Keeps.pure {a : α} (h : Q a s) : Keeps inv Q (pure a) s := h

theorem Keeps.mono (hQ : ∀ a, Monotone (Q a)) (h : Keeps inv Q p s) (hle : s ≤ s') :
    Keeps inv Q p s' := by
  cases p with
  | ret a => exact hQ a hle h
  | panicked => exact h
  | spent => trivial
  | step update next => exact fun t ht => h t (hle.trans ht)

theorem Keeps.bind {f : α → Prog σ β} (h : Keeps inv Q p s)
    (hf : ∀ a s', s ≤ s' → Q a s' → Keeps inv Q' (f a) s') : Keeps inv Q' (p >>= f) s := by
  induction p generalizing s with
  | ret a => exact hf a s le_rfl h
  | panicked => exact h
  | spent => trivial
  | step update next ih =>
    intro t ht hinv
    obtain ⟨hinv', hle, hnext⟩ := h t ht hinv
    exact ⟨hinv', hle, ih t hnext fun a u hu => hf a u ((ht.trans hle).trans hu)⟩

theorem Keeps.weaken {Q' : α → σ → Prop} (h : Keeps inv Q p s)
    (hQ : ∀ a s', Q a s' → Q' a s') : Keeps inv Q' p s := by
  induction p generalizing s with
  | ret a => exact hQ a s h
  | panicked => exact h
  | spent => trivial
  | step update next ih =>
    intro t ht hinv
    obtain ⟨hinv', hle, hnext⟩ := h t ht hinv
    exact ⟨hinv', hle, ih t hnext⟩

theorem Keeps.atomic {f : σ → Option (α × σ)}
    (h : ∀ s', s ≤ s' → inv s' → ∃ a t, f s' = some (a, t) ∧ inv t ∧ s' ≤ t ∧ Q a t) :
    Keeps inv Q (atomic f) s := by
  intro s' hle hinv
  obtain ⟨a, t, hf, hinv', hle', hQ⟩ := h s' hle hinv
  simp only [hf, Option.map_some, Option.getD_some]
  exact ⟨hinv', hle', hQ⟩

theorem Keeps.load {f : σ → α} (h : ∀ s', s ≤ s' → inv s' → Q (f s') s') : Keeps inv Q (load f) s :=
  .atomic fun s' hle hinv => ⟨_, _, rfl, hinv, le_rfl, h s' hle hinv⟩

theorem Keeps.write {f : σ → σ} {Q : Unit → σ → Prop}
    (h : ∀ s', s ≤ s' → inv s' → inv (f s') ∧ s' ≤ f s' ∧ Q () (f s')) : Keeps inv Q (write f) s :=
  .atomic fun s' hle hinv => ⟨_, _, rfl, h s' hle hinv⟩

/-- A program that has the state for itself is one interleaving. -/
theorem Keeps.of_run {a : α} (h : Keeps inv Q p s) (hinv : inv s) (hrun : p.run s = some (a, s')) :
    inv s' ∧ s ≤ s' ∧ Q a s' := by
  induction p generalizing s with
  | ret b =>
    cases hrun
    exact ⟨hinv, le_rfl, h⟩
  | panicked => cases hrun
  | spent => cases hrun
  | step update next ih =>
    obtain ⟨hinv', hle, hnext⟩ := h s le_rfl hinv
    obtain ⟨hinv'', hle', hQ⟩ := ih s hnext hinv' hrun
    exact ⟨hinv'', hle.trans hle', hQ⟩

/-- The invariant, and what each program keeps from here on. -/
structure System.Kept (inv : σ → Prop) (Q : ℕ → α → σ → Prop) (sys : System σ α) : Prop where
  shared : inv sys.shared
  programs : ∀ i p, sys.programs[i]? = some p → Keeps inv (Q i) p sys.shared

variable {Q : ℕ → α → σ → Prop} {sys : System σ α}

theorem System.Kept.advance (hQ : ∀ i a, Monotone (Q i a)) (h : sys.Kept inv Q) (i : ℕ) :
    (sys.advance i).Kept inv Q := by
  unfold System.advance
  split
  · next update next hi =>
    obtain ⟨hinv, hle, hnext⟩ := h.programs i _ hi sys.shared le_rfl h.shared
    refine ⟨hinv, fun j p hj => ?_⟩
    rw [List.getElem?_set] at hj
    split_ifs at hj with hij
    · obtain rfl := hij
      cases hj
      exact hnext
    · exact (h.programs j p hj).mono (hQ j) hle
  · exact h

/-- In every order of the steps. -/
theorem System.Kept.exec (hQ : ∀ i a, Monotone (Q i a)) (h : sys.Kept inv Q) (order : List ℕ) :
    (Run.exec System.advance sys order).Kept inv Q :=
  Run.exec_invariant (C := fun _ _ => True) (fun _ i h _ => h.advance hQ i) h
    (Run.along_of_forall (P := fun _ => True) fun _ _ => trivial)

end RhypeDb.Interleave
