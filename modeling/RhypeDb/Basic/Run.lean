import Mathlib.Data.List.Basic

/-! Finite runs of a deterministic step function, and the invariant rule for
runs in which every step meets a condition on the state it is taken from. -/

namespace RhypeDb.Run

variable {σ α : Type*}

def exec (step : σ → α → σ) : σ → List α → σ
  | s, [] => s
  | s, a :: as => exec step (step s a) as

/-- Every step of the run meets `C` in the state before it. -/
def Along (step : σ → α → σ) (C : σ → α → Prop) : σ → List α → Prop
  | _, [] => True
  | s, a :: as => C s a ∧ Along step C (step s a) as

instance instDecidableAlong {step : σ → α → σ} {C : σ → α → Prop} [∀ s a, Decidable (C s a)] :
    ∀ s as, Decidable (Along step C s as)
  | _, [] => .isTrue trivial
  | s, a :: as =>
    have : Decidable (Along step C (step s a) as) := instDecidableAlong (step s a) as
    inferInstanceAs (Decidable (C s a ∧ Along step C (step s a) as))

@[simp] theorem exec_nil (step : σ → α → σ) (s : σ) : exec step s [] = s := rfl

@[simp] theorem exec_cons (step : σ → α → σ) (s : σ) (a : α) (as : List α) :
    exec step s (a :: as) = exec step (step s a) as := rfl

theorem exec_append (step : σ → α → σ) (s : σ) (as bs : List α) :
    exec step s (as ++ bs) = exec step (exec step s as) bs := by
  induction as generalizing s with
  | nil => rfl
  | cons a as ih => simpa only [List.cons_append, exec_cons] using ih (step s a)

variable {step : σ → α → σ} {C : σ → α → Prop} {as : List α} {s : σ}

theorem along_append {bs : List α} :
    Along step C s (as ++ bs) ↔ Along step C s as ∧ Along step C (exec step s as) bs := by
  induction as generalizing s with
  | nil => simp only [List.nil_append, Along, exec_nil, true_and]
  | cons a as ih => simp only [List.cons_append, Along, exec_cons, ih, and_assoc]

theorem along_of_forall {P : α → Prop} (h : ∀ a ∈ as, P a) : Along step (fun _ => P) s as := by
  induction as generalizing s with
  | nil => trivial
  | cons a as ih =>
    rw [List.forall_mem_cons] at h
    exact ⟨h.1, ih h.2⟩

theorem exec_invariant {I : σ → Prop} (hstep : ∀ s a, I s → C s a → I (step s a)) (hs : I s)
    (hC : Along step C s as) : I (exec step s as) := by
  induction as generalizing s with
  | nil => exact hs
  | cons a as ih => exact ih (hstep s a hs hC.1) hC.2

end RhypeDb.Run
