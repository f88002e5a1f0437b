import Mathlib.Tactic.Common

/-! What holds after a stateful computation that may fail. An error keeps the state it leaves, so
an outcome has a condition for each of the two. Where the state is only read, the run gives a
result. -/

namespace RhypeDb.Outcome

open List

universe u

variable {ε σ α β : Type u}

/-- The run from `s` ends in a value and a state that satisfy `ok`, or in an error whose state
satisfies `fail`. -/
def After (m : ExceptT ε (StateM σ) α) (s : σ) (ok : α → σ → Prop) (fail : σ → Prop) : Prop :=
  match m.run.run s with
  | (.ok a, s') => ok a s'
  | (.error _, s') => fail s'

section

variable {m : ExceptT ε (StateM σ) α} {s : σ} {ok ok' : α → σ → Prop} {fail fail' : σ → Prop}

theorem After.pure {a : α} (h : ok a s) :
    After (Pure.pure a : ExceptT ε (StateM σ) α) s ok fail := h

theorem After.throw {e : ε} (h : fail s) :
    After (MonadExcept.throw e : ExceptT ε (StateM σ) α) s ok fail := h

theorem After.mono (h : After m s ok fail) (hok : ∀ a s', ok a s' → ok' a s')
    (hfail : ∀ s', fail s' → fail' s') : After m s ok' fail' := by
  unfold After at h ⊢
  generalize m.run.run s = out at h ⊢
  obtain ⟨r, s'⟩ := out
  cases r with
  | error e => exact hfail s' h
  | ok a => exact hok a s' h

variable {k : α → ExceptT ε (StateM σ) β}

theorem After.bind {ok : β → σ → Prop} (h : After m s (fun a s' => After (k a) s' ok fail) fail) :
    After (m >>= k) s ok fail := by
  unfold After at h ⊢
  rw [ExceptT.run_bind, StateT.run_bind]
  generalize m.run.run s = out at h ⊢
  obtain ⟨r, s'⟩ := out
  cases r with
  | error e => exact h
  | ok a => exact h

theorem After.seq {ok' : β → σ → Prop} (h : After m s ok fail)
    (hk : ∀ a s', ok a s' → After (k a) s' ok' fail') (hfail : ∀ s', fail s' → fail' s') :
    After (m >>= k) s ok' fail' :=
  .bind (h.mono hk hfail)

theorem run_bind_eq_ok {b : β} {s'' : σ} (h : (m >>= k).run.run s = (.ok b, s'')) :
    ∃ a s', m.run.run s = (.ok a, s') ∧ (k a).run.run s' = (.ok b, s'') := by
  rw [ExceptT.run_bind, StateT.run_bind] at h
  generalize m.run.run s = out at h ⊢
  obtain ⟨r, s'⟩ := out
  cases r with
  | error e => cases h
  | ok a => exact ⟨a, s', rfl, h⟩

theorem run_bind_eq_error {e : ε} {s'' : σ} (h : (m >>= k).run.run s = (.error e, s'')) :
    m.run.run s = (.error e, s'') ∨
      ∃ a s', m.run.run s = (.ok a, s') ∧ (k a).run.run s' = (.error e, s'') := by
  rw [ExceptT.run_bind, StateT.run_bind] at h
  generalize m.run.run s = out at h ⊢
  obtain ⟨r, s'⟩ := out
  cases r with
  | error e =>
    cases h
    exact .inl rfl
  | ok a => exact .inr ⟨a, s', rfl, h⟩

theorem After.state {P : σ → Prop} (h : After m s (fun _ => P) P) : P (m.run.run s).2 := by
  unfold After at h
  generalize m.run.run s = out at h ⊢
  obtain ⟨r, s'⟩ := out
  cases r with
  | error e => exact h
  | ok a => exact h

theorem after_state (m : ExceptT ε (StateM σ) α) (s : σ) :
    After m s (fun _ s' => s' = (m.run.run s).2) (fun s' => s' = (m.run.run s).2) := by
  unfold After
  generalize m.run.run s = out
  obtain ⟨r, s'⟩ := out
  cases r <;> rfl

theorem After.lift {m : StateM σ α} (h : ok (m.run s).1 (m.run s).2) :
    After (ExceptT.lift m : ExceptT ε (StateM σ) α) s ok fail := h

theorem After.ofExcept {r : Except ε α} (hok : ∀ a, r = .ok a → ok a s) (hfail : fail s) :
    After (MonadExcept.ofExcept r : ExceptT ε (StateM σ) α) s ok fail := by
  cases r with
  | error e => exact hfail
  | ok a => exact hok a rfl

theorem state_bind {R : σ → σ → Prop} (hrefl : ∀ s, R s s)
    (hk : ∀ a s, After (k a) s (fun _ => R s) (R s)) :
    R (m.run.run s).2 ((m >>= k).run.run s).2 := by
  rw [ExceptT.run_bind, StateT.run_bind]
  generalize m.run.run s = out
  obtain ⟨r, s'⟩ := out
  cases r with
  | error e => exact hrefl s'
  | ok a => exact (hk a s').state

theorem after_true (m : ExceptT ε (StateM σ) α) (s : σ) : After m s (fun _ _ => True) fun _ => True :=
  (after_state m s).mono (fun _ _ _ => trivial) fun _ _ => trivial

end

section

variable {f : α → ExceptT ε (StateM σ) β} {g : α → ExceptT ε (StateM σ) PUnit} {l : List α}
  {P : σ → Prop}

theorem After.mapM (hstep : ∀ a ∈ l, ∀ s, P s → After (f a) s (fun _ => P) P) {s : σ}
    (hs : P s) : After (l.mapM f) s (fun _ => P) P := by
  induction l generalizing s with
  | nil => exact .pure hs
  | cons a l ih =>
    rw [forall_mem_cons] at hstep
    rw [mapM_cons]
    have htail : ∀ b s', P s' → After (l.mapM f >>= fun bs => Pure.pure (b :: bs)) s'
        (fun _ => P) P := fun b s' hs' =>
      (ih hstep.2 hs').seq (fun _ _ h => .pure h) fun _ h => h
    exact (hstep.1 s hs).seq htail fun _ h => h

theorem After.forM (hstep : ∀ a ∈ l, ∀ s, P s → After (g a) s (fun _ => P) P) {s : σ} (hs : P s) :
    After (l.forM g) s (fun _ => P) P := by
  induction l generalizing s with
  | nil => exact .pure hs
  | cons a l ih =>
    rw [forall_mem_cons] at hstep
    change After (g a >>= fun _ => l.forM g) s _ _
    exact (hstep.1 s hs).seq (fun _ _ h => ih hstep.2 h) fun _ h => h

theorem After.forM_all {Q : α → Prop}
    (hstep : ∀ a s, After (g a) s (fun _ _ => Q a) fun _ => True) (s : σ) :
    After (l.forM g) s (fun _ _ => ∀ a ∈ l, Q a) fun _ => True := by
  induction l generalizing s with
  | nil => exact .pure (forall_mem_nil Q)
  | cons a l ih =>
    change After (g a >>= fun _ => l.forM g) s _ _
    have htail : ∀ s', Q a → After (l.forM g) s' (fun _ _ => ∀ b ∈ a :: l, Q b)
        fun _ => True := fun s' hq =>
      (ih s').mono (fun _ _ h => forall_mem_cons.2 ⟨hq, h⟩) fun _ h => h
    exact (hstep a s).seq (fun _ s' hq => htail s' hq) fun _ h => h

end

end RhypeDb.Outcome
