import Mathlib.Order.Nat
import Mathlib.Tactic.Common

/-! Rows under names that may change, with ids that may not: each row's id is drawn from a
counter, and a row is followed from one name to the next. -/

namespace RhypeDb.Lineage

/-- How a row is read: the counter its id comes from, the id, and whether the row is retired. -/
structure Reading (π κ ε : Type*) where
  space : π → κ
  id : ε → ℕ
  retired : ε → Prop

variable {π κ ε : Type*} (R : Reading π κ ε)

structure Identified (row : π → Option ε) (next : κ → ℕ) : Prop where
  distinct : ∀ {p q e f}, row p = some e → row q = some f → R.space p = R.space q →
    R.id e = R.id f → p = q
  below : ∀ {p e}, row p = some e → R.id e < next (R.space p)

/-- Every row is still there under the name that follows its own, with its id, and a row that
follows none has an id that no earlier row had. -/
structure Carries (follow : π → π) (row row' : π → Option ε) (next next' : κ → ℕ) : Prop where
  space : ∀ p, R.space (follow p) = R.space p
  kept : ∀ {p e}, row p = some e →
    ∃ e', row' (follow p) = some e' ∧ R.id e' = R.id e ∧ (R.retired e → R.retired e')
  born : ∀ {p' e'}, row' p' = some e' →
    (∃ p e, row p = some e ∧ follow p = p') ∨ next (R.space p') ≤ R.id e'
  mono : ∀ k, next k ≤ next' k

variable {R} {row row' row'' : π → Option ε} {next next' next'' : κ → ℕ} {follow follow' : π → π}

theorem Carries.refl : Carries R id row row next next where
  space _ := rfl
  kept h := ⟨_, h, rfl, fun hr => hr⟩
  born h := .inl ⟨_, _, h, rfl⟩
  mono _ := le_rfl

theorem Carries.trans (h : Carries R follow row row' next next')
    (h' : Carries R follow' row' row'' next' next'') :
    Carries R (follow' ∘ follow) row row'' next next'' where
  space p := (h'.space _).trans (h.space p)
  kept hrow := by
    obtain ⟨e', hrow', hid, hret⟩ := h.kept hrow
    obtain ⟨e'', hrow'', hid', hret'⟩ := h'.kept hrow'
    exact ⟨e'', hrow'', hid'.trans hid, fun hr => hret' (hret hr)⟩
  born {p'' e''} hrow'' := by
    rcases h'.born hrow'' with ⟨p', e', hrow', rfl⟩ | hfresh
    · rcases h.born hrow' with ⟨p, e, hrow, rfl⟩ | hfresh
      · exact .inl ⟨p, e, hrow, rfl⟩
      · -- the second step keeps the id that the first one drew
        right
        obtain ⟨e₂, hrow₂, hid, -⟩ := h'.kept hrow'
        rw [hrow''] at hrow₂
        cases hrow₂
        rw [h'.space, hid]
        exact hfresh
    · exact .inr ((h.mono _).trans hfresh)
  mono k := (h.mono k).trans (h'.mono k)

theorem Carries.owner (h : Carries R follow row row' next next') (hid : Identified R row' next')
    {p q : π} {e f : ε} (hp : row p = some e) (hq : row' q = some f) (hs : R.space q = R.space p)
    (hf : R.id f = R.id e) : q = follow p := by
  obtain ⟨e', he', hide, -⟩ := h.kept hp
  exact hid.distinct hq he' (hs.trans (h.space p).symm) (hf.trans hide.symm)

theorem Carries.below (h : Carries R follow row row' next next') (hid : Identified R row next)
    {p : π} {e : ε} (hp : row p = some e) : R.id e < next' (R.space p) :=
  (hid.below hp).trans_le (h.mono _)

structure Relabels (R : Reading π κ ε) (follow : π → π) (row row' : π → Option ε) : Prop where
  space : ∀ p, R.space (follow p) = R.space p
  kept : ∀ {p e}, row p = some e →
    ∃ e', row' (follow p) = some e' ∧ R.id e' = R.id e ∧ (R.retired e' ↔ R.retired e)
  back : ∀ {p' e'}, row' p' = some e' → ∃ p e, row p = some e ∧ follow p = p'

theorem Relabels.refl : Relabels R id row row where
  space _ := rfl
  kept h := ⟨_, h, rfl, Iff.rfl⟩
  back h := ⟨_, _, h, rfl⟩

theorem Relabels.trans (h : Relabels R follow row row') (h' : Relabels R follow' row' row'') :
    Relabels R (follow' ∘ follow) row row'' where
  space p := (h'.space _).trans (h.space p)
  kept hrow := by
    obtain ⟨e', hrow', hid, hret⟩ := h.kept hrow
    obtain ⟨e'', hrow'', hid', hret'⟩ := h'.kept hrow'
    exact ⟨e'', hrow'', hid'.trans hid, hret'.trans hret⟩
  back hrow'' := by
    obtain ⟨p', e', hrow', rfl⟩ := h'.back hrow''
    obtain ⟨p, e, hrow, rfl⟩ := h.back hrow'
    exact ⟨p, e, hrow, rfl⟩

theorem Relabels.source (h : Relabels R follow row row') {p' : π} {e' : ε} (hp : row' p' = some e') :
    ∃ p e, row p = some e ∧ follow p = p' ∧ R.id e' = R.id e ∧ (R.retired e' ↔ R.retired e) := by
  obtain ⟨p, e, hrow, rfl⟩ := h.back hp
  obtain ⟨f, hf, hid, hret⟩ := h.kept hrow
  rw [hp] at hf
  cases hf
  exact ⟨p, e, hrow, rfl, hid, hret⟩

theorem Relabels.carries (h : Relabels R follow row row') : Carries R follow row row' next next where
  space := h.space
  kept hp := by
    obtain ⟨e', hrow, hid, hret⟩ := h.kept hp
    exact ⟨e', hrow, hid, hret.mpr⟩
  born hp := .inl (h.back hp)
  mono _ := le_rfl

theorem Relabels.identified (h : Relabels R follow row row') (hid : Identified R row next) :
    Identified R row' next where
  distinct hp hq hs hf := by
    obtain ⟨p, e, he, rfl, hide, -⟩ := h.source hp
    obtain ⟨q, f, hf', rfl, hidf, -⟩ := h.source hq
    rw [h.space, h.space] at hs
    rw [hide, hidf] at hf
    rw [hid.distinct he hf' hs hf]
  below hp := by
    obtain ⟨p, e, he, rfl, hide, -⟩ := h.source hp
    rw [hide, h.space]
    exact hid.below he

variable [DecidableEq π] [DecidableEq κ] {p : π} {e : ε}

theorem Identified.allocate (h : Identified R row next) (he : R.id e = next (R.space p)) :
    Identified R (Function.update row p (some e))
      (Function.update next (R.space p) (next (R.space p) + 1)) where
  distinct {q q' f f'} hq hq' hs hf := by
    rw [Function.update_apply] at hq hq'
    by_cases hqp : q = p
    · subst hqp
      by_cases hqp' : q' = q
      · exact hqp'.symm
      · rw [if_pos rfl] at hq
        cases hq
        rw [if_neg hqp'] at hq'
        have hlt := h.below hq'
        rw [← hs] at hlt
        omega
    · rw [if_neg hqp] at hq
      by_cases hqp' : q' = p
      · subst hqp'
        rw [if_pos rfl] at hq'
        cases hq'
        have hlt := h.below hq
        rw [hs] at hlt
        omega
      · rw [if_neg hqp'] at hq'
        exact h.distinct hq hq' hs hf
  below {q f} hq := by
    rw [Function.update_apply] at hq ⊢
    by_cases hqp : q = p
    · subst hqp
      rw [if_pos rfl] at hq
      cases hq
      rw [if_pos rfl, he]
      exact Nat.lt_succ_self _
    · rw [if_neg hqp] at hq
      have hlt := h.below hq
      split_ifs with hs
      · rw [← hs]
        omega
      · exact hlt

end RhypeDb.Lineage
