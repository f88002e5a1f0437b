import Mathlib.Tactic.Common

/-! Strong Kleene logic: truth values with an unknown, the connectives, and the order in
which a value is refined by every value that agrees with what it knows. The connectives are
monotone in that order. -/

namespace RhypeDb.Kleene

inductive Tri
  | true
  | false
  | unknown
  deriving DecidableEq, Repr

namespace Tri

def ofBool (b : Bool) : Tri := if b then .true else .false

def not : Tri → Tri
  | .true => .false
  | .false => .true
  | .unknown => .unknown

def and : Tri → Tri → Tri
  | .true, b => b
  | .false, _ => .false
  | .unknown, .false => .false
  | .unknown, _ => .unknown

def or : Tri → Tri → Tri
  | .false, b => b
  | .true, _ => .true
  | .unknown, .true => .true
  | .unknown, _ => .unknown

/-- `b` agrees with everything `a` knows. -/
def Refines (a b : Tri) : Prop := a = .unknown ∨ a = b

variable {a a' b b' : Tri}

theorem Refines.refl (a : Tri) : Refines a a := .inr rfl

theorem Refines.eq_of_known (h : Refines a b) (ha : a ≠ .unknown) : a = b := h.resolve_left ha

theorem Refines.not (h : Refines a b) : Refines a.not b.not := by
  rcases h with rfl | rfl
  · exact .inl rfl
  · exact .inr rfl

theorem Refines.and (ha : Refines a a') (hb : Refines b b') : Refines (a.and b) (a'.and b') := by
  rcases ha with rfl | rfl <;> rcases hb with rfl | rfl
  · exact .inl rfl
  · cases b <;> cases a' <;> simp [Tri.and, Refines]
  · cases a <;> cases b' <;> simp [Tri.and, Refines]
  · exact .inr rfl

theorem Refines.or (ha : Refines a a') (hb : Refines b b') : Refines (a.or b) (a'.or b') := by
  rcases ha with rfl | rfl <;> rcases hb with rfl | rfl
  · exact .inl rfl
  · cases b <;> cases a' <;> simp [Tri.or, Refines]
  · cases a <;> cases b' <;> simp [Tri.or, Refines]
  · exact .inr rfl

end Tri

end RhypeDb.Kleene
