import RhypeDb.Authz.Rules

/-! Evaluation against a resource whose relations are looked up at a cost: an accessor that may run
out of budget answers `None` from then on, for a relation that it would have enumerated. What is
granted so is granted by the full answers. -/

namespace RhypeDb.Authz

open Kleene

structure MeteredAccessor (γ F : Type) where
  resourceScalar : String → Option (Json F)
  resourceRelationOne : String → String → StateM γ (Option (Json F))
  resourceRelationMany : String → String → StateM γ (Option (List (Json F)))
  requestField : String → Option (Json F)

section

variable {γ F : Type} [JsonNumber F] (p : Principal F) (m : MeteredAccessor γ F)

def resolveM : Operand → StateM γ (RVal F)
  | .auth => return if p.authenticated then .present else .null
  | .authUid => return (p.uid.map RVal.str).getD .absent
  | .authClaim path => return ((claimAt p.claims path).map jsonToRVal).getD .absent
  | .resourceScalar f => return ((m.resourceScalar f).map jsonToRVal).getD .absent
  | .resourceRelationOne rel f => do
    return ((← m.resourceRelationOne rel f).map jsonToRVal).getD .absent
  | .resourceRelationMany rel f => do
    return ((← m.resourceRelationMany rel f).map fun items =>
      RVal.set (items.map jsonToRVal)).getD .absent
  | .requestField f => return ((m.requestField f).map jsonToRVal).getD .absent

def operandValueM (truth : StateM γ Tri) : Expr F → StateM γ (RVal F)
  | .lit l => return litToRVal l
  | .operand o => resolveM p m o
  | .not _ | .and _ _ | .or _ _ | .cmp .. => do return triToRVal (← truth)

def evalTriM : Expr F → StateM γ Tri
  | .lit l => return l.truth
  | .operand o => do return (← resolveM p m o).truth
  | .not x => do return (← evalTriM x).not
  | .and a b => do
    let av ← evalTriM a
    if av = .false then return .false
    else
      let bv ← evalTriM b
      return if av = .true ∧ bv = .true then .true else if bv = .false then .false else .unknown
  | .or a b => do
    let av ← evalTriM a
    if av = .true then return .true
    else
      let bv ← evalTriM b
      return if bv = .true then .true
        else if av = .false ∧ bv = .false then .false else .unknown
  | .cmp lhs op rhs => do
    let lv ← operandValueM p m (evalTriM lhs) lhs
    let rv ← operandValueM p m (evalTriM rhs) rhs
    return evalCmp lv op rv

def anyGrants : List (Expr F) → StateM γ Bool
  | [] => return false
  | clause :: clauses => do
    if (← evalTriM p m clause) = .true then return true else anyGrants clauses

def RulesProgram.evaluateM (program : RulesProgram F) (op : Op) (typeName : String) :
    StateM γ Decision :=
  match program.clauses? op typeName with
  | none => return .deny
  | some clauses => do return if ← anyGrants p m clauses then .allow else .deny

end

variable {γ F : Type} {p : Principal F} {m : MeteredAccessor γ F} {r : ResourceAccessor F}

/-- Every answer is missing or that of `r`. -/
structure MeteredAccessor.Under (m : MeteredAccessor γ F) (r : ResourceAccessor F) : Prop where
  resourceScalar : m.resourceScalar = r.resourceScalar
  requestField : m.requestField = r.requestField
  resourceRelationOne : ∀ rel f g, ((m.resourceRelationOne rel f).run g).1 = none ∨
    ((m.resourceRelationOne rel f).run g).1 = r.resourceRelationOne rel f
  resourceRelationMany : ∀ rel f g, ((m.resourceRelationMany rel f).run g).1 = none ∨
    ((m.resourceRelationMany rel f).run g).1 = r.resourceRelationMany rel f

variable [JsonNumber F]

theorem resolveM_under (h : m.Under r) (o : Operand) (g : γ) :
    ((resolveM p m o).run g).1 = .absent ∨ ((resolveM p m o).run g).1 = resolve p r o := by
  cases o with
  | resourceScalar f =>
    right
    change ((m.resourceScalar f).map jsonToRVal).getD .absent = _
    rw [h.resourceScalar]
    rfl
  | requestField f =>
    right
    change ((m.requestField f).map jsonToRVal).getD .absent = _
    rw [h.requestField]
    rfl
  | resourceRelationOne rel f =>
    change ((((m.resourceRelationOne rel f).run g).1).map jsonToRVal).getD .absent = .absent ∨
      ((((m.resourceRelationOne rel f).run g).1).map jsonToRVal).getD .absent = _
    rcases h.resourceRelationOne rel f g with hnone | hsame
    · left
      rw [hnone]
      rfl
    · right
      rw [hsame]
      rfl
  | resourceRelationMany rel f =>
    change ((((m.resourceRelationMany rel f).run g).1).map _).getD RVal.absent = RVal.absent ∨
      ((((m.resourceRelationMany rel f).run g).1).map _).getD RVal.absent = _
    rcases h.resourceRelationMany rel f g with hnone | hsame
    · left
      rw [hnone]
      rfl
    · right
      rw [hsame]
      rfl
  | _ => exact .inr rfl

omit [JsonNumber F] in
theorem RVal.truth_refines {v w : RVal F} (h : v = .absent ∨ v = w) : v.truth.Refines w.truth := by
  rcases h with rfl | rfl
  · exact .inl rfl
  · exact .refl _

omit [JsonNumber F] in
theorem triToRVal_under {a b : Tri} (h : a.Refines b) :
    (triToRVal a : RVal F) = .absent ∨ (triToRVal a : RVal F) = triToRVal b := by
  rcases h with rfl | rfl
  · exact .inl rfl
  · exact .inr rfl

theorem operandValueM_under (h : m.Under r) {truth : StateM γ Tri} {full : Tri}
    (htruth : ∀ g, (truth.run g).1.Refines full) (e : Expr F) (g : γ) :
    ((operandValueM p m truth e).run g).1 = .absent ∨
      ((operandValueM p m truth e).run g).1 = operandValue p r full e := by
  cases e with
  | lit l => exact .inr rfl
  | operand o => exact resolveM_under h o g
  | _ => exact triToRVal_under (htruth g)

theorem evalCmp_refines {lv lv' rv rv' : RVal F} (op : CmpOp) (hl : lv = .absent ∨ lv = lv')
    (hr : rv = .absent ∨ rv = rv') : (evalCmp lv op rv).Refines (evalCmp lv' op rv') := by
  rcases hl with rfl | rfl
  · exact .inl (evalCmp_of_absent (.inl rfl) op)
  · rcases hr with rfl | rfl
    · exact .inl (evalCmp_of_absent (.inr rfl) op)
    · exact .refl _

theorem evalTriM_and (a b : Expr F) (g : γ) :
    ((evalTriM p m (.and a b)).run g).1 = ((evalTriM p m a).run g).1.and
      ((evalTriM p m b).run ((evalTriM p m a).run g).2).1 := by
  rw [evalTriM, StateT.run_bind]
  rcases (evalTriM p m a).run g with ⟨av, g'⟩
  cases av with
  | false => rfl
  | _ =>
    change (StateT.run (evalTriM p m b >>= _) g').1 = _
    rw [StateT.run_bind]
    rcases (evalTriM p m b).run g' with ⟨bv, g''⟩
    cases bv <;> rfl

theorem evalTriM_or (a b : Expr F) (g : γ) :
    ((evalTriM p m (.or a b)).run g).1 = ((evalTriM p m a).run g).1.or
      ((evalTriM p m b).run ((evalTriM p m a).run g).2).1 := by
  rw [evalTriM, StateT.run_bind]
  rcases (evalTriM p m a).run g with ⟨av, g'⟩
  cases av with
  | true => rfl
  | _ =>
    change (StateT.run (evalTriM p m b >>= _) g').1 = _
    rw [StateT.run_bind]
    rcases (evalTriM p m b).run g' with ⟨bv, g''⟩
    cases bv <;> rfl

theorem evalTriM_refines (h : m.Under r) (e : Expr F) (g : γ) :
    ((evalTriM p m e).run g).1.Refines (evalTri p r e) := by
  induction e generalizing g with
  | lit l => exact .refl _
  | operand o => exact RVal.truth_refines (resolveM_under h o g)
  | not x ih => exact (ih g).not
  | and a b iha ihb =>
    rw [evalTri_and, evalTriM_and]
    exact (iha g).and (ihb _)
  | or a b iha ihb =>
    rw [evalTri_or, evalTriM_or]
    exact (iha g).or (ihb _)
  | cmp lhs op rhs ihl ihr =>
    have hl := @operandValueM_under _ _ p _ _ _ h _ _ ihl lhs g
    have hr := @operandValueM_under _ _ p _ _ _ h _ _ ihr rhs
      ((operandValueM p m (evalTriM p m lhs) lhs).run g).2
    exact evalCmp_refines op hl hr

theorem anyGrants_mem (h : m.Under r) {clauses : List (Expr F)} {g : γ}
    (hgrants : ((anyGrants p m clauses).run g).1 = true) :
    ∃ clause ∈ clauses, evalTri p r clause = .true := by
  induction clauses generalizing g with
  | nil => cases hgrants
  | cons clause clauses ih =>
    have href := @evalTriM_refines _ _ p _ _ _ h clause g
    rw [anyGrants, StateT.run_bind] at hgrants
    generalize (evalTriM p m clause).run g = out at href hgrants
    obtain ⟨truth, g'⟩ := out
    cases truth with
    | true =>
      have hknown : Tri.true ≠ Tri.unknown := by decide
      exact ⟨clause, List.mem_cons_self, (href.eq_of_known hknown).symm⟩
    | _ =>
      obtain ⟨d, hd, hd'⟩ := @ih g' hgrants
      exact ⟨d, List.mem_cons_of_mem clause hd, hd'⟩

theorem RulesProgram.evaluate_of_evaluateM (h : m.Under r) {program : RulesProgram F} {op : Op}
    {typeName : String} {g : γ} (hallow : ((program.evaluateM p m op typeName).run g).1 = .allow) :
    program.evaluate op typeName p r = .allow := by
  rw [evaluate_eq_allow, clauses]
  unfold evaluateM at hallow
  cases hclauses : program.clauses? op typeName with
  | none =>
    rw [hclauses] at hallow
    cases hallow
  | some clauses =>
    rw [hclauses] at hallow
    change (if ((anyGrants p m clauses).run g).1 = true then Decision.allow else Decision.deny) = _
      at hallow
    split_ifs at hallow with hgrants
    exact anyGrants_mem h hgrants

end RhypeDb.Authz
