import RhypeDb.Authz.Compile

/-! What the module doc of `eval.rs` promises: absence and type mismatch fail closed. The
reference is strong Kleene logic whose comparisons are unknown on operands they cannot
compare. Where the evaluator comes to none of these it agrees with the reference. -/

namespace RhypeDb.Authz

open Engine Fallible Kleene List Option

variable {F : Type}

inductive Kind
  | null
  | absent
  | present
  | bool
  | num
  | str
  | set
  deriving DecidableEq, Repr

def RVal.kind : RVal F → Kind
  | .null => .null
  | .absent => .absent
  | .present => .present
  | .bool _ => .bool
  | .num _ => .num
  | .str _ => .str
  | .set _ => .set

/-- The kinds an operator compares. Objects are opaque, and sets only stand on the right
of `in`. -/
def CmpOp.compares : CmpOp → Kind → Bool
  | .eq, .bool | .eq, .num | .eq, .str => true
  | .ne, .bool | .ne, .num | .ne, .str => true
  | .lt, .num | .lt, .str => true
  | .le, .num | .le, .str => true
  | .gt, .num | .gt, .str => true
  | .ge, .num | .ge, .str => true
  | .in, .null | .in, .bool | .in, .num | .in, .str => true
  | _, _ => false

section

variable [JsonNumber F]

/-- The comparison has no known value on operands that are both there: their kinds differ or
are not compared, or a membership is neither found nor refuted. -/
def mistyped (lv : RVal F) : CmpOp → RVal F → Bool
  | .in, .set items =>
    !CmpOp.in.compares lv.kind ||
      !(items.any fun item => rvalEq lv item) &&
        items.any fun item => decide (item.kind = .absent)
  | .in, _ => true
  | .eq, rv =>
    decide (lv.kind ≠ .null ∧ rv.kind ≠ .null) &&
      !(decide (lv.kind = rv.kind) && CmpOp.eq.compares lv.kind)
  | .ne, rv =>
    decide (lv.kind ≠ .null ∧ rv.kind ≠ .null) &&
      !(decide (lv.kind = rv.kind) && CmpOp.ne.compares lv.kind)
  | op, rv => !(decide (lv.kind = rv.kind) && op.compares lv.kind)

def refCmp (lv : RVal F) (op : CmpOp) (rv : RVal F) : Tri :=
  if lv.kind = .absent ∨ rv.kind = .absent ∨ mistyped lv op rv = true then .unknown
  else .ofBool (compareRVals lv op rv)

def refTri (p : Principal F) (r : ResourceAccessor F) : Expr F → Tri
  | .lit l => l.truth
  | .operand o => (resolve p r o).truth
  | .not x => (refTri p r x).not
  | .and a b => (refTri p r a).and (refTri p r b)
  | .or a b => (refTri p r a).or (refTri p r b)
  | .cmp lhs op rhs =>
    refCmp (operandValue p r (refTri p r lhs) lhs) op (operandValue p r (refTri p r rhs) rhs)

structure Comparison (F : Type) where
  lhs : Expr F
  op : CmpOp
  rhs : Expr F

def Comparison.Mismatched (p : Principal F) (r : ResourceAccessor F) (c : Comparison F) : Prop :=
  (valueOf p r c.lhs).kind ≠ .absent ∧ (valueOf p r c.rhs).kind ≠ .absent ∧
    mistyped (valueOf p r c.lhs) c.op (valueOf p r c.rhs) = true

variable (p : Principal F) (r : ResourceAccessor F)

/-- The comparisons that an evaluation comes to, past the operands that it skips. -/
def Expr.reached : Expr F → List (Comparison F)
  | .lit _ => []
  | .operand _ => []
  | .not e => e.reached
  | .and a b => a.reached ++ if evalTri p r a = .false then [] else b.reached
  | .or a b => a.reached ++ if evalTri p r a = .true then [] else b.reached
  | .cmp lhs op rhs => ⟨lhs, op, rhs⟩ :: (lhs.reached ++ rhs.reached)

/-- No clause is looked at behind the first that grants. -/
def clausesReached : List (Expr F) → List (Comparison F)
  | [] => []
  | e :: es => e.reached p r ++ if evalTri p r e = .true then [] else clausesReached es

def RulesProgram.FailsClosed (program : RulesProgram F) (op : Op) (typeName : String) : Prop :=
  program.evaluate op typeName p r = .allow →
    ∃ clause ∈ program.clauses op typeName, refTri p r clause = .true

end

section

variable [JsonNumber F] {p : Principal F} {r : ResourceAccessor F}

omit [JsonNumber F] in
theorem RVal.kind_eq_absent {v : RVal F} : v.kind = .absent ↔ v = .absent := by
  cases v <;> simp [RVal.kind]

theorem refCmp_eq_evalCmp {lv rv : RVal F} {op : CmpOp}
    (h : lv.kind ≠ .absent → rv.kind ≠ .absent → mistyped lv op rv ≠ true) :
    refCmp lv op rv = evalCmp lv op rv := by
  rw [ne_eq, ne_eq, RVal.kind_eq_absent, RVal.kind_eq_absent] at h
  by_cases habsent : lv = .absent ∨ rv = .absent
  · rw [evalCmp_of_absent habsent, refCmp, if_pos]
    rw [RVal.kind_eq_absent, RVal.kind_eq_absent]
    exact habsent.imp_right .inl
  · rw [not_or] at habsent
    rw [evalCmp_of_present habsent.1 habsent.2, refCmp, if_neg]
    rw [RVal.kind_eq_absent, RVal.kind_eq_absent]
    rintro (hl | hr | hmis)
    · exact habsent.1 hl
    · exact habsent.2 hr
    · exact h habsent.1 habsent.2 hmis

theorem refTri_eq_evalTri {e : Expr F} (h : ∀ c ∈ e.reached p r, ¬ c.Mismatched p r) :
    refTri p r e = evalTri p r e := by
  induction e with
  | lit l => rfl
  | operand o => rfl
  | not x ih => rw [refTri, evalTri, ih h]
  | and a b iha ihb =>
    rw [Expr.reached, forall_mem_append] at h
    rw [evalTri_and, refTri, iha h.1]
    by_cases ha : evalTri p r a = .false
    · rw [ha]
      rfl
    · rw [if_neg ha] at h
      rw [ihb h.2]
  | or a b iha ihb =>
    rw [Expr.reached, forall_mem_append] at h
    rw [evalTri_or, refTri, iha h.1]
    by_cases ha : evalTri p r a = .true
    · rw [ha]
      rfl
    · rw [if_neg ha] at h
      rw [ihb h.2]
  | cmp lhs op rhs ihl ihr =>
    rw [Expr.reached, forall_mem_cons, forall_mem_append] at h
    obtain ⟨hcmp, hl, hr⟩ := h
    rw [evalTri_cmp, refTri, ihl hl, ihr hr]
    exact refCmp_eq_evalCmp fun hlv hrv hmis => hcmp ⟨hlv, hrv, hmis⟩

theorem exists_refTri_of_clauses {es : List (Expr F)} (hgrants : ∃ e ∈ es, evalTri p r e = .true)
    (h : ∀ c ∈ clausesReached p r es, ¬ c.Mismatched p r) : ∃ e ∈ es, refTri p r e = .true := by
  induction es with
  | nil =>
    obtain ⟨e, he, -⟩ := hgrants
    cases he
  | cons e es ih =>
    rw [clausesReached, forall_mem_append] at h
    by_cases htrue : evalTri p r e = .true
    · exact ⟨e, mem_cons_self, (refTri_eq_evalTri h.1).trans htrue⟩
    · rw [if_neg htrue] at h
      obtain ⟨d, hd, hgrant⟩ := hgrants
      have hd : d ∈ es := (mem_cons.mp hd).resolve_left (by rintro rfl; exact htrue hgrant)
      obtain ⟨f, hf, href⟩ := ih ⟨d, hd, hgrant⟩ h.2
      exact ⟨f, mem_cons_of_mem e hf, href⟩

end

/-- A program fails closed where its evaluation comes to no mismatched comparison. -/
theorem fails_closed_of_matched [JsonNumber F] (program : RulesProgram F) (op : Op)
    (typeName : String) (p : Principal F) (r : ResourceAccessor F)
    (h : ∀ c ∈ clausesReached p r (program.clauses op typeName), ¬ c.Mismatched p r) :
    program.FailsClosed p r op typeName := fun hallow =>
  exists_refTri_of_clauses (RulesProgram.evaluate_eq_allow.mp hallow) h

/-- One `match` block with one clause for one operation. -/
def oneClause (typeName : String) (op : Op) (raw : RawExpr F) : List (RawStmt F) :=
  [{ typeName, typePos := 0, allows := [{ ops := [op], expr := raw }] }]

/-- `type Post`, with no fields. -/
def postSchema : Schema where
  types := [⟨"Post", 1, []⟩]

/-- `match Post { allow read: if request.auth.claims.tier == "gold"; }`. -/
def goldOnly : List (RawStmt Int) :=
  oneClause "Post" .read (.cmp (.path ["request", "auth", "claims", "tier"] 0) .eq (.lit (.str "gold")))

/-- `match Post { allow read: if request.auth.claims.tier != "guest"; }`. -/
def notGuests : List (RawStmt Int) :=
  oneClause "Post" .read
    (.cmp (.path ["request", "auth", "claims", "tier"] 0) .ne (.lit (.str "guest")))

/-- A caller whose token carries this `tier` claim. -/
def caller (tier : Json Int) : Principal Int :=
  { authenticated := true, uid := some "u1", claims := .object [("tier", tier)] }

def goldProgram : RulesProgram Int :=
  ⟨AList.insert "Post" (AList.insert Op.read
    [.cmp (.operand (.authClaim ["tier"])) .eq (.lit (.str "gold"))] ∅) ∅⟩

/-- A caller of the tier is let in. -/
theorem fails_closed_gold : compile goldOnly postSchema = .ok goldProgram ∧
    goldProgram.FailsClosed (caller (.string "gold")) emptyResource .read "Post" := by
  refine ⟨rfl, fails_closed_of_matched goldProgram .read "Post" _ _ fun c hc => ?_⟩
  have hc : c = ⟨.operand (.authClaim ["tier"]), .eq, .lit (.str "gold")⟩ :=
    mem_singleton.mp hc
  rw [hc]
  rintro ⟨-, -, h⟩
  exact absurd h (by decide)

/-- A numeric claim is not the string, so the inequality grants. -/
theorem mistyped_claim_allowed : ¬ ∀ (schema : Schema) (stmts : List (RawStmt Int))
    (program : RulesProgram Int), compile stmts schema = .ok program →
    ∀ (op : Op) (typeName : String) (p : Principal Int) (r : ResourceAccessor Int),
      program.FailsClosed p r op typeName := by
  intro hall
  obtain ⟨clause, hclause, htrue⟩ := hall postSchema notGuests
    ⟨AList.insert "Post" (AList.insert Op.read
      [.cmp (.operand (.authClaim ["tier"])) .ne (.lit (.str "guest"))] ∅) ∅⟩ rfl .read "Post"
    (caller (.number 5)) emptyResource rfl
  rw [mem_singleton.mp hclause] at htrue
  exact absurd htrue (by decide)

end RhypeDb.Authz
