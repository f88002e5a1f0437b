import Mathlib.Algebra.Group.Nat.Defs
import Mathlib.Data.Int.Order.Basic
import Mathlib.Data.List.AList
import RhypeDb.Basic.Kleene

/-! The security rules of `rules/mod.rs` and `rules/eval.rs`: compiled expressions, and their
evaluation against a principal and a resource. The numbers of JSON and of rules are in one linear
order; the doubles among them carry no NaN. -/

namespace RhypeDb.Authz

open Kleene

inductive Op
  | read
  | create
  | update
  | delete
  | subscribe
  deriving DecidableEq, Repr

def Op.asStr : Op → String
  | read => "read"
  | create => "create"
  | update => "update"
  | delete => "delete"
  | subscribe => "subscribe"

inductive Decision
  | allow
  | deny
  deriving DecidableEq, Repr

/-- Rules know a number of JSON by the double that `Number::as_f64` rounds it to. -/
class JsonNumber (F : Type) extends LinearOrder F where
  asF64 : F → Option F

/-- The nearest natural number with 53 significant bits, the even one of two. -/
def roundToF64 (n : Nat) : Nat :=
  let unit := 2 ^ (n.log2 - 52)
  let up := unit < 2 * (n % unit) ∨ unit = 2 * (n % unit) ∧ n / unit % 2 = 1
  (n / unit + if up then 1 else 0) * unit

example : roundToF64 (2 ^ 53 + 1) = 2 ^ 53 := by decide

instance : JsonNumber Int where
  toLinearOrder := inferInstance
  asF64 n := some (n.sign * roundToF64 n.natAbs)

/-- `serde_json::Value`. -/
inductive Json (F : Type)
  | null
  | bool (b : Bool)
  | number (n : F)
  | string (s : String)
  | array (items : List (Json F))
  | object (fields : List (String × Json F))

def Json.get {F : Type} (key : String) : Json F → Option (Json F)
  | .object fields => (fields.find? fun field => decide (field.1 = key)).map Prod.snd
  | _ => none

structure Principal (F : Type) where
  authenticated : Bool
  uid : Option String
  claims : Json F

def Principal.anonymous {F : Type} : Principal F :=
  { authenticated := false, uid := none, claims := .null }

structure ResourceAccessor (F : Type) where
  resourceScalar : String → Option (Json F)
  resourceRelationOne : String → String → Option (Json F)
  resourceRelationMany : String → String → Option (List (Json F))
  requestField : String → Option (Json F)

def emptyResource {F : Type} : ResourceAccessor F :=
  { resourceScalar := fun _ => none
    resourceRelationOne := fun _ _ => none
    resourceRelationMany := fun _ _ => none
    requestField := fun _ => none }

inductive CmpOp
  | eq
  | ne
  | lt
  | le
  | gt
  | ge
  | in
  deriving DecidableEq, Repr

inductive Lit (F : Type)
  | null
  | bool (b : Bool)
  | num (n : F)
  | str (s : String)
  deriving DecidableEq

inductive Operand
  | auth
  | authUid
  | authClaim (path : List String)
  | resourceScalar (field : String)
  | resourceRelationOne (rel targetField : String)
  | resourceRelationMany (rel targetField : String)
  | requestField (field : String)
  deriving DecidableEq, Repr

inductive Expr (F : Type)
  | lit (l : Lit F)
  | operand (o : Operand)
  | not (e : Expr F)
  | and (a b : Expr F)
  | or (a b : Expr F)
  | cmp (lhs : Expr F) (op : CmpOp) (rhs : Expr F)
  deriving DecidableEq

/-- A resolved value. `null` is the intentional one, `absent` is missing data. -/
inductive RVal (F : Type)
  | null
  | absent
  | present
  | bool (b : Bool)
  | num (n : F)
  | str (s : String)
  | set (items : List (RVal F))

section

variable {F : Type} [JsonNumber F]

mutual

def jsonToRVal : Json F → RVal F
  | .null => .absent
  | .bool b => .bool b
  | .number n => ((JsonNumber.asF64 n).map RVal.num).getD .absent
  | .string s => .str s
  | .array items => .set (jsonToRVals items)
  | .object _ => .present

def jsonToRVals : List (Json F) → List (RVal F)
  | [] => []
  | item :: items => jsonToRVal item :: jsonToRVals items

end

def litToRVal : Lit F → RVal F
  | .null => .null
  | .bool b => .bool b
  | .num n => .num n
  | .str s => .str s

def claimAt (cur : Json F) : List String → Option (Json F)
  | [] => some cur
  | seg :: path => (cur.get seg).bind fun v => claimAt v path

def resolve (p : Principal F) (r : ResourceAccessor F) : Operand → RVal F
  | .auth => if p.authenticated then .present else .null
  | .authUid => (p.uid.map RVal.str).getD .absent
  | .authClaim path => ((claimAt p.claims path).map jsonToRVal).getD .absent
  | .resourceScalar f => ((r.resourceScalar f).map jsonToRVal).getD .absent
  | .resourceRelationOne rel f => ((r.resourceRelationOne rel f).map jsonToRVal).getD .absent
  | .resourceRelationMany rel f =>
    ((r.resourceRelationMany rel f).map fun items => RVal.set (items.map jsonToRVal)).getD .absent
  | .requestField f => ((r.requestField f).map jsonToRVal).getD .absent

def RVal.truth : RVal F → Tri
  | .bool b => .ofBool b
  | .present => .true
  | .null => .false
  | .absent | .str _ | .num _ | .set _ => .unknown

def Lit.truth : Lit F → Tri
  | .bool b => .ofBool b
  | .null => .false
  | .num _ | .str _ => .unknown

def triToRVal : Tri → RVal F
  | .true => .bool true
  | .false => .bool false
  | .unknown => .absent

end

section

variable {F : Type} [JsonNumber F] {rv lv : RVal F}

def rvalEq : RVal F → RVal F → Bool
  | .null, .null => true
  | .present, .present => true
  | .bool x, .bool y => decide (x = y)
  | .num x, .num y => decide (x = y)
  | .str x, .str y => decide (x = y)
  | _, _ => false

def rvalOrd : RVal F → RVal F → Option Ordering
  | .num x, .num y => some (compare x y)
  | .str x, .str y => some (compare x y)
  | _, _ => none

def compareRVals (lv : RVal F) : CmpOp → RVal F → Bool
  | .eq, rv => rvalEq lv rv
  | .ne, rv => !rvalEq lv rv
  | .lt, rv => (rvalOrd lv rv).any Ordering.isLT
  | .le, rv => (rvalOrd lv rv).any Ordering.isLE
  | .gt, rv => (rvalOrd lv rv).any Ordering.isGT
  | .ge, rv => (rvalOrd lv rv).any Ordering.isGE
  | .in, .set items => items.any fun item => rvalEq lv item
  | .in, _ => false

/-- `eval_cmp`, on the operands' values. -/
def evalCmp (lv : RVal F) (op : CmpOp) (rv : RVal F) : Tri :=
  match lv, rv with
  | .absent, _ => .unknown
  | _, .absent => .unknown
  | lv, rv => .ofBool (compareRVals lv op rv)

def operandValue (p : Principal F) (r : ResourceAccessor F) (truth : Tri) : Expr F → RVal F
  | .lit l => litToRVal l
  | .operand o => resolve p r o
  | .not _ | .and _ _ | .or _ _ | .cmp .. => triToRVal truth

def evalTri (p : Principal F) (r : ResourceAccessor F) : Expr F → Tri
  | .lit l => l.truth
  | .operand o => (resolve p r o).truth
  | .not x => (evalTri p r x).not
  | .and a b =>
    if evalTri p r a = .false then .false
    else if evalTri p r a = .true ∧ evalTri p r b = .true then .true
    else if evalTri p r b = .false then .false
    else .unknown
  | .or a b =>
    if evalTri p r a = .true then .true
    else if evalTri p r b = .true then .true
    else if evalTri p r a = .false ∧ evalTri p r b = .false then .false
    else .unknown
  | .cmp lhs op rhs =>
    evalCmp (operandValue p r (evalTri p r lhs) lhs) op (operandValue p r (evalTri p r rhs) rhs)

def valueOf (p : Principal F) (r : ResourceAccessor F) (e : Expr F) : RVal F :=
  operandValue p r (evalTri p r e) e

def evalBool (p : Principal F) (r : ResourceAccessor F) (e : Expr F) : Bool :=
  decide (evalTri p r e = .true)

theorem evalTri_and (p : Principal F) (r : ResourceAccessor F) (a b : Expr F) :
    evalTri p r (.and a b) = (evalTri p r a).and (evalTri p r b) := by
  rw [evalTri]
  cases evalTri p r a <;> cases evalTri p r b <;> rfl

theorem evalTri_or (p : Principal F) (r : ResourceAccessor F) (a b : Expr F) :
    evalTri p r (.or a b) = (evalTri p r a).or (evalTri p r b) := by
  rw [evalTri]
  cases evalTri p r a <;> cases evalTri p r b <;> rfl

theorem evalTri_cmp (p : Principal F) (r : ResourceAccessor F) (lhs : Expr F) (op : CmpOp)
    (rhs : Expr F) :
    evalTri p r (.cmp lhs op rhs) = evalCmp (valueOf p r lhs) op (valueOf p r rhs) := by
  rfl

theorem evalCmp_of_present (hl : lv ≠ .absent) (hr : rv ≠ .absent) (op : CmpOp) :
    evalCmp lv op rv = .ofBool (compareRVals lv op rv) := by
  unfold evalCmp
  split
  · exact absurd rfl hl
  · exact absurd rfl hr
  · rfl

theorem evalCmp_of_absent (h : lv = .absent ∨ rv = .absent) (op : CmpOp) :
    evalCmp lv op rv = .unknown := by
  rcases h with rfl | rfl
  · rfl
  · cases lv <;> rfl

end

structure RulesProgram (F : Type) where
  types : AList fun _ : String => AList fun _ : Op => List (Expr F)

namespace RulesProgram

variable {F : Type}

def clauses? (program : RulesProgram F) (op : Op) (typeName : String) : Option (List (Expr F)) :=
  (program.types.lookup typeName).bind fun ops => ops.lookup op

def evaluate [JsonNumber F] (program : RulesProgram F) (op : Op) (typeName : String)
    (principal : Principal F) (resource : ResourceAccessor F) : Decision :=
  match program.clauses? op typeName with
  | none => .deny
  | some clauses => if clauses.any (evalBool principal resource) then .allow else .deny

def clauses (program : RulesProgram F) (op : Op) (typeName : String) : List (Expr F) :=
  (program.clauses? op typeName).getD []

theorem evaluate_eq_allow [JsonNumber F] {program : RulesProgram F} {op : Op} {typeName : String}
    {principal : Principal F} {resource : ResourceAccessor F} :
    program.evaluate op typeName principal resource = .allow ↔
      ∃ clause ∈ program.clauses op typeName, evalTri principal resource clause = .true := by
  unfold evaluate clauses
  cases program.clauses? op typeName with
  | none => simp
  | some clauses => simp [evalBool]

end RulesProgram

end RhypeDb.Authz
