import RhypeDb.Authz.Rules
import RhypeDb.Basic.Fallible
import RhypeDb.Engine.Schema

/-! The compiler of `rules/parse.rs`: the parsed statements of a rules file, resolved against
the schema. Paths keep their segments until here. -/

namespace RhypeDb.Authz

open Engine

inductive RulesError
  | parse (pos : Nat) (message : String)
  | schema (message : String)
  deriving DecidableEq, Repr

inductive RawExpr (F : Type)
  | lit (l : Lit F)
  | path (segs : List String) (pos : Nat)
  | not (e : RawExpr F)
  | and (a b : RawExpr F)
  | or (a b : RawExpr F)
  | cmp (a : RawExpr F) (op : CmpOp) (b : RawExpr F)

structure RawAllow (F : Type) where
  ops : List Op
  expr : RawExpr F

structure RawStmt (F : Type) where
  typeName : String
  typePos : Nat
  allows : List (RawAllow F)

section

variable (pos : Nat) (typeName : String) (td : TypeDef) (schema : Schema)

/-- `request.<field>`. -/
def compileRequestField (field : String) : Except RulesError Operand :=
  match td.getField field with
  | none => .error (.parse pos s!"`request.{field}`: no field `{field}` on type `{typeName}`")
  | some fd =>
    match fd.fieldType with
    | .scalar _ | .relation _ => .ok (.requestField field)
    | .vector _ =>
      .error (.parse pos s!"`request.{field}`: vector fields can't be referenced in rules")

/-- `resource.<scalarField>`. -/
def compileResourceScalar (field : String) : Except RulesError Operand :=
  match td.getField field with
  | none => .error (.parse pos s!"`resource.{field}`: no field `{field}` on type `{typeName}`")
  | some fd =>
    match fd.fieldType with
    | .scalar _ => .ok (.resourceScalar field)
    | .relation _ => .error (.parse pos
        s!"`resource.{field}` is a relationship — project a target field, e.g. resource.{field}.<field>")
    | .vector _ =>
      .error (.parse pos s!"`resource.{field}`: vector fields can't be referenced in rules")

/-- `resource.<rel>.<targetField>`. -/
def compileResourceRelation (rel targetField : String) : Except RulesError Operand :=
  match td.getField rel with
  | none => .error (.parse pos s!"`resource.{rel}`: no field `{rel}` on type `{typeName}`")
  | some fd =>
    match fd.fieldType with
    | .relation relation =>
      let targetType := relation.targetType
      match schema.getType targetType with
      | none => .error (.schema
          s!"relationship `{typeName}.{rel}` targets unknown type `{targetType}`")
      | some target =>
        match target.getField targetField with
        | none => .error (.parse pos
            s!"`resource.{rel}.{targetField}`: no field `{targetField}` on `{targetType}`")
        | some tf =>
          if tf.isScalar then
            if relation.isMany then .ok (.resourceRelationMany rel targetField)
            else .ok (.resourceRelationOne rel targetField)
          else .error (.parse pos s!"`resource.{rel}.{targetField}` must project a scalar field")
    | _ => .error (.parse pos
        s!"`resource.{rel}.{targetField}`: `{rel}` is not a relationship")

def compilePath (segs : List String) : Except RulesError Operand :=
  match segs with
  | ["request"] => .error (.parse pos "`request` needs a field (e.g. request.<field>)")
  | ["resource"] => .error (.parse pos "`resource` needs a field (e.g. resource.<field>)")
  | ["request", "auth"] => .ok .auth
  | ["request", "auth", "uid"] => .ok .authUid
  | "request" :: "auth" :: "claims" :: rest => .ok (.authClaim rest)
  | ["request", "auth", bad] =>
    .error (.parse pos s!"unknown `request.auth.{bad}` (use uid or claims.*)")
  | ["request", field] => compileRequestField pos typeName td field
  | ["resource", field] => compileResourceScalar pos typeName td field
  | ["resource", rel, targetField] =>
    compileResourceRelation pos typeName td schema rel targetField
  | segs =>
    let path := ".".intercalate segs
    .error (.parse pos s!"unsupported path `{path}`")

variable {F : Type}

def Expr.isAuth : Expr F → Bool
  | .operand .auth => true
  | _ => false

def Expr.isNull : Expr F → Bool
  | .lit .null => true
  | _ => false

def Expr.isMany : Expr F → Bool
  | .operand (.resourceRelationMany ..) => true
  | _ => false

def checkCmp (lhs : Expr F) (op : CmpOp) (rhs : Expr F) : Except RulesError Unit :=
  let otherIsNull := if lhs.isAuth then rhs.isNull else lhs.isNull
  if (lhs.isAuth ∨ rhs.isAuth) ∧
      ((lhs.isAuth ∧ rhs.isAuth) ∨ ¬ (op = .eq ∨ op = .ne) ∨ ¬ otherIsNull) then
    .error (.schema
      "`request.auth` may only be compared to `null` (use request.auth.uid for the id)")
  else if lhs.isMany then
    .error (.schema
      "a to-many relationship projection can't be a comparison's left operand — write `<value> in resource.<rel>.<field>`")
  else if rhs.isMany ∧ op ≠ .in then
    .error (.schema "a to-many relationship projection is only valid as the right side of `in`")
  else .ok ()

def compileExpr (typeName : String) (td : TypeDef) (schema : Schema) :
    RawExpr F → Except RulesError (Expr F)
  | .lit l => .ok (.lit l)
  | .path segs pos => do return .operand (← compilePath pos typeName td schema segs)
  | .not e => do return .not (← compileExpr typeName td schema e)
  | .and a b => do
    let a ← compileExpr typeName td schema a
    let b ← compileExpr typeName td schema b
    return .and a b
  | .or a b => do
    let a ← compileExpr typeName td schema a
    let b ← compileExpr typeName td schema b
    return .or a b
  | .cmp a op b => do
    let lhs ← compileExpr typeName td schema a
    let rhs ← compileExpr typeName td schema b
    checkCmp lhs op rhs
    return .cmp lhs op rhs

end

variable {F : Type}

abbrev TypeRules (F : Type) := AList fun _ : Op => List (Expr F)

/-- `entry(op).or_default().push(compiled)`. -/
def pushClause (clause : Expr F) (rules : TypeRules F) (op : Op) : TypeRules F :=
  rules.insert op ((rules.lookup op).getD [] ++ [clause])

def compileAllow (typeName : String) (td : TypeDef) (schema : Schema) (rules : TypeRules F)
    (allow : RawAllow F) : Except RulesError (TypeRules F) := do
  let compiled ← compileExpr typeName td schema allow.expr
  return allow.ops.foldl (pushClause compiled) rules

def compileStmt (schema : Schema) (types : AList fun _ : String => TypeRules F)
    (stmt : RawStmt F) : Except RulesError (AList fun _ : String => TypeRules F) := do
  let typeName := stmt.typeName
  match schema.getType typeName with
  | none => .error (.parse stmt.typePos s!"`match {typeName}`: no such type in the schema")
  | some td =>
    let rules ← stmt.allows.foldlM (compileAllow typeName td schema)
      ((types.lookup typeName).getD ∅)
    return types.insert typeName rules

/-- `compile`, after lexing and parsing. -/
def compile (stmts : List (RawStmt F)) (schema : Schema) :
    Except RulesError (RulesProgram F) := do
  return { types := ← stmts.foldlM (compileStmt schema) ∅ }

end RhypeDb.Authz
