import RhypeDb.QueryText.Parser

/-! Queries as texts: the tokens of each construct, with whitespace wherever the grammar lets it
stand. An object is printed in any order of its fields, a predicate with parentheses where its
parts would be grouped in another way. -/

namespace RhypeDb.QueryText

open Scan Storage

def escapeChar (c : Char) : List Char :=
  if c = '"' then ['\\', '"'] else if c = '\\' then ['\\', '\\'] else [c]

/-- `ql_string_literal` of the client. -/
def qlStringLiteral (s : String) : String :=
  "\"" ++ String.ofList (s.toList.flatMap escapeChar) ++ "\""

def Literal.Plain : Literal → Prop
  | .float _ => False
  | .json _ => False
  | _ => True

def literalText : Literal → String
  | .string s => qlStringLiteral s
  | .int i => toString i.toInt
  | .bool b => if b then "true" else "false"
  | .null => "null"
  | .float _ => ""
  | .json text => text

def fieldToks : List (String × Literal) → List Tok
  | [] => []
  | [e] => [.loose e.1, .mark ':', .loose (literalText e.2)]
  | e :: es => .loose e.1 :: .mark ':' :: .loose (literalText e.2) :: .mark ',' :: fieldToks es

def ObjectPrinted (fields : Fields) (toks : List Tok) : Prop :=
  ∃ es, es.Perm fields.entries ∧ toks = .mark '\x7b' :: (fieldToks es ++ [.mark '\x7d'])

/-- `CompareOp::as_str`. -/
def opText : CompareOp → String
  | .eq => "=="
  | .ne => "!="
  | .lt => "<"
  | .le => "<="
  | .gt => ">"
  | .ge => ">="

def pathToks (path : String) : List Tok := [.mark '.', .loose path]

inductive Level
  | or
  | and
  | factor
  deriving DecidableEq, Repr

def Predicate.toks : Level → Predicate → List Tok
  | _, .compare path op value =>
    pathToks path ++ [.loose (opText op), .loose (literalText value)]
  | _, .contains path needle =>
    pathToks path ++ [.loose ".contains(", .loose (qlStringLiteral needle), .mark ')']
  | .or, .or left right => left.toks .or ++ .loose "||" :: right.toks .and
  | _, .or left right => .mark '(' :: (left.toks .or ++ .loose "||" :: right.toks .and ++ [.mark ')'])
  | .factor, .and left right =>
    .mark '(' :: (left.toks .and ++ .loose "&&" :: right.toks .factor ++ [.mark ')'])
  | _, .and left right => left.toks .and ++ .loose "&&" :: right.toks .factor

def numberTok (n : Nat) : Tok := .loose (toString n)

def paramToks (key : String) : Option Nat → List Tok
  | none => []
  | some n => [.mark ',', .loose key, .mark ':', numberTok n]

def targetToks (targetType : String) (targetId : UInt64) : List Tok :=
  [.mark '(', .loose targetType, .mark '.', .loose "get", .mark '(', numberTok targetId.toNat,
    .mark ')']

def StepPrinted : Step → List Tok → Prop
  | .traverse fieldName, toks => toks = [.loose fieldName]
  | .filter predicate, toks =>
    toks = .loose "filter" :: .mark '(' :: (predicate.toks .or ++ [.mark ')'])
  | .similar fieldName (.text s) k ef rerank, toks =>
    toks = .loose "similar" :: .mark '(' :: .mark '.' :: .loose fieldName :: .mark ',' ::
      .loose (qlStringLiteral s) :: .mark ',' :: .loose "k:" :: numberTok k ::
      (paramToks "ef" ef ++ paramToks "rerank" rerank ++ [.mark ')'])
  | .similar _ (.vector _) _ _ _, _ => False
  | .matches fieldName query k, toks =>
    toks = [.loose "matches", .mark '(', .mark '.', .loose fieldName, .mark ',',
      .loose (qlStringLiteral query), .mark ',', .loose "k:", numberTok k, .mark ')']
  | .update fields, toks =>
    ∃ object, ObjectPrinted fields object ∧ toks = .loose "update" :: .mark '(' :: (object ++ [.mark ')'])
  | .delete, toks => toks = [.loose "delete", .mark '(', .mark ')']
  | .link targetType targetId edgeFields, toks =>
    (edgeFields = .empty ∧ toks = .loose "link" :: (targetToks targetType targetId ++ [.mark ')'])) ∨
    ∃ object, ObjectPrinted edgeFields object ∧
      toks = .loose "link" :: (targetToks targetType targetId ++ .mark ',' :: (object ++ [.mark ')']))
  | .unlink targetType targetId, toks =>
    toks = .loose "unlink" :: (targetToks targetType targetId ++ [.mark ')'])
  | .limit count, toks => toks = [.loose "limit", .mark '(', numberTok count, .mark ')']
  | .offset count, toks => toks = [.loose "offset", .mark '(', numberTok count, .mark ')']

def rowToks : List (List Tok) → List Tok
  | [] => []
  | [row] => row
  | row :: rows => row ++ .mark ',' :: rowToks rows

def SourcePrinted : Source → List Tok → Prop
  | .get typeName id, toks =>
    toks = [.loose typeName, .mark '.', .loose "get", .mark '(', numberTok id.toNat, .mark ')']
  | .filter typeName predicate, toks =>
    toks = .loose typeName :: .mark '.' :: .loose "filter" :: .mark '(' ::
      (predicate.toks .or ++ [.mark ')'])
  | .create typeName fields, toks => ∃ object, ObjectPrinted fields object ∧
    toks = .loose typeName :: .mark '.' :: .loose "create" :: .mark '(' :: (object ++ [.mark ')'])
  | .createBatch typeName rows, toks => ∃ objects, List.Forall₂ ObjectPrinted rows objects ∧
    toks = .loose typeName :: .mark '.' :: .loose "create_batch" :: .mark '(' :: .mark '[' ::
      (rowToks objects ++ [.mark ']', .mark ')'])
  | .all typeName, toks => toks = [.loose typeName]

def StepsPrinted : List Step → List Tok → Prop
  | [], toks => toks = []
  | step :: steps, toks => ∃ first more, StepPrinted step first ∧ StepsPrinted steps more ∧
    toks = .mark '.' :: (first ++ more)

def Prints (q : Query) (text : String) : Prop :=
  ∃ source steps, SourcePrinted q.source source ∧ StepsPrinted q.steps steps ∧
    Written (source ++ steps) text.toList

end RhypeDb.QueryText
