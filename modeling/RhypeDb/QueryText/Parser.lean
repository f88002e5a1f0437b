import RhypeDb.Basic.TokenText
import RhypeDb.Engine.Compare
import RhypeDb.Sdl.Tokens

/-! `parse_query`: a recursive descent over the text of a query. A source and its steps share the
dots between them, and a field path shares its dots with the predicate methods, so that the
parser looks ahead and goes back there. Floats and JSON texts are read by libraries, which stand
as parameters. -/

namespace RhypeDb.QueryText

open Engine (f32OfF64)
open Scan Storage

inductive Literal
  | string (s : String)
  | int (i : Int64)
  | float (bits : UInt64)
  | bool (b : Bool)
  | json (text : String)
  | null
  deriving DecidableEq, Repr

inductive Predicate
  | compare (fieldPath : String) (op : CompareOp) (value : Literal)
  | contains (fieldPath : String) (needle : String)
  | and (left right : Predicate)
  | or (left right : Predicate)
  deriving DecidableEq, Repr

abbrev Fields := SortedMap String Literal

inductive Source
  | get (typeName : String) (id : UInt64)
  | filter (typeName : String) (predicate : Predicate)
  | create (typeName : String) (fields : Fields)
  | createBatch (typeName : String) (rows : List Fields)
  | all (typeName : String)
  deriving DecidableEq

inductive SimilarQuery
  | text (s : String)
  | vector (bits : List UInt32)
  deriving DecidableEq, Repr

inductive Step
  | traverse (fieldName : String)
  | filter (predicate : Predicate)
  | similar (fieldName : String) (query : SimilarQuery) (k : Nat) (ef rerank : Option Nat)
  | matches (fieldName query : String) (k : Nat)
  | update (fields : Fields)
  | delete
  | link (targetType : String) (targetId : UInt64) (edgeFields : Fields)
  | unlink (targetType : String) (targetId : UInt64)
  | limit (count : Nat)
  | offset (count : Nat)
  deriving DecidableEq

structure Query where
  source : Source
  steps : List Step
  deriving DecidableEq

inductive QueryError
  | parse (pos : Nat) (message : String)
  | unknownFunction (name : String)
  deriving DecidableEq, Repr

/-- `str::parse::<f64>`, the cast of an integer to `f32`, and `serde_json::from_str`. -/
structure Readers where
  float : String → Option UInt64
  f32OfInt : Int64 → UInt32
  json : String → Except String String

def Readers.none : Readers where
  float _ := .none
  f32OfInt _ := 0
  json _ := .error ""

structure Parser where
  rest : List Char
  pos : Nat

namespace Parser

def new (input : String) : Parser where
  rest := input.toList
  pos := 0

instance : Cursor Parser where
  rest := Parser.rest
  step p ch rest := { rest := rest, pos := p.pos + ch.utf8Size }
  rest_step _ _ _ := rfl

end Parser

abbrev Parse := Scanner Parser QueryError

def error {α : Type} (message : String) : Parse α := fail fun p => .parse p.pos message

section

variable (chars : CharTable) (readers : Readers)

abbrev skipWs : Parse Unit := skipBlank

def expectChar (expected : Char) : Parse Unit := do
  skipWs
  match ← advance with
  | some ch =>
    if ch = expected then return ()
    else error s!"expected '{expected}', got '{ch}'"
  | none => error s!"expected '{expected}', got EOF"

def expectStr (s : String) : Parse Unit := do
  skipWs
  if ← accept s.toList then return ()
  else error s!"expected '{s}'"

def parseIdent : Parse String := do
  skipWs
  let ident ← takeWhile (Sdl.isIdentChar chars)
  if ident = [] then error "expected identifier"
  else return String.ofList ident

/-- `str::parse::<i64>` of a text of digits, behind a sign or not. -/
def readInt (negative : Bool) (digits : List Char) : Option Int64 :=
  let magnitude : Int := Nat.ofDigitChars 10 digits 0
  let value := if negative then -magnitude else magnitude
  if digits ≠ [] ∧ -2 ^ 63 ≤ value ∧ value < 2 ^ 63 then some (Int64.ofInt value) else none

def parseInt : Parse Int64 := do
  skipWs
  let negative ← accept ['-']
  let digits ← takeWhile Char.isDigit
  if digits = [] then error "expected integer"
  else
    match readInt negative digits with
    | some value => return value
    | none => error "invalid integer"

/-- The identifiers of `get`, `link` and `unlink`: signed, and cast. -/
def parseId : Parse UInt64 := do return (← parseInt).toUInt64

def parseCount : Parse Nat := do
  let n ← parseInt
  if n < 0 then error "expected a non-negative integer"
  else return n.toInt.toNat

def parseExponent : Parse (List Char) := do
  let saved ← get
  let e ← accept ['e']
  let upper ← if e then pure false else accept ['E']
  if e || upper then
    let plus ← accept ['+']
    let minus ← if plus then pure false else accept ['-']
    let digits ← takeWhile Char.isDigit
    if digits = [] then
      set saved
      return []
    else
      let sign := if plus then ['+'] else if minus then ['-'] else []
      return (if e then 'e' else 'E') :: sign ++ digits
  else return []

def parseNumber : Parse Literal := do
  skipWs
  let negative ← accept ['-']
  let digits ← takeWhile Char.isDigit
  let point ← accept ['.']
  let fraction ← if point then takeWhile Char.isDigit else pure []
  let exponent ← parseExponent
  if point || exponent ≠ [] then
    let text := (if negative then ['-'] else []) ++ digits ++
      (if point then '.' :: fraction else []) ++ exponent
    match readers.float (String.ofList text) with
    | some bits => return .float bits
    | none => error "invalid float"
  else
    match readInt negative digits with
    | some value => return .int value
    | none => error "invalid integer"

/-- The next character of a string literal, or its end. An escape that is none is kept as it
stands. -/
def parseStringChar (out : List Char) : Parse (Turn (List Char) String) := do
  match ← advance with
  | none => error "unterminated string"
  | some '"' => return .done (String.ofList out)
  | some '\\' =>
    match ← advance with
    | some '"' => return .again (out ++ ['"'])
    | some '\\' => return .again (out ++ ['\\'])
    | some 'n' => return .again (out ++ ['\n'])
    | some 't' => return .again (out ++ ['\t'])
    | some 'r' => return .again (out ++ ['\r'])
    | some other => return .again (out ++ ['\\', other])
    | none => error "unterminated string (trailing backslash)"
  | some ch => return .again (out ++ [ch])

def parseStringLiteral : Parse String := do
  skipWs
  expectChar '"'
  loop parseStringChar []

structure JsonSpan where
  text : List Char
  depth : Nat
  inString : Bool
  escaped : Bool

def parseJsonChar (span : JsonSpan) : Parse (Turn JsonSpan (List Char)) := do
  match ← advance with
  | none => error "unterminated JSON literal"
  | some ch =>
    let span := { span with text := span.text ++ [ch] }
    if span.inString then
      if span.escaped then return .again { span with escaped := false }
      else if ch = '\\' then return .again { span with escaped := true }
      else if ch = '"' then return .again { span with inString := false }
      else return .again span
    else if ch = '"' then return .again { span with inString := true }
    else if ch = '\x7b' ∨ ch = '[' then return .again { span with depth := span.depth + 1 }
    else if ch = '\x7d' ∨ ch = ']' then
      if span.depth - 1 = 0 then return .done span.text
      else return .again { span with depth := span.depth - 1 }
    else return .again span

def parseJsonContainer : Parse String := do
  skipWs
  let text ← loop parseJsonChar { text := [], depth := 0, inString := false, escaped := false }
  match readers.json (String.ofList text) with
  | .ok value => return value
  | .error e => error s!"invalid JSON literal: {e}"

def parseLiteral : Parse Literal := do
  skipWs
  match ← peek with
  | some '"' => return .string (← parseStringLiteral)
  | some 't' => do
    expectStr "true"
    return .bool true
  | some 'f' => do
    expectStr "false"
    return .bool false
  | some 'n' => do
    expectStr "null"
    return .null
  | some ch =>
    if ch = '\x7b' ∨ ch = '[' then return .json (← parseJsonContainer readers)
    else if ch.isDigit ∨ ch = '-' then parseNumber readers
    else error "expected literal value"
  | none => error "expected literal value"

def parseField (fields : Fields) : Parse (Turn Fields Fields) := do
  skipWs
  if ← accept ['\x7d'] then return .done fields
  else
    let name ← parseIdent chars
    expectChar ':'
    let value ← parseLiteral readers
    skipWs
    let _ ← accept [',']
    return .again (fields.insert name value)

def parseObject : Parse Fields := do
  expectChar '\x7b'
  loop (parseField chars readers) .empty

end

section

variable (chars : CharTable) (readers : Readers)

def compareOps : List (String × CompareOp) :=
  [("==", .eq), ("!=", .ne), ("<=", .le), (">=", .ge), ("<", .lt), (">", .gt)]

def parseOpOf : List (String × CompareOp) → Parse CompareOp
  | [] => error "expected comparison operator"
  | (text, op) :: ops => do
    if ← accept text.toList then return op
    else parseOpOf ops

def parseCompareOp : Parse CompareOp := do
  skipWs
  parseOpOf compareOps

def pathEnds : List String := ["==", "!=", "<=", ">=", "<", ">", ".contains("]

def lookingAtAny : List String → Parse Bool
  | [] => return false
  | text :: texts => do
    if ← lookingAt text.toList then return true
    else lookingAtAny texts

/-- One more segment of a field path, behind its dot. Where none follows, or the segment is the
predicate method, the place is that of the dot again. -/
def parseSegment (path : String) : Parse (Turn String String) := do
  let saved ← get
  if ← accept ['.'] then
    let next ← peek
    if next.any fun ch => chars.isAlphabetic ch || ch == '_' then
      let segment ← parseIdent chars
      if segment = "contains" ∧ (← lookingAt ['(']) then
        set saved
        return .done path
      else
        skipWs
        if ← lookingAtAny pathEnds then return .again (path ++ "." ++ segment)
        else
          set saved
          return .done path
    else
      set saved
      return .done path
  else return .done path

def parsePredicateAtom : Parse Predicate := do
  expectChar '.'
  let path ← loop (parseSegment chars) (← parseIdent chars)
  skipWs
  if ← accept ".contains(".toList then
    skipWs
    if ← lookingAt ['"'] then
      let needle ← parseStringLiteral
      skipWs
      expectChar ')'
      return .contains path needle
    else error "contains() takes a string literal"
  else
    let op ← parseCompareOp
    let value ← parseLiteral readers
    return .compare path op value

def acceptOperator (sign word : String) : Parse Bool := do
  skipWs
  if ← accept sign.toList then return true
  else accept word.toList

def parseOperand (sign word : String) (join : Predicate → Predicate → Predicate)
    (operand : Parse Predicate) (left : Predicate) : Parse (Turn Predicate Predicate) := do
  if ← acceptOperator sign word then return .again (join left (← operand))
  else return .done left

def parseAndTerm (factor : Parse Predicate) : Parse Predicate := do
  loop (parseOperand "&&" "and " .and factor) (← factor)

/-- `parse_predicate` above its factors. -/
def parseOrTerm (factor : Parse Predicate) : Parse Predicate := do
  loop (parseOperand "||" "or " .or (parseAndTerm factor)) (← parseAndTerm factor)

def parsePredicateFactor (predicate : Parse Predicate) : Parse Predicate := do
  skipWs
  if ← accept ['('] then
    let inner ← predicate
    expectChar ')'
    return inner
  else parsePredicateAtom chars readers

/-- Predicates whose parentheses are nested less deep than `depth`. -/
def parsePredicateTo : (depth : Nat) → Parse Predicate
  | 0 => stuck
  | depth + 1 => parseOrTerm (parsePredicateFactor chars readers (parsePredicateTo depth))

def parsePredicate : Parse Predicate := fun p =>
  parsePredicateTo chars readers (p.rest.length + 1) p

end

section

variable (chars : CharTable) (readers : Readers)

def parseVectorValue (values : List UInt32) : Parse (Turn (List UInt32) (List UInt32)) := do
  skipWs
  if ← accept [']'] then return .done values
  else
    let lit ← parseNumber readers
    let val ←
      match lit with
      | .float bits => pure (f32OfF64 bits)
      | .int i => pure (readers.f32OfInt i)
      | _ => error "expected number in vector"
    skipWs
    let _ ← accept [',']
    return .again (values ++ [val])

def parseVectorLiteral : Parse (List UInt32) := do
  expectChar '['
  loop (parseVectorValue readers) []

/-- `ef` and `rerank`, as far as they have been given. -/
def parseSimilarParam (given : Option Nat × Option Nat) :
    Parse (Turn (Option Nat × Option Nat) (Option Nat × Option Nat)) := do
  skipWs
  if ← accept [','] then
    skipWs
    if ← lookingAt [')'] then return .done given
    else
      let name ← parseIdent chars
      skipWs
      expectChar ':'
      let n ← parseCount
      match name with
      | "ef" =>
        if given.1.isSome then error "duplicate 'ef' parameter"
        else if n = 0 then error "ef must be >= 1"
        else return .again (some n, given.2)
      | "rerank" =>
        if given.2.isSome then error "duplicate 'rerank' parameter"
        else return .again (given.1, some n)
      | other =>
        error s!"unknown similar() parameter '{other}' (expected 'ef' or 'rerank')"
  else return .done given

def parseSimilarQuery : Parse SimilarQuery := do
  skipWs
  if ← lookingAt ['"'] then return .text (← parseStringLiteral)
  else return .vector (← parseVectorLiteral readers)

def parseSimilar : Parse Step := do
  expectChar '('
  expectChar '.'
  let fieldName ← parseIdent chars
  expectChar ','
  let query ← parseSimilarQuery readers
  expectChar ','
  skipWs
  expectStr "k:"
  let k ← parseCount
  let (ef, rerank) ← loop (parseSimilarParam chars) (none, none)
  expectChar ')'
  return .similar fieldName query k ef rerank

def parseMatches : Parse Step := do
  expectChar '('
  skipWs
  expectChar '.'
  let fieldName ← parseIdent chars
  skipWs
  expectChar ','
  skipWs
  if ← lookingAt ['"'] then
    let query ← parseStringLiteral
    skipWs
    expectChar ','
    skipWs
    expectStr "k:"
    let k ← parseCount
    skipWs
    if ← accept [','] then
      skipWs
      if ← lookingAt [')'] then
        expectChar ')'
        return .matches fieldName query k
      else
        let name ← parseIdent chars
        error s!"unknown matches() parameter '{name}' (only `k:` is accepted)"
    else
      expectChar ')'
      return .matches fieldName query k
  else error "matches() query must be a string literal"

/-- `Target.get(id)`, which `link` and `unlink` start with. -/
def parseTarget : Parse (String × UInt64) := do
  expectChar '('
  let targetType ← parseIdent chars
  expectChar '.'
  expectStr "get"
  expectChar '('
  let targetId ← parseId
  expectChar ')'
  return (targetType, targetId)

def parseEdgeFields : Parse Fields := do
  skipWs
  if ← accept [','] then parseObject chars readers
  else return .empty

def parseLink : Parse Step := do
  let (targetType, targetId) ← parseTarget chars
  let edgeFields ← parseEdgeFields chars readers
  expectChar ')'
  return .link targetType targetId edgeFields

def parseUnlink : Parse Step := do
  let (targetType, targetId) ← parseTarget chars
  expectChar ')'
  return .unlink targetType targetId

def parseFunctionStep (name : String) : Parse Step :=
  match name with
  | "filter" => do
    expectChar '('
    let predicate ← parsePredicate chars readers
    expectChar ')'
    return .filter predicate
  | "similar" => parseSimilar chars readers
  | "matches" => parseMatches chars
  | "update" => do
    expectChar '('
    let fields ← parseObject chars readers
    expectChar ')'
    return .update fields
  | "delete" => do
    expectChar '('
    expectChar ')'
    return .delete
  | "link" => parseLink chars readers
  | "unlink" => parseUnlink chars
  | "limit" => do
    expectChar '('
    let count ← parseCount
    expectChar ')'
    return .limit count
  | "offset" => do
    expectChar '('
    let count ← parseCount
    expectChar ')'
    return .offset count
  | _ => throw (.unknownFunction name)

def parseRow (rows : List Fields) : Parse (Turn (List Fields) (List Fields)) := do
  skipWs
  if ← accept [','] then
    skipWs
    if ← lookingAt [']'] then return .done rows
    else
      let row ← parseObject chars readers
      return .again (rows ++ [row])
  else return .done rows

def parseRows : Parse (List Fields) := do
  skipWs
  if ← lookingAt [']'] then return []
  else
    let row ← parseObject chars readers
    loop (parseRow chars readers) [row]

def parseSourceMethod (typeName method : String) (saved : Parser) : Parse Source :=
  match method with
  | "get" => do
    expectChar '('
    let id ← parseId
    expectChar ')'
    return .get typeName id
  | "filter" => do
    expectChar '('
    let predicate ← parsePredicate chars readers
    expectChar ')'
    return .filter typeName predicate
  | "create" => do
    expectChar '('
    let fields ← parseObject chars readers
    expectChar ')'
    return .create typeName fields
  | "create_batch" => do
    expectChar '('
    skipWs
    expectChar '['
    let rows ← parseRows chars readers
    expectChar ']'
    skipWs
    expectChar ')'
    return .createBatch typeName rows
  | _ => do
    set saved
    return .all typeName

def parseSource : Parse Source := do
  let typeName ← parseIdent chars
  skipWs
  let saved ← get
  if ← accept ['.'] then
    let method ← parseIdent chars
    skipWs
    parseSourceMethod chars readers typeName method saved
  else return .all typeName

def sawLimitAfter (sawLimit : Bool) : Step → Bool
  | .limit _ => true
  | .traverse _ | .similar _ _ _ _ _ | .matches _ _ _ => false
  | _ => sawLimit

def Step.isOffset : Step → Bool
  | .offset _ => true
  | _ => false

def parseNamedStep : Parse Step := do
  skipWs
  let ident ← parseIdent chars
  skipWs
  if ← lookingAt ['('] then parseFunctionStep chars readers ident
  else return .traverse ident

def parseStep (state : List Step × Bool) : Parse (Turn (List Step × Bool) (List Step)) := do
  let (steps, sawLimit) := state
  skipWs
  if ← accept ['.'] then
    let step ← parseNamedStep chars readers
    if step.isOffset ∧ sawLimit then
      error ("`.offset(...)` must come before `.limit(...)`: `.limit(N).offset(M)` " ++
        "takes N rows then skips M. For pagination use `.offset(M).limit(N)`.")
    else return .again (steps ++ [step], sawLimitAfter sawLimit step)
  else return .done steps

def parseQueryParts : Parse Query := do
  let source ← parseSource chars readers
  let steps ← loop (parseStep chars readers) ([], false)
  skipWs
  if (← peek).isNone then return { source := source, steps := steps }
  else error "unexpected trailing input"

end

/-- `None` is a run that does not come to an end. -/
def parseQuery (chars : CharTable) (readers : Readers) (input : String) :
    Option (Except QueryError Query) :=
  ((parseQueryParts chars readers).run (.new input)).run.map fun result => result.map Prod.fst

end RhypeDb.QueryText
