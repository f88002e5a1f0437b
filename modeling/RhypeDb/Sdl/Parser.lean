import RhypeDb.Basic.Scan
import RhypeDb.Sdl.Syntax

/-! `parse_schema`: a recursive descent over the schema's text, with the line and the column that
its errors tell. -/

namespace RhypeDb.Sdl

open Engine (EdgeFieldDef FieldType OnDeletePolicy RelationType ScalarType)
open Scan

structure Parser where
  rest : List Char
  line : Nat
  col : Nat

namespace Parser

def new (input : String) : Parser where
  rest := input.toList
  line := 1
  col := 1

instance : Cursor Parser where
  rest := Parser.rest
  step p ch rest :=
    if ch = '\n' then { rest := rest, line := p.line + 1, col := 1 }
    else { rest := rest, line := p.line, col := p.col + 1 }
  rest_step p ch rest := by split_ifs <;> rfl

end Parser

abbrev Parse := Scanner Parser SchemaError

def error {α : Type} (message : String) : Parse α := fail fun p => .parse p.line p.col message

section

variable (chars : CharTable)

def isEof : Parse Bool := do return (← peek).isNone

def skipLineTurn : Parse (Turn Unit Unit) := do
  match ← advance with
  | some c => return if c = '\n' then .done () else .again ()
  | none => return .done ()

def skipLine : Parse Unit := loop (fun _ => skipLineTurn) ()

def skipWhitespaceTurn : Parse (Turn Unit Unit) := do
  match ← peek with
  | none => return .done ()
  | some ch =>
    if isWhitespace ch then
      let _ ← advance
      return .again ()
    else if ch = '/' then
      if ← lookingAt "//".toList then
        skipLine
        return .again ()
      else return .done ()
    else return .done ()

def skipWhitespace : Parse Unit := loop (fun _ => skipWhitespaceTurn) ()

def expect (expected : Char) : Parse Unit := do
  skipWhitespace
  match ← advance with
  | some ch =>
    if ch = expected then return ()
    else error s!"expected '{expected}', got '{ch}'"
  | none => error s!"expected '{expected}', got EOF"

def expectIf (needed : Bool) (expected : Char) : Parse Unit :=
  if needed then expect expected else return ()

def isIdentChar (ch : Char) : Bool := chars.isAlphanumeric ch || ch == '_'

def parseIdent : Parse String := do
  skipWhitespace
  let ident ← takeWhile (isIdentChar chars)
  if ident = [] then error "expected identifier"
  else return String.ofList ident

def parseU32 : Parse UInt32 := do
  skipWhitespace
  let digits ← takeWhile Char.isDigit
  if digits = [] then error "expected number"
  else
    let number := Nat.ofDigitChars 10 digits 0
    if number < 2 ^ 32 then return UInt32.ofNat number
    else error "invalid number"

def parseStringValue : Parse String := do
  skipWhitespace
  expect '"'
  let s ← takeWhile (· != '"')
  match ← advance with
  | some _ => return String.ofList s
  | none => error "unterminated string"

def parseBoolValue : Parse Bool := do
  skipWhitespace
  let next ← peek
  if next.any chars.isAlphabetic then
    let word ← parseIdent chars
    match word with
    | "true" => return true
    | "false" => return false
    | _ => error s!"expected `true` or `false`, found `{word}`"
  else
    let found := String.ofList next.toList
    error s!"expected `true` or `false`, found `{found}`"

end

def parseScalarType (name : String) : Option ScalarType :=
  match name with
  | "String" => some .string
  | "u32" => some .u32
  | "u64" => some .u64
  | "i32" => some .i32
  | "i64" => some .i64
  | "f32" => some .f32
  | "f64" => some .f64
  | "Bool" => some .bool
  | "DateTime" => some .dateTime
  | "Bytes" => some .bytes
  | "Json" => some .json
  | _ => none

section

variable (chars : CharTable)

def onDeletePolicy? (name : String) : Option OnDeletePolicy :=
  match name with
  | "remove" => some .remove
  | "cascade" => some .cascade
  | "deny" => some .deny
  | _ => none

def parseOnDelete : Parse Directive := do
  expect '('
  let policyName ← parseIdent chars
  expect ')'
  match onDeletePolicy? policyName with
  | some policy => return .onDelete policy
  | none => throw (.invalidOnDelete policyName)

def parseInverse : Parse Directive := do
  expect '('
  let typeName ← parseIdent chars
  expect '.'
  let fieldName ← parseIdent chars
  expect ')'
  return .inverse { typeName := typeName, fieldName := fieldName }

def distanceMetric? (name : String) : Option DistanceMetric :=
  match name with
  | "cosine" => some .cosine
  | "l2" => some .l2
  | "dot_product" => some .dotProduct
  | _ => none

def quantizationType? (name : String) : Option QuantizationType :=
  match name with
  | "turboquant_2bit" => some .turboQuant2Bit
  | "turboquant_3bit" => some .turboQuant3Bit
  | "turboquant_4bit" => some .turboQuant4Bit
  | "none" => some .none
  | _ => none

/-- The value of one parameter of `@index`, put into what the parameters before it gave. -/
def parseIndexValue (idx : IndexDef) (key : String) : Parse IndexDef :=
  match key with
  | "metric" => do
    let val ← parseIdent chars
    match distanceMetric? val with
    | some metric => return { idx with metric := some metric }
    | none => error s!"unknown metric: {val}"
  | "quantization" => do
    let val ← parseIdent chars
    match quantizationType? val with
    | some quantization => return { idx with quantization := some quantization }
    | none => error s!"unknown quantization: {val}"
  | "m" => do return { idx with m := some (← parseU32) }
  | "ef_construction" => do return { idx with efConstruction := some (← parseU32) }
  | _ => error s!"unknown index parameter: {key}"

def parseIndexParam (idx : IndexDef) : Parse (Turn IndexDef IndexDef) := do
  skipWhitespace
  if ← accept [')'] then return .done idx
  else
    expect ','
    let key ← parseIdent chars
    expect ':'
    return .again (← parseIndexValue chars idx key)

def parseIndex : Parse Directive := do
  expect '('
  let indexTypeName ← parseIdent chars
  if indexTypeName = "hnsw" then
    return .index (← loop (parseIndexParam chars)
      { indexType := .hnsw, metric := none, quantization := none, m := none,
        efConstruction := none })
  else error s!"unknown index type: {indexTypeName}"

def parseVectorizeParam (given : Option String × Option String) :
    Parse (Turn (Option String × Option String) (Option String × Option String)) := do
  skipWhitespace
  if ← accept [')'] then return .done given
  else
    expectIf (given.1.isSome || given.2.isSome) ','
    let key ← parseIdent chars
    expect ':'
    match key with
    | "source" => do
      skipWhitespace
      return .again (some (← parseStringValue), given.2)
    | "model" => do
      skipWhitespace
      return .again (given.1, some (← parseStringValue))
    | _ => error s!"unknown @vectorize parameter: {key}"

def parseVectorize : Parse Directive := do
  expect '('
  let given ← loop (parseVectorizeParam chars) (none, none)
  match given with
  | (none, _) => error "@vectorize requires 'source' parameter"
  | (some _, none) => error "@vectorize requires 'model' parameter"
  | (some sourceField, some model) =>
    return .vectorize { sourceField := sourceField, model := model }

structure FulltextParams where
  fulltext : FulltextDef
  seenAnalyzer : Bool
  seenPositions : Bool

def parseFulltextValue (given : FulltextParams) (key : String) : Parse FulltextParams :=
  match key with
  | "analyzer" =>
    if given.seenAnalyzer then error "duplicate @fulltext parameter: analyzer"
    else do
      let name ← parseStringValue
      if name ∈ FulltextDef.knownAnalyzers then
        return { given with
          fulltext := { given.fulltext with analyzer := name }
          seenAnalyzer := true }
      else
        let known := ", ".intercalate FulltextDef.knownAnalyzers
        error s!"unknown @fulltext analyzer: \"{name}\" (known: {known})"
  | "positions" =>
    if given.seenPositions then error "duplicate @fulltext parameter: positions"
    else do
      let positions ← parseBoolValue chars
      return { given with
        fulltext := { given.fulltext with positions := positions }
        seenPositions := true }
  | _ => error s!"unknown @fulltext parameter: {key}"

def parseFulltextParam (given : FulltextParams) : Parse (Turn FulltextParams FulltextDef) := do
  skipWhitespace
  if ← accept [')'] then return .done given.fulltext
  else
    expectIf (given.seenAnalyzer || given.seenPositions) ','
    let key ← parseIdent chars
    expect ':'
    return .again (← parseFulltextValue chars given key)

def parseFulltext : Parse Directive := do
  skipWhitespace
  if ← accept ['('] then
    return .fulltext (← loop (parseFulltextParam chars)
      { fulltext := .default, seenAnalyzer := false, seenPositions := false })
  else return .fulltext .default

def parseDirective : Parse Directive := do
  let name ← parseIdent chars
  match name with
  | "unique" => return .unique
  | "indexed" => return .indexed
  | "on_delete" => parseOnDelete chars
  | "inverse" => parseInverse chars
  | "index" => parseIndex chars
  | "vectorize" => parseVectorize chars
  | "fulltext" => parseFulltext chars
  | _ => error s!"unknown directive: @{name}"

end

section

variable (chars : CharTable)

def parseFieldType : Parse FieldType := do
  skipWhitespace
  if ← accept ['['] then
    let inner ← parseIdent chars
    expect ']'
    return .relation { targetType := inner, isMany := true, edgeFields := [] }
  else
    let typeName ← parseIdent chars
    if typeName = "Vector" then
      expect '<'
      let dims ← parseU32
      expect '>'
      return .vector dims.toNat
    else
      match parseScalarType typeName with
      | some scalar => return .scalar scalar
      | none => return .relation { targetType := typeName, isMany := false, edgeFields := [] }

def parseEdgeField (fields : List EdgeFieldDef) :
    Parse (Turn (List EdgeFieldDef) (List EdgeFieldDef)) := do
  skipWhitespace
  if ← accept ['}'] then return .done fields
  else
    let name ← parseIdent chars
    expect ':'
    let typeName ← parseIdent chars
    match parseScalarType typeName with
    | none => error s!"edge field must be a scalar type, got '{typeName}'"
    | some scalarType =>
      skipWhitespace
      let _ ← accept [',']
      return .again (fields ++ [{ name := name, scalarType := scalarType }])

def parseEdgeFields : Parse (List EdgeFieldDef) := do
  expect '{'
  loop (parseEdgeField chars) []

def parseEdgeBlock (fieldType : FieldType) : Parse FieldType :=
  match fieldType with
  | .relation rel => do
    skipWhitespace
    if ← lookingAt ['{'] then
      return .relation { rel with edgeFields := ← parseEdgeFields chars }
    else return .relation rel
  | fieldType => return fieldType

def parseNextDirective (directives : List Directive) :
    Parse (Turn (List Directive) (List Directive)) := do
  skipWhitespace
  if ← accept ['@'] then return .again (directives ++ [← parseDirective chars])
  else return .done directives

def parseFieldDef : Parse FieldDef := do
  let name ← parseIdent chars
  expect ':'
  let fieldType ← parseFieldType chars
  let fieldType ← parseEdgeBlock chars fieldType
  let directives ← loop (parseNextDirective chars) []
  return { name := name, fieldType := fieldType, directives := directives }

def parseNextField (fields : List FieldDef) : Parse (Turn (List FieldDef) (List FieldDef)) := do
  skipWhitespace
  if ← accept ['}'] then return .done fields
  else return .again (fields ++ [← parseFieldDef chars])

def parseTypeDef : Parse TypeDef := do
  skipWhitespace
  let keyword ← parseIdent chars
  if keyword = "type" then
    let name ← parseIdent chars
    expect '{'
    let fields ← loop (parseNextField chars) []
    return { name := name, fields := fields }
  else error s!"expected 'type', got '{keyword}'"

def parseNextType (types : SortedMap String TypeDef) :
    Parse (Turn (SortedMap String TypeDef) (SortedMap String TypeDef)) := do
  if ← isEof then return .done types
  else
    let typeDef ← parseTypeDef chars
    if (types.lookup typeDef.name).isSome then throw (.duplicateType typeDef.name)
    else
      skipWhitespace
      return .again (types.insert typeDef.name typeDef)

def parseTypes : Parse (SortedMap String TypeDef) := do
  skipWhitespace
  loop (parseNextType chars) .empty

end

/-- `None` is a run that does not come to an end. -/
def parseSchema (chars : CharTable) (input : String) : Option (Except SchemaError Schema) :=
  ((parseTypes chars).run (.new input)).run.map fun result => do
    let (types, _) ← result
    let schema := { types := types : Schema }
    validateSchema schema
    return schema

end RhypeDb.Sdl
