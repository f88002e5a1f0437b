import RhypeDb.Sdl.Syntax

/-! `emit_schema`: a schema as a text that parses back to it. -/

namespace RhypeDb.Sdl

open Engine (EdgeFieldDef FieldType OnDeletePolicy RelationType ScalarType)

def scalarName : ScalarType → String
  | .string => "String"
  | .u32 => "u32"
  | .u64 => "u64"
  | .i32 => "i32"
  | .i64 => "i64"
  | .f32 => "f32"
  | .f64 => "f64"
  | .bool => "Bool"
  | .dateTime => "DateTime"
  | .bytes => "Bytes"
  | .json => "Json"

def policyName : OnDeletePolicy → String
  | .remove => "remove"
  | .cascade => "cascade"
  | .deny => "deny"

def metricName : DistanceMetric → String
  | .cosine => "cosine"
  | .l2 => "l2"
  | .dotProduct => "dot_product"

def quantizationName : QuantizationType → String
  | .turboQuant2Bit => "turboquant_2bit"
  | .turboQuant3Bit => "turboquant_3bit"
  | .turboQuant4Bit => "turboquant_4bit"
  | .none => "none"

/-- A parameter that is left out when the schema does not have it. -/
def emitParam (key : String) (value : Option String) : String :=
  match value with
  | some text => ", " ++ key ++ ": " ++ text
  | none => ""

def decimal (n : UInt32) : String := toString n.toNat

def emitIndex (idx : IndexDef) : String :=
  let indexType :=
    match idx.indexType with
    | .hnsw => "hnsw"
  "@index(" ++ indexType ++ emitParam "metric" (idx.metric.map metricName) ++
    emitParam "quantization" (idx.quantization.map quantizationName) ++
    emitParam "m" (idx.m.map decimal) ++
    emitParam "ef_construction" (idx.efConstruction.map decimal) ++ ")"

def emitDirective : Directive → String
  | .unique => "@unique"
  | .indexed => "@indexed"
  | .onDelete policy => "@on_delete(" ++ policyName policy ++ ")"
  | .inverse inv => "@inverse(" ++ inv.typeName ++ "." ++ inv.fieldName ++ ")"
  | .index idx => emitIndex idx
  | .vectorize v => "@vectorize(source: \"" ++ v.sourceField ++ "\", model: \"" ++ v.model ++ "\")"
  | .fulltext f =>
    "@fulltext(analyzer: \"" ++ f.analyzer ++ "\", positions: " ++
      (if f.positions then "true" else "false") ++ ")"

def emitDirectives : List Directive → String
  | [] => ""
  | directive :: directives => " " ++ emitDirective directive ++ emitDirectives directives

def emitEdgeField (ef : EdgeFieldDef) : String := ef.name ++ ": " ++ scalarName ef.scalarType

def emitEdgeFields : List EdgeFieldDef → String
  | [] => ""
  | [ef] => emitEdgeField ef
  | ef :: fields => emitEdgeField ef ++ ", " ++ emitEdgeFields fields

def emitFieldType : FieldType → String
  | .scalar s => scalarName s
  | .vector dimensions => "Vector<" ++ toString dimensions ++ ">"
  | .relation rel =>
    (if rel.isMany then "[" ++ rel.targetType ++ "]" else rel.targetType) ++
      if rel.edgeFields = [] then "" else " \x7b " ++ emitEdgeFields rel.edgeFields ++ " \x7d"

def emitField (field : FieldDef) : String :=
  field.name ++ ": " ++ emitFieldType field.fieldType ++ emitDirectives field.directives

def emitFields : List FieldDef → String
  | [] => ""
  | field :: fields => "    " ++ emitField field ++ "\n" ++ emitFields fields

def emitType (td : TypeDef) : String :=
  "type " ++ td.name ++ " \x7b\n" ++ emitFields td.fields ++ "\x7d\n"

def emitTypes : List (String × TypeDef) → String
  | [] => ""
  | [entry] => emitType entry.2
  | entry :: entries => emitType entry.2 ++ "\n" ++ emitTypes entries

def emitSchema (schema : Schema) : String := emitTypes schema.types.entries

end RhypeDb.Sdl
