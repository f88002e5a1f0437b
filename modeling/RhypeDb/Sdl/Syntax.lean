import Mathlib.Data.String.Basic
import RhypeDb.Basic.SortedMap
import RhypeDb.Engine.Schema

/-! The schema as its text declares it, with every directive, and the checks that a parsed schema
must pass. -/

namespace RhypeDb.Sdl

open Engine (EdgeFieldDef FieldType OnDeletePolicy RelationType ScalarType)

structure FulltextDef where
  analyzer : String
  positions : Bool
  deriving DecidableEq, Repr

def FulltextDef.knownAnalyzers : List String := ["simple", "english"]

def FulltextDef.default : FulltextDef where
  analyzer := "simple"
  positions := true

structure VectorizeDef where
  sourceField : String
  model : String
  deriving DecidableEq, Repr

structure InverseDef where
  typeName : String
  fieldName : String
  deriving DecidableEq, Repr

inductive IndexType
  | hnsw
  deriving DecidableEq, Repr

inductive DistanceMetric
  | cosine
  | l2
  | dotProduct
  deriving DecidableEq, Repr

inductive QuantizationType
  | turboQuant2Bit
  | turboQuant3Bit
  | turboQuant4Bit
  | none
  deriving DecidableEq, Repr

structure IndexDef where
  indexType : IndexType
  metric : Option DistanceMetric
  quantization : Option QuantizationType
  m : Option UInt32
  efConstruction : Option UInt32
  deriving DecidableEq, Repr

inductive Directive
  | unique
  | indexed
  | onDelete (policy : OnDeletePolicy)
  | inverse (inv : InverseDef)
  | index (idx : IndexDef)
  | vectorize (v : VectorizeDef)
  | fulltext (f : FulltextDef)
  deriving DecidableEq, Repr

structure FieldDef where
  name : String
  fieldType : FieldType
  directives : List Directive
  deriving DecidableEq, Repr

namespace FieldDef

variable (field : FieldDef)

def isIndexed : Bool := field.directives.any fun d => decide (d = .indexed)

def inverse : Option InverseDef :=
  field.directives.findSome? fun
    | .inverse inv => some inv
    | _ => none

def vectorize : Option VectorizeDef :=
  field.directives.findSome? fun
    | .vectorize v => some v
    | _ => none

def fulltexts : List FulltextDef :=
  field.directives.filterMap fun
    | .fulltext f => some f
    | _ => none

def index : Option IndexDef :=
  field.directives.findSome? fun
    | .index idx => some idx
    | _ => none

end FieldDef

structure TypeDef where
  name : String
  fields : List FieldDef
  deriving DecidableEq, Repr

def TypeDef.getField (typeDef : TypeDef) (name : String) : Option FieldDef :=
  typeDef.fields.find? fun field => decide (field.name = name)

structure Schema where
  types : SortedMap String TypeDef

inductive SchemaError
  | parse (line col : Nat) (message : String)
  | unknownType (name : String)
  | duplicateType (name : String)
  | duplicateField (typeName field : String)
  | invalidInverse (message : String)
  | invalidOnDelete (policyName : String)
  | validation (message : String)
  deriving DecidableEq, Repr

variable (schema : Schema) (typeDef : TypeDef) (field : FieldDef)

def check (ok : Bool) (e : SchemaError) : Except SchemaError Unit := if ok then .ok () else .error e

def FieldDef.isVector : Bool :=
  match field.fieldType with
  | .vector _ => true
  | _ => false

def FieldDef.isScalar : Bool :=
  match field.fieldType with
  | .scalar _ => true
  | _ => false

/-- `type.field`, as the messages have it. -/
def qualified : String := typeDef.name ++ "." ++ field.name

def validateTarget : Except SchemaError Unit :=
  match field.fieldType with
  | .relation rel =>
    check (schema.types.lookup rel.targetType).isSome (.unknownType rel.targetType)
  | _ => .ok ()

def validateVectorize : Except SchemaError Unit :=
  match field.vectorize with
  | none => .ok ()
  | some v => do
    check field.isVector
      (.validation s!"@vectorize on '{qualified typeDef field}' requires a Vector field type")
    match typeDef.getField v.sourceField with
    | none =>
      .error (.validation
        s!"@vectorize source field '{typeDef.name}.{v.sourceField}' not found")
    | some source =>
      check (decide (source.fieldType = .scalar .string)) (.validation
        s!"@vectorize source field '{typeDef.name}.{v.sourceField}' must be a String")

def validateIndexed : Except SchemaError Unit := do
  check (!field.isIndexed || field.isScalar)
    (.validation s!"@indexed on '{qualified typeDef field}' requires a scalar field")
  check (!field.isIndexed || decide (field.fieldType ≠ .scalar .json))
    (.validation (s!"@indexed is not supported on '{qualified typeDef field}' (Json has no total " ++
      "order); use @unique for an exact-match constraint, or filter without a secondary index"))

def validateFulltext : Except SchemaError Unit := do
  check (decide (field.fulltexts.length ≤ 1))
    (.validation s!"duplicate @fulltext directive on '{qualified typeDef field}'")
  check (field.fulltexts.isEmpty || decide (field.fieldType = .scalar .string))
    (.validation s!"@fulltext on '{qualified typeDef field}' requires a String field")

def validateIndex : Except SchemaError Unit :=
  match field.index with
  | none => .ok ()
  | some idx => do
    check field.isVector
      (.validation s!"@index on '{qualified typeDef field}' requires a Vector field type")
    check (decide (idx.quantization ≠ some .none))
      (.validation (s!"@index on '{qualified typeDef field}': `quantization: none` is not " ++
        "supported for HNSW vector indexes; omit it for the 4-bit default or use " ++
        "turboquant_2bit/3bit/4bit"))
    check (decide (idx.m ≠ some 0))
      (.validation s!"@index on '{qualified typeDef field}': `m` must be >= 1")
    check (decide (idx.efConstruction ≠ some 0))
      (.validation s!"@index on '{qualified typeDef field}': `ef_construction` must be >= 1")

def validateInverse : Except SchemaError Unit :=
  match field.inverse with
  | none => .ok ()
  | some inv =>
    match schema.types.lookup inv.typeName with
    | none => .error (.invalidInverse s!"type '{inv.typeName}' not found")
    | some targetType =>
      check (targetType.getField inv.fieldName).isSome (.invalidInverse
        s!"field '{inv.typeName}.{inv.fieldName}' not found")

/-- The engine keeps values of its own beside a field's, under names with `__` in them. -/
def validateField : Except SchemaError Unit := do
  check (decide (¬ "__".toList <:+: field.name.toList))
    (.validation (s!"field '{qualified typeDef field}': names containing `__` are reserved for " ++
      "internal use (engine sidecar keys: `<field>__cover`, `<field>__cover_v`, " ++
      "`<field>__shadow`)"))
  validateTarget schema field
  validateVectorize typeDef field
  validateIndexed typeDef field
  validateFulltext typeDef field
  validateIndex typeDef field
  validateInverse schema field

def validateFields : (seen : List String) → List FieldDef → Except SchemaError Unit
  | _, [] => .ok ()
  | seen, field :: fields => do
    check (decide (field.name ∉ seen)) (.duplicateField typeDef.name field.name)
    validateField schema typeDef field
    validateFields (field.name :: seen) fields

def validateSchema : Except SchemaError Unit :=
  schema.types.entries.forM fun entry => validateFields schema entry.2 [] entry.2.fields

end RhypeDb.Sdl
