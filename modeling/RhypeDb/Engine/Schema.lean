import RhypeDb.Engine.Value

/-! Schemas with the ids the catalog resolves their names to, and the relation tables that a
database builds from them when it opens. Only the directives that object writes read are
kept. -/

namespace RhypeDb.Engine

open List

inductive ScalarType
  | string
  | u32
  | u64
  | i32
  | i64
  | f32
  | f64
  | bool
  | dateTime
  | bytes
  | json
  deriving DecidableEq, Repr

structure EdgeFieldDef where
  name : String
  scalarType : ScalarType
  deriving DecidableEq, Repr

structure RelationType where
  targetType : String
  isMany : Bool
  edgeFields : List EdgeFieldDef
  deriving DecidableEq, Repr

inductive FieldType
  | scalar (scalar : ScalarType)
  | relation (rel : RelationType)
  | vector (dimensions : Nat)
  deriving DecidableEq, Repr

inductive OnDeletePolicy
  | remove
  | cascade
  | deny
  deriving DecidableEq, Repr

inductive Directive
  | unique
  | indexed
  | onDelete (policy : OnDeletePolicy)
  | inverse (typeName fieldName : String)
  deriving DecidableEq, Repr

structure FieldDef where
  name : String
  fieldType : FieldType
  directives : List Directive
  fieldId : Id
  relId : Id
  deriving DecidableEq, Repr

namespace FieldDef

def isUnique (f : FieldDef) : Bool := f.directives.any fun d => decide (d = .unique)

def isIndexed (f : FieldDef) : Bool := f.directives.any fun d => decide (d = .indexed)

def onDelete (f : FieldDef) : Option OnDeletePolicy :=
  f.directives.findSome? fun
    | .onDelete policy => some policy
    | _ => none

def inverse (f : FieldDef) : Option (String × String) :=
  f.directives.findSome? fun
    | .inverse typeName fieldName => some (typeName, fieldName)
    | _ => none

def relation? (f : FieldDef) : Option RelationType :=
  match f.fieldType with
  | .relation rel => some rel
  | _ => none

/-- The relation of a field that holds edges of its own: an `@inverse` field has none. -/
def forward? (f : FieldDef) : Option RelationType :=
  if f.inverse.isSome then none else f.relation?

def isScalar (f : FieldDef) : Bool :=
  match f.fieldType with
  | .scalar _ => true
  | _ => false

end FieldDef

structure TypeDef where
  name : String
  typeId : Id
  fields : List FieldDef
  deriving DecidableEq, Repr

namespace TypeDef

def getField (t : TypeDef) (name : String) : Option FieldDef :=
  t.fields.find? fun f => decide (f.name = name)

def hasUnique (t : TypeDef) : Bool := t.fields.any FieldDef.isUnique

def hasIndexed (t : TypeDef) : Bool := t.fields.any FieldDef.isIndexed

def hasScalar (t : TypeDef) : Bool := t.fields.any FieldDef.isScalar

def hasForward1to1 (t : TypeDef) : Bool :=
  t.fields.any fun f => f.forward?.any fun rel => !rel.isMany

end TypeDef

/-- What `parse_schema` and the catalog guarantee: names are distinct where they are looked
up, ids are never shared, and relations lead to types of the schema. -/
structure Schema where
  types : List TypeDef
  typeNames : (types.map TypeDef.name).Nodup := by decide
  typeIds : (types.map TypeDef.typeId).Nodup := by decide
  fieldNames : ∀ t ∈ types, (t.fields.map FieldDef.name).Nodup := by decide
  fieldIds : (types.flatMap fun t => t.fields.map FieldDef.fieldId).Nodup := by decide
  relIds : (types.flatMap fun t =>
    (t.fields.filter fun f => f.relation?.isSome).map FieldDef.relId).Nodup := by decide
  targets : ∀ t ∈ types, ∀ f ∈ t.fields, ∀ rel ∈ f.relation?,
    rel.targetType ∈ types.map TypeDef.name := by decide

structure IncomingRelation where
  sourceTypeId : Id
  sourceType : String
  sourceField : String
  relId : Id
  isMany : Bool
  policy : OnDeletePolicy
  deriving DecidableEq, Repr

structure ForwardRelMeta where
  fieldName : String
  relId : Id
  isMany : Bool
  deriving DecidableEq, Repr

inductive IndexedKind
  | integer
  | string
  | bytes
  | bool
  | float
  deriving DecidableEq, Repr

structure IndexedField where
  name : String
  fieldId : Id
  kind : IndexedKind
  deriving DecidableEq, Repr

def IndexedField.ofField (f : FieldDef) : IndexedField :=
  { name := f.name
    fieldId := f.fieldId
    kind :=
      match f.fieldType with
      | .scalar .string => .string
      | .scalar .bytes => .bytes
      | .scalar .bool => .bool
      | .scalar .f32 => .float
      | .scalar .f64 => .float
      | _ => .integer }

def TypeDef.forwardRelations (t : TypeDef) : List ForwardRelMeta :=
  t.fields.filterMap fun f => f.forward?.map fun rel => ⟨f.name, f.relId, rel.isMany⟩

def TypeDef.indexedFields (t : TypeDef) : List IndexedField :=
  (t.fields.filter FieldDef.isIndexed).map IndexedField.ofField

/-- The declared policy, or `remove` for a to-many and `deny` for a to-one relation. -/
def policyOf (f : FieldDef) (rel : RelationType) : OnDeletePolicy :=
  f.onDelete.getD (if rel.isMany then .remove else .deny)

namespace Schema

variable (schema : Schema)

def getType (name : String) : Option TypeDef :=
  schema.types.find? fun t => decide (t.name = name)

def typeById (id : Id) : Option TypeDef :=
  schema.types.find? fun t => decide (t.typeId = id)

/-- `type_ids`. -/
def typeId (name : String) : Option Id := (schema.getType name).map TypeDef.typeId

def incomingRelations (targetTypeId : Id) : List IncomingRelation :=
  schema.types.flatMap fun t => t.fields.filterMap fun f =>
    f.forward?.bind fun rel =>
      if schema.typeId rel.targetType = some targetTypeId then
        some ⟨t.typeId, t.name, f.name, f.relId, rel.isMany, policyOf f rel⟩
      else none

variable {schema}

variable {t : TypeDef} {u : TypeDef} {f : FieldDef}

theorem mem_of_getType {name : String} (h : schema.getType name = some t) :
    t ∈ schema.types ∧ t.name = name :=
  ⟨mem_of_find?_eq_some h, by simpa using find?_some h⟩

theorem mem_of_typeById {id : Id} (h : schema.typeById id = some t) :
    t ∈ schema.types ∧ t.typeId = id :=
  ⟨mem_of_find?_eq_some h, by simpa using find?_some h⟩

theorem getType_name (ht : t ∈ schema.types) : schema.getType t.name = some t := by
  cases h : schema.getType t.name with
  | none => simpa using find?_eq_none.mp h t ht
  | some u =>
    obtain ⟨hu, hname⟩ := mem_of_getType h
    rw [inj_on_of_nodup_map schema.typeNames hu ht hname]

theorem getField_name (ht : t ∈ schema.types) (hf : f ∈ t.fields) : t.getField f.name = some f := by
  cases h : t.getField f.name with
  | none => simpa using find?_eq_none.mp h f hf
  | some g =>
    have hg := mem_of_find?_eq_some h
    have hname : g.name = f.name := by simpa using find?_some h
    rw [inj_on_of_nodup_map (schema.fieldNames t ht) hg hf hname]

theorem eq_of_typeId (ht : t ∈ schema.types) (hu : u ∈ schema.types)
    (h : t.typeId = u.typeId) : t = u :=
  inj_on_of_nodup_map schema.typeIds ht hu h

theorem typeById_typeId (ht : t ∈ schema.types) : schema.typeById t.typeId = some t := by
  cases h : schema.typeById t.typeId with
  | none => simpa using find?_eq_none.mp h t ht
  | some u =>
    obtain ⟨hu, hid⟩ := mem_of_typeById h
    rw [eq_of_typeId hu ht hid]

theorem eq_of_relId {g : FieldDef} (ht : t ∈ schema.types)
    (hu : u ∈ schema.types) (hf : f ∈ t.fields) (hg : g ∈ u.fields)
    (hfrel : f.relation?.isSome) (hgrel : g.relation?.isSome) (h : f.relId = g.relId) :
    t = u ∧ f = g := by
  have hdistinct := schema.relIds
  rw [nodup_flatMap] at hdistinct
  have hfmem : f ∈ t.fields.filter fun f => f.relation?.isSome := mem_filter.mpr ⟨hf, hfrel⟩
  have hgmem : g ∈ u.fields.filter fun f => f.relation?.isSome := mem_filter.mpr ⟨hg, hgrel⟩
  have htu : t = u := by
    by_contra hne
    have hsymm : Std.Symm (Function.onFun List.Disjoint fun t : TypeDef =>
        (t.fields.filter fun f => f.relation?.isSome).map FieldDef.relId) :=
      ⟨fun _ _ h => h.symm⟩
    exact hdistinct.2.forall ht hu hne (mem_map_of_mem hfmem) (h ▸ mem_map_of_mem hgmem)
  subst htu
  exact ⟨rfl, inj_on_of_nodup_map (hdistinct.1 t ht) hfmem hgmem h⟩

theorem mem_incomingRelations {id : Id} {inc : IncomingRelation} :
    inc ∈ schema.incomingRelations id ↔ ∃ t ∈ schema.types, ∃ f ∈ t.fields, ∃ rel,
      f.forward? = some rel ∧ schema.typeId rel.targetType = some id ∧
      inc = ⟨t.typeId, t.name, f.name, f.relId, rel.isMany, policyOf f rel⟩ := by
  simp only [incomingRelations, mem_flatMap, mem_filterMap, Option.bind_eq_some_iff,
    Option.ite_none_right_eq_some, Option.some.injEq, eq_comm (a := inc)]

end Schema

variable {f : FieldDef}

theorem FieldDef.relation_of_forward {rel : RelationType}
    (h : f.forward? = some rel) : f.relation? = some rel := by
  rw [FieldDef.forward?] at h
  split_ifs at h
  exact h

variable {t : TypeDef}

theorem TypeDef.mem_forwardRelations {rel : ForwardRelMeta} :
    rel ∈ t.forwardRelations ↔ ∃ f ∈ t.fields, ∃ r, f.forward? = some r ∧
      rel = ⟨f.name, f.relId, r.isMany⟩ := by
  simp only [TypeDef.forwardRelations, mem_filterMap, Option.map_eq_some_iff,
    eq_comm (a := rel)]

theorem TypeDef.mem_of_getField {name : String}
    (h : t.getField name = some f) : f ∈ t.fields ∧ f.name = name :=
  ⟨mem_of_find?_eq_some h, by simpa using find?_some h⟩

/-- The engine's errors that object writes return. The value of a unique violation is kept as
a value, not as its text; `outOfFuel` is the model's own. -/
inductive EngineError
  | storage
  | typeNotFound (name : String)
  | fieldNotFound (typeName field : String)
  | objectNotFound (typeName : String) (objectId : Id)
  | typeMismatch (field expected got : String)
  | uniqueViolation (typeName field : String) (value : Value)
  | deleteDenied (typeName : String) (objectId : Id) (referencingType referencingField : String)
  | restoreObjectExists (typeName : String) (objectId : Id)
  | writeConflict
  | outOfFuel
  deriving DecidableEq, Repr

namespace ScalarType

/-- The `Debug` text of a scalar type. -/
def debug : ScalarType → String
  | string => "String"
  | u32 => "U32"
  | u64 => "U64"
  | i32 => "I32"
  | i64 => "I64"
  | f32 => "F32"
  | f64 => "F64"
  | bool => "Bool"
  | dateTime => "DateTime"
  | bytes => "Bytes"
  | json => "Json"

def admits : ScalarType → Value → Bool
  | string, .string _ => true
  | u32, .u32 _ => true
  | u64, .u64 _ => true
  | i32, .i32 _ => true
  | i64, .i64 _ => true
  | f32, .f32 _ => true
  | f64, .f64 _ => true
  | bool, .bool _ => true
  | bytes, .bytes _ => true
  | dateTime, .dateTime _ => true
  | json, .json _ => true
  | _, _ => false

end ScalarType

/-- The common body of `validate_value` and `validate_edge_value`; null always passes. -/
def checkValue (field expected : String) (admitted : Value → Bool) (value : Value) :
    Except EngineError Unit :=
  if value = .null || admitted value then .ok ()
  else .error (.typeMismatch field expected value.typeName)

def validateValue (f : FieldDef) (value : Value) : Except EngineError Unit :=
  match f.fieldType with
  | .scalar scalar => checkValue f.name scalar.debug scalar.admits value
  | .relation _ =>
    checkValue f.name "relation target id (integer)" (fun v => v.widenToU64.isSome) value
  | .vector _ => checkValue f.name "scalar" (fun _ => false) value

def validateEdgeValue (e : EdgeFieldDef) (value : Value) : Except EngineError Unit :=
  checkValue e.name e.scalarType.debug e.scalarType.admits value

end RhypeDb.Engine
