import RhypeDb.Engine.ScanRows
import RhypeDb.Storage.FilteredScan

/-! The reads of a snapshot, as a tree of layers answers them. The zone-pruned scan finds the objects
that pass an integer comparison exactly where the skipped blocks hide none of their versions. -/

namespace RhypeDb.Engine

open ByteOrder KeyBuilder Layered List Storage
open Option hiding mem_map filter_map

def objectPrefix (typeId : Id) : Bytes := path 111 typeId []

def objectRow (row : Bytes × Payload) : Id × Payload :=
  (idOf (row.1.drop (row.1.length - 8)), row.2)

def fieldIsZoneEligible (f : FieldDef) : Bool :=
  match f.fieldType with
  | .scalar .u32 | .scalar .u64 | .scalar .i32 | .scalar .i64 | .scalar .dateTime => true
  | _ => false

/-- `do_extract_zone_fields`, with the table that `build_zone_field_id_lookup` makes of the schema. -/
def extractZoneFields (schema : Schema) (key : Bytes) (data : Payload) : List (UInt32 × UInt64) :=
  match schema.types.find? fun t => decide (objectPrefix t.typeId <+: key) with
  | none => []
  | some t =>
    (t.fields.filter fieldIsZoneEligible).filterMap fun f =>
      ((data.deserializeFields.lookup f.name).bind encodeIntForZone).map fun bytes =>
        (f.fieldId.toUInt32, .ofNat (ofBe bytes))

/-- At the version the tree holds the objects of the store, under their keys, in files that were
written with the schema's zones. -/
structure HoldsStore [ByteLen Payload] (schema : Schema) (env : StorageEnv Payload)
    (tree : LsmTree Payload) (version : UInt64) (store : Store) : Prop where
  zones : env.zoneExtractor = some fun ik => extractZoneFields schema ik.userKey
  written : tree.Written env
  keys : ∀ t ∈ schema.types, ∀ layer ∈ tree.layers, ∀ e ∈ layer,
    objectPrefix t.typeId <+: e.1.userKey → ∃ o, e.1.userKey = encode (.object t.typeId o)
  rows : ∀ t ∈ schema.types, store.objectRows t.typeId =
    (tree.scanPrefixAt version (objectPrefix t.typeId)).map objectRow

theorem encode_object (typeId objectId : Id) :
    encode (.object typeId objectId) = objectPrefix typeId ++ word objectId := by
  simp [encode, objectPrefix, path]

theorem objectPrefix_length (typeId : Id) : (objectPrefix typeId).length = 11 := by
  simp [objectPrefix, path, word_length]

variable {key : Bytes}

variable {typeName fieldName : String} {typeId : Id} {pass : Value → Bool}
  {scan : List (Bytes × Payload)}

variable [ByteLen Payload] {schema : Schema} {env : StorageEnv Payload} {tree : LsmTree Payload}
  {version : UInt64} {store : Store} {t : TypeDef} {f : FieldDef} {op : CompareOp}

theorem HoldsStore.length (h : HoldsStore schema env tree version store) (ht : t ∈ schema.types) :
    ∀ layer ∈ tree.layers, ∀ e ∈ layer, objectPrefix t.typeId <+: e.1.userKey →
      e.1.userKey.length = 19 := by
  intro layer hlayer e he hpre
  obtain ⟨o, ho⟩ := h.keys t ht layer hlayer e he hpre
  rw [ho, encode_object, length_append, objectPrefix_length, word_length]

end RhypeDb.Engine
