import Mathlib.Data.List.AList
import RhypeDb.Basic.ByteOrder

/-! Field values and stored payloads. A payload is what a stored value decodes to: texts are
their UTF-8 bytes, floats their bit patterns, JSON its compact text, and the cover sidecars
`<name>__cover` and `<name>__cover_v` of a field map stand beside it. -/

namespace RhypeDb.Engine

open ByteOrder List

abbrev Id := UInt64

inductive Value
  | string (s : Bytes)
  | u32 (v : UInt32)
  | u64 (v : UInt64)
  | i32 (v : Int32)
  | i64 (v : Int64)
  | f32 (bits : UInt32)
  | f64 (bits : UInt64)
  | bool (b : Bool)
  | bytes (b : Bytes)
  | dateTime (ms : Int64)
  | json (text : Bytes)
  | null
  deriving DecidableEq, Repr

namespace Value

def typeName : Value → String
  | string _ => "String"
  | u32 _ => "u32"
  | u64 _ => "u64"
  | i32 _ => "i32"
  | i64 _ => "i64"
  | f32 _ => "f32"
  | f64 _ => "f64"
  | bool _ => "Bool"
  | bytes _ => "Bytes"
  | dateTime _ => "DateTime"
  | json _ => "Json"
  | null => "Null"

/-- The integers `find_u64_field_in_raw` reads; signed ones are sign-extended. -/
def widenToU64 : Value → Option UInt64
  | u32 v => some v.toUInt64
  | u64 v => some v
  | i32 v => some v.toInt64.toUInt64
  | i64 v => some v.toUInt64
  | _ => none

def targetId : Value → Option Id
  | u64 v => some v
  | u32 v => some v.toUInt64
  | i32 v => if 0 ≤ v then some v.toInt64.toUInt64 else none
  | i64 v => if 0 ≤ v then some v.toUInt64 else none
  | _ => none

/-- Equality of floats by their bits: no NaN equals anything, and the zeros are equal. -/
def floatEq (magnitude infinity a b : Nat) : Bool :=
  decide (a % magnitude ≤ infinity ∧ b % magnitude ≤ infinity ∧
    (a = b ∨ a % magnitude = 0 ∧ b % magnitude = 0))

/-- `PartialEq`. -/
def eq : Value → Value → Bool
  | f32 a, f32 b => floatEq 0x80000000 0x7f800000 a.toNat b.toNat
  | f64 a, f64 b => floatEq 0x8000000000000000 0x7ff0000000000000 a.toNat b.toNat
  | a, b => decide (a = b)

def optionEq : Option Value → Option Value → Bool
  | some a, some b => a.eq b
  | none, none => true
  | _, _ => false

end Value

def valueToIndexBytes : Value → Bytes
  | .string s => s
  | .u32 v => be 4 v.toNat
  | .u64 v => be 8 v.toNat
  | .i32 v => be 4 v.toUInt32.toNat
  | .i64 v => be 8 v.toUInt64.toNat
  | .f32 bits => be 4 bits.toNat
  | .f64 bits => be 8 bits.toNat
  | .bool b => [if b then 1 else 0]
  | .bytes b => b
  | .dateTime ms => be 8 ms.toUInt64.toNat
  | .json text => text
  | .null => []

def flipMsb (bits : UInt64) : UInt64 := bits ^^^ 0x8000000000000000

def encodeIntForZone : Value → Option Bytes
  | .u32 v => some (be 8 v.toNat)
  | .u64 v => some (be 8 v.toNat)
  | .i32 v => some (be 8 (flipMsb v.toInt64.toUInt64).toNat)
  | .i64 v => some (be 8 (flipMsb v.toUInt64).toNat)
  | .dateTime ms => some (be 8 (flipMsb ms.toUInt64).toNat)
  | _ => none

def encodeBoolForIndex : Value → Option Bytes
  | .bool b => some (be 8 (if b then 1 else 0))
  | _ => none

def encodeF64ForIndex (bits : UInt64) : Bytes :=
  be 8 (if bits &&& 0x8000000000000000 ≠ 0 then ~~~bits else flipMsb bits).toNat

/-- The bit pattern of an `f32` widened to an `f64`; subnormals become normal. -/
def widenF32 (bits : UInt32) : UInt64 :=
  let sign := (bits >>> 31).toUInt64 <<< 63
  let exponent := ((bits >>> 23) &&& 0xff).toUInt64
  let fraction := (bits &&& 0x7fffff).toUInt64
  let infinity : UInt64 := 0x7ff0000000000000
  let quiet : UInt64 := 0x7ff8000000000000
  if exponent = 0xff then
    if fraction = 0 then sign ||| infinity else sign ||| quiet ||| (fraction <<< 29)
  else if exponent ≠ 0 then sign ||| ((exponent + 896) <<< 52) ||| (fraction <<< 29)
  else if fraction = 0 then sign
  else
    let top := UInt64.ofNat (Nat.log2 fraction.toNat)
    sign ||| ((top + 874) <<< 52) ||| ((fraction ^^^ ((1 : UInt64) <<< top)) <<< (52 - top))

def encodeFloatForIndex : Value → Option Bytes
  | .f32 bits => some (encodeF64ForIndex (widenF32 bits))
  | .f64 bits => some (encodeF64ForIndex bits)
  | _ => none

/-- A zero byte is escaped as `00 01`, and `00 00` ends the value. -/
def encodeBytesForIndex (b : Bytes) : Bytes :=
  b.flatMap (fun x => if x = 0 then [0, 1] else [x]) ++ [0, 0]

abbrev FieldMap := AList (fun _ : String => Value)

instance : DecidableEq FieldMap := fun a b =>
  decidable_of_iff (a.entries = b.entries) AList.ext_iff.symm

namespace FieldMap

/-- `fields.insert` for each update in turn. -/
def merge (fields updates : FieldMap) : FieldMap :=
  updates.entries.foldl (fun m u => m.insert u.1 u.2) fields

theorem lookup_merge (fields updates : FieldMap) (name : String) :
    (fields.merge updates).lookup name = (updates.lookup name).or (fields.lookup name) := by
  -- of distinct names, so that no later insert undoes an earlier one
  have hfold : ∀ (l : List (Sigma fun _ : String => Value)) (m : FieldMap), l.NodupKeys →
      (l.foldl (fun m u => m.insert u.1 u.2) m).lookup name =
        (l.dlookup name).or (m.lookup name) := by
    intro l
    induction l with
    | nil => exact fun m _ => rfl
    | cons u l ih =>
      intro m hnodup
      obtain ⟨hnot, hnodup⟩ := nodupKeys_cons.mp hnodup
      rw [foldl_cons, ih _ hnodup]
      obtain ⟨key, value⟩ := u
      by_cases hkey : name = key
      · subst hkey
        rw [dlookup_cons_eq, dlookup_eq_none.mpr hnot, Option.none_or,
          AList.lookup_insert]
        rfl
      · rw [dlookup_cons_ne _ _ hkey, AList.lookup_insert_ne hkey]
  exact hfold updates.entries fields updates.nodupKeys

end FieldMap

/-- `<name>__cover` with `<name>__cover_v`: the blob of another to-one target, itself with the
blobs one hop further, and the generations they were taken at. -/
structure CoverEntry where
  name : String
  fields : FieldMap
  next : List (String × FieldMap × Nat)
  version : Nat
  deriving DecidableEq

/-- What is stored under a key. The empty value is no field map: an empty map has two bytes. -/
inductive Payload
  | empty
  | fields (fields : FieldMap) (covers : List CoverEntry)
  | objectId (id : Id)
  | generation (version : Nat)
  deriving DecidableEq

namespace Payload

def isEmpty : Payload → Bool
  | empty => true
  | _ => false

/-- `deserialize_fields`, on what decodes to a field map. -/
def deserializeFields : Payload → FieldMap
  | fields m _ => m
  | _ => ∅

def findU64FieldInRaw (data : Payload) (name : String) : Option UInt64 :=
  (data.deserializeFields.lookup name).bind Value.widenToU64

end Payload

def serializeFields (m : FieldMap) : Payload := .fields m []

end RhypeDb.Engine
