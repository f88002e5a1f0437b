import RhypeDb.Basic.SortedMap
import RhypeDb.Engine.Schema
import RhypeDb.Storage.Mvcc

/-! The keys of object writes and what a transaction reads of them. `encode` is `KeyBuilder`:
a kind byte, then ids of eight bytes each after a separator. The tail of a unique entry is the
raw value, that of an index entry the encoded value with the object id. -/

namespace RhypeDb.Engine

open ByteOrder Storage

inductive Key
  | object (typeId objectId : Id)
  | edge (sourceId relId targetId : Id)
  | reverseEdge (targetId relId sourceId : Id)
  | uniqueIndex (typeId fieldId : Id) (valueBytes : Bytes)
  | fieldIndex (typeId fieldId : Id) (entry : Bytes)
  | objectVersion (typeId objectId : Id)
  deriving DecidableEq, Repr

def Key.reverseSource : Key → Option Id
  | .reverseEdge _ _ sourceId => some sourceId
  | _ => none

namespace KeyBuilder

def word (id : Id) : Bytes := be 8 id.toNat

def separator : Byte := 58

def path (kind : Byte) (id : Id) (rest : Bytes) : Bytes :=
  kind :: separator :: (word id ++ separator :: rest)

def encode : Key → Bytes
  | .object typeId objectId => path 111 typeId (word objectId)
  | .edge sourceId relId targetId => path 101 sourceId (word relId ++ separator :: word targetId)
  | .reverseEdge targetId relId sourceId =>
    path 114 targetId (word relId ++ separator :: word sourceId)
  | .uniqueIndex typeId fieldId valueBytes =>
    path 117 typeId (word fieldId ++ separator :: valueBytes)
  | .fieldIndex typeId fieldId entry => path 105 typeId (word fieldId ++ separator :: entry)
  | .objectVersion typeId objectId => path 103 typeId (word objectId)

theorem word_length (id : Id) : (word id).length = 8 := be_length 8 _

theorem toNat_lt_pow (id : Id) : id.toNat < 256 ^ 8 := by
  have := id.toNat_lt
  omega

variable {b a : Id}

theorem word_lt_word_iff : word a < word b ↔ a < b := by
  rw [word, word, be_lt_be_iff (toNat_lt_pow a) (toNat_lt_pow b), UInt64.lt_iff_toNat_lt]

theorem word_inj (h : word a = word b) : a = b :=
  UInt64.toNat_inj.mp (be_inj (toNat_lt_pow a) (toNat_lt_pow b) h)

theorem word_append_inj {x y : Bytes}
    (h : word a ++ separator :: x = word b ++ separator :: y) : a = b ∧ x = y := by
  obtain ⟨hw, hrest⟩ := List.append_inj h (by rw [word_length, word_length])
  exact ⟨word_inj hw, (List.cons.inj hrest).2⟩

theorem path_inj {c d : Byte} {x y : Bytes} (h : path c a x = path d b y) :
    c = d ∧ a = b ∧ x = y := by
  obtain ⟨hkind, h⟩ := List.cons.inj h
  exact ⟨hkind, word_append_inj (List.cons.inj h).2⟩

theorem encode_injective : Function.Injective encode := by
  intro k k' h
  cases k <;> cases k' <;> obtain ⟨hkind, rfl, hrest⟩ := path_inj h <;>
    first
    | exact absurd hkind (by decide)
    | (obtain rfl := word_inj hrest; rfl)
    | (obtain ⟨rfl, hlast⟩ := word_append_inj hrest
       first
       | (obtain rfl := word_inj hlast; rfl)
       | (obtain rfl := hlast; rfl))

end KeyBuilder

/-- Keys are ordered as their encodings. -/
instance : LinearOrder Key := LinearOrder.lift' KeyBuilder.encode KeyBuilder.encode_injective

end RhypeDb.Engine
