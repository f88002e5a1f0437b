import RhypeDb.Basic.ByteOrder

/-! Internal keys of `key.rs`: the user key followed by eight bytes of complemented
version, compared as byte strings. Within one user key newer versions sort first. There
is no terminator, so the entries of two user keys can interleave when one is a prefix of
the other, and only then. -/

namespace RhypeDb.Storage

open ByteOrder

@[ext] structure InternalKey where
  userKey : Bytes
  version : UInt64
  deriving DecidableEq, Repr

namespace InternalKey

def asBytes (ik : InternalKey) : Bytes := ik.userKey ++ be 8 (~~~ik.version).toNat

theorem not_toNat (v : UInt64) : (~~~v).toNat = 2 ^ 64 - 1 - v.toNat := by
  rw [UInt64.toNat_not]
  rfl

theorem not_toNat_lt (v : UInt64) : (~~~v).toNat < 256 ^ 8 := by
  norm_num
  omega

theorem asBytes_injective : Function.Injective asBytes := by
  rintro ⟨k, v⟩ ⟨k', v'⟩ h
  obtain ⟨hk, hv⟩ := List.append_inj' h (by rw [be_length, be_length])
  have hnot := be_inj (not_toNat_lt v) (not_toNat_lt v') hv
  have := v.toNat_lt
  have := v'.toNat_lt
  rw [not_toNat, not_toNat] at hnot
  cases hk
  congr 1
  exact UInt64.toNat_inj.mp (by omega)

instance : LinearOrder InternalKey := LinearOrder.lift' asBytes asBytes_injective

theorem lt_def {a b : InternalKey} : a < b ↔ a.asBytes < b.asBytes := Iff.rfl

variable {k : Bytes}

theorem lt_iff_of_userKey {v w : UInt64} : (⟨k, v⟩ : InternalKey) < ⟨k, w⟩ ↔ w < v := by
  rw [lt_def, asBytes, asBytes, append_lt_append_iff,
    be_lt_be_iff (not_toNat_lt v) (not_toNat_lt w), not_toNat, not_toNat, UInt64.lt_iff_toNat_lt]
  have := v.toNat_lt
  omega

theorem le_iff_of_userKey {v w : UInt64} : (⟨k, v⟩ : InternalKey) ≤ ⟨k, w⟩ ↔ w ≤ v := by
  rw [← not_lt, lt_iff_of_userKey, UInt64.not_lt]

theorem lt_of_diverge {k' : Bytes} (h : k < k') (hp : ¬ k <+: k') (v w : UInt64) :
    (⟨k, v⟩ : InternalKey) < ⟨k', w⟩ := append_lt_append h hp _ _

/-- The seek point of a user key: version `u64::MAX`, whose complement is all zeros. -/
def seek (k : Bytes) : InternalKey := ⟨k, ~~~0⟩

theorem asBytes_seek (k : Bytes) : (seek k).asBytes = k ++ List.replicate 8 0 := by
  have h : (~~~(~~~(0 : UInt64))).toNat = 0 := by decide
  rw [asBytes, seek, h, be_zero]

variable {ik : InternalKey}

theorem seek_le_of_extends {p : Bytes} (h : p <+: ik.userKey) : seek p ≤ ik := by
  obtain ⟨y, hy⟩ := h
  change (seek p).asBytes ≤ ik.asBytes
  rw [asBytes_seek, asBytes, ← hy, List.append_assoc, append_le_append_iff]
  exact replicate_le (fun d => Fin.zero_le d) (by simp)

theorem userKey_lt_of_lt_seek (h : ik < seek k) : ik.userKey < k := by
  by_contra hle
  refine not_le.mpr h ?_
  by_cases hp : k <+: ik.userKey
  · exact seek_le_of_extends hp
  · have hlt : k < ik.userKey := lt_of_le_of_ne (not_lt.mp hle) fun heq => hp (heq ▸ List.prefix_rfl)
    exact (lt_of_diverge hlt hp (~~~0) ik.version).le

end InternalKey

def PrefixFree (keys : Set Bytes) : Prop :=
  ∀ k ∈ keys, ∀ k' ∈ keys, k <+: k' → k = k'

end RhypeDb.Storage
