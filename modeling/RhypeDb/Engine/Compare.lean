import RhypeDb.Engine.Schema
import RhypeDb.Storage.Zone

/-! Floats by their bits, and the comparisons that queries and scans make. The comparison
operators are those of the storage; the query's own are the same ones. -/

namespace RhypeDb.Engine

open ByteOrder Storage

/-- `m / 2 ^ s`, a half going to the even side. -/
def roundShift (m s : Nat) : Nat :=
  if 2 ^ s < 2 * (m % 2 ^ s) ∨ 2 * (m % 2 ^ s) = 2 ^ s ∧ (m >>> s) % 2 = 1 then (m >>> s) + 1
  else m >>> s

/-- The bits of `m * 2 ^ e` rounded to a float with `frac` fraction bits. Below the least normal
exponent the unit in the last place stays, above the greatest there is infinity. -/
def floatOf (frac bias m : Nat) (e : Int) : Nat :=
  if m = 0 then 0
  else
    let exp := max (m.log2 + e) (1 - bias)
    let drop := exp - frac - e
    let q := if 0 ≤ drop then roundShift m drop.toNat else m <<< (-drop).toNat
    min (q + (exp + bias - 1).toNat * 2 ^ frac) ((2 * bias + 1) * 2 ^ frac)

def f64OfInt (i : Int) : UInt64 :=
  (if i < 0 then 0x8000000000000000 else 0) ||| .ofNat (floatOf 52 1023 i.natAbs 0)

def f32OfInt (i : Int) : UInt32 :=
  (if i < 0 then 0x80000000 else 0) ||| .ofNat (floatOf 23 127 i.natAbs 0)

def f32OfF64 (bits : UInt64) : UInt32 :=
  let sign := (bits >>> 63).toUInt32 <<< 31
  let exponent := ((bits >>> 52) &&& 0x7ff).toNat
  let fraction := (bits &&& 0xfffffffffffff).toNat
  if exponent = 0x7ff then sign ||| (if fraction = 0 then 0x7f800000 else 0x7fc00000)
  else if exponent = 0 then sign ||| .ofNat (floatOf 23 127 fraction (-1074))
  else sign ||| .ofNat (floatOf 23 127 (fraction + 2 ^ 52) (exponent - 1075))

/-- The position of a float in its order; both zeros are at 0, and a NaN is nowhere. -/
def f64Rank (bits : UInt64) : Option Int :=
  let magnitude := bits.toNat % 0x8000000000000000
  if 0x7ff0000000000000 < magnitude then none
  else if 0x8000000000000000 ≤ bits.toNat then some (-magnitude) else some magnitude

/-- `partial_cmp`. -/
def f64Cmp (a b : UInt64) : Option Ordering :=
  (f64Rank a).bind fun x => (f64Rank b).map fun y => compare x y

/-- The operator on the result of `partial_cmp`. -/
def compareWith (op : CompareOp) (o : Option Ordering) : Bool :=
  match op with
  | .eq => decide (o = some .eq)
  | .ne => decide (o ≠ some .eq)
  | .lt => decide (o = some .lt)
  | .le => decide (o = some .lt ∨ o = some .eq)
  | .gt => decide (o = some .gt)
  | .ge => decide (o = some .gt ∨ o = some .eq)

/-- `compare_ord` and `compare_partial` on a total order. -/
def compareOrd {α : Type} [LinearOrder α] (a : α) (op : CompareOp) (b : α) : Bool :=
  compareWith op (some (compare a b))

def compareFloat (a : UInt64) (op : CompareOp) (b : UInt64) : Bool := compareWith op (f64Cmp a b)

/-- `==` and `!=` of a comparison that has no order. -/
def compareEq (equal : Bool) : CompareOp → Bool
  | .eq => equal
  | .ne => !equal
  | _ => false

end RhypeDb.Engine
