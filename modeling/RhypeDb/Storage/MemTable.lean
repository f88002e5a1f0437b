import RhypeDb.Basic.SortedMap
import RhypeDb.Storage.Key

/-! The memtable of `memtable.rs`: a map ordered by internal key. Its value type stays
abstract; a tombstone is `none`. -/

namespace RhypeDb.Storage

open List

/-- A stored value; `none` is a tombstone. -/
abbrev MemValue (V : Type) := Option V

abbrev Entry (V : Type) := InternalKey × MemValue V

abbrev MemTable (V : Type) := SortedMap InternalKey (MemValue V)

variable {V : Type}

/-- The loop shared by the range scans: skip below `lower`, stop outside `pre`, skip what
the snapshot does not see, and keep the first entry of each run of one user key. -/
def collect (lower pre : Bytes) (version : UInt64) :
    Option Bytes → List (Entry V) → List (Bytes × MemValue V)
  | _, [] => []
  | last, e :: es =>
    if e.1.userKey < lower then collect lower pre version last es
    else if ¬ pre <+: e.1.userKey then []
    else if version < e.1.version then collect lower pre version last es
    else if last = some e.1.userKey then collect lower pre version last es
    else (e.1.userKey, e.2) :: collect lower pre version (some e.1.userKey) es

namespace MemTable

def new : MemTable V := SortedMap.empty

def put (m : MemTable V) (userKey : Bytes) (version : UInt64) (value : V) : MemTable V :=
  m.insert ⟨userKey, version⟩ (some value)

def delete (m : MemTable V) (userKey : Bytes) (version : UInt64) : MemTable V :=
  m.insert ⟨userKey, version⟩ none

def isEmpty (m : MemTable V) : Bool := m.entries.isEmpty

def get (m : MemTable V) (userKey : Bytes) (version : UInt64) : Option (MemValue V) :=
  match m.range ⟨userKey, version⟩ with
  | [] => none
  | e :: _ => if e.1.userKey ≠ userKey then none else some e.2

def scanPrefix (m : MemTable V) (pre : Bytes) (version : UInt64) : List (Bytes × MemValue V) :=
  collect [] pre version none (m.range (.seek pre))

/-- `scan_prefix`, stopped after `maxDistinct` user keys. -/
def scanPrefixMax (m : MemTable V) (pre : Bytes) (version : UInt64) (maxDistinct : Nat) :
    List (Bytes × MemValue V) := (m.scanPrefix pre version).take maxDistinct

def scanFromMax (m : MemTable V) (pre start : Bytes) (version : UInt64) (maxDistinct : Nat) :
    List (Bytes × MemValue V) :=
  if ¬ pre <+: start then []
  else (collect start pre version none (m.range (.seek start))).take maxDistinct

end MemTable

def newest (es : List (Entry V)) (userKey : Bytes) (version : UInt64) : Option (Entry V) :=
  (es.filter fun e => decide (e.1.userKey = userKey ∧ e.1.version ≤ version)).argmax
    fun e => e.1.version.toNat

/-- `e` is an entry of `userKey` the snapshot sees, and none it sees is newer. -/
structure IsNewest (es : List (Entry V)) (userKey : Bytes) (version : UInt64) (e : Entry V) :
    Prop where
  mem : e ∈ es
  userKey_eq : e.1.userKey = userKey
  version_le : e.1.version ≤ version
  newest : ∀ e' ∈ es, e'.1.userKey = userKey → e'.1.version ≤ version →
    e'.1.version ≤ e.1.version

variable {es : List (Entry V)} {s : UInt64} {k : Bytes} {e : Entry V}

theorem mem_visible :
    (e ∈ es.filter fun e => decide (e.1.userKey = k ∧ e.1.version ≤ s)) ↔
      e ∈ es ∧ e.1.userKey = k ∧ e.1.version ≤ s := by
  rw [mem_filter, decide_eq_true_eq]

theorem newest_eq_none : newest es k s = none ↔ ∀ e ∈ es, e.1.userKey = k → ¬ e.1.version ≤ s := by
  unfold newest
  simp

theorem isNewest_of_newest (h : newest es k s = some e) : IsNewest es k s e := by
  obtain ⟨hmem, hk, hs⟩ := mem_visible.mp (argmax_mem h)
  refine ⟨hmem, hk, hs, fun e' he' hk' hs' => ?_⟩
  have := le_of_mem_argmax (mem_visible.mpr ⟨he', hk', hs'⟩) h
  exact UInt64.le_iff_toNat_le.mpr this

theorem newest_eq_some {m : MemTable V} :
    newest m.entries k s = some e ↔ IsNewest m.entries k s e := by
  refine ⟨isNewest_of_newest, fun h => ?_⟩
  cases hn : newest m.entries k s with
  | none => exact absurd h.version_le (newest_eq_none.mp hn e h.mem h.userKey_eq)
  | some e' =>
    have h' := isNewest_of_newest hn
    have hv : e'.1.version = e.1.version := UInt64.le_antisymm
      (h.newest e' h'.mem h'.userKey_eq h'.version_le)
      (h'.newest e h.mem h.userKey_eq h.version_le)
    have hkey : e'.1 = e.1 := InternalKey.ext (h'.userKey_eq.trans h.userKey_eq.symm) hv
    rw [SortedMap.eq_of_mem h'.mem h.mem hkey]

end RhypeDb.Storage
