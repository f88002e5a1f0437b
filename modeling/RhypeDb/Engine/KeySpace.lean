import RhypeDb.Basic.Layout
import RhypeDb.Engine.IndexScan

/-! The keys of the whole store. A row's key has the tag of its kind, the numbers that the keys of
the kind have, and for some kinds a rest: a value, a term, or a name. -/

namespace RhypeDb.Engine.KeySpace

open ByteOrder KeyBuilder Layout List

inductive RowKind
  | object | edge | reverseEdge | vector | unique | queue | vectorState | fieldIndex | generation
  | fulltext | fulltextDoc | catalogFormat | catalogInitialized | catalogMetadata | catalogDigest
  | catalogType | catalogField | catalogRel | catalogNextType | catalogNextField | catalogNextRel
  | catalogNextMigration | catalogMigrationVersion | catalogMigrationLog | catalogMigrationPlan
  | catalogPartitionCursor | catalogFulltextMarker | catalogQuarantine
  deriving DecidableEq

namespace RowKind

def catalog (subtype : Char) : List Char := ['c', ':', subtype, ':']

def chars : RowKind → List Char
  | object => ['o', ':']
  | edge => ['e', ':']
  | reverseEdge => ['r', ':']
  | vector => ['v', ':']
  | unique => ['u', ':']
  | queue => ['q', ':']
  | vectorState => ['s', ':']
  | fieldIndex => ['i', ':']
  | generation => ['g', ':']
  | fulltext => ['f', ':']
  | fulltextDoc => ['l', ':']
  | catalogFormat => catalog 'F'
  | catalogInitialized => catalog 'I'
  | catalogMetadata => catalog 'M'
  | catalogDigest => catalog 'D'
  | catalogType => catalog 'T'
  | catalogField => catalog 'E'
  | catalogRel => catalog 'R'
  | catalogNextType => catalog 'N' ++ ['T']
  | catalogNextField => catalog 'N' ++ ['E']
  | catalogNextRel => catalog 'N' ++ ['R']
  | catalogNextMigration => catalog 'N' ++ ['M']
  | catalogMigrationVersion => catalog 'V'
  | catalogMigrationLog => catalog 'G'
  | catalogMigrationPlan => catalog 'P'
  | catalogPartitionCursor => catalog 'S'
  | catalogFulltextMarker => catalog 'X'
  | catalogQuarantine => catalog 'Q'

def tag (kind : RowKind) : Bytes := kind.chars.map fun c => Fin.ofNat 256 c.toNat

def layout : RowKind → List (Nat × Bytes)
  | object | generation => [(8, [separator]), (8, [])]
  | edge | reverseEdge | vector | vectorState => [(8, [separator]), (8, [separator]), (8, [])]
  | unique | fieldIndex => [(8, [separator]), (8, [separator])]
  | fulltext => [(8, [separator]), (8, [separator]), (4, [separator])]
  | fulltextDoc => [(8, [separator]), (8, [separator]), (4, [separator]), (8, [])]
  | queue | catalogMigrationLog | catalogMigrationPlan => [(8, [])]
  | catalogPartitionCursor => [(8, []), (1, [])]
  | catalogFulltextMarker | catalogQuarantine => [(8, []), (8, [])]
  | _ => []

def hasRest : RowKind → Bool
  | unique | fieldIndex | fulltext | catalogType | catalogField | catalogRel => true
  | _ => false

theorem eq_of_tag_isPrefix {a b : RowKind} (h : tag a <+: tag b) : a = b := by
  have hall : ∀ i < 28, ∀ j < 28, tag (ofNat i) <+: tag (ofNat j) → i = j := by decide +kernel
  have hlt : ∀ kind : RowKind, kind.ctorIdx < 28 := by
    intro kind
    cases kind <;> decide
  rw [← ofNat_ctorIdx a, ← ofNat_ctorIdx b] at h ⊢
  rw [hall _ (hlt a) _ (hlt b) h]

end RowKind

/-- A key, or with the first numbers only and without a rest the prefix of a scan. -/
def row (kind : RowKind) (ns : List Nat) (rest : Bytes) : Bytes :=
  kind.tag ++ (encode kind.layout ns ++ rest)

theorem row_isPrefix {kind kind' : RowKind} {ns ms : List Nat} {rest : Bytes}
    (hns : Fits kind.layout ns) (hms : Fits kind'.layout ms)
    (hfull : ms.length = kind'.layout.length) :
    row kind ns [] <+: row kind' ms rest ↔ kind' = kind ∧ ns <+: ms := by
  constructor
  · intro h
    obtain rfl : kind' = kind := by
      rcases prefix_or_prefix_of_prefix ((prefix_append _ _).trans h) (prefix_append _ _) with h | h
      · exact (RowKind.eq_of_tag_isPrefix h).symm
      · exact RowKind.eq_of_tag_isPrefix h
    rw [row, row, prefix_append_right_inj, append_nil] at h
    exact ⟨rfl, (encode_isPrefix hns hms hfull).mp h⟩
  · rintro ⟨rfl, h⟩
    rw [row, row, prefix_append_right_inj, append_nil]
    exact (encode_isPrefix hns hms hfull).mpr h

/-- A row of the store, as its key names it. -/
@[ext] structure RowKey where
  kind : RowKind
  ns : List Nat
  rest : Bytes
  fits : Fits kind.layout ns
  full : ns.length = kind.layout.length
  closed : kind.hasRest = false → rest = []

def RowKey.encode (k : RowKey) : Bytes := row k.kind k.ns k.rest

theorem RowKey.isPrefix_encode {kind : RowKind} {ns : List Nat} (k : RowKey)
    (hns : Fits kind.layout ns) : row kind ns [] <+: k.encode ↔ k.kind = kind ∧ ns <+: k.ns :=
  row_isPrefix hns k.fits k.full

theorem RowKey.encode_injective : Function.Injective RowKey.encode := by
  intro k k' h
  have hpre : row k.kind k.ns [] <+: k'.encode :=
    h ▸ (k.isPrefix_encode k.fits).mpr ⟨rfl, prefix_refl _⟩
  obtain ⟨hkind, hns⟩ := (k'.isPrefix_encode k.fits).mp hpre
  obtain ⟨kind, ns, rest, _, hfull, _⟩ := k
  obtain ⟨kind', ns', rest', _, hfull', _⟩ := k'
  dsimp only at hkind hns hfull
  subst hkind
  obtain rfl := hns.eq_of_length (hfull.trans hfull'.symm)
  rw [RowKey.encode, RowKey.encode, row, row, append_right_inj, append_right_inj] at h
  exact RowKey.ext rfl rfl h

/-- The rows of a torn catalog that `recover_partial_into_txn` deletes. -/
def cleared (key : Bytes) : Bool :=
  [99, separator].isPrefixOf key &&
    !(row .catalogMigrationPlan [] []).isPrefixOf key &&
    !(row .catalogPartitionCursor [] []).isPrefixOf key &&
    !(row .catalogQuarantine [] []).isPrefixOf key &&
    !(row .catalogFulltextMarker [] []).isPrefixOf key &&
    decide (key ≠ row .catalogNextMigration [] [])

theorem RowKey.encode_eq_counter (k : RowKey) :
    k.encode = row .catalogNextMigration [] [] ↔ k.kind = .catalogNextMigration := by
  let counter : RowKey := ⟨.catalogNextMigration, [], [], trivial, rfl, fun _ => rfl⟩
  refine ⟨fun h => ?_, fun h => ?_⟩
  · have heq : k = counter := RowKey.encode_injective h
    rw [heq]
  · obtain ⟨kind, ns, rest, _, hfull, hclosed⟩ := k
    subst h
    obtain rfl := eq_nil_of_length_eq_zero hfull
    obtain rfl := hclosed rfl
    rfl

theorem RowKey.catalog_isPrefix (k : RowKey) :
    [99, separator] <+: k.encode ↔ k.kind.chars.head? = some 'c' := by
  have htag : ∀ kind : RowKind, 2 ≤ kind.tag.length ∧
      ([99, separator] <+: kind.tag ↔ kind.chars.head? = some 'c') := by
    intro kind
    cases kind <;> decide
  rw [← (htag k.kind).2]
  exact ⟨fun h => prefix_of_prefix_length_le h (prefix_append _ _) (htag k.kind).1,
    fun h => h.trans (prefix_append _ _)⟩

def ids (l : List Id) : List Nat := l.map UInt64.toNat

/-- The rows that the transactions of objects write. -/
def rowOf : Key → Bytes
  | .object typeId objectId => row .object (ids [typeId, objectId]) []
  | .edge sourceId relId targetId => row .edge (ids [sourceId, relId, targetId]) []
  | .reverseEdge targetId relId sourceId => row .reverseEdge (ids [targetId, relId, sourceId]) []
  | .uniqueIndex typeId fieldId valueBytes => row .unique (ids [typeId, fieldId]) valueBytes
  | .fieldIndex typeId fieldId entry => row .fieldIndex (ids [typeId, fieldId]) entry
  | .objectVersion typeId objectId => row .generation (ids [typeId, objectId]) []

theorem encode_eq_rowOf (k : Key) : KeyBuilder.encode k = rowOf k := by
  cases k <;> simp [KeyBuilder.encode, rowOf, row, ids, path, word, separator, Layout.encode,
    RowKind.tag, RowKind.chars, RowKind.layout]

def fulltextTermPrefix (typeId fieldId : Id) (generation : UInt32) (encodedTerm : Bytes) : Bytes :=
  row .fulltext [typeId.toNat, fieldId.toNat, generation.toNat] encodedTerm

theorem RowKey.term_isPrefix (k : RowKey) {typeId fieldId objectId : Id} {generation : UInt32}
    {a b : Bytes} (hrest : k.rest = encodeBytesForIndex b ++ word objectId) :
    fulltextTermPrefix typeId fieldId generation (encodeBytesForIndex a) <+: k.encode ↔
      k.kind = .fulltext ∧ k.ns = [typeId.toNat, fieldId.toNat, generation.toNat] ∧ a = b := by
  have hfits : Fits RowKind.fulltext.layout [typeId.toNat, fieldId.toNat, generation.toNat] :=
    ⟨toNat_lt_pow typeId, toNat_lt_pow fieldId, generation.toNat_lt, trivial⟩
  have hpre : row .fulltext [typeId.toNat, fieldId.toNat, generation.toNat] [] <+:
      fulltextTermPrefix typeId fieldId generation (encodeBytesForIndex a) :=
    (prefix_append_right_inj _).mpr ((prefix_append_right_inj _).mpr nil_prefix)
  obtain ⟨kind, ns, rest, _, hfull, _⟩ := k
  subst hrest
  constructor
  · intro h
    obtain ⟨hkind, hns⟩ := (RowKey.isPrefix_encode _ hfits).mp (hpre.trans h)
    subst hkind
    obtain rfl := hns.eq_of_length hfull.symm
    rw [RowKey.encode, fulltextTermPrefix, row, row, prefix_append_right_inj,
      prefix_append_right_inj] at h
    exact ⟨rfl, rfl, encode_isPrefix_append.mp h⟩
  · rintro ⟨hkind, hns, rfl⟩
    subst hkind hns
    exact (prefix_append_right_inj _).mpr ((prefix_append_right_inj _).mpr (prefix_append _ _))

/-- A scan comes to the rows of its kind that have its numbers, and of a term to its postings, and
to no others; no two rows have one key; and the recovery of a torn catalog takes its rows, but for
the four kinds and the counter that no schema could bring back. -/
theorem rows_apart (k : RowKey) :
    (∀ kind ns, Fits kind.layout ns →
      (row kind ns [] <+: k.encode ↔ k.kind = kind ∧ ns <+: k.ns)) ∧
    (∀ typeId fieldId generation a b objectId,
      k.rest = encodeBytesForIndex b ++ word objectId →
        (fulltextTermPrefix typeId fieldId generation (encodeBytesForIndex a) <+: k.encode ↔
          k.kind = .fulltext ∧ k.ns = [typeId.toNat, fieldId.toNat, generation.toNat] ∧ a = b)) ∧
    (∀ k' : RowKey, k'.encode = k.encode ↔ k' = k) ∧
    (cleared k.encode = true ↔ k.kind.chars.head? = some 'c' ∧
      k.kind ∉ [RowKind.catalogMigrationPlan, .catalogPartitionCursor, .catalogQuarantine,
        .catalogFulltextMarker, .catalogNextMigration]) := by
  have hkind : ∀ kind, row kind [] [] <+: k.encode ↔ k.kind = kind := fun kind =>
    (@RowKey.isPrefix_encode kind [] k (by unfold Fits; trivial)).trans (and_iff_left nil_prefix)
  refine ⟨fun _ _ hns => k.isPrefix_encode hns, fun _ _ _ _ _ _ => k.term_isPrefix,
    fun _ => RowKey.encode_injective.eq_iff, ?_⟩
  simp only [cleared, Bool.and_eq_true, Bool.not_eq_true', ← Bool.not_eq_true,
    isPrefixOf_iff_prefix, hkind, decide_eq_true_eq, ne_eq, k.encode_eq_counter,
    k.catalog_isPrefix, mem_cons, not_mem_nil, or_false, not_or, and_assoc]

end RhypeDb.Engine.KeySpace
