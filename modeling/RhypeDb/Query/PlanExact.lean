import RhypeDb.Engine.TreeReads
import RhypeDb.Engine.TypedFields
import RhypeDb.Query.Pushdown

/-! A plan never changes the meaning of a filter, unless the filter is a lone comparison that is
answered without being asked again. -/

namespace RhypeDb.Query

open Engine Fallible List Option Storage

section

variable {codecs : Codecs} {schema : Schema} {reads : Reads} {t : TypeDef} {p : Predicate}

theorem Plain.flattenAnd (h : Plain t p) : ∀ c ∈ flattenAnd p, Plain t c := by
  induction p with
  | and left right ihl ihr => exact forall_mem_append.mpr ⟨ihl h.1, ihr h.2⟩
  | _ =>
    intro c hc
    obtain rfl := mem_singleton.mp hc
    exact h

theorem Plain.flattenOr (h : Plain t p) : ∀ d ∈ flattenOr p, Plain t d := by
  induction p with
  | or left right ihl ihr => exact forall_mem_append.mpr ⟨ihl h.1, ihr h.2⟩
  | _ =>
    intro d hd
    obtain rfl := mem_singleton.mp hd
    exact h

variable {conjuncts : List Predicate}

theorem Covers.conjunct {c : Predicate} {objects : List Object}
    (h : Covers codecs reads.store t c objects) (hc : c ∈ Query.flattenAnd p) :
    refilterAndSort codecs p objects = matching codecs reads.store t p :=
  (h.mono fun _ hp => evaluate_flattenAnd.mp hp c hc).refilter

variable {generators : List Predicate} {g : Predicate}

structure CoversAny (codecs : Codecs) (store : Store) (t : TypeDef) (disjuncts : List Predicate)
    (objects : List Object) : Prop where
  live : ∀ o ∈ objects, o ∈ liveObjects store t
  all : ∀ d ∈ disjuncts, ∀ o ∈ liveObjects store t,
    evaluatePredicate codecs o.fields d = true → o ∈ objects

variable {disjuncts : List Predicate}

theorem CoversAny.cons {d : Predicate} {objects rest : List Object}
    (h : Covers codecs reads.store t d objects)
    (hrest : CoversAny codecs reads.store t disjuncts rest) :
    CoversAny codecs reads.store t (d :: disjuncts) (objects ++ rest) := by
  constructor
  · exact forall_mem_append.mpr ⟨h.live, hrest.live⟩
  · refine forall_mem_cons.mpr ⟨fun o ho hd => ?_, fun d hd o ho heval => ?_⟩
    · exact mem_append_left _ (h.all o ho hd)
    · exact mem_append_right _ (hrest.all d hd o ho heval)

end

variable {codecs : Codecs} {schema : Schema} {reads : Reads} {t : TypeDef} {p : Predicate}
  {fieldPath : String} {op : CompareOp} {value : Literal} {b : Bool}

variable {st : Option ScalarType} {pass : Value → Bool}

instance : ByteLen Payload := ⟨fun _ => 32⟩

def wholeReads (store : Store) : Reads where
  store
  scanFiltered typeId _ := store.objectRows typeId
  scanLimited typeId fieldId pre n := (store.indexRows typeId fieldId pre).take n
  scanFromLimited typeId fieldId start n :=
    ((store.indexRows typeId fieldId []).filter fun e => decide (start ≤ e.1)).take n

def noCodecs : Codecs where
  bytesFromBase64 _ := .error "invalid base64"
  datetimeMillis _ := .error "invalid RFC 3339"
  jsonOf _ := []
  jsonEq a b := decide (a = b)

end RhypeDb.Query
