import RhypeDb.Server.Hub
import RhypeDb.Wire.Fields

/-! The payloads of the frames: objects, ranked rows, batches of vectors, queries, statement ids
and subscription filters. Lengths and counts are cast to the bytes they are written in; a payload
is read back as what it was made of where they fit. -/

namespace RhypeDb.Wire

open ByteOrder ByteReader Engine List
open Server (ChangeKind SubscriptionFilter)

/-- `rawFields` is a serialized map, and stands for `fields`. -/
structure Object where
  typeName : String
  id : UInt64
  fields : FieldMap
  rawFields : Option Bytes

/-- What the readers use: how `serde_json` reads a text, and how a `Utf8Error` is shown. -/
structure Library where
  json : Bytes → Option Bytes
  utf8Error : Bytes → String

def encodeObject (obj : Object) : Bytes :=
  be 2 (Utf8.encode obj.typeName).length ++ (Utf8.encode obj.typeName ++ (be 8 obj.id.toNat ++
    match obj.rawFields with
    | some raw => raw
    | none => serializeFields obj.fields))

def encodeRows {β : Type} (row : β → Bytes) (rows : List β) : Bytes :=
  be 4 rows.length ++ rows.flatMap row

def encodeObjectsPayload : List Object → Bytes := encodeRows encodeObject

/-- Scores are the bit patterns of `f32`. -/
def encodeScoredRow (row : Object × UInt32) : Bytes := be 4 row.2.toNat ++ encodeObject row.1

def encodeScoredPayload : List (Object × UInt32) → Bytes := encodeRows encodeScoredRow

def nan : UInt32 := 0x7fc00000

def isNan (bits : UInt32) : Bool := decide (0x7f800000 < bits &&& 0x7fffffff)

def encodeRerankedRow (row : Object × UInt32 × Option UInt32) : Bytes :=
  be 4 row.2.1.toNat ++ (be 4 (row.2.2.getD nan).toNat ++ encodeObject row.1)

def encodeRerankedPayload : List (Object × UInt32 × Option UInt32) → Bytes :=
  encodeRows encodeRerankedRow

structure VectorBatch where
  typeName : String
  fieldName : String
  rows : List (UInt64 × List UInt32)
  deriving DecidableEq

/-- `to_le_bytes`. -/
def le (bits : UInt32) : Bytes := (be 4 bits.toNat).reverse

def encodeVectorRow (row : UInt64 × List UInt32) : Bytes :=
  be 8 row.1.toNat ++ (be 4 row.2.length ++ row.2.flatMap le)

def putName (s : String) : Bytes := be 2 (Utf8.encode s).length ++ Utf8.encode s

def encodeVectorBatchPayload (batch : VectorBatch) : Bytes :=
  putName batch.typeName ++ (putName batch.fieldName ++ encodeRows encodeVectorRow batch.rows)

/-- `encode_prepare_payload` too. -/
def encodeQueryPayload (query : String) : Bytes :=
  be 4 (Utf8.encode query).length ++ Utf8.encode query

def encodeExecutePayload (stmtId : UInt64) : Bytes := be 8 stmtId.toNat

def kindBit : ChangeKind → Nat
  | .create => 1
  | .update => 2
  | .delete => 4

def putSome {β : Type} (put : β → Bytes) (x : Option β) : Bytes := x.elim [] put

def encodeSubscribeFilter (filter : SubscriptionFilter) : Bytes :=
  let typeName := filter.typeName.filter fun s => s ≠ ""
  let flags := (if typeName.isSome then 1 else 0) ||| (if filter.objectId.isSome then 2 else 0)
  let kinds := filter.kinds.foldl (fun bits kind => bits ||| kindBit kind) 0
  [Fin.ofNat 256 flags] ++ (putSome putName typeName ++
    (putSome (fun id => be 8 id.toNat) filter.objectId ++ [Fin.ofNat 256 kinds]))

section

variable (lib : Library)

/-- `std::str::from_utf8`, with what the error says of it. -/
def utf8 (what : String) (bytes : Bytes) : Reader IoError String :=
  orBad (what ++ " utf8: " ++ lib.utf8Error bytes) (Utf8.decode bytes)

def decodeObject : Reader IoError Object := do
  let typeLen ← number 2 (bad "object header truncated")
  let typeName ← take typeLen (bad "object type_name truncated")
  let typeName ← utf8 lib "type_name" typeName
  let id ← number 8 (bad "object id truncated")
  let fields ← tryDeserializeFields lib.json
  return { typeName, id := .ofNat id, fields, rawFields := none }

def decodeRows {α : Type} (missing : String) (row : Reader IoError α) :
    Reader IoError (List α) := do
  items row (← number 4 (bad missing))

def decodeObjectsPayload : Reader IoError (List Object) :=
  decodeRows "objects count missing" (decodeObject lib)

def decodeScoredRow : Reader IoError (Object × UInt32) := do
  let score ← number 4 (bad "scored row score truncated")
  let obj ← decodeObject lib
  return (obj, .ofNat score)

def decodeScoredPayload : Reader IoError (List (Object × UInt32)) :=
  decodeRows "scored count missing" (decodeScoredRow lib)

def decodeRerankedRow : Reader IoError (Object × UInt32 × Option UInt32) := do
  need 8 (bad "reranked row scores truncated")
  let score ← slice 4
  let rerank ← slice 4
  let obj ← decodeObject lib
  let rerank := UInt32.ofNat (ofBe rerank)
  return (obj, .ofNat (ofBe score), if isNan rerank then none else some rerank)

def decodeRerankedPayload : Reader IoError (List (Object × UInt32 × Option UInt32)) :=
  decodeRows "reranked count missing" (decodeRerankedRow lib)

def readStr (what : String) : Reader IoError String := do
  let n ← number 2 (bad s!"vector-batch: {what} length missing")
  let s ← take n (bad s!"vector-batch: {what} truncated")
  utf8 lib s!"vector-batch: {what}" s

/-- `chunks_exact(4)`, each as an `f32`. -/
def components : Nat → Bytes → List UInt32
  | 0, _ => []
  | dim + 1, data => .ofNat (ofBe (data.take 4).reverse) :: components dim (data.drop 4)

def decodeVectorRow : Reader IoError (UInt64 × List UInt32) := do
  need 12 (bad "vector-batch: row header truncated")
  let objectId ← slice 8
  let dim ← slice 4
  let data ← take (ofBe dim * 4) (bad "vector-batch: vector data truncated")
  return (.ofNat (ofBe objectId), components (ofBe dim) data)

def decodeVectorBatchPayload : Reader IoError VectorBatch := do
  let typeName ← readStr lib "type"
  let fieldName ← readStr lib "field"
  let rows ← decodeRows "vector-batch: count missing" decodeVectorRow
  return { typeName, fieldName, rows }

def decodeQueryPayload : Reader IoError String := do
  let len ← number 4 (bad "query length missing")
  let query ← take len (bad "query body truncated")
  utf8 lib "query" query

def decodeExecutePayload : Reader IoError UInt64 := do
  return .ofNat (← number 8 (bad "execute: statement id missing"))

def filterTypeName (flags : Nat) : Reader IoError (Option String) :=
  if flags &&& 1 ≠ 0 then do
    let n ← number 2 (bad "subscribe: type length missing")
    ensure (n ≠ 0) (bad "subscribe: has_type set but type name is empty")
    let s ← take n (bad "subscribe: type name truncated")
    let s ← utf8 lib "subscribe: type" s
    return some s
  else return none

def filterObjectId (flags : Nat) : Reader IoError (Option UInt64) :=
  if flags &&& 2 ≠ 0 then do
    return some (.ofNat (← number 8 (bad "subscribe: object_id missing")))
  else return none

def kindsOf (bits : Nat) : List ChangeKind :=
  [.create, .update, .delete].filter fun kind => bits &&& kindBit kind ≠ 0

def filterKinds : Reader IoError (List ChangeKind) := do
  let kinds ← take 1 (bad "subscribe: kinds byte missing")
  let kinds := (kinds.headD 0).val
  ensure (kinds &&& 0xf8 = 0) (bad "subscribe: reserved kind bits set")
  atEnd (bad "subscribe: trailing bytes after filter")
  return kindsOf kinds

def decodeSubscribeFilter : Reader IoError SubscriptionFilter := do
  let flags ← take 1 (bad "subscribe: flags byte missing")
  let flags := (flags.headD 0).val
  ensure (flags &&& 0xfc = 0) (bad "subscribe: reserved flag bits set")
  let typeName ← filterTypeName lib flags
  let objectId ← filterObjectId flags
  let kinds ← filterKinds
  return { typeName, objectId, kinds, excludeOrigin := none }

variable {json : Bytes → Option Bytes}

def Sized (v : Value) : Prop := (∀ text, v ≠ .json text) → (payload v).length < 4294967296

theorem safe_orBad {α : Type} (message : String) (a : Option α) :
    Safe (orBad message a) fun a' => a = some a' := by
  cases a with
  | none => exact .fail _
  | some a => exact .pure rfl

theorem safe_payload (tag : Byte) :
    Safe ((untrusted json).payload tag) fun bytes => bytes.length < 4294967296 := by
  have hfixed : ∀ n < 4294967296,
      Safe ((untrusted json).get n) fun bytes => bytes.length < 4294967296 := fun n hn =>
    (safe_take n _).mono fun bytes hbytes => hbytes.trans_lt hn
  unfold Policy.payload
  split
  case h_9 | h_10 | h_11 =>
    have hnumber : Safe ((untrusted json).number 4) fun n => n < 4294967296 := safe_number 4 _
    exact hnumber.bind hfixed
  case h_12 => exact .pure (by decide)
  all_goals exact hfixed _ (by decide)

theorem safe_value (tag : Byte) : Safe ((untrusted json).value tag) Sized := by
  refine (safe_payload tag).bind fun bytes hbytes => ?_
  unfold valueOf
  split
  case h_2 =>
    refine (safe_orBad _ _).bind fun s hs => .pure fun _ => ?_
    obtain ⟨t, -, rfl⟩ := Option.map_eq_some_iff.mp hs
    exact hbytes
  case h_10 => exact .pure fun _ => hbytes
  case h_12 => exact (safe_orBad _ _).bind fun text _ => .pure fun h => absurd rfl (h text)
  case h_13 => exact .fail _
  all_goals exact .pure fun _ => by simp [Wire.payload]

theorem safe_fields : Safe (tryDeserializeFields json) fun m => m.entries.length < 65536 ∧
    ∀ e ∈ m.entries, (Utf8.encode e.1).length < 65536 ∧ Sized e.2 := by
  have hfield : ∀ i (m : FieldMap), (m.entries.length ≤ i ∧
      ∀ e ∈ m.entries, (Utf8.encode e.1).length < 65536 ∧ Sized e.2) →
      Safe ((untrusted json).field m) fun m => m.entries.length ≤ i + 1 ∧
        ∀ e ∈ m.entries, (Utf8.encode e.1).length < 65536 ∧ Sized e.2 := by
    rintro i m ⟨hlen, hm⟩
    refine (safe_number 2 _).bind fun n hn => (safe_take n _).bind fun b hb => ?_
    refine (safe_orBad _ _).bind fun name hname => (safe_take 1 _).bind fun t _ => ?_
    refine (safe_value _).bind fun v hv => .pure ⟨?_, ?_⟩
    · exact Nat.succ_le_succ ((kerase_sublist _ _).length_le.trans hlen)
    · intro e he
      rcases mem_cons.mp he with rfl | he
      · refine ⟨?_, hv⟩
        rw [Utf8.encode_of_decode hname, hb]
        exact hn
      · exact hm e ((kerase_sublist _ _).mem he)
  refine (safe_number 2 _).bind fun count hcount => ?_
  have hloop := safe_repeated hfield count (i := 0) (a := ∅) ⟨le_rfl, forall_mem_nil _⟩
  refine hloop.mono fun m hm => ⟨hm.1.trans_lt ?_, hm.2⟩
  rw [Nat.zero_add]
  exact hcount

end

section

/-- An object, and the map that it holds, as its fields or serialized. Its strings are UTF-8, and
its JSON texts are read as what they are of. -/
structure HeldObject (json : Bytes → Option Bytes) extends Object where
  content : FieldMap
  held : match rawFields with
    | none => content = fields
    | some raw => raw = serializeFields content
  readable : ∀ e ∈ content.entries, Readable json e.2
  short : ∀ e ∈ content.entries, ∀ text, e.2 = .json text → text.length < 4294967296

variable {lib : Library}

namespace HeldObject

variable (o : HeldObject lib.json)

structure Same (out : Object) : Prop where
  typeName : out.typeName = o.typeName
  id : out.id = o.id
  rawFields : out.rawFields = none
  fields : ∀ name, out.fields.lookup name = o.content.lookup name

structure Fits : Prop where
  typeName : (Utf8.encode o.typeName).length < 65536
  fields : Wire.Fits o.content

theorem encodeObject_eq : encodeObject o.toObject =
    be 2 (Utf8.encode o.typeName).length ++ (Utf8.encode o.typeName ++ (be 8 o.id.toNat ++
      serializeFields o.content)) := by
  have hheld := o.held
  unfold encodeObject
  cases hraw : o.rawFields with
  | none =>
    rw [hraw] at hheld
    simp only [hheld]
  | some raw =>
    rw [hraw] at hheld
    simp only [hheld]

end HeldObject

theorem reads_decodeObject (o : HeldObject lib.json) (h : o.Fits) :
    ∃ out, Reads (decodeObject lib) (encodeObject o.toObject) out ∧ o.Same out := by
  have hfields : Reads (tryDeserializeFields lib.json) (serializeFields o.content)
      ((∅ : FieldMap).merge o.content) := untrusted_lawful.serialized h.fields o.readable
  have hname : utf8 lib "type_name" (Utf8.encode o.typeName) = pure o.typeName :=
    congrArg (orBad _) (Utf8.decode_encode _)
  refine ⟨⟨o.typeName, o.id, (∅ : FieldMap).merge o.content, none⟩, ?_,
    ⟨rfl, rfl, rfl, fun name => ?_⟩⟩
  · rw [o.encodeObject_eq]
    refine (reads_number h.typeName _).bind ((reads_take _ _).bind ?_)
    rw [hname, pure_bind]
    refine (reads_number o.id.toNat_lt _).bind ?_
    rw [UInt64.ofNat_toNat]
    exact hfields.map _
  · exact (FieldMap.lookup_merge _ _ _).trans Option.or_none

theorem safe_decodeObject (o : HeldObject lib.json) :
    Safe (decodeObject lib) fun out => o.Same out → o.Fits := by
  refine (safe_number 2 _).bind fun n hn => (safe_take n _).bind fun b hb => ?_
  refine (safe_orBad _ _).bind fun typeName hname => (safe_number 8 _).bind fun id _ => ?_
  refine safe_fields.bind fun m hm => .pure fun hsame => ?_
  have hperm : o.content.entries.Perm m.entries :=
    lookup_ext o.content.nodupKeys m.nodupKeys fun name v => by
      rw [← AList.lookup, ← AList.lookup, hsame.fields name]
  refine ⟨?_, hperm.length_eq ▸ hm.1, fun e he => (hm.2 e (hperm.mem_iff.mp he)).1, fun e he => ?_⟩
  · rw [← hsame.typeName, Utf8.encode_of_decode hname, hb]
    exact hn
  · by_cases hjson : ∃ text, e.2 = .json text
    · obtain ⟨text, htext⟩ := hjson
      rw [htext]
      exact o.short e he text htext
    · exact (hm.2 e (hperm.mem_iff.mp he)).2 fun text htext => hjson ⟨text, htext⟩

variable {α β γ : Type} {row : Reader IoError α} {enc : β → Bytes} {Same : γ → α → Prop}
  {fits : γ → Prop} {missing : String}

variable {xs : List γ}

theorem exists_of_forall₂ {out : List α} (h : List.Forall₂ Same xs out) :
    ∀ x ∈ xs, ∃ a ∈ out, Same x a := by
  induction h with
  | nil => exact forall_mem_nil _
  | cons hsame _ ih =>
    refine forall_mem_cons.mpr ⟨⟨_, mem_cons_self, hsame⟩, fun x hx => ?_⟩
    obtain ⟨a, ha, hxa⟩ := ih x hx
    exact ⟨a, mem_cons_of_mem _ ha, hxa⟩

theorem reads_rows (given : γ → β) (h : ∀ x ∈ xs, ∃ a, Reads row (enc (given x)) a ∧ Same x a)
    (hlen : xs.length < 4294967296) :
    ∃ out, Reads (decodeRows missing row) (encodeRows enc (xs.map given)) out ∧
      List.Forall₂ Same xs out := by
  have hitems : ∃ out, Reads (items row xs.length) ((xs.map given).flatMap enc) out ∧
      List.Forall₂ Same xs out := by
    clear hlen
    induction xs with
    | nil => exact ⟨[], .pure [], .nil⟩
    | cons x xs ih =>
      obtain ⟨⟨a, ha, hsame⟩, hxs⟩ := forall_mem_cons.mp h
      obtain ⟨out, hout, hall⟩ := ih hxs
      exact ⟨a :: out, ha.bind (hout.map _), .cons hsame hall⟩
  obtain ⟨out, hout, hall⟩ := hitems
  refine ⟨out, ?_, hall⟩
  unfold encodeRows
  rw [length_map]
  exact (reads_number hlen _).bind hout

theorem safe_rows (missing : String) (h : ∀ x ∈ xs, Safe row fun a => Same x a → fits x)
    (hrow : Safe row fun _ => True) :
    Safe (decodeRows missing row) fun out => List.Forall₂ Same xs out →
      xs.length < 4294967296 ∧ ∀ x ∈ xs, fits x := by
  have hboth : Safe row fun a => ∀ x ∈ xs, Same x a → fits x := by
    intro data pos hpos
    have htrue := hrow data pos hpos
    have hends := fun x hx => h x hx data pos hpos
    generalize row.run data pos = out at htrue hends ⊢
    rcases out with stop | ⟨a, pos'⟩
    · cases stop with
      | error e => trivial
      | panic => exact htrue
    · exact ⟨fun x hx => (hends x hx).1, htrue.2⟩
  refine (safe_number 4 _).bind fun count hcount => (safe_items hboth count).mono ?_
  rintro out ⟨hlen, hout⟩ hall
  refine ⟨by rw [hall.length_eq, hlen]; exact hcount, fun x hx => ?_⟩
  obtain ⟨a, ha, hsame⟩ := exists_of_forall₂ hall x hx
  exact hout a ha x hx hsame

def SameScored (x : HeldObject lib.json × UInt32) (a : Object × UInt32) : Prop :=
  x.1.Same a.1 ∧ a.2 = x.2

theorem reads_decodeScoredRow (x : HeldObject lib.json × UInt32) (h : x.1.Fits) :
    ∃ a, Reads (decodeScoredRow lib) (encodeScoredRow (x.1.toObject, x.2)) a ∧
      SameScored x a := by
  obtain ⟨out, hout, hsame⟩ := reads_decodeObject x.1 h
  refine ⟨(out, x.2), (reads_number x.2.toNat_lt _).bind ?_, hsame, rfl⟩
  rw [UInt32.ofNat_toNat]
  exact hout.map _

theorem safe_decodeScoredRow (x : HeldObject lib.json × UInt32) :
    Safe (decodeScoredRow lib) fun a => SameScored x a → x.1.Fits :=
  (safe_number 4 _).bind fun _ _ => (safe_decodeObject x.1).bind fun _ hout => .pure fun hsame =>
    hout hsame.1

def SameReranked (x : HeldObject lib.json × UInt32 × Option UInt32)
    (a : Object × UInt32 × Option UInt32) : Prop :=
  x.1.Same a.1 ∧ a.2 = x.2

theorem reads_decodeRerankedRow (x : HeldObject lib.json × UInt32 × Option UInt32)
    (h : x.1.Fits) (hnan : ∀ s, x.2.2 = some s → isNan s = false) :
    ∃ a, Reads (decodeRerankedRow lib) (encodeRerankedRow (x.1.toObject, x.2)) a ∧
      SameReranked x a := by
  obtain ⟨out, hout, hsame⟩ := reads_decodeObject x.1 h
  obtain ⟨o, score, rerank⟩ := x
  have hslice : ∀ n, Reads (slice 4 : Reader IoError Bytes) (be 4 n) (be 4 n) := fun n => by
    have hread := reads_slice (ε := IoError) (be 4 n)
    rwa [be_length] at hread
  have hof : ∀ bits : UInt32, UInt32.ofNat (ofBe (be 4 bits.toNat)) = bits := fun bits => by
    rw [ofBe_be_of_lt bits.toNat_lt, UInt32.ofNat_toNat]
  have hrerank : (if isNan (rerank.getD nan) then none else some (rerank.getD nan)) = rerank := by
    cases rerank with
    | none => rfl
    | some s => rw [Option.getD_some, hnan s rfl]; rfl
  refine ⟨(out, score, rerank), Reads.need ?_ (by simp [encodeRerankedRow]; omega), hsame, rfl⟩
  refine (hslice _).bind ((hslice _).bind ?_)
  simp only [hof, hrerank]
  exact hout.map _

theorem safe_decodeRerankedRow (x : HeldObject lib.json × UInt32 × Option UInt32) :
    Safe (decodeRerankedRow lib) fun a => SameReranked x a →
      x.1.Fits ∧ ∀ s, x.2.2 = some s → isNan s = false := by
  refine .need (.slice (n := 4) fun _ _ => .slice (n := 0) fun _ _ => Safe.within ?_ 0)
  refine (safe_decodeObject x.1).bind fun _ hout => .pure fun hsame => ?_
  refine ⟨hout hsame.1, fun s hs => ?_⟩
  have hrerank := congrArg Prod.snd hsame.2
  rw [hs] at hrerank
  split_ifs at hrerank with hnan
  rw [← Option.some.inj hrerank]
  exact Bool.eq_false_of_not_eq_true hnan

theorem ends_decodeObject : Safe (decodeObject lib) fun _ => True :=
  (safe_number 2 _).bind fun n _ => (safe_take n _).bind fun _ _ => (safe_orBad _ _).bind
    fun _ _ => (safe_number 8 _).bind fun _ _ => safe_fields.bind fun _ _ => .pure trivial

theorem ends_decodeScoredRow : Safe (decodeScoredRow lib) fun _ => True :=
  (safe_number 4 _).bind fun _ _ => ends_decodeObject.bind fun _ _ => .pure trivial

theorem ends_decodeRerankedRow : Safe (decodeRerankedRow lib) fun _ => True :=
  .need (.slice (n := 4) fun _ _ => .slice (n := 0) fun _ _ =>
    Safe.within (ends_decodeObject.bind fun _ _ => .pure trivial) 0)

theorem objects_iff (objects : List (HeldObject lib.json)) :
    (∃ out, (decodeObjectsPayload lib).decode
        (encodeObjectsPayload (objects.map HeldObject.toObject)) = .ok out ∧
        List.Forall₂ HeldObject.Same objects out) ↔
      objects.length < 4294967296 ∧ ∀ o ∈ objects, o.Fits := by
  refine decode_iff (fun h => ?_) (safe_rows _ (fun o _ => safe_decodeObject o) ends_decodeObject)
  obtain ⟨out, hout, hsame⟩ := reads_rows HeldObject.toObject
    (fun o ho => reads_decodeObject o (h.2 o ho)) h.1
  exact ⟨out, hout.decode, hsame⟩

theorem scored_iff (rows : List (HeldObject lib.json × UInt32)) :
    (∃ out, (decodeScoredPayload lib).decode
        (encodeScoredPayload (rows.map fun row => (row.1.toObject, row.2))) = .ok out ∧
        List.Forall₂ SameScored rows out) ↔
      rows.length < 4294967296 ∧ ∀ row ∈ rows, row.1.Fits := by
  refine decode_iff (fun h => ?_)
    (safe_rows _ (fun x _ => safe_decodeScoredRow x) ends_decodeScoredRow)
  obtain ⟨out, hout, hsame⟩ := reads_rows (fun x => (x.1.toObject, x.2))
    (fun x hx => reads_decodeScoredRow x (h.2 x hx)) h.1
  exact ⟨out, hout.decode, hsame⟩

theorem reranked_iff (rows : List (HeldObject lib.json × UInt32 × Option UInt32)) :
    (∃ out, (decodeRerankedPayload lib).decode
        (encodeRerankedPayload (rows.map fun row => (row.1.toObject, row.2))) = .ok out ∧
        List.Forall₂ SameReranked rows out) ↔
      rows.length < 4294967296 ∧
        ∀ row ∈ rows, row.1.Fits ∧ ∀ s, row.2.2 = some s → isNan s = false := by
  refine decode_iff (fun h => ?_)
    (safe_rows _ (fun x _ => safe_decodeRerankedRow x) ends_decodeRerankedRow)
  obtain ⟨out, hout, hsame⟩ := reads_rows (fun x => (x.1.toObject, x.2))
    (fun x hx => reads_decodeRerankedRow x (h.2 x hx).1 (h.2 x hx).2) h.1
  exact ⟨out, hout.decode, hsame⟩

theorem utf8_encode (what : String) (s : String) : utf8 lib what (Utf8.encode s) = pure s :=
  congrArg (orBad _) (Utf8.decode_encode s)

theorem reads_readStr (what : String) {s : String} (h : (Utf8.encode s).length < 65536) :
    Reads (readStr lib what) (putName s) s := by
  have hread := (reads_take (Utf8.encode s) (bad s!"vector-batch: {what} truncated")).bind
    (k := utf8 lib s!"vector-batch: {what}") (utf8_encode _ s ▸ Reads.pure s)
  rw [append_nil] at hread
  exact (reads_number h _).bind hread

theorem safe_readStr (what : String) :
    Safe (readStr lib what) fun s => (Utf8.encode s).length < 65536 := by
  refine (safe_number 2 _).bind fun n hn => (safe_take n _).bind fun b hb => ?_
  refine (safe_orBad _ _).mono fun s hs => ?_
  rw [Utf8.encode_of_decode hs, hb]
  exact hn

theorem length_le (bits : UInt32) : (le bits).length = 4 := by
  rw [le, length_reverse, be_length]

theorem components_flatMap (vector : List UInt32) :
    components vector.length (vector.flatMap le) = vector := by
  induction vector with
  | nil => rfl
  | cons bits vector ih =>
    have htake : (le bits ++ vector.flatMap le).take 4 = le bits := take_left' (length_le bits)
    have hdrop : (le bits ++ vector.flatMap le).drop 4 = vector.flatMap le :=
      drop_left' (length_le bits)
    have hof : UInt32.ofNat (ofBe (le bits).reverse) = bits := by
      rw [le, reverse_reverse, ofBe_be_of_lt bits.toNat_lt, UInt32.ofNat_toNat]
    rw [flatMap_cons, length_cons, components, htake, hdrop, hof, ih]

theorem length_components (dim : Nat) (data : Bytes) : (components dim data).length = dim := by
  induction dim generalizing data with
  | zero => rfl
  | succ dim ih => rw [components, length_cons, ih]

theorem reads_decodeVectorRow (row : UInt64 × List UInt32) (h : row.2.length < 4294967296) :
    Reads decodeVectorRow (encodeVectorRow row) row := by
  obtain ⟨id, vector⟩ := row
  have hslice : ∀ w n, Reads (slice w : Reader IoError Bytes) (be w n) (be w n) := fun w n => by
    have hread := reads_slice (ε := IoError) (be w n)
    rwa [be_length] at hread
  have hdim : ofBe (be 4 vector.length) = vector.length := ofBe_be_of_lt h
  have hid : UInt64.ofNat (ofBe (be 8 id.toNat)) = id := by
    rw [ofBe_be_of_lt id.toNat_lt, UInt64.ofNat_toNat]
  have hbytes : (vector.flatMap le).length = vector.length * 4 := by
    rw [length_flatMap, funext length_le, map_const', sum_replicate_nat]
  have hdata := (reads_take (vector.flatMap le) (bad "vector-batch: vector data truncated")).map
    fun data => (id, components vector.length data)
  rw [hbytes, components_flatMap] at hdata
  refine Reads.need ((hslice 8 _).bind ((hslice 4 _).bind ?_)) (by simp [encodeVectorRow]; omega)
  rw [hdim, hid]
  exact hdata

theorem safe_decodeVectorRow (row : UInt64 × List UInt32) :
    Safe decodeVectorRow fun a => a = row → row.2.length < 4294967296 := by
  refine .need (.slice (n := 4) fun _ _ => .slice (n := 0) fun dim hdim => Safe.within ?_ 0)
  refine (safe_take _ _).bind fun data _ => .pure ?_
  rintro rfl
  have hlt := ofBe_lt dim
  rw [hdim] at hlt
  rw [length_components]
  exact hlt

structure VectorBatch.Fits (batch : VectorBatch) : Prop where
  typeName : (Utf8.encode batch.typeName).length < 65536
  fieldName : (Utf8.encode batch.fieldName).length < 65536
  rows : batch.rows.length < 4294967296 ∧ ∀ row ∈ batch.rows, row.2.length < 4294967296

theorem vectorBatch_iff (batch : VectorBatch) :
    (∃ out, (decodeVectorBatchPayload lib).decode (encodeVectorBatchPayload batch) = .ok out ∧
      out = batch) ↔ batch.Fits := by
  refine decode_iff (fun h => ⟨batch, Reads.decode ?_, rfl⟩) ?_
  · have hrows := fun row hrow => reads_decodeVectorRow row (h.rows.2 row hrow)
    have hitems := reads_items hrows
    rw [map_id'] at hitems
    have hall : Reads (decodeRows "vector-batch: count missing" decodeVectorRow)
        (encodeRows encodeVectorRow batch.rows) batch.rows :=
      (reads_number h.rows.1 _).bind hitems
    exact (reads_readStr "type" h.typeName).bind ((reads_readStr "field" h.fieldName).bind
      (hall.map _))
  · refine (safe_readStr "type").bind fun t ht => (safe_readStr "field").bind fun f hf => ?_
    have hrow : ∀ row ∈ batch.rows, Safe decodeVectorRow fun a => row = a →
        row.2.length < 4294967296 := fun row _ =>
      (safe_decodeVectorRow row).mono fun a ha heq => ha heq.symm
    have hrows := safe_rows "vector-batch: count missing" hrow
      ((safe_decodeVectorRow default).mono fun _ _ => trivial)
    refine hrows.bind fun out hout => .pure ?_
    rintro rfl
    exact ⟨ht, hf, hout (forall₂_refl _)⟩

theorem query_iff (query : String) :
    (∃ out, (decodeQueryPayload lib).decode (encodeQueryPayload query) = .ok out ∧ out = query) ↔
      (Utf8.encode query).length < 4294967296 := by
  refine decode_iff (fun h => ⟨query, Reads.decode ?_, rfl⟩) ?_
  · have hread := (reads_take (Utf8.encode query) (bad "query body truncated")).bind
      (k := utf8 lib "query") (utf8_encode _ query ▸ Reads.pure query)
    rw [append_nil] at hread
    exact (reads_number h _).bind hread
  · refine (safe_number 4 _).bind fun n hn => (safe_take n _).bind fun b hb => ?_
    refine (safe_orBad _ _).mono fun s hs => ?_
    rintro rfl
    rw [Utf8.encode_of_decode hs, hb]
    exact hn

variable {kinds : List ChangeKind} {flags : Nat}

theorem kindsOf_bits (h : kinds.Sublist [.create, .update, .delete]) :
    let bits := kinds.foldl (fun bits kind => bits ||| kindBit kind) 0
    bits < 256 ∧ bits &&& 0xf8 = 0 ∧ kindsOf bits = kinds := by
  have hall : ∀ kinds ∈ [ChangeKind.create, .update, .delete].sublists,
      let bits := kinds.foldl (fun bits kind => bits ||| kindBit kind) 0
      bits < 256 ∧ bits &&& 0xf8 = 0 ∧ kindsOf bits = kinds := by decide
  exact hall kinds (mem_sublists.mpr h)

theorem readsLast_filterKinds (h : kinds.Sublist [.create, .update, .delete]) :
    ReadsLast filterKinds
      [Fin.ofNat 256 (kinds.foldl (fun bits kind => bits ||| kindBit kind) 0)] kinds := by
  obtain ⟨hbits, hreserved, hof⟩ := kindsOf_bits h
  have hval : (Fin.ofNat 256 (kinds.foldl (fun bits kind => bits ||| kindBit kind) 0)).val =
      kinds.foldl (fun bits kind => bits ||| kindBit kind) 0 := Nat.mod_eq_of_lt hbits
  refine (reads_take [_] _).last_bind ?_
  rw [headD_cons, hval]
  refine ReadsLast.ensure hreserved ?_
  rw [hof]
  exact (readsLast_atEnd _).bind_pure fun _ => kinds

theorem safe_filterKinds : Safe filterKinds fun _ => True :=
  (safe_take 1 _).bind fun _ _ => (safe_ensure _ _).bind fun _ _ =>
    (safe_atEnd _).bind fun _ _ => .pure trivial

theorem reads_filterTypeName {typeName : Option String}
    (hflags : flags &&& 1 ≠ 0 ↔ typeName.isSome) (hne : typeName ≠ some "")
    (h : ∀ s, typeName = some s → (Utf8.encode s).length < 65536) :
    Reads (filterTypeName lib flags) (putSome putName typeName) typeName := by
  unfold filterTypeName
  cases typeName with
  | none =>
    rw [if_neg fun hset => by cases hflags.mp hset]
    exact .pure none
  | some s =>
    have hlen : (Utf8.encode s).length ≠ 0 := by
      intro hzero
      have hempty : Utf8.encode s = Utf8.encode "" := eq_nil_of_length_eq_zero hzero
      exact hne (congrArg some (Utf8.encode_inj hempty))
    have hread := (reads_take (Utf8.encode s) (bad "subscribe: type name truncated")).bind
      (k := fun b => do return some (← utf8 lib "subscribe: type" b))
      (by rw [utf8_encode, pure_bind]; exact Reads.pure (some s))
    rw [append_nil] at hread
    rw [if_pos (hflags.mpr rfl)]
    exact (reads_number (h s rfl) _).bind (Reads.ensure hlen hread)

theorem safe_filterTypeName (flags : Nat) :
    Safe (filterTypeName lib flags) fun typeName =>
      ∀ s, typeName = some s → (Utf8.encode s).length < 65536 := by
  unfold filterTypeName
  split_ifs
  · refine (safe_number 2 _).bind fun n hn => (safe_ensure _ _).bind fun _ _ => ?_
    refine (safe_take n _).bind fun b hb => (safe_orBad _ _).bind fun s hs => .pure ?_
    rintro _ ⟨⟩
    rw [Utf8.encode_of_decode hs, hb]
    exact hn
  · exact .pure nofun

theorem reads_filterObjectId {objectId : Option UInt64}
    (hflags : flags &&& 2 ≠ 0 ↔ objectId.isSome) :
    Reads (filterObjectId flags) (putSome (fun id => be 8 id.toNat) objectId) objectId := by
  unfold filterObjectId
  cases objectId with
  | none =>
    rw [if_neg fun hset => by cases hflags.mp hset]
    exact .pure none
  | some id =>
    have hid : Reads (number 8 (bad "subscribe: object_id missing")) (be 8 id.toNat) id.toNat :=
      reads_number id.toNat_lt _
    have hread := hid.map fun n => some (UInt64.ofNat n)
    rw [UInt64.ofNat_toNat] at hread
    rw [if_pos (hflags.mpr rfl)]
    exact hread

theorem safe_filterObjectId (flags : Nat) : Safe (filterObjectId flags) fun _ => True := by
  unfold filterObjectId
  split_ifs
  · exact (safe_number 8 _).bind fun _ _ => .pure trivial
  · exact .pure trivial

theorem safe_decodeSubscribeFilter : Safe (decodeSubscribeFilter lib) fun filter =>
    (∀ s, filter.typeName = some s → (Utf8.encode s).length < 65536) ∧
      filter.excludeOrigin = none := by
  refine (safe_take 1 _).bind fun flags _ => (safe_ensure _ _).bind fun _ _ => ?_
  refine (safe_filterTypeName _).bind fun typeName hname => ?_
  exact (safe_filterObjectId _).bind fun objectId _ => safe_filterKinds.bind fun kinds _ =>
    .pure ⟨hname, rfl⟩

theorem decode_encodeSubscribeFilter {filter : SubscriptionFilter} (hne : filter.typeName ≠ some "")
    (hkinds : filter.kinds.Sublist [.create, .update, .delete])
    (hname : ∀ s, filter.typeName = some s → (Utf8.encode s).length < 65536)
    (horigin : filter.excludeOrigin = none) :
    (decodeSubscribeFilter lib).decode (encodeSubscribeFilter filter) = .ok filter := by
  obtain ⟨typeName, objectId, kinds, origin⟩ := filter
  subst horigin
  have hfilter : typeName.filter (fun s => s ≠ "") = typeName := by
    cases typeName with
    | none => rfl
    | some s =>
      have hs : s ≠ "" := fun h => hne (congrArg some h)
      simp [hs]
  -- two flags, each of its own bit
  have hflags : ∀ b c : Bool, let flags := (if b then 1 else 0) ||| (if c then 2 else 0)
      (Fin.ofNat 256 flags).val &&& 0xfc = 0 ∧ ((Fin.ofNat 256 flags).val &&& 1 ≠ 0 ↔ b) ∧
        ((Fin.ofNat 256 flags).val &&& 2 ≠ 0 ↔ c) := by decide
  obtain ⟨hzero, hone, htwo⟩ := hflags typeName.isSome objectId.isSome
  unfold encodeSubscribeFilter
  simp only [hfilter]
  refine ReadsLast.decode ((reads_take [_] _).last_bind ?_)
  refine ReadsLast.ensure hzero ((reads_filterTypeName hone hne hname).last_bind ?_)
  refine (reads_filterObjectId htwo).last_bind ?_
  exact (readsLast_filterKinds hkinds).bind_pure fun kinds =>
    ({ typeName, objectId, kinds, excludeOrigin := none } : SubscriptionFilter)

theorem filter_iff (lib : Library) (filter : SubscriptionFilter) (hne : filter.typeName ≠ some "")
    (hkinds : filter.kinds.Sublist [.create, .update, .delete]) :
    (∃ out, (decodeSubscribeFilter lib).decode (encodeSubscribeFilter filter) = .ok out ∧
      out = filter) ↔ (∀ s, filter.typeName = some s → (Utf8.encode s).length < 65536) ∧
        filter.excludeOrigin = none := by
  refine decode_iff (fun h => ⟨filter, ?_, rfl⟩) ?_
  · exact decode_encodeSubscribeFilter hne hkinds h.1 h.2
  · exact safe_decodeSubscribeFilter.mono fun out hout heq => heq ▸ hout

end

theorem length_encode_replicate (n : Nat) :
    (Utf8.encode (String.ofList (List.replicate n 'a'))).length = n := by
  have hsize : 'a'.utf8Size = 1 := by decide
  simp [Utf8.encode, List.utf8Encode, hsize]

/-- Each payload is read back as what it was made of just where its lengths and counts fit their
bytes, and no bytes at all stop a decoder. -/
theorem payloads_read_back_iff (lib : Library) :
    (∀ objects : List (HeldObject lib.json), (∃ out, (decodeObjectsPayload lib).decode
        (encodeObjectsPayload (objects.map HeldObject.toObject)) = .ok out ∧
        List.Forall₂ HeldObject.Same objects out) ↔
      objects.length < 4294967296 ∧ ∀ o ∈ objects, o.Fits) ∧
    (∀ rows : List (HeldObject lib.json × UInt32), (∃ out, (decodeScoredPayload lib).decode
        (encodeScoredPayload (rows.map fun row => (row.1.toObject, row.2))) = .ok out ∧
        List.Forall₂ SameScored rows out) ↔
      rows.length < 4294967296 ∧ ∀ row ∈ rows, row.1.Fits) ∧
    (∀ rows : List (HeldObject lib.json × UInt32 × Option UInt32),
      (∀ row ∈ rows, ∀ s, row.2.2 = some s → isNan s = false) →
      ((∃ out, (decodeRerankedPayload lib).decode
        (encodeRerankedPayload (rows.map fun row => (row.1.toObject, row.2))) = .ok out ∧
        List.Forall₂ SameReranked rows out) ↔
      rows.length < 4294967296 ∧ ∀ row ∈ rows, row.1.Fits)) ∧
    (∀ batch, (∃ out, (decodeVectorBatchPayload lib).decode (encodeVectorBatchPayload batch) =
      .ok out ∧ out = batch) ↔ batch.Fits) ∧
    (∀ query, (∃ out, (decodeQueryPayload lib).decode (encodeQueryPayload query) = .ok out ∧
      out = query) ↔ (Utf8.encode query).length < 4294967296) ∧
    (∀ stmtId, decodeExecutePayload.decode (encodeExecutePayload stmtId) = .ok stmtId) ∧
    (∀ filter : SubscriptionFilter, filter.typeName ≠ some "" →
      filter.kinds.Sublist [.create, .update, .delete] →
      ((∃ out, (decodeSubscribeFilter lib).decode (encodeSubscribeFilter filter) = .ok out ∧
        out = filter) ↔ (∀ s, filter.typeName = some s → (Utf8.encode s).length < 65536) ∧
          filter.excludeOrigin = none)) ∧
    ∀ data, (decodeObjectsPayload lib).decode data ≠ .error .panic ∧
      (decodeScoredPayload lib).decode data ≠ .error .panic ∧
      (decodeRerankedPayload lib).decode data ≠ .error .panic ∧
      (decodeVectorBatchPayload lib).decode data ≠ .error .panic ∧
      (decodeQueryPayload lib).decode data ≠ .error .panic ∧
      (decodeSubscribeFilter lib).decode data ≠ .error .panic := by
  have hrows : ∀ {α : Type} {row : Reader IoError α} (missing : String), Safe row (fun _ => True) →
      Safe (decodeRows missing row) fun _ => True := fun missing hrow =>
    (safe_number 4 _).bind fun count _ => (safe_items hrow count).mono fun _ _ => trivial
  refine ⟨objects_iff, scored_iff, fun rows hnan => (reranked_iff rows).trans ?_, vectorBatch_iff,
    query_iff, fun stmtId => ?_, filter_iff lib, fun data => ⟨?_, ?_, ?_, ?_, ?_, ?_⟩⟩
  · exact and_congr_right fun _ => forall₂_congr fun row hrow => and_iff_left (hnan row hrow)
  · have hid : Reads (number 8 (bad "execute: statement id missing")) (be 8 stmtId.toNat)
        stmtId.toNat := reads_number stmtId.toNat_lt _
    have hread := hid.map UInt64.ofNat
    rw [UInt64.ofNat_toNat] at hread
    exact hread.decode
  · exact (hrows _ ends_decodeObject).decode_ne_panic data
  · exact (hrows _ ends_decodeScoredRow).decode_ne_panic data
  · exact (hrows _ ends_decodeRerankedRow).decode_ne_panic data
  · have hbatch : Safe (decodeVectorBatchPayload lib) fun _ => True :=
      (safe_readStr "type").bind fun _ _ => (safe_readStr "field").bind fun _ _ =>
        (hrows _ ((safe_decodeVectorRow default).mono fun _ _ => trivial)).bind fun _ _ =>
          .pure trivial
    exact hbatch.decode_ne_panic data
  · have hquery : Safe (decodeQueryPayload lib) fun _ => True :=
      (safe_number 4 _).bind fun n _ => (safe_take n _).bind fun _ _ =>
        (safe_orBad _ _).mono fun _ _ => trivial
    exact hquery.decode_ne_panic data
  · exact safe_decodeSubscribeFilter.decode_ne_panic data

def plain : Library := ⟨some, fun _ => ""⟩

/-- An object as a scan leaves it: its fields are the stored bytes. -/
def storedPost : HeldObject plain.json where
  typeName := "Post"
  id := 3
  fields := ∅
  rawFields := some (serializeFields (AList.singleton "likes" (.u32 7)))
  content := AList.singleton "likes" (.u32 7)
  held := rfl
  readable := forall_mem_singleton.mpr trivial
  short := forall_mem_singleton.mpr nofun

theorem payloads_read_back_iff_storedPost :
    ∃ out, (decodeObjectsPayload plain).decode (encodeObjectsPayload [storedPost.toObject]) =
      .ok out ∧ List.Forall₂ HeldObject.Same [storedPost] out :=
  ((payloads_read_back_iff plain).1 [storedPost]).mpr ⟨by decide, forall_mem_singleton.mpr
    ⟨by decide +kernel, by decide, by decide +kernel, by decide⟩⟩

/-- A type name of 65536 bytes is written under the length `0`. -/
theorem subscribeFilter_long_typeName_not_read_back :
    ¬ ∃ out, (decodeSubscribeFilter ⟨some, fun _ => ""⟩).decode (encodeSubscribeFilter
      (SubscriptionFilter.forType (String.ofList (List.replicate 65536 'a')))) = .ok out ∧
      out = SubscriptionFilter.forType (String.ofList (List.replicate 65536 'a')) := by
  have hlen := length_encode_replicate 65536
  have hne : String.ofList (List.replicate 65536 'a') ≠ "" := by
    intro hempty
    rw [hempty] at hlen
    cases hlen
  have hiff := filter_iff ⟨some, fun _ => ""⟩
    (SubscriptionFilter.forType (String.ofList (List.replicate 65536 'a')))
    (fun h => hne (Option.some.inj h)) (nil_sublist _)
  intro h
  have hlt := (hiff.mp h).1 _ rfl
  exact absurd hlt (by rw [hlen]; decide)

end RhypeDb.Wire
