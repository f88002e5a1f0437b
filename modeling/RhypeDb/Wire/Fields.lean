import RhypeDb.Basic.ByteReader
import RhypeDb.Engine.Value
import RhypeDb.Wire.Frame

/-! The tagged format of a stored field map, its two writers and its six readers. What a text is
read as by `serde_json`, written out again, is a parameter. -/

namespace RhypeDb.Wire

open AList ByteOrder ByteReader Engine List
open Option hiding any_eq_true

/-- `ValueTag`. -/
def tag : Value → Byte
  | .null => 0
  | .string _ => 1
  | .u32 _ => 2
  | .u64 _ => 3
  | .i32 _ => 4
  | .i64 _ => 5
  | .f32 _ => 6
  | .f64 _ => 7
  | .bool _ => 8
  | .bytes _ => 9
  | .dateTime _ => 10
  | .json _ => 11

def payload : Value → Bytes
  | .null => []
  | .string s => s
  | .u32 v => be 4 v.toNat
  | .u64 v => be 8 v.toNat
  | .i32 v => be 4 v.toUInt32.toNat
  | .i64 v => be 8 v.toUInt64.toNat
  | .f32 bits => be 4 bits.toNat
  | .f64 bits => be 8 bits.toNat
  | .bool b => [if b then 1 else 0]
  | .bytes b => b
  | .dateTime ms => be 8 ms.toUInt64.toNat
  | .json text => text

/-- `write_value_into`, and the arms of `serialize_fields_into_bytesmut`: three kinds of values
have their length in front. -/
def writeValue : Value → Bytes
  | .string s => [tag (.string s)] ++ (be 4 s.length ++ s)
  | .bytes b => [tag (.bytes b)] ++ (be 4 b.length ++ b)
  | .json text => [tag (.json text)] ++ (be 4 text.length ++ text)
  | v => [tag v] ++ payload v

def writeField (e : Sigma fun _ : String => Value) : Bytes :=
  be 2 (Utf8.encode e.1).length ++ (Utf8.encode e.1 ++ writeValue e.2)

def serializeFields (fields : FieldMap) : Bytes :=
  be 2 fields.entries.length ++ fields.entries.flatMap writeField

def serializeFieldsInto (fields : FieldMap) (out : Bytes) : Bytes :=
  out ++ (be 2 fields.entries.length ++ fields.entries.flatMap writeField)

section

/-- The value of a tag and its bytes. The readers are different in what they do with a text that
is not what it should be, and with a tag that no value has. -/
def valueOf {m : Type → Type} [Monad m] (string json : Bytes → m Bytes) (unknown : m Value)
    (tag : Byte) (payload : Bytes) : m Value :=
  match tag.val with
  | 0 => pure .null
  | 1 => return .string (← string payload)
  | 2 => pure (.u32 (.ofNat (ofBe payload)))
  | 3 => pure (.u64 (.ofNat (ofBe payload)))
  | 4 => pure (.i32 (UInt32.ofNat (ofBe payload)).toInt32)
  | 5 => pure (.i64 (UInt64.ofNat (ofBe payload)).toInt64)
  | 6 => pure (.f32 (.ofNat (ofBe payload)))
  | 7 => pure (.f64 (.ofNat (ofBe payload)))
  | 8 => pure (.bool (decide (payload.headD 0 ≠ 0)))
  | 9 => pure (.bytes payload)
  | 10 => pure (.dateTime (UInt64.ofNat (ofBe payload)).toInt64)
  | 11 => return .json (← json payload)
  | _ => unknown

/-- Where `deserialize_fields` and `try_deserialize_fields` are different: how they slice, and what
they make of a name, a string, a JSON text and an unknown tag. -/
structure Policy (ε : Type) where
  get : Nat → Reader ε Bytes
  name : Bytes → Reader ε String
  string : Bytes → Reader ε Bytes
  json : Bytes → Reader ε Bytes
  unknown : Byte → Reader ε Value

namespace Policy

variable {ε : Type} (p : Policy ε)

def number (w : Nat) : Reader ε Nat := do return ofBe (← p.get w)

def payload (tag : Byte) : Reader ε Bytes :=
  match tag.val with
  | 2 | 4 | 6 => p.get 4
  | 3 | 5 | 7 | 10 => p.get 8
  | 8 => p.get 1
  | 1 | 9 | 11 => do p.get (← p.number 4)
  | _ => return []

def value (tag : Byte) : Reader ε Value := do
  valueOf p.string p.json (p.unknown tag) tag (← p.payload tag)

def field (fields : FieldMap) : Reader ε FieldMap := do
  let nameLen ← p.number 2
  let name ← p.get nameLen
  let name ← p.name name
  let tag ← p.get 1
  let value ← p.value (tag.headD 0)
  return fields.insert name value

def fields : Reader ε FieldMap := do repeated p.field (← p.number 2) ∅

end Policy

variable (json : Bytes → Option Bytes)

def orPanic {α : Type} : Option α → Reader Empty α
  | some a => pure a
  | none => panic

def jsonNull : Bytes := [110, 117, 108, 108]

/-- Every slice and every `unwrap` may stop the program. -/
def trusted : Policy Empty where
  get := slice
  name b := orPanic (Utf8.decode b)
  string b := orPanic ((Utf8.decode b).map fun _ => b)
  json b := return (json b).getD jsonNull
  unknown _ := return .null

def deserializeFields (data : Bytes) : Except (Stop Empty) FieldMap :=
  if data.length < 2 then .ok ∅ else ((trusted json).fields.run data 0).map Prod.fst

def bad (message : String) : IoError := ⟨.invalidData, message⟩

def orBad {α : Type} (message : String) : Option α → Reader IoError α
  | some a => pure a
  | none => fail (bad message)

def untrusted : Policy IoError where
  get n := take n (bad "fields truncated")
  name b := orBad "field name not utf-8" (Utf8.decode b)
  string b := orBad "string value not utf-8" ((Utf8.decode b).map fun _ => b)
  json b := orBad "invalid json value" (json b)
  unknown tag := fail (bad s!"unknown value tag {tag.val}")

def tryDeserializeFields : Reader IoError FieldMap := (untrusted json).fields

/-- `value_len`, behind the length that stands in front of some values. -/
def valueLen (tag : Byte) : Reader Unit Nat :=
  match tag.val with
  | 0 => return 0
  | 2 | 4 | 6 => return 4
  | 3 | 5 | 7 | 10 => return 8
  | 8 => return 1
  | 1 | 9 | 11 => number 4 ()
  | _ => fail ()

def fieldHeader : Reader Unit (Bytes × Byte × Nat) := do
  let nameLen ← number 2 ()
  need (nameLen + 1) ()
  let name ← slice nameLen
  let tag ← slice 1
  let len ← valueLen (tag.headD 0)
  return (name, tag.headD 0, len)

def scanFields {α : Type} (pick : Byte → Bytes → Option α) (needle : Bytes) :
    Nat → Reader Unit (Option α)
  | 0 => return none
  | n + 1 => do
    let (name, tag, len) ← fieldHeader
    if name = needle then return pick tag (← take len ())
    else
      advance len
      scanFields pick needle n

/-- `None` where the field is not there, and for malformed data. -/
def findField {α : Type} (pick : Byte → Bytes → Option α) (data : Bytes) (fieldName : String) :
    Except (Stop Empty) (Option α) :=
  let scan : Reader Unit (Option α) := do
    scanFields pick (Utf8.encode fieldName) (← number 2 ())
  match scan.run data 0 with
  | .ok (found, _) => .ok found
  | .error (.error ()) => .ok none
  | .error .panic => .error .panic

def findBytesFieldInRaw : Bytes → String → Except (Stop Empty) (Option Bytes) :=
  findField fun tag payload => if tag = 9 then some payload else none

def findU64FieldInRaw : Bytes → String → Except (Stop Empty) (Option UInt64) :=
  findField fun tag payload =>
    match tag.val with
    | 2 => some (UInt32.ofNat (ofBe payload)).toUInt64
    | 3 => some (.ofNat (ofBe payload))
    | 4 => some (UInt32.ofNat (ofBe payload)).toInt32.toInt64.toUInt64
    | 5 => some (UInt64.ofNat (ofBe payload)).toInt64.toUInt64
    | _ => none

def extractField : Bytes → String → Except (Stop Empty) (Option Value) :=
  findField (valueOf (fun b => (Utf8.decode b).map fun _ => b) json none)

/-- What the projection makes of a value, which is never an error. -/
def projectedValue (tag : Byte) (payload : Bytes) : Value :=
  Id.run (valueOf (fun b => pure (((Utf8.decode b).map fun _ => b).getD []))
    (fun b => pure ((json b).getD jsonNull)) (pure .null) tag payload)

/-- `break` where a field is malformed. -/
def orBreak {α : Type} (r : Reader Unit α) : Reader Empty (Option α) := fun data pos =>
  match r.run data pos with
  | .ok (a, pos) => .ok (some a, pos)
  | .error (.error ()) => .ok (none, pos)
  | .error .panic => .error .panic

def projectFields (wanted : List String) : Nat → FieldMap → Reader Empty FieldMap
  | 0, fields => return fields
  | n + 1, fields => do
    let field ← orBreak do
      let (name, tag, len) ← fieldHeader
      return (name, tag, ← take len ())
    match field with
    | none => return fields
    | some (name, tag, payload) =>
      if wanted.any fun w => Utf8.encode w = name then
        match Utf8.decode name with
        | none => projectFields wanted n fields
        | some name =>
          let fields := fields.insert name (projectedValue json tag payload)
          if fields.entries.length = wanted.length then return fields
          else projectFields wanted n fields
      else projectFields wanted n fields

def deserializeFieldsProjected (data : Bytes) (wanted : List String) :
    Except (Stop Empty) FieldMap :=
  if data.length < 2 ∨ wanted = [] then .ok ∅
  else
    let project : Reader Empty FieldMap := do
      let count ← slice 2
      projectFields json wanted (ofBe count) ∅
    (project.run data 0).map Prod.fst

end

/-- A value that Rust has: a string is UTF-8, a JSON text is read as the value that it is of. -/
def Readable (json : Bytes → Option Bytes) : Value → Prop
  | .string s => (Utf8.decode s).isSome
  | .json text => json text = some text
  | _ => True

structure Fits (fields : FieldMap) : Prop where
  count : fields.entries.length < 65536
  name : ∀ e ∈ fields.entries, (Utf8.encode e.1).length < 65536
  value : ∀ e ∈ fields.entries, (payload e.2).length < 4294967296

def lengthBytes : Value → Bytes
  | .string s => be 4 s.length
  | .bytes b => be 4 b.length
  | .json text => be 4 text.length
  | _ => []

theorem writeValue_eq (v : Value) : writeValue v = [tag v] ++ (lengthBytes v ++ payload v) := by
  cases v <;> rfl

theorem writeField_eq (e : Sigma fun _ : String => Value) :
    writeField e = be 2 (Utf8.encode e.1).length ++
      (Utf8.encode e.1 ++ ([tag e.2] ++ (lengthBytes e.2 ++ payload e.2))) := by
  rw [writeField, writeValue_eq]

theorem valueOf_payload {m : Type → Type} [Monad m] [LawfulMonad m] {string json : Bytes → m Bytes}
    {unknown : m Value} {v : Value} (hstring : ∀ s, v = .string s → string s = pure s)
    (hjson : ∀ text, v = .json text → json text = pure text) :
    valueOf string json unknown (tag v) (payload v) = pure v := by
  cases v with
  | null => rfl
  | string s =>
    change (do return Value.string (← string s)) = _
    rw [hstring s rfl, pure_bind]
  | u32 v =>
    have hof : UInt32.ofNat (ofBe (be 4 v.toNat)) = v := by
      rw [ofBe_be_of_lt v.toNat_lt, UInt32.ofNat_toNat]
    exact congrArg (fun n => pure (Value.u32 n)) hof
  | u64 v =>
    have hof : UInt64.ofNat (ofBe (be 8 v.toNat)) = v := by
      rw [ofBe_be_of_lt v.toNat_lt, UInt64.ofNat_toNat]
    exact congrArg (fun n => pure (Value.u64 n)) hof
  | i32 v =>
    have hof : UInt32.ofNat (ofBe (be 4 v.toUInt32.toNat)) = v.toUInt32 := by
      rw [ofBe_be_of_lt v.toUInt32.toNat_lt, UInt32.ofNat_toNat]
    exact congrArg (fun n : UInt32 => pure (Value.i32 n.toInt32)) hof
  | i64 v =>
    have hof : UInt64.ofNat (ofBe (be 8 v.toUInt64.toNat)) = v.toUInt64 := by
      rw [ofBe_be_of_lt v.toUInt64.toNat_lt, UInt64.ofNat_toNat]
    exact congrArg (fun n : UInt64 => pure (Value.i64 n.toInt64)) hof
  | f32 bits =>
    have hof : UInt32.ofNat (ofBe (be 4 bits.toNat)) = bits := by
      rw [ofBe_be_of_lt bits.toNat_lt, UInt32.ofNat_toNat]
    exact congrArg (fun n => pure (Value.f32 n)) hof
  | f64 bits =>
    have hof : UInt64.ofNat (ofBe (be 8 bits.toNat)) = bits := by
      rw [ofBe_be_of_lt bits.toNat_lt, UInt64.ofNat_toNat]
    exact congrArg (fun n => pure (Value.f64 n)) hof
  | bool b => cases b <;> rfl
  | bytes b => rfl
  | dateTime ms =>
    have hof : UInt64.ofNat (ofBe (be 8 ms.toUInt64.toNat)) = ms.toUInt64 := by
      rw [ofBe_be_of_lt ms.toUInt64.toNat_lt, UInt64.ofNat_toNat]
    exact congrArg (fun n : UInt64 => pure (Value.dateTime n.toInt64)) hof
  | json text =>
    change (do return Value.json (← json text)) = _
    rw [hjson text rfl, pure_bind]

section

variable {ε : Type} {p : Policy ε} {json : Bytes → Option Bytes}

structure Policy.Lawful (p : Policy ε) (json : Bytes → Option Bytes) : Prop where
  get : ∀ bytes, Reads (p.get bytes.length) bytes bytes
  name : ∀ s, p.name (Utf8.encode s) = pure s
  string : ∀ s, Readable json (.string s) → p.string s = pure s
  json : ∀ text, Readable json (.json text) → p.json text = pure text

theorem trusted_lawful : (trusted json).Lawful json where
  get := reads_slice
  name s := congrArg orPanic (Utf8.decode_encode s)
  string s hs := by
    obtain ⟨t, ht⟩ := isSome_iff_exists.mp hs
    exact congrArg (fun t => orPanic (t.map fun _ => s)) ht
  json text ht := congrArg (fun t : Option Bytes => pure (t.getD jsonNull)) ht

theorem untrusted_lawful : (untrusted json).Lawful json where
  get bytes := reads_take bytes _
  name s := congrArg (orBad _) (Utf8.decode_encode s)
  string s hs := by
    obtain ⟨t, ht⟩ := isSome_iff_exists.mp hs
    exact congrArg (fun t => orBad _ (t.map fun _ => s)) ht
  json text ht := congrArg (orBad _) ht

namespace Policy.Lawful

variable (hp : p.Lawful json)
include hp

theorem number {w n : Nat} (hn : n < 256 ^ w) : Reads (p.number w) (be w n) n := by
  have hget := hp.get (be w n)
  rw [be_length] at hget
  have hmap := hget.map ofBe
  rwa [ofBe_be_of_lt hn] at hmap

theorem payload {v : Value} (hv : (Wire.payload v).length < 4294967296) :
    Reads (p.payload (tag v)) (lengthBytes v ++ Wire.payload v) (Wire.payload v) := by
  have hfixed : ∀ w n, Reads (p.get w) (be w n) (be w n) := fun w n => by
    have hget := hp.get (be w n)
    rwa [be_length] at hget
  have hsized : ∀ bytes : Bytes, bytes.length < 4294967296 →
      Reads (do p.get (← p.number 4)) (be 4 bytes.length ++ bytes) bytes := fun bytes hbytes =>
    (hp.number hbytes).bind (hp.get bytes)
  cases v with
  | null => exact .pure []
  | string s => exact hsized s hv
  | bytes b => exact hsized b hv
  | json text => exact hsized text hv
  | bool b => exact hp.get [if b then 1 else 0]
  | u32 v => exact hfixed 4 _
  | i32 v => exact hfixed 4 _
  | f32 bits => exact hfixed 4 _
  | _ => exact hfixed 8 _

theorem value {v : Value} (hv : (Wire.payload v).length < 4294967296) (hread : Readable json v) :
    Reads (p.value (tag v)) (lengthBytes v ++ Wire.payload v) v := by
  have hmade : valueOf p.string p.json (p.unknown (tag v)) (tag v) (Wire.payload v) = pure v :=
    valueOf_payload (fun s hs => hp.string s (hs ▸ hread)) (fun t ht => hp.json t (ht ▸ hread))
  have hbind := (hp.payload hv).bind (k := valueOf p.string p.json (p.unknown (tag v)) (tag v))
    (hmade ▸ Reads.pure v)
  rwa [append_nil] at hbind

theorem field {e : Sigma fun _ : String => Value} (hname : (Utf8.encode e.1).length < 65536)
    (hvalue : (Wire.payload e.2).length < 4294967296) (hread : Readable json e.2)
    (fields : FieldMap) : Reads (p.field fields) (writeField e) (fields.insert e.1 e.2) := by
  have htail := (hp.get [tag e.2]).bind (k := fun t => do
    let value ← p.value (t.headD 0)
    return fields.insert e.1 value) ((hp.value hvalue hread).map (fields.insert e.1))
  rw [writeField_eq]
  refine (hp.number hname).bind ((hp.get _).bind ?_)
  rw [hp.name, pure_bind]
  exact htail

theorem serialized {fields : FieldMap} (hfits : Fits fields)
    (hread : ∀ e ∈ fields.entries, Readable json e.2) :
    Reads p.fields (serializeFields fields) ((∅ : FieldMap).merge fields) :=
  (hp.number hfits.count).bind (reads_repeated (fun e he m =>
    hp.field (hfits.name e he) (hfits.value e he) (hread e he) m) ∅)

end Policy.Lawful

end

variable {json : Bytes → Option Bytes} {fields : FieldMap}
  {es : List (Sigma fun _ : String => Value)} {pick : Byte → Bytes → Option α} {α : Type}

theorem reads_valueLen {v : Value} (hv : (payload v).length < 4294967296) :
    Reads (valueLen (tag v)) (lengthBytes v) (payload v).length := by
  have hfixed : ∀ w n, (be w n).length = w → Reads (pure w : Reader Unit Nat) [] (be w n).length :=
    fun w n hw => by
      rw [hw]
      exact .pure w
  cases v with
  | null => exact .pure 0
  | string s => exact reads_number hv ()
  | bytes b => exact reads_number hv ()
  | json text => exact reads_number hv ()
  | bool b => exact .pure 1
  | u32 v => exact hfixed 4 _ (be_length 4 _)
  | i32 v => exact hfixed 4 _ (be_length 4 _)
  | f32 bits => exact hfixed 4 _ (be_length 4 _)
  | _ => exact hfixed 8 _ (be_length 8 _)

def headerBytes (e : Sigma fun _ : String => Value) : Bytes :=
  be 2 (Utf8.encode e.1).length ++ (Utf8.encode e.1 ++ ([tag e.2] ++ lengthBytes e.2))

theorem writeField_header (e : Sigma fun _ : String => Value) :
    writeField e = headerBytes e ++ payload e.2 := by
  rw [writeField_eq, headerBytes]
  simp only [append_assoc]

theorem reads_fieldHeader {e : Sigma fun _ : String => Value}
    (hname : (Utf8.encode e.1).length < 65536) (hvalue : (payload e.2).length < 4294967296) :
    Reads fieldHeader (headerBytes e) (Utf8.encode e.1, tag e.2, (payload e.2).length) := by
  have htag : Reads (slice 1 : Reader Unit Bytes) [tag e.2] [tag e.2] := reads_slice [tag e.2]
  have hlen := (reads_valueLen hvalue).map fun len => (Utf8.encode e.1, tag e.2, len)
  refine (reads_number hname ()).bind (Reads.need ?_ (by simp))
  exact (reads_slice (Utf8.encode e.1)).bind (htag.bind hlen)

theorem finds_scanFields {name : String}
    (hes : ∀ e ∈ es, (Utf8.encode e.1).length < 65536 ∧ (payload e.2).length < 4294967296) :
    Finds (scanFields pick (Utf8.encode name) es.length) (es.flatMap writeField)
      ((es.dlookup name).bind fun v => pick (tag v) (payload v)) := by
  induction es with
  | nil => exact (Reads.pure none).finds
  | cons e es ih =>
    obtain ⟨⟨hname, hvalue⟩, hes⟩ := forall_mem_cons.mp hes
    rw [flatMap_cons, writeField_header, append_assoc]
    refine (reads_fieldHeader hname hvalue).finds_bind ?_
    by_cases heq : name = e.1
    · subst heq
      rw [dlookup_cons_eq]
      have htake := (reads_take (payload e.2) ()).map (pick (tag e.2))
      have hfound := htake.finds.append (es.flatMap writeField)
      simp only [if_true, bind_some]
      exact hfound
    · have hne : Utf8.encode e.1 ≠ Utf8.encode name := fun h => heq (Utf8.encode_inj h).symm
      rw [dlookup_cons_ne _ e heq]
      simp only [if_neg hne]
      exact (reads_advance (payload e.2)).finds_bind (ih hes)

theorem findField_serialized (hfits : Fits fields) (after : Bytes) (name : String) :
    findField pick (serializeFields fields ++ after) name =
      .ok ((fields.lookup name).bind fun v => pick (tag v) (payload v)) := by
  have hcount : Reads (number 2 ()) (be 2 fields.entries.length) fields.entries.length :=
    reads_number hfits.count ()
  have hscan := hcount.finds_bind
    (k := scanFields pick (Utf8.encode name))
    (finds_scanFields fun e he => ⟨hfits.name e he, hfits.value e he⟩)
  obtain ⟨pos, hpos⟩ := hscan [] after
  have hrun : Reader.run (do scanFields pick (Utf8.encode name) (← number 2 ()))
      (serializeFields fields ++ after) 0 = .ok (_, pos) := hpos
  simp only [findField, hrun]
  rfl

theorem reads_orBreak {r : Reader Unit α} {bytes : Bytes} {a : α}
    (h : Reads r bytes a) : Reads (orBreak r) bytes (some a) := by
  intro before after
  have hrun : ∀ data pos, (orBreak r).run data pos = match r.run data pos with
      | .ok (a, pos) => .ok (some a, pos)
      | .error (.error ()) => .ok (none, pos)
      | .error .panic => .error Stop.panic := fun _ _ => rfl
  rw [hrun, h before after]

theorem projectedValue_payload {v : Value} (hread : Readable json v) :
    projectedValue json (tag v) (payload v) = v := by
  unfold projectedValue
  rw [valueOf_payload (v := v) (fun s hs => ?_) fun text htext => ?_]
  · rfl
  · subst hs
    obtain ⟨t, ht⟩ := isSome_iff_exists.mp hread
    exact congrArg (fun t => (t.map fun _ => s).getD []) ht
  · subst htext
    exact congrArg (fun t : Option Bytes => t.getD jsonNull) hread

theorem finds_projectFields {wanted : List String}
    (hes : ∀ e ∈ es, (Utf8.encode e.1).length < 65536 ∧ (payload e.2).length < 4294967296 ∧
      Readable json e.2) (hnodup : es.NodupKeys) (fields : FieldMap)
    (hwanted : ∀ name ∈ fields.keys, name ∈ wanted ∧ name ∉ es.keys) :
    ∃ projected : FieldMap,
      Finds (projectFields json wanted es.length fields) (es.flatMap writeField) projected ∧
      ∀ name, projected.lookup name =
        (fields.lookup name).or (if name ∈ wanted then es.dlookup name else none) := by
  induction es generalizing fields with
  | nil =>
    refine ⟨fields, (Reads.pure fields).finds, fun name => ?_⟩
    simp
  | cons e es ih =>
    obtain ⟨⟨hname, hvalue, hread⟩, hes⟩ := forall_mem_cons.mp hes
    obtain ⟨hnot, hnodup⟩ := nodupKeys_cons.mp hnodup
    have hfield : Reads (orBreak do
        let (name, tag, len) ← fieldHeader
        return (name, tag, ← take len ())) (writeField e)
        (some (Utf8.encode e.1, tag e.2, payload e.2)) := by
      rw [writeField_header]
      exact reads_orBreak ((reads_fieldHeader hname hvalue).bind ((reads_take _ ()).map _))
    have hany : (wanted.any fun w => Utf8.encode w = Utf8.encode e.1) = decide (e.1 ∈ wanted) := by
      rw [Bool.eq_iff_iff, any_eq_true, decide_eq_true_eq]
      constructor
      · rintro ⟨w, hw, heq⟩
        exact Utf8.encode_inj (of_decide_eq_true heq) ▸ hw
      · exact fun he => ⟨e.1, he, decide_eq_true rfl⟩
    by_cases hwant : e.1 ∈ wanted
    · have hfresh : e.1 ∉ fields.keys := fun h => (hwanted e.1 h).2 mem_cons_self
      have hstep : ∀ projected bytes,
          Finds (if (fields.insert e.1 e.2).entries.length = wanted.length then
              pure (fields.insert e.1 e.2)
            else projectFields json wanted es.length (fields.insert e.1 e.2)) bytes projected →
          Finds (projectFields json wanted (e :: es).length fields)
            (writeField e ++ bytes) projected := by
        intro projected bytes hrest
        refine hfield.finds_bind ?_
        simp only [hany, hwant, decide_true, if_true, Utf8.decode_encode,
          projectedValue_payload hread]
        exact hrest
      have hwanted' : ∀ name ∈ (fields.insert e.1 e.2).keys, name ∈ wanted ∧ name ∉ es.keys := by
        intro name hmem
        rcases (mem_insert fields).mp hmem with rfl | hmem
        · exact ⟨hwant, hnot⟩
        · obtain ⟨hw, hrest⟩ := hwanted name hmem
          exact ⟨hw, fun h => hrest (mem_cons_of_mem _ h)⟩
      have hlook : ∀ name, ((fields.insert e.1 e.2).lookup name).or
          (if name ∈ wanted then es.dlookup name else none) =
          (fields.lookup name).or (if name ∈ wanted then (e :: es).dlookup name else none) := by
        intro name
        by_cases heq : name = e.1
        · subst heq
          rw [lookup_insert, lookup_eq_none.mpr hfresh, if_pos hwant, if_pos hwant,
            dlookup_cons_eq]
          rfl
        · rw [lookup_insert_ne heq, dlookup_cons_ne _ e heq]
      by_cases hall : (fields.insert e.1 e.2).entries.length = wanted.length
      · refine ⟨fields.insert e.1 e.2, hstep _ _ ?_, fun name => ?_⟩
        · rw [if_pos hall]
          exact (Reads.pure _).finds.append _
        · -- the names that are there are the wanted ones, by their number
          have hsub : (fields.insert e.1 e.2).keys.Subperm wanted :=
            subperm_of_subset (keys_nodup _) fun name hmem => (hwanted' name hmem).1
          have hlen : wanted.length ≤ (fields.insert e.1 e.2).keys.length := by
            rw [← hall, AList.keys, List.keys, length_map]
          have hperm := hsub.perm_of_length_le hlen
          rw [← hlook]
          by_cases hw : name ∈ wanted
          · have hnone := dlookup_eq_none.mpr (hwanted' name (hperm.mem_iff.mpr hw)).2
            rw [if_pos hw, hnone, or_none]
          · rw [if_neg hw, or_none]
      · obtain ⟨projected, hfinds, hlookup⟩ := ih hes hnodup _ hwanted'
        refine ⟨projected, hstep _ _ ?_, fun name => (hlookup name).trans (hlook name)⟩
        rw [if_neg hall]
        exact hfinds
    · have hwanted' : ∀ name ∈ fields.keys, name ∈ wanted ∧ name ∉ es.keys := by
        intro name hmem
        obtain ⟨hw, hrest⟩ := hwanted name hmem
        exact ⟨hw, fun h => hrest (mem_cons_of_mem _ h)⟩
      obtain ⟨projected, hfinds, hlookup⟩ := ih hes hnodup fields hwanted'
      refine ⟨projected, hfield.finds_bind ?_, fun name => ?_⟩
      · simp only [hany, hwant, decide_false]
        exact hfinds
      · rw [hlookup]
        by_cases hw : name ∈ wanted
        · have hne : name ≠ e.1 := fun h => hwant (h ▸ hw)
          rw [dlookup_cons_ne _ e hne]
        · rw [if_neg hw, if_neg hw]

theorem deserializeFieldsProjected_serialized (hfits : Fits fields)
    (hread : ∀ e ∈ fields.entries, Readable json e.2) (after : Bytes) (wanted : List String) :
    ∃ m, deserializeFieldsProjected json (serializeFields fields ++ after) wanted = .ok m ∧
      ∀ name, m.lookup name = if name ∈ wanted then fields.lookup name else none := by
  unfold deserializeFieldsProjected
  by_cases hnil : wanted = []
  · refine ⟨∅, if_pos (.inr hnil), fun name => ?_⟩
    rw [hnil, if_neg not_mem_nil]
    rfl
  · have hcount : Reads (slice 2 : Reader Empty Bytes) (be 2 fields.entries.length)
        (be 2 fields.entries.length) := by
      have hslice := reads_slice (ε := Empty) (be 2 fields.entries.length)
      rwa [be_length] at hslice
    have hes : ∀ e ∈ fields.entries, (Utf8.encode e.1).length < 65536 ∧
        (payload e.2).length < 4294967296 ∧ Readable json e.2 := fun e he =>
      ⟨hfits.name e he, hfits.value e he, hread e he⟩
    have hempty : ∀ name ∈ (∅ : FieldMap).keys, name ∈ wanted ∧ name ∉ fields.entries.keys := nofun
    obtain ⟨m, hfinds, hlookup⟩ := finds_projectFields hes fields.nodupKeys ∅ hempty
    have hof : ofBe (be 2 fields.entries.length) = fields.entries.length :=
      ofBe_be_of_lt hfits.count
    rw [← hof] at hfinds
    obtain ⟨pos, hpos⟩ := hcount.finds_bind
      (k := fun count => projectFields json wanted (ofBe count) ∅) hfinds [] after
    have hlong : ¬ ((serializeFields fields ++ after).length < 2 ∨ wanted = []) := by
      rintro (hshort | h)
      · rw [serializeFields, length_append, length_append, be_length] at hshort
        omega
      · exact hnil h
    refine ⟨m, ?_, fun name => (hlookup name).trans ?_⟩
    · rw [if_neg hlong]
      exact congrArg (Except.map Prod.fst) hpos
    · exact none_or

def asBytes : Value → Option Bytes
  | .bytes b => some b
  | _ => none

/-- Whatever the order of the fields, and whatever stands behind them, every reader makes of the
written bytes the fields that it is asked for. -/
theorem readers_agree (hfits : Fits fields)
    (hread : ∀ e ∈ fields.entries, Readable json e.2) (after : Bytes) :
    (∀ out, serializeFieldsInto fields out = out ++ serializeFields fields) ∧
    (∃ m, deserializeFields json (serializeFields fields ++ after) = .ok m ∧
      ∀ name, m.lookup name = fields.lookup name) ∧
    (∃ m, (∀ before, (tryDeserializeFields json).run (before ++ serializeFields fields ++ after)
        before.length = .ok (m, before.length + (serializeFields fields).length)) ∧
      ∀ name, m.lookup name = fields.lookup name) ∧
    (∀ name, extractField json (serializeFields fields ++ after) name =
      .ok (fields.lookup name)) ∧
    (∀ wanted, ∃ m,
      deserializeFieldsProjected json (serializeFields fields ++ after) wanted = .ok m ∧
      ∀ name, m.lookup name = if name ∈ wanted then fields.lookup name else none) ∧
    (∀ name, findU64FieldInRaw (serializeFields fields ++ after) name =
      .ok ((fields.lookup name).bind Value.widenToU64)) ∧
    (∀ name, findBytesFieldInRaw (serializeFields fields ++ after) name =
      .ok ((fields.lookup name).bind asBytes)) := by
  have hmerge : ∀ name, ((∅ : FieldMap).merge fields).lookup name = fields.lookup name :=
    fun name => (FieldMap.lookup_merge _ _ _).trans or_none
  have hmem : ∀ {name : String} {v : Value}, fields.lookup name = some v → Readable json v :=
    fun hv => hread _ (mem_lookup_iff.mp hv)
  refine ⟨fun _ => rfl, ⟨_, ?_, hmerge⟩, ⟨_, fun before => ?_, hmerge⟩, fun name => ?_,
    deserializeFieldsProjected_serialized hfits hread after, fun name => ?_, fun name => ?_⟩
  · have hlong : ¬ (serializeFields fields ++ after).length < 2 := by
      rw [serializeFields, length_append, length_append, be_length]
      omega
    exact congrArg (Except.map Prod.fst) (trusted_lawful.serialized hfits hread [] after)
  · exact untrusted_lawful.serialized hfits hread before after
  · unfold extractField
    rw [findField_serialized hfits]
    cases hv : fields.lookup name with
    | none => rfl
    | some v =>
      have hmade : valueOf (fun b => (Utf8.decode b).map fun _ => b) json none (tag v) (payload v) =
          some v := by
        refine valueOf_payload (m := Option) (fun s hs => ?_) fun text htext => ?_
        · obtain ⟨t, ht⟩ := isSome_iff_exists.mp (hs ▸ hmem hv)
          exact congrArg (Option.map fun _ => s) ht
        · subst htext
          exact hmem hv
      exact congrArg Except.ok hmade
  · unfold findU64FieldInRaw
    rw [findField_serialized hfits]
    cases hv : fields.lookup name with
    | none => rfl
    | some v =>
      refine congrArg Except.ok ?_
      cases v with
      | u32 v =>
        change some (UInt32.ofNat (ofBe (be 4 v.toNat))).toUInt64 = _
        rw [ofBe_be_of_lt v.toNat_lt, UInt32.ofNat_toNat]
        rfl
      | u64 v =>
        change some (UInt64.ofNat (ofBe (be 8 v.toNat))) = _
        rw [ofBe_be_of_lt v.toNat_lt, UInt64.ofNat_toNat]
        rfl
      | i32 v =>
        change some (UInt32.ofNat (ofBe (be 4 v.toUInt32.toNat))).toInt32.toInt64.toUInt64 = _
        rw [ofBe_be_of_lt v.toUInt32.toNat_lt, UInt32.ofNat_toNat]
        rfl
      | i64 v =>
        change some (UInt64.ofNat (ofBe (be 8 v.toUInt64.toNat))).toInt64.toUInt64 = _
        rw [ofBe_be_of_lt v.toUInt64.toNat_lt, UInt64.ofNat_toNat]
        rfl
      | _ => rfl
  · unfold findBytesFieldInRaw
    rw [findField_serialized hfits]
    cases fields.lookup name with
    | none => rfl
    | some v => cases v <;> rfl

def postFields : FieldMap := ((∅ : FieldMap).insert "likes" (.u32 7)).insert "meta" (.json jsonNull)

theorem readers_agree_post : extractField some (serializeFields postFields ++ [1]) "likes" =
    .ok (some (.u32 7)) := by
  have hfits : Fits postFields := ⟨by decide, by decide +kernel, by decide +kernel⟩
  have hread : ∀ e ∈ postFields.entries, Readable some e.2 := by
    simp [postFields, Readable]
  exact (readers_agree hfits hread [1]).2.2.2.1 "likes"

end RhypeDb.Wire
