import RhypeDb.Basic.ByteReader
import RhypeDb.Vectorizer.Drained
import RhypeDb.Vectorizer.Queue

/-! The bytes of a queue row. A job reads back as it was where its names' lengths fit their two
bytes, which is what the catalog asserts of the names it stores. -/

namespace RhypeDb.Vectorizer.JobRow

open ByteOrder List

structure VectorizeJob where
  typeName : String
  objectId : Nat
  sourceField : String
  vectorField : String
  model : String
  deriving DecidableEq, Repr

/-- The length is cast to two bytes. -/
def putString (s : String) : Bytes := be 2 (Utf8.encode s).length ++ Utf8.encode s

def readString (data : Bytes) : Option (String × Bytes) :=
  if data.length < 2 then none
  else
    let len := ofBe (data.take 2)
    let rest := data.drop 2
    if rest.length < len then none
    else (Utf8.decode (rest.take len)).map fun s => (s, rest.drop len)

def readU64 (data : Bytes) : Option (Nat × Bytes) :=
  if data.length < 8 then none else some (ofBe (data.take 8), data.drop 8)

def VectorizeJob.serialize (job : VectorizeJob) : Bytes :=
  putString job.typeName ++ be 8 job.objectId ++ putString job.sourceField ++
    putString job.vectorField ++ putString job.model

def VectorizeJob.deserialize (data : Bytes) : Option VectorizeJob := do
  let (typeName, data) ← readString data
  let (objectId, data) ← readU64 data
  let (sourceField, data) ← readString data
  let (vectorField, data) ← readString data
  let (model, _) ← readString data
  return { typeName, objectId, sourceField, vectorField, model }

theorem readString_putString {s : String} (hfits : (Utf8.encode s).length < 2 ^ 16) (rest : Bytes) :
    readString (putString s ++ rest) = some (s, rest) := by
  have htake : (be 2 (Utf8.encode s).length ++ (Utf8.encode s ++ rest)).take 2 =
      be 2 (Utf8.encode s).length :=
    take_left' (be_length 2 _)
  have hdrop : (be 2 (Utf8.encode s).length ++ (Utf8.encode s ++ rest)).drop 2 =
      Utf8.encode s ++ rest :=
    drop_left' (be_length 2 _)
  have hlen : ofBe (be 2 (Utf8.encode s).length) = (Utf8.encode s).length := ofBe_be_of_lt hfits
  unfold readString putString
  rw [append_assoc, if_neg, htake, hdrop, hlen]
  · rw [if_neg, take_left, drop_left, Utf8.decode_encode]
    · rfl
    · rw [length_append, not_lt]
      exact Nat.le_add_right _ _
  · rw [length_append, be_length, not_lt]
    exact Nat.le_add_right _ _

theorem readU64_be {n : Nat} (hn : n < 2 ^ 64) (rest : Bytes) :
    readU64 (be 8 n ++ rest) = some (n, rest) := by
  unfold readU64
  rw [if_neg, take_left' (be_length 8 n), drop_left' (be_length 8 n), ofBe_be_of_lt hn]
  rw [length_append, be_length, not_lt]
  exact Nat.le_add_right _ _

def VectorizeJob.Fits (job : VectorizeJob) : Prop :=
  (∀ s ∈ [job.typeName, job.sourceField, job.vectorField, job.model], (Utf8.encode s).length < 2 ^ 16) ∧
    job.objectId < 2 ^ 64

variable {job : VectorizeJob}

theorem deserialize_serialize (hfits : job.Fits) :
    VectorizeJob.deserialize job.serialize = some job := by
  obtain ⟨hnames, hid⟩ := hfits
  simp only [forall_mem_cons] at hnames
  obtain ⟨htype, hsource, hvector, hmodel, -⟩ := hnames
  have hend : readString (putString job.model) = some (job.model, []) := by
    have hread := readString_putString hmodel []
    rwa [append_nil] at hread
  unfold VectorizeJob.deserialize VectorizeJob.serialize
  simp only [append_assoc, readString_putString htype, readU64_be hid,
    readString_putString hsource, readString_putString hvector, hend, Option.bind_eq_bind,
    Option.bind_some]
  rfl

theorem readString_take {s : String} (hfits : (Utf8.encode s).length < 2 ^ 16) (rest : Bytes)
    (n : Nat) :
    readString ((putString s ++ rest).take n) = none ∧ n < (putString s).length ∨
      readString ((putString s ++ rest).take n) =
        some (s, rest.take (n - (putString s).length)) ∧ (putString s).length ≤ n := by
  rcases Nat.lt_or_ge n (putString s).length with hlt | hge
  · refine .inl ⟨?_, hlt⟩
    rw [take_append_of_le_length (Nat.le_of_lt hlt)]
    have hlen : (putString s).length = 2 + (Utf8.encode s).length := by
      rw [putString, length_append, be_length]
    unfold readString
    split_ifs with htwo
    · rfl
    · rw [length_take, min_eq_left (Nat.le_of_lt hlt), not_lt] at htwo
      have hhead : ((putString s).take n).take 2 = be 2 (Utf8.encode s).length := by
        rw [take_take, min_eq_left htwo, putString, take_left' (be_length 2 _)]
      rw [hhead, ofBe_be_of_lt hfits, if_pos]
      rw [length_drop, length_take, hlen]
      omega
  · refine .inr ⟨?_, hge⟩
    rw [take_append, take_of_length_le hge, readString_putString hfits]

theorem readU64_take {i : Nat} (hi : i < 2 ^ 64) (rest : Bytes) (n : Nat) :
    readU64 ((be 8 i ++ rest).take n) = none ∧ n < 8 ∨
      readU64 ((be 8 i ++ rest).take n) = some (i, rest.take (n - 8)) ∧ 8 ≤ n := by
  rcases Nat.lt_or_ge n 8 with hlt | hge
  · exact .inl ⟨if_pos ((length_take_le n _).trans_lt hlt), hlt⟩
  · refine .inr ⟨?_, hge⟩
    rw [take_append, take_of_length_le (be_length 8 i |>.trans_le hge), be_length, readU64_be hi]

theorem deserialize_take (hfits : job.Fits) {n : Nat}
    (hn : n < job.serialize.length) : VectorizeJob.deserialize (job.serialize.take n) = none := by
  obtain ⟨hnames, hid⟩ := hfits
  simp only [forall_mem_cons] at hnames
  obtain ⟨htype, hsource, hvector, hmodel, -⟩ := hnames
  unfold VectorizeJob.serialize at hn ⊢
  simp only [append_assoc, length_append, be_length] at hn ⊢
  unfold VectorizeJob.deserialize
  rcases readString_take htype _ n with ⟨hread, -⟩ | ⟨hread, hle₁⟩
  · rw [hread]
    rfl
  rw [hread]
  dsimp only [Option.bind_eq_bind, Option.bind_some]
  rcases readU64_take hid _ (n - (putString job.typeName).length) with ⟨hread, -⟩ | ⟨hread, hle₂⟩
  · rw [hread]
    rfl
  rw [hread]
  dsimp only [Option.bind_some]
  rcases readString_take hsource _ (n - (putString job.typeName).length - 8) with
    ⟨hread, -⟩ | ⟨hread, hle₃⟩
  · rw [hread]
    rfl
  rw [hread]
  dsimp only [Option.bind_some]
  rcases readString_take hvector _ (n - (putString job.typeName).length - 8 -
    (putString job.sourceField).length) with ⟨hread, -⟩ | ⟨hread, hle₄⟩
  · rw [hread]
    rfl
  rw [hread]
  dsimp only [Option.bind_some]
  rcases readString_take hmodel [] (n - (putString job.typeName).length - 8 -
    (putString job.sourceField).length - (putString job.vectorField).length) with ⟨hread, -⟩ | ⟨-,
    hle⟩
  · rw [append_nil] at hread
    rw [hread]
    rfl
  · omega

def jobRows (typeIds fieldIds : String → Nat) : JobRows VectorizeJob Bytes (Nat × Nat × Nat) where
  serialize := VectorizeJob.serialize
  deserialize := VectorizeJob.deserialize
  stateKey job :=
    (typeIds job.typeName, job.objectId, fieldIds (job.typeName ++ "." ++ job.vectorField))

/-- A job of the queue under the names that the catalog has for its ids. -/
def ofJob {schema : VectorSchema} (typeNames fieldNames : Nat → String)
    (job : Vectorizer.VectorizeJob schema) : VectorizeJob where
  typeName := typeNames job.field.1.typeId
  objectId := job.objectId.toNat
  sourceField := job.field.1.sourceField
  vectorField := fieldNames job.field.1.fieldId
  model := job.field.1.model

/-- Where the names lead back to the ids, two jobs have one `s:` row only if they are one job. -/
theorem stateKey_ofJob_inj {schema : VectorSchema} {typeIds fieldIds : String → Nat}
    {typeNames fieldNames : Nat → String} (htypes : ∀ id, typeIds (typeNames id) = id)
    (hfields : ∀ typeId id, fieldIds (typeNames typeId ++ "." ++ fieldNames id) = id)
    {job job' : Vectorizer.VectorizeJob schema} :
    (jobRows typeIds fieldIds).stateKey (ofJob typeNames fieldNames job) =
      (jobRows typeIds fieldIds).stateKey (ofJob typeNames fieldNames job') ↔ job = job' := by
  refine ⟨fun h => Vectorizer.VectorizeJob.eq_of_slot ?_, fun h => congrArg _ (congrArg _ h)⟩
  obtain ⟨htype, hrest⟩ := Prod.mk.inj h
  obtain ⟨hid, hfield⟩ := Prod.mk.inj hrest
  rw [ofJob, ofJob, htypes, htypes] at htype
  rw [ofJob, ofJob, hfields, hfields] at hfield
  have hobject : job.objectId = job'.objectId := UInt64.toNat_inj.mp hid
  rw [Vectorizer.VectorizeJob.slot, Vectorizer.VectorizeJob.slot, Vectorizer.VectorizeJob.object,
    Vectorizer.VectorizeJob.object, htype, hobject, hfield]

/-- What a drain reads back of an enqueue is its jobs, and of a row that was cut short it reads
nothing. -/
theorem rows_decode (typeIds fieldIds : String → Nat) (e : Enqueue VectorizeJob)
    (hfits : ∀ job ∈ e.jobs, job.Fits) {x : Nat × Bytes}
    (hx : x ∈ e.rows (jobRows typeIds fieldIds)) :
    ∃ job, e.jobs[x.1 - e.first]? = some job ∧
      (jobRows typeIds fieldIds).deserialize x.2 = some job ∧
      ∀ n < x.2.length, (jobRows typeIds fieldIds).deserialize (x.2.take n) = none := by
  obtain ⟨⟨row, id⟩, hmem, rfl⟩ := List.mem_map.mp hx
  obtain ⟨hle, hlt, hrow⟩ := mem_zipIdx hmem
  rw [getElem_map] at hrow
  rw [length_map] at hlt
  have hget : e.jobs[id - e.first]? = some e.jobs[id - e.first] := getElem?_eq_getElem _
  have hjob := hfits _ (mem_of_getElem? hget)
  refine ⟨_, hget, ?_, fun n hn => ?_⟩
  · change VectorizeJob.deserialize row = _
    rw [hrow]
    exact deserialize_serialize hjob
  · change VectorizeJob.deserialize (row.take n) = none
    rw [hrow] at hn ⊢
    exact deserialize_take hjob hn

def helloJob : VectorizeJob := ⟨"Note", 7, "body", "body_vec", "m"⟩

theorem rows_decode_hello : ∃ job, [helloJob][0]? = some job ∧
    VectorizeJob.deserialize helloJob.serialize = some job ∧
    ∀ n < helloJob.serialize.length, VectorizeJob.deserialize (helloJob.serialize.take n) = none :=
  rows_decode (fun _ => 0) (fun _ => 0) ⟨3, [helloJob], .finished⟩ (x := (3, helloJob.serialize))
    (by rintro _ hjob; cases mem_singleton.mp hjob; exact ⟨by decide +kernel, by decide⟩)
    (mem_singleton_self _)

end RhypeDb.Vectorizer.JobRow
