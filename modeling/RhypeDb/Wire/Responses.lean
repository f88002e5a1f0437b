import RhypeDb.Wire.Payloads

/-! The frames that the server answers a query with, and what a client makes of them. A frame's
length is bounded by its readers alone: each of the three takes the response as one frame, and
then decodes it, just where its payload keeps that bound and its names and counts fit. -/

namespace RhypeDb.Wire

open ByteOrder ByteReader List

inductive QueryOutput (Obj : Type)
  | objects (objs : List Obj)
  | scored (rows : List (Obj × UInt32 × Option UInt32))
  | single (obj : Obj)
  | done

def encodeErrorPayload (msg : String) : Bytes := be 4 (Utf8.encode msg).length ++ Utf8.encode msg

def response : Except String (QueryOutput Object) → Byte × Bytes
  | .ok (.objects objs) => (0x80, encodeObjectsPayload objs)
  | .ok (.scored rows) =>
    if rows.any fun row => row.2.2.isSome then (0x8A, encodeRerankedPayload rows)
    else (0x89, encodeScoredPayload (rows.map fun row => (row.1, row.2.1)))
  | .ok (.single obj) => (0x81, encodeObject obj)
  | .ok .done => (0x82, [])
  | .error msg => (0x83, encodeErrorPayload msg)

def responseFrame (reqId : UInt32) (result : Except String (QueryOutput Object)) : Frame where
  reqId := reqId
  kind := (response result).1
  payload := (response result).2

/-- The length is cast to four bytes, whatever it is. -/
def writeQueryResult (reqId : UInt32) (result : Except String (QueryOutput Object)) : Bytes :=
  (responseFrame reqId result).bytes

inductive ClientError
  | io (stop : Stop IoError)
  | server (msg : String)
  | unexpectedResponse (kind : Byte)

def decodeErrorPayload (lib : Library) : Reader IoError String := do
  let len ← number 4 ⟨.invalidData, "error length missing"⟩
  let bytes ← take len ⟨.invalidData, "error body truncated"⟩
  utf8 lib "error" bytes

def serverError (lib : Library) (lossy : Bytes → String) (payload : Bytes) : ClientError :=
  match (decodeErrorPayload lib).decode payload with
  | .ok msg => .server msg
  | .error _ => .server (lossy payload)

def decodeQueryFrame (lib : Library) (lossy : Bytes → String) (frame : Frame) :
    Except ClientError (QueryOutput Object) :=
  match frame.kind.val with
  | 0x80 => ((decodeObjectsPayload lib).decode frame.payload).mapError .io |>.map .objects
  | 0x89 => ((decodeScoredPayload lib).decode frame.payload).mapError .io |>.map fun rows =>
    .scored (rows.map fun row => (row.1, row.2, none))
  | 0x8A => ((decodeRerankedPayload lib).decode frame.payload).mapError .io |>.map .scored
  | 0x81 => ((decodeObject lib).decode frame.payload).mapError .io |>.map .single
  | 0x82 => .ok .done
  | 0x83 => .error (serverError lib lossy frame.payload)
  | _ => .error (.unexpectedResponse frame.kind)

/-- `next` of the TypeScript parser: a frame, or none yet, and the buffer behind it. -/
def FrameParser.next (buf : Bytes) : Except IoError (Option Frame × Bytes) :=
  if buf.length < 4 then .ok (none, buf)
  else
    let len := ofBe (buf.take 4)
    match checkLen len with
    | .error e => .error e
    | .ok () =>
      if buf.length < 4 + len then .ok (none, buf)
      else
        let reqId := UInt32.ofNat (ofBe ((buf.drop 4).take 4))
        let payload := (buf.take (4 + len)).drop 9
        .ok (some ⟨reqId, buf.getD 8 0, payload⟩, buf.drop (4 + len))

section

/-- The bytes are the one frame to each reader, whatever comes behind them and however they are
cut: it is made of them, the rest is left, and of a part of them it makes nothing yet. -/
structure OneFrame (bytes : Bytes) (frame : Frame) : Prop where
  readFrame : ∀ later, readFrame (bytes ++ later) = .ok (frame, later)
  frameReader : ∀ (r : FrameReader) reads c later, r.unread ++ streamOf reads = bytes ++ later →
    (r.call reads c).result = .ok frame ∧
      (r.call reads c).reader.unread ++ streamOf (r.call reads c).left = later
  frameParser : ∀ later, FrameParser.next (bytes ++ later) = .ok (some frame, later)
  parts : ∀ n < bytes.length, FrameParser.next (bytes.take n) = .ok (none, bytes.take n)

variable {f frame : Frame} {rest stream : Bytes}

theorem checkLen_ok {len : Nat} (hfive : 5 ≤ len) (hmax : len ≤ maxFramePayload + 5) :
    checkLen len = .ok () := by
  rw [checkLen, if_neg (Nat.not_lt.mpr hfive), if_neg (Nat.not_lt.mpr hmax)]

theorem payload_of_readFrame (h : readFrame stream = .ok (frame, rest)) :
    frame.payload.length ≤ maxFramePayload := by
  rcases Nat.lt_or_ge stream.length 4 with hshort | hlong
  · rw [readFrame_short hshort] at h
    cases h
  rcases checkLen_cases (ofBe (stream.take 4)) with ⟨e, he, -⟩ | ⟨hok, -, hmax⟩
  · rw [readFrame_refused hlong rfl he] at h
    cases h
  rcases Nat.lt_or_ge stream.length (4 + ofBe (stream.take 4)) with hwait | hwhole
  · rw [readFrame_waiting hlong rfl hok hwait] at h
    cases h
  rw [readFrame_whole hwhole rfl hok] at h
  cases h
  show (((stream.drop 4).take (ofBe (stream.take 4))).drop 5).length ≤ maxFramePayload
  rw [length_drop, length_take]
  omega

theorem length_bytes (f : Frame) : f.bytes.length = 9 + f.payload.length := by
  simp only [Frame.bytes, length_append, be_length, length_singleton]

theorem ofBe_take_bytes (h : f.payload.length ≤ maxFramePayload) (later : Bytes) :
    ofBe ((f.bytes ++ later).take 4) = 5 + f.payload.length := by
  have hmax : 5 + f.payload.length < 256 ^ 4 := by
    have hbound : maxFramePayload + 5 < 256 ^ 4 := by decide
    omega
  have htake : (f.bytes ++ later).take 4 = be 4 (5 + f.payload.length) := by
    exact take_left' (be_length 4 _)
  rw [htake, ofBe_be_of_lt hmax]

theorem next_bytes (h : f.payload.length ≤ maxFramePayload) (later : Bytes) :
    FrameParser.next (f.bytes ++ later) = .ok (some f, later) := by
  have hlen := length_bytes f
  have hhead := ofBe_take_bytes h later
  have hreq : UInt32.ofNat (ofBe (((f.bytes ++ later).drop 4).take 4)) = f.reqId := by
    simp only [Frame.bytes, append_assoc]
    rw [drop_left' (be_length 4 _), take_left' (be_length 4 _),
      ofBe_be_of_lt f.reqId.toNat_lt, UInt32.ofNat_toNat]
  have hkind : (f.bytes ++ later).getD 8 0 = f.kind := by
    simp only [Frame.bytes, append_assoc, getD_eq_getElem?_getD]
    rw [getElem?_append_right (by rw [be_length]; decide), be_length,
      getElem?_append_right (by rw [be_length]), be_length]
    rfl
  have hnine : f.bytes.drop 9 = f.payload :=
    drop_left' (by simp only [length_append, be_length, length_singleton])
  have hwhole : 4 + (5 + f.payload.length) = f.bytes.length := by omega
  have hok : checkLen (5 + f.payload.length) = .ok () := checkLen_ok (by omega) (by omega)
  unfold FrameParser.next
  rw [if_neg (by rw [length_append]; omega)]
  simp only [hhead, hok, hreq, hkind, hwhole]
  rw [if_neg (by rw [length_append]; omega), take_left, drop_left, hnine]

theorem next_part (h : f.payload.length ≤ maxFramePayload) {n : Nat} (hn : n < f.bytes.length) :
    FrameParser.next (f.bytes.take n) = .ok (none, f.bytes.take n) := by
  have hlen := length_bytes f
  have htake : (f.bytes.take n).length = n := length_take_of_le (Nat.le_of_lt hn)
  unfold FrameParser.next
  rw [htake]
  by_cases hfour : n < 4
  · rw [if_pos hfour]
  · have hhead := ofBe_take_bytes h []
    rw [append_nil] at hhead
    have hmin : (f.bytes.take n).take 4 = f.bytes.take 4 := by
      rw [take_take, Nat.min_eq_left (by omega)]
    have hok : checkLen (5 + f.payload.length) = .ok () := checkLen_ok (by omega) (by omega)
    rw [if_neg hfour]
    simp only [hmin, hhead, hok]
    rw [if_pos (by omega)]

theorem readFrame_bytes (h : f.payload.length ≤ maxFramePayload) (later : Bytes) :
    readFrame (f.bytes ++ later) = .ok (f, later) := by
  have hlen := length_bytes f
  have hwhole : 4 + (5 + f.payload.length) ≤ (f.bytes ++ later).length := by
    rw [length_append]
    omega
  have hread := readFrame_whole hwhole (ofBe_take_bytes h later)
    (checkLen_ok (by omega) (by omega))
  have hnext := next_bytes (payload_of_readFrame hread)
    ((f.bytes ++ later).drop (4 + (5 + f.payload.length)))
  rw [bytes_of_readFrame hread, next_bytes h later] at hnext
  obtain ⟨hframe, hrest⟩ := Prod.mk.inj (Except.ok.inj hnext)
  rw [hread, ← hrest, ← Option.some.inj hframe]

theorem oneFrame_iff : OneFrame f.bytes frame ↔
    frame = f ∧ f.payload.length ≤ maxFramePayload := by
  constructor
  · intro h
    have hread := h.readFrame []
    have hbytes := bytes_of_readFrame hread
    rw [append_nil, append_nil] at hbytes
    have hmax : f.payload.length ≤ maxFramePayload := by
      have hlen := congrArg List.length hbytes
      rw [length_bytes, length_bytes] at hlen
      have hbound := payload_of_readFrame hread
      omega
    rw [readFrame_bytes hmax] at hread
    cases hread
    exact ⟨rfl, hmax⟩
  · rintro ⟨rfl, hmax⟩
    refine ⟨readFrame_bytes hmax, ?_, next_bytes hmax, fun n hn => next_part hmax hn⟩
    intro r reads c later hstream
    have hcall := r.call_reads reads c
    rwa [hstream, Returned.Reads, readFrame_bytes hmax later] at hcall

end

section

variable {lib : Library} (lossy : Bytes → String)

def QueryOutput.sent : QueryOutput (HeldObject lib.json) → QueryOutput Object
  | .objects objs => .objects (objs.map HeldObject.toObject)
  | .scored rows => .scored (rows.map fun row => (row.1.toObject, row.2))
  | .single obj => .single obj.toObject
  | .done => .done

def SameResult : Except String (QueryOutput (HeldObject lib.json)) →
    Except ClientError (QueryOutput Object) → Prop
  | .ok (.objects objs), .ok (.objects out) => List.Forall₂ HeldObject.Same objs out
  | .ok (.scored rows), .ok (.scored out) => List.Forall₂ SameReranked rows out
  | .ok (.single obj), .ok (.single out) => obj.Same out
  | .ok .done, .ok .done => True
  | .error msg, .error (.server msg') => msg' = msg
  | _, _ => False

/-- What the encoding has room for; a rerank score that is a NaN would be read as none. -/
def QueryOutput.Fits : QueryOutput (HeldObject lib.json) → Prop
  | .objects objs => objs.length < 4294967296 ∧ ∀ o ∈ objs, o.Fits
  | .scored rows => rows.length < 4294967296 ∧
    ∀ row ∈ rows, row.1.Fits ∧ ∀ s, row.2.2 = some s → isNan s = false
  | .single obj => obj.Fits
  | .done => True

theorem scored_eq_sent (rows : List (HeldObject lib.json × UInt32 × Option UInt32)) :
    ((rows.map fun row => (row.1.toObject, row.2)).map fun row => (row.1, row.2.1)) =
      (rows.map fun row => (row.1, row.2.1)).map fun row => (row.1.toObject, row.2) := by
  rw [map_map, map_map]
  rfl

theorem any_sent (rows : List (HeldObject lib.json × UInt32 × Option UInt32)) :
    ((rows.map fun row => (row.1.toObject, row.2)).any fun row => row.2.2.isSome) =
      rows.any fun row => row.2.2.isSome := any_map

theorem forall₂_scored {rows : List (HeldObject lib.json × UInt32 × Option UInt32)}
    (hnone : ∀ row ∈ rows, row.2.2 = none) (out : List (Object × UInt32)) :
    List.Forall₂ SameReranked rows (out.map fun row => (row.1, row.2, none)) ↔
      List.Forall₂ SameScored (rows.map fun row => (row.1, row.2.1)) out := by
  rw [forall₂_map_right_iff, forall₂_map_left_iff]
  induction rows generalizing out with
  | nil => cases out <;> simp
  | cons row rows ih =>
    obtain ⟨hrow, hrows⟩ := List.forall_mem_cons.mp hnone
    cases out with
    | nil => simp
    | cons a out =>
      have hhead : SameReranked row (a.1, a.2, none) ↔ SameScored (row.1, row.2.1) a := by
        obtain ⟨o, score, rerank⟩ := row
        subst hrow
        simp [SameReranked, SameScored]
      rw [forall₂_cons, forall₂_cons, ih hrows, hhead]

variable {msg : String} {α : Type}

theorem decode_errorPayload (h : (Utf8.encode msg).length < 4294967296) :
    (decodeErrorPayload lib).decode (encodeErrorPayload msg) = .ok msg := by
  have hbody := (reads_take (ε := IoError) (Utf8.encode msg)
    ⟨.invalidData, "error body truncated"⟩).bind (k := utf8 lib "error")
    (utf8_encode _ msg ▸ Reads.pure msg)
  rw [append_nil] at hbody
  exact ((reads_number h _).bind hbody).decode

theorem decoded_iff {decoded : Except (Stop IoError) α} {f : α → QueryOutput Object}
    {P : Except ClientError (QueryOutput Object) → Prop} {Same : α → Prop}
    (hok : ∀ a, P (.ok (f a)) ↔ Same a) (herror : ∀ e, ¬ P (.error e)) :
    P ((decoded.mapError .io).map f) ↔ ∃ a, decoded = .ok a ∧ Same a := by
  cases decoded with
  | error e =>
    refine iff_of_false (herror _) ?_
    rintro ⟨a, h, -⟩
    cases h
  | ok a =>
    refine (hok a).trans ⟨fun h => ⟨a, rfl, h⟩, ?_⟩
    rintro ⟨a', h, hsame⟩
    cases h
    exact hsame

variable {reqId : UInt32}

theorem sameResult_iff {output : QueryOutput (HeldObject lib.json)} :
    SameResult (.ok output) (decodeQueryFrame lib lossy (responseFrame reqId (.ok output.sent))) ↔
      output.Fits := by
  cases output with
  | objects objs =>
    refine Iff.trans ?_ (objects_iff objs)
    exact decoded_iff (P := SameResult (.ok (.objects objs))) (fun _ => Iff.rfl) fun _ h => h
  | scored rows =>
    have hframe : responseFrame reqId (.ok (QueryOutput.scored rows).sent) =
        if rows.any fun row => row.2.2.isSome then
          ⟨reqId, 0x8A, encodeRerankedPayload (rows.map fun row => (row.1.toObject, row.2))⟩
        else ⟨reqId, 0x89, encodeScoredPayload
          ((rows.map fun row => (row.1, row.2.1)).map fun row => (row.1.toObject, row.2))⟩ := by
      unfold responseFrame
      simp only [QueryOutput.sent, response, any_sent]
      split_ifs
      · rfl
      · rw [scored_eq_sent]
    rw [hframe]
    split_ifs with hany
    · refine Iff.trans ?_ (reranked_iff rows)
      exact decoded_iff (P := SameResult (.ok (.scored rows))) (fun _ => Iff.rfl) fun _ h => h
    · have hnone : ∀ row ∈ rows, row.2.2 = none := fun row hrow =>
        Option.not_isSome_iff_eq_none.mp fun hsome => hany (List.any_eq_true.mpr ⟨row, hrow, hsome⟩)
      have hfits : (QueryOutput.scored rows).Fits ↔
          (rows.map fun row => (row.1, row.2.1)).length < 4294967296 ∧
            ∀ row ∈ rows.map fun row => (row.1, row.2.1), row.1.Fits := by
        rw [length_map, forall_mem_map]
        refine and_congr_right fun _ => forall₂_congr fun row hrow => and_iff_left fun s hs => ?_
        rw [hnone row hrow] at hs
        cases hs
      refine Iff.trans ?_ ((scored_iff _).trans hfits.symm)
      exact decoded_iff (P := SameResult (.ok (.scored rows)))
        (fun out => forall₂_scored hnone out) fun _ h => h
  | single obj =>
    have hiff : (∃ out, (decodeObject lib).decode (encodeObject obj.toObject) = .ok out ∧
        obj.Same out) ↔ obj.Fits := by
      refine decode_iff (fun h => ?_) (safe_decodeObject obj)
      obtain ⟨out, hout, hsame⟩ := reads_decodeObject obj h
      exact ⟨out, hout.decode, hsame⟩
    refine Iff.trans ?_ hiff
    exact decoded_iff (P := SameResult (.ok (.single obj))) (fun _ => Iff.rfl) fun _ h => h
  | done => exact iff_of_true trivial trivial

theorem sameResult_error (hmax : (encodeErrorPayload msg).length ≤ maxFramePayload) :
    SameResult (.error msg : Except String (QueryOutput (HeldObject lib.json)))
      (decodeQueryFrame lib lossy (responseFrame reqId (.error msg))) := by
  have hlen : (Utf8.encode msg).length < 4294967296 := by
    rw [encodeErrorPayload, length_append, be_length] at hmax
    have hbound : maxFramePayload < 4294967296 := by decide
    omega
  show SameResult (.error msg) (.error (serverError lib lossy (encodeErrorPayload msg)))
  rw [serverError, decode_errorPayload hlen]
  rfl

theorem decoded_ne_server {decoded : Except (Stop IoError) α} {f : α → QueryOutput Object} :
    (decoded.mapError ClientError.io).map f ≠ .error (ClientError.server msg) := by
  cases decoded with
  | error e => exact nofun
  | ok a => exact nofun

theorem decodeQueryFrame_ne_server (output : QueryOutput (HeldObject lib.json)) :
    decodeQueryFrame lib lossy (responseFrame reqId (.ok output.sent)) ≠ .error (.server msg) := by
  cases output with
  | objects objs => exact decoded_ne_server
  | scored rows =>
    simp only [responseFrame, QueryOutput.sent, response]
    split_ifs
    · exact decoded_ne_server
    · exact decoded_ne_server
  | single obj => exact decoded_ne_server
  | done => exact nofun

def encodedSize (o : HeldObject lib.json) : Nat := 12 + (Utf8.encode o.typeName).length +
  (o.content.entries.map fun e => 2 + (Utf8.encode e.1).length + (writeValue e.2).length).sum

def QueryOutput.encodedSize : QueryOutput (HeldObject lib.json) → Nat
  | .objects objs => 4 + (objs.map Wire.encodedSize).sum
  | .scored rows =>
    let scores := if rows.any fun row => row.2.2.isSome then 8 else 4
    4 + (rows.map fun row => scores + Wire.encodedSize row.1).sum
  | .single obj => Wire.encodedSize obj
  | .done => 0

theorem length_encodeObject (o : HeldObject lib.json) :
    (encodeObject o.toObject).length = encodedSize o := by
  have hfield : (fun e => (writeField e).length) =
      fun e => 2 + (Utf8.encode e.1).length + (writeValue e.2).length := by
    funext e
    simp only [writeField, length_append, be_length]
    omega
  rw [o.encodeObject_eq, encodedSize]
  simp only [serializeFields, length_append, be_length, length_flatMap, hfield]
  omega

theorem length_encodeRows {β : Type} (row : β → Bytes) (sent : α → β) (rows : List α) :
    (encodeRows row (rows.map sent)).length =
      4 + (rows.map fun a => (row (sent a)).length).sum := by
  rw [encodeRows, length_append, be_length, length_flatMap, map_map]
  rfl

/-- The size of a result's payload, to be held against the bound of a frame. -/
theorem length_response (output : QueryOutput (HeldObject lib.json)) :
    (response (.ok output.sent)).2.length = output.encodedSize := by
  cases output with
  | objects objs =>
    refine (length_encodeRows _ _ _).trans ?_
    simp only [length_encodeObject, QueryOutput.encodedSize]
  | scored rows =>
    simp only [response, QueryOutput.sent, QueryOutput.encodedSize, any_sent]
    split_ifs
    · refine (length_encodeRows _ _ _).trans ?_
      simp only [encodeRerankedRow, length_append, be_length, length_encodeObject, ← Nat.add_assoc]
    · rw [scored_eq_sent, map_map]
      refine (length_encodeRows _ _ _).trans ?_
      simp only [encodeScoredRow, Function.comp_apply, length_append, be_length,
        length_encodeObject]
  | single obj => exact length_encodeObject obj
  | done => rfl

def Answers (result : Except String (QueryOutput (HeldObject lib.json)))
    (out : Except ClientError (QueryOutput Object)) : Prop :=
  SameResult result out ∨ (∃ output, result = .ok output) ∧ ∃ msg, out = .error (.server msg)

variable (lib) in
/-- A response is one frame to every reader, and is decoded to the result or to an error, just
where its payload is no longer than the readers' bound and the encoding has room for it. -/
theorem response_read_iff (reqId : UInt32)
    (result : Except String (QueryOutput (HeldObject lib.json))) :
    (∃ frame, OneFrame (writeQueryResult reqId (result.map .sent)) frame ∧ frame.reqId = reqId ∧
        Answers result (decodeQueryFrame lib lossy frame)) ↔
      (response (result.map .sent)).2.length ≤ maxFramePayload ∧
        ∀ output, result = .ok output → output.Fits := by
  have hframe : ∀ frame, OneFrame (writeQueryResult reqId (result.map .sent)) frame ↔
      frame = responseFrame reqId (result.map .sent) ∧
        (response (result.map .sent)).2.length ≤ maxFramePayload := fun frame => oneFrame_iff
  simp only [hframe]
  constructor
  · rintro ⟨frame, ⟨rfl, hmax⟩, -, hanswers⟩
    refine ⟨hmax, ?_⟩
    rintro output rfl
    rcases hanswers with hsame | ⟨-, msg, hmsg⟩
    · exact (sameResult_iff lossy).mp hsame
    · exact absurd hmsg (decodeQueryFrame_ne_server lossy output)
  · rintro ⟨hmax, hfits⟩
    refine ⟨_, ⟨rfl, hmax⟩, rfl, .inl ?_⟩
    cases result with
    | error msg => exact sameResult_error lossy hmax
    | ok output => exact (sameResult_iff lossy).mpr (hfits output rfl)

def note (n : Nat) (id : UInt64) : HeldObject plain.json where
  typeName := "Note"
  id := id
  fields := AList.singleton "body" (.string (Utf8.encode (String.ofList (List.replicate n 'a'))))
  rawFields := none
  content := AList.singleton "body" (.string (Utf8.encode (String.ofList (List.replicate n 'a'))))
  held := rfl
  readable := by
    refine List.forall_mem_singleton.mpr ?_
    show (Utf8.decode (Utf8.encode _)).isSome
    rw [Utf8.decode_encode]
    rfl
  short := List.forall_mem_singleton.mpr nofun

theorem lt_size_note (n : Nat) (id : UInt64) : n < encodedSize (note n id) := by
  show n < 12 + 4 + (2 + 4 + (writeValue (.string (Utf8.encode _))).length + 0)
  simp only [writeValue, length_append, be_length, length_encode_replicate]
  omega

/-- Two notes of eight megabytes each are too long a frame for every reader. -/
theorem long_notes_not_read :
    ¬ ∃ frame, OneFrame (writeQueryResult 1
        (.ok (QueryOutput.objects [note 8388608 1, note 8388608 2]).sent)) frame ∧
      frame.reqId = 1 ∧ Answers (.ok (.objects [note 8388608 1, note 8388608 2]))
        (decodeQueryFrame plain (fun _ => "") frame) := by
  rintro ⟨frame, hone, -⟩
  have hmax := (oneFrame_iff.mp hone).2
  have hlong : maxFramePayload < (response
      (.ok (QueryOutput.objects [note 8388608 1, note 8388608 2]).sent)).2.length := by
    rw [length_response, QueryOutput.encodedSize, map_cons, map_singleton, sum_cons,
      sum_singleton]
    have hfirst := lt_size_note 8388608 1
    have hsecond := lt_size_note 8388608 2
    rw [maxFramePayload]
    omega
  exact absurd hmax (Nat.not_le.mpr hlong)

end

end RhypeDb.Wire
