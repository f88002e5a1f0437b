import RhypeDb.Basic.ByteOrder

/-! Frames of the TCP protocol and their two readers. One blocks until a frame has come whole;
the other keeps what has come in a buffer, so that a read may be given up and begun anew. Both
make the same frames of a stream, however it is cut into reads. -/

namespace RhypeDb.Wire

open ByteOrder List

structure Frame where
  reqId : UInt32
  kind : Byte
  payload : Bytes
  deriving DecidableEq, Repr

inductive ErrorKind
  | invalidData
  | unexpectedEof
  deriving DecidableEq, Repr

structure IoError where
  kind : ErrorKind
  message : String
  deriving DecidableEq, Repr

def maxFramePayload : Nat := 16 * 1024 * 1024

def checkLen (len : Nat) : Except IoError Unit :=
  if len < 5 then .error ⟨.invalidData, s!"frame too small: {len} bytes"⟩
  else if maxFramePayload + 5 < len then .error ⟨.invalidData, s!"frame too large: {len} bytes"⟩
  else .ok ()

def Frame.ofBody (body : Bytes) : Frame where
  reqId := UInt32.ofNat (ofBe (body.take 4))
  kind := body.getD 4 0
  payload := body.drop 5

/-- What `write_frame` writes. -/
def Frame.bytes (f : Frame) : Bytes :=
  be 4 (5 + f.payload.length) ++ be 4 f.reqId.toNat ++ [f.kind] ++ f.payload

def readExact (n : Nat) (stream : Bytes) : Except IoError (Bytes × Bytes) :=
  if stream.length < n then .error ⟨.unexpectedEof, "failed to fill whole buffer"⟩
  else .ok (stream.take n, stream.drop n)

def readFrame (stream : Bytes) : Except IoError (Frame × Bytes) := do
  let (lenBuf, stream) ← readExact 4 stream
  let len := ofBe lenBuf
  checkLen len
  let (body, stream) ← readExact len stream
  return (.ofBody body, stream)

/-- So many calls, or as many as succeed, with the error of the one that does not. -/
def readFrames : Nat → Bytes → List Frame × Option IoError
  | 0, _ => ([], none)
  | n + 1, stream =>
    match readFrame stream with
    | .error e => ([], some e)
    | .ok (frame, stream) =>
      let (frames, error) := readFrames n stream
      (frame :: frames, error)

/-- The bytes in front of `start` have been returned. -/
structure FrameReader where
  buf : Bytes
  start : Nat
  start_le : start ≤ buf.length

namespace FrameReader

def new : FrameReader := ⟨[], 0, le_rfl⟩

def unread (r : FrameReader) : Bytes := r.buf.drop r.start

def tryParse (r : FrameReader) : Except IoError (Option Frame × FrameReader) :=
  let avail := r.buf.length - r.start
  if avail < 4 then .ok (none, r)
  else
    let off := r.start
    let len := ofBe ((r.buf.drop off).take 4)
    match checkLen len with
    | .error e => .error e
    | .ok () =>
      if h : avail < 4 + len then .ok (none, r)
      else
        let frame := Frame.ofBody ((r.buf.drop (off + 4)).take len)
        if off + (4 + len) = r.buf.length then .ok (some frame, new)
        else .ok (some frame, ⟨r.buf, off + (4 + len), by have := r.start_le; omega⟩)

def compact (r : FrameReader) : FrameReader :=
  if 0 < r.start then ⟨r.buf.drop r.start, 0, Nat.zero_le _⟩ else r

def append (r : FrameReader) (chunk : Bytes) : FrameReader :=
  ⟨r.buf ++ chunk, r.start, by have := r.start_le; rw [List.length_append]; omega⟩

end FrameReader

/-- What a read of the connection comes to: some bytes, or nothing yet. A future that waits may
then be dropped, and the call begun anew, or be polled again. Behind the last read the
connection is closed. -/
inductive Read
  | data (first : Byte) (rest : Bytes)
  | pending (dropped : Bool)
  deriving DecidableEq, Repr

def Read.bytes : Read → Bytes
  | .data first rest => first :: rest
  | .pending _ => []

def streamOf (reads : List Read) : Bytes := reads.flatMap Read.bytes

structure Returned where
  result : Except IoError Frame
  reader : FrameReader
  left : List Read

namespace FrameReader

/-- The top of the loop: a frame that is whole, or `more` of the compacted buffer. -/
def parseOr (more : FrameReader → Returned) (reads : List Read) (r : FrameReader) : Returned :=
  match r.tryParse with
  | .error e => ⟨.error e, r, reads⟩
  | .ok (some frame, r) => ⟨.ok frame, r, reads⟩
  | .ok (none, r) => more r.compact

def closed (r : FrameReader) : Returned :=
  ⟨.error ⟨.unexpectedEof, "connection closed mid-frame"⟩, r, []⟩

/-- `next_frame` where it waits for a read. -/
def nextRead : List Read → FrameReader → Returned
  | [], r => r.closed
  | .data first rest :: reads, r => (r.append (first :: rest)).parseOr (nextRead reads) reads
  | .pending false :: reads, r => nextRead reads r
  | .pending true :: reads, r => r.parseOr (nextRead reads) reads

def nextFrame (r : FrameReader) (reads : List Read) : Returned := r.parseOr (nextRead reads) reads

/-- `poll_next_frame` where it polls the connection; each poll after a pending one begins anew. -/
def pollRead : List Read → FrameReader → Returned
  | [], r => r.closed
  | .data first rest :: reads, r => (r.append (first :: rest)).parseOr (pollRead reads) reads
  | .pending _ :: reads, r => r.parseOr (pollRead reads) reads

def pollNextFrame (r : FrameReader) (reads : List Read) : Returned :=
  r.parseOr (pollRead reads) reads

inductive Call
  | nextFrame
  | pollNextFrame
  deriving DecidableEq, Repr

def call (r : FrameReader) (reads : List Read) : Call → Returned
  | .nextFrame => r.nextFrame reads
  | .pollNextFrame => r.pollNextFrame reads

/-- The calls in turn, until one fails: the frames, the error, the reader and the reads left. -/
def run : List Call → FrameReader → List Read →
    List Frame × Option IoError × FrameReader × List Read
  | [], r, reads => ([], none, r, reads)
  | c :: calls, r, reads =>
    match r.call reads c with
    | ⟨.error e, r, reads⟩ => ([], some e, r, reads)
    | ⟨.ok frame, r, reads⟩ =>
      let (frames, rest) := run calls r reads
      (frame :: frames, rest)

end FrameReader

/-- Errors of one kind, and those of the framing with one text; an `io::Error` has no equality. -/
def IoError.Same (e e' : IoError) : Prop := e.kind = e'.kind ∧ (e.kind = .invalidData → e = e')

theorem IoError.Same.rfl {e : IoError} : e.Same e := ⟨Eq.refl _, fun _ => Eq.refl _⟩

theorem checkLen_cases (len : Nat) : (∃ e, checkLen len = .error e ∧ e.kind = .invalidData) ∨
    checkLen len = .ok () ∧ 5 ≤ len ∧ len ≤ maxFramePayload + 5 := by
  unfold checkLen
  split_ifs with hsmall hlarge
  · exact .inl ⟨_, rfl, rfl⟩
  · exact .inl ⟨_, rfl, rfl⟩
  · exact .inr ⟨rfl, Nat.le_of_not_lt hsmall, Nat.le_of_not_lt hlarge⟩

theorem bytes_ofBody {body : Bytes} (h : 5 ≤ body.length) :
    (Frame.ofBody body).bytes = be 4 body.length ++ body := by
  have hfour : (body.take 4).length = 4 := by rw [length_take]; omega
  have hreq : be 4 (Frame.ofBody body).reqId.toNat = body.take 4 := by
    have hlt := ofBe_lt (body.take 4)
    rw [hfour] at hlt
    have hof := be_ofBe (body.take 4)
    rw [hfour] at hof
    change be 4 (UInt32.ofNat _).toNat = _
    rw [UInt32.toNat_ofNat_of_lt' hlt, hof]
  have hkind : [body.getD 4 0] = (body.drop 4).take 1 := by
    rw [take_one, head?_drop, getD_eq_getElem?_getD,
      getElem?_eq_getElem (by omega)]
    rfl
  have hlen : 5 + (body.drop 5).length = body.length := by rw [length_drop]; omega
  unfold Frame.bytes
  rw [hreq]
  change be 4 (5 + (body.drop 5).length) ++ body.take 4 ++ [body.getD 4 0] ++ body.drop 5 = _
  rw [hlen, hkind, append_assoc, append_assoc]
  congr 1
  have hdrop : body.drop 5 = (body.drop 4).drop 1 := by rw [drop_drop]
  rw [hdrop, take_append_drop, take_append_drop]

theorem readFrame_short {stream : Bytes} (h : stream.length < 4) :
    readFrame stream = .error ⟨.unexpectedEof, "failed to fill whole buffer"⟩ := by
  unfold readFrame readExact
  rw [if_pos h]
  rfl

section

variable {stream : Bytes} {len : Nat}

theorem readFrame_long (h : 4 ≤ stream.length) (hlen : ofBe (stream.take 4) = len) :
    readFrame stream = (do
      checkLen len
      let (body, rest) ← readExact len (stream.drop 4)
      return (.ofBody body, rest)) := by
  have hfour : readExact 4 stream = .ok (stream.take 4, stream.drop 4) :=
    if_neg (Nat.not_lt.mpr h)
  unfold readFrame
  rw [hfour, ← hlen]
  rfl

theorem readFrame_refused (h : 4 ≤ stream.length) (hlen : ofBe (stream.take 4) = len)
    {e : IoError} (he : checkLen len = .error e) : readFrame stream = .error e := by
  rw [readFrame_long h hlen, he]
  rfl

theorem readFrame_waiting (h : 4 ≤ stream.length) (hlen : ofBe (stream.take 4) = len)
    (hok : checkLen len = .ok ()) (hlt : stream.length < 4 + len) :
    readFrame stream = .error ⟨.unexpectedEof, "failed to fill whole buffer"⟩ := by
  have hbody : readExact len (stream.drop 4) = .error _ :=
    if_pos (by rw [length_drop]; omega)
  rw [readFrame_long h hlen, hok, hbody]
  rfl

theorem readFrame_whole (h : 4 + len ≤ stream.length) (hlen : ofBe (stream.take 4) = len)
    (hok : checkLen len = .ok ()) :
    readFrame stream = .ok (.ofBody ((stream.drop 4).take len), stream.drop (4 + len)) := by
  have hbody : readExact len (stream.drop 4) = .ok _ :=
    if_neg (by rw [length_drop]; omega)
  rw [readFrame_long (by omega) hlen, hok, hbody, ← drop_drop]
  rfl

theorem bytes_of_readFrame {rest : Bytes} {frame : Frame}
    (h : readFrame stream = .ok (frame, rest)) : frame.bytes ++ rest = stream := by
  rcases Nat.lt_or_ge stream.length 4 with hshort | hlong
  · rw [readFrame_short hshort] at h
    cases h
  rcases checkLen_cases (ofBe (stream.take 4)) with ⟨e, he, -⟩ | ⟨hok, hfive, -⟩
  · rw [readFrame_refused hlong rfl he] at h
    cases h
  rcases Nat.lt_or_ge stream.length (4 + ofBe (stream.take 4)) with hwait | hwhole
  · rw [readFrame_waiting hlong rfl hok hwait] at h
    cases h
  rw [readFrame_whole hwhole rfl hok] at h
  cases h
  have hlen : ((stream.drop 4).take (ofBe (stream.take 4))).length = ofBe (stream.take 4) := by
    rw [length_take, length_drop]
    omega
  have hdigits : be 4 (ofBe (stream.take 4)) = stream.take 4 := by
    have hof := be_ofBe (stream.take 4)
    rwa [length_take_of_le hlong] at hof
  rw [bytes_ofBody (by rw [hlen]; exact hfive), hlen, hdigits, ← drop_drop,
    append_assoc, take_append_drop, take_append_drop]

end

namespace FrameReader

theorem unread_append (r : FrameReader) (chunk : Bytes) :
    (r.append chunk).unread = r.unread ++ chunk :=
  drop_append_of_le_length r.start_le

@[simp] theorem unread_compact (r : FrameReader) : r.compact.unread = r.unread := by
  unfold compact
  split_ifs <;> rfl

def Waiting (r : FrameReader) : Prop :=
  ∃ message, readFrame r.unread = .error ⟨.unexpectedEof, message⟩

theorem tryParse_cases (r : FrameReader) :
    (∃ e, r.tryParse = .error e ∧ ∀ more, readFrame (r.unread ++ more) = .error e) ∨
    (∃ frame r', r.tryParse = .ok (some frame, r') ∧
      ∀ more, readFrame (r.unread ++ more) = .ok (frame, r'.unread ++ more)) ∨
    (r.tryParse = .ok (none, r) ∧ r.Waiting) := by
  have havail : r.unread.length = r.buf.length - r.start := length_drop
  have hunread : r.buf.drop r.start = r.unread := rfl
  unfold tryParse
  by_cases hfour : r.buf.length - r.start < 4
  · exact .inr (.inr ⟨if_pos hfour, _, readFrame_short (havail.trans_lt hfour)⟩)
  have hhead : ∀ more, ofBe ((r.unread ++ more).take 4) = ofBe (r.unread.take 4) := fun more => by
    rw [take_append_of_le_length (by omega)]
  have hlong : ∀ more, 4 ≤ (r.unread ++ more).length := fun more => by
    rw [length_append]
    omega
  rcases hcheck : checkLen (ofBe (r.unread.take 4)) with e | _
  · refine .inl ⟨e, ?_, fun more => readFrame_refused (hlong more) (hhead more) hcheck⟩
    simp only [if_neg hfour, hunread, hcheck]
  by_cases hwhole : r.buf.length - r.start < 4 + ofBe (r.unread.take 4)
  · refine .inr (.inr ⟨?_, _, readFrame_waiting (by omega) rfl hcheck (havail.trans_lt hwhole)⟩)
    simp only [if_neg hfour, hunread, hcheck, dif_pos hwhole]
  have hread : ∀ more, readFrame (r.unread ++ more) = .ok
      (.ofBody ((r.unread.drop 4).take (ofBe (r.unread.take 4))),
        r.unread.drop (4 + ofBe (r.unread.take 4)) ++ more) := fun more => by
    rw [readFrame_whole (by rw [length_append]; omega) (hhead more) hcheck,
      drop_append_of_le_length (by omega), drop_append_of_le_length (by omega),
      take_append_of_le_length (by rw [length_drop]; omega)]
  have hbody : (r.buf.drop (r.start + 4)).take (ofBe (r.unread.take 4)) =
      (r.unread.drop 4).take (ofBe (r.unread.take 4)) := by
    rw [unread, drop_drop]
  simp only [if_neg hfour, hunread, hcheck, dif_neg hwhole, hbody]
  by_cases hdrained : r.start + (4 + ofBe (r.unread.take 4)) = r.buf.length
  · have hnil : r.unread.drop (4 + ofBe (r.unread.take 4)) = [] :=
      drop_eq_nil_of_le (by omega)
    exact .inr (.inl ⟨_, new, by rw [if_pos hdrained], fun more => by rw [hread, hnil]; rfl⟩)
  · have hrest : ∀ n, r.unread.drop n = r.buf.drop (r.start + n) := fun n => drop_drop
    refine .inr (.inl ⟨_, _, by rw [if_neg hdrained], fun more => ?_⟩)
    rw [hread, hrest (4 + _)]
    rfl

end FrameReader

/-- What a call returns is what the blocking reader makes of the stream, and no byte of the
stream is lost. -/
def Returned.Reads (stream : Bytes) (out : Returned) : Prop :=
  match readFrame stream with
  | .ok (frame, rest) => out.result = .ok frame ∧ out.reader.unread ++ streamOf out.left = rest
  | .error e => (∃ e', out.result = .error e' ∧ e'.Same e) ∧
      out.reader.unread ++ streamOf out.left = stream

namespace FrameReader

variable {r : FrameReader}

theorem parseOr_reads {reads : List Read} {more : FrameReader → Returned}
    (hmore : ∀ r' : FrameReader, r'.unread = r.unread → r'.Waiting →
      (more r').Reads (r.unread ++ streamOf reads)) :
    (r.parseOr more reads).Reads (r.unread ++ streamOf reads) := by
  unfold parseOr
  rcases r.tryParse_cases with ⟨e, he, hread⟩ | ⟨frame, r', hframe, hread⟩ | ⟨hnone, hwait⟩
  · rw [he, Returned.Reads, hread]
    exact ⟨⟨e, rfl, .rfl⟩, rfl⟩
  · rw [hframe, Returned.Reads, hread]
    exact ⟨rfl, rfl⟩
  · rw [hnone]
    refine hmore r.compact r.unread_compact ?_
    rwa [Waiting, unread_compact]

theorem closed_reads (h : r.Waiting) : r.closed.Reads r.unread := by
  obtain ⟨message, hread⟩ := h
  rw [Returned.Reads, hread]
  exact ⟨⟨_, rfl, rfl, nofun⟩, append_nil _⟩

theorem nextRead_reads (reads : List Read) : ∀ r : FrameReader, r.Waiting →
    (nextRead reads r).Reads (r.unread ++ streamOf reads) := by
  induction reads with
  | nil =>
    intro r hr
    rw [streamOf, flatMap_nil, append_nil]
    exact closed_reads hr
  | cons read reads ih =>
    intro r hr
    have hstream : streamOf (read :: reads) = read.bytes ++ streamOf reads := rfl
    rw [hstream, ← append_assoc]
    cases read with
    | data first rest =>
      rw [Read.bytes, ← unread_append]
      refine parseOr_reads fun r' hunread hr' => ?_
      rw [← hunread]
      exact ih r' hr'
    | pending dropped =>
      rw [Read.bytes, append_nil]
      cases dropped with
      | false => exact ih r hr
      | true =>
        refine parseOr_reads fun r' hunread hr' => ?_
        rw [← hunread]
        exact ih r' hr'

theorem pollRead_reads (reads : List Read) : ∀ r : FrameReader, r.Waiting →
    (pollRead reads r).Reads (r.unread ++ streamOf reads) := by
  induction reads with
  | nil =>
    intro r hr
    rw [streamOf, flatMap_nil, append_nil]
    exact closed_reads hr
  | cons read reads ih =>
    intro r hr
    have hagain : ∀ r : FrameReader,
        (r.parseOr (pollRead reads) reads).Reads (r.unread ++ streamOf reads) := fun r =>
      parseOr_reads fun r' hunread hr' => hunread ▸ ih r' hr'
    have hstream : streamOf (read :: reads) = read.bytes ++ streamOf reads := rfl
    rw [hstream, ← append_assoc]
    cases read with
    | data first rest =>
      rw [Read.bytes, ← unread_append]
      exact hagain _
    | pending dropped =>
      rw [Read.bytes, append_nil]
      exact hagain r

theorem call_reads (r : FrameReader) (reads : List Read) (c : Call) :
    (r.call reads c).Reads (r.unread ++ streamOf reads) := by
  cases c with
  | nextFrame => exact parseOr_reads fun r' hunread hr' => hunread ▸ nextRead_reads reads r' hr'
  | pollNextFrame =>
    exact parseOr_reads fun r' hunread hr' => hunread ▸ pollRead_reads reads r' hr'

theorem run_reads (calls : List Call) : ∀ (r : FrameReader) (reads : List Read),
    let (frames, error, r', left) := run calls r reads
    let expected := readFrames calls.length (r.unread ++ streamOf reads)
    frames = expected.1 ∧ Option.Rel IoError.Same error expected.2 ∧
      frames.flatMap Frame.bytes ++ r'.unread ++ streamOf left = r.unread ++ streamOf reads := by
  induction calls with
  | nil => exact fun r reads => ⟨rfl, .none, rfl⟩
  | cons c calls ih =>
    intro r reads
    have hcall := call_reads r reads c
    rw [length_cons, readFrames, run]
    rcases hout : r.call reads c with ⟨result, r', left⟩
    rw [hout] at hcall
    rcases hread : readFrame (r.unread ++ streamOf reads) with e | ⟨frame, rest⟩
    · rw [Returned.Reads, hread] at hcall
      obtain ⟨⟨e', rfl, hsame⟩, hbytes⟩ := hcall
      exact ⟨rfl, .some hsame, hbytes⟩
    · rw [Returned.Reads, hread] at hcall
      obtain ⟨rfl, rfl⟩ := hcall
      obtain ⟨hframes, herror, hbytes⟩ := ih r' left
      refine ⟨congrArg (frame :: ·) hframes, herror, ?_⟩
      rw [← bytes_of_readFrame hread, ← hbytes, flatMap_cons, append_assoc,
        append_assoc, append_assoc]

/-- A fresh reader makes the same frames of a stream as the blocking one, and the same error,
however the stream is cut into reads and whichever waits are given up; each byte is in a frame,
in the buffer or still to be read, in its order. -/
theorem run_eq_readFrames (calls : List Call) (reads : List Read) :
    let (frames, error, reader, left) := run calls new reads
    let expected := readFrames calls.length (streamOf reads)
    frames = expected.1 ∧ Option.Rel IoError.Same error expected.2 ∧
      frames.flatMap Frame.bytes ++ reader.unread ++ streamOf left = streamOf reads :=
  run_reads calls new reads

end FrameReader

end RhypeDb.Wire
