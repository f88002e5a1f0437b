import RhypeDb.Basic.ByteOrder
import RhypeDb.Basic.Fallible

/-! Readers of byte formats. A reader takes bytes from a cursor on; a slice that reaches past the
end stops the program, which is apart from an error the reader returns. `Reads` says what a reader
makes of given bytes with anything around them, `Safe` what holds of everything it returns, and
that it never stops the program. -/

namespace RhypeDb

open List

namespace Utf8

def encode (s : String) : Bytes :=
  s.toByteArray.data.toList.map fun b => ⟨b.toNat, b.toNat_lt⟩

def decode (bytes : Bytes) : Option String :=
  String.fromUTF8? ⟨(bytes.map fun b => UInt8.ofNat b.val).toArray⟩

theorem decode_encode (s : String) : decode (encode s) = some s := by
  have hbytes : ((encode s).map fun b => UInt8.ofNat b.val) = s.toByteArray.data.toList := by
    unfold encode
    rw [map_map]
    refine (map_congr_left fun b _ => ?_).trans (map_id _)
    exact UInt8.ofNat_toNat
  unfold decode
  rw [hbytes, Array.toArray_toList]
  exact dif_pos s.isValidUTF8

theorem encode_of_decode {bytes : Bytes} {s : String} (h : decode bytes = some s) :
    encode s = bytes := by
  unfold decode String.fromUTF8? at h
  split_ifs at h with hvalid
  cases h
  change List.map _ (bytes.map fun b => UInt8.ofNat b.val) = bytes
  rw [map_map]
  refine (map_congr_left fun b _ => ?_).trans (map_id _)
  exact Fin.ext (UInt8.toNat_ofNat_of_lt' b.isLt)

theorem encode_inj {s t : String} (h : encode s = encode t) : s = t := by
  have hs := decode_encode s
  rw [h, decode_encode] at hs
  exact (Option.some.inj hs).symm

end Utf8

namespace ByteReader

open ByteOrder

inductive Stop (ε : Type)
  | error (e : ε)
  | panic
  deriving DecidableEq, Repr

abbrev Reader (ε : Type) := ReaderT Bytes (StateT Nat (Except (Stop ε)))

variable {ε α β : Type}

def Reader.run (r : Reader ε α) (data : Bytes) (pos : Nat) : Except (Stop ε) (α × Nat) :=
  (ReaderT.run r data).run pos

theorem Reader.run_bind (r : Reader ε α) (k : α → Reader ε β) (data : Bytes) (pos : Nat) :
    (r >>= k).run data pos = r.run data pos >>= fun p => (k p.1).run data p.2 := rfl

/-- `return Err(e)`. -/
def fail (e : ε) : Reader ε α := fun _ _ => .error (.error e)

def panic : Reader ε α := fun _ _ => .error .panic

/-- `data[pos..pos + n]`, and `pos += n`. -/
def slice (n : Nat) : Reader ε Bytes := fun data pos =>
  if pos + n ≤ data.length then .ok ((data.drop pos).take n, pos + n) else .error .panic

/-- `pos += n`, wherever that is. -/
def advance (n : Nat) : Reader ε Unit := fun _ pos => .ok ((), pos + n)

/-- `if pos + n > data.len() { return Err(e) }`. -/
def need (n : Nat) (e : ε) : Reader ε Unit := fun data pos =>
  if pos + n ≤ data.length then .ok ((), pos) else .error (.error e)

def take (n : Nat) (e : ε) : Reader ε Bytes := do
  need n e
  slice n

def number (w : Nat) (e : ε) : Reader ε Nat := do return ofBe (← take w e)

/-- `if !cond { return Err(e) }`. -/
def ensure (cond : Prop) [Decidable cond] (e : ε) : Reader ε Unit :=
  if cond then pure () else fail e

/-- `if pos != data.len() { return Err(e) }`. -/
def atEnd (e : ε) : Reader ε Unit := fun data pos =>
  if pos = data.length then .ok ((), pos) else .error (.error e)

def Reader.decode (r : Reader ε α) (data : Bytes) : Except (Stop ε) α :=
  (r.run data 0).map Prod.fst

/-- `for _ in 0..count`, with what the body carries along. -/
def repeated (body : α → Reader ε α) : Nat → α → Reader ε α
  | 0, a => pure a
  | n + 1, a => do repeated body n (← body a)

/-- `for _ in 0..count { items.push(..) }`. -/
def items (item : Reader ε α) : Nat → Reader ε (List α)
  | 0 => pure []
  | n + 1 => do
    let a ← item
    return a :: (← items item n)

section

/-- Of these bytes, whatever is around them, the reader makes this value, and stops behind them. -/
def Reads (r : Reader ε α) (bytes : Bytes) (a : α) : Prop :=
  ∀ before after, r.run (before ++ bytes ++ after) before.length =
    .ok (a, before.length + bytes.length)

variable {r : Reader ε α} {k : α → Reader ε β} {bytes bytes' : Bytes} {a : α} {b : β}
  {enc : β → Bytes} {xs : List β} {cond : Prop}

theorem Reads.pure (a : α) : Reads (Pure.pure a : Reader ε α) [] a := fun _ _ => rfl

theorem Reads.bind (h : Reads r bytes a) (hk : Reads (k a) bytes' b) :
    Reads (r >>= k) (bytes ++ bytes') b := by
  intro before after
  have hr := h before (bytes' ++ after)
  have hb := hk (before ++ bytes) after
  have hassoc : before ++ (bytes ++ bytes') ++ after = before ++ bytes ++ (bytes' ++ after) := by
    simp only [append_assoc]
  rw [length_append, append_assoc] at hb
  rw [length_append, ← Nat.add_assoc, Reader.run_bind, hassoc, hr]
  exact hb

theorem Reads.map (h : Reads r bytes a) (f : α → β) :
    Reads (r >>= fun a => Pure.pure (f a)) bytes (f a) := by
  have hbind := h.bind (k := fun a => Pure.pure (f a)) (Reads.pure (f a))
  rwa [append_nil] at hbind

theorem reads_slice (bytes : Bytes) : Reads (slice bytes.length : Reader ε Bytes) bytes bytes := by
  intro before after
  have hle : before.length + bytes.length ≤ (before ++ bytes ++ after).length := by
    rw [length_append, length_append]
    exact Nat.le_add_right _ _
  refine (if_pos hle).trans ?_
  rw [append_assoc, drop_left, take_left]

theorem reads_advance (bytes : Bytes) : Reads (advance bytes.length : Reader ε Unit) bytes () :=
  fun _ _ => rfl

theorem Reads.need {k : Unit → Reader ε β} {n : Nat} {e : ε} (h : Reads (k ()) bytes b)
    (hn : n ≤ bytes.length) : Reads (ByteReader.need n e >>= k) bytes b := by
  intro before after
  have hle : before.length + n ≤ (before ++ bytes ++ after).length := by
    rw [length_append, length_append]
    omega
  have hneed : (ByteReader.need n e).run (before ++ bytes ++ after) before.length =
      .ok ((), before.length) := if_pos hle
  rw [Reader.run_bind, hneed]
  exact h before after

theorem ensure_bind {k : Unit → Reader ε β} [Decidable cond] (h : cond) (e : ε) :
    ensure cond e >>= k = k () := by
  unfold ensure
  rw [if_pos h, pure_bind]

theorem Reads.ensure {k : Unit → Reader ε β} [Decidable cond] {e : ε} (h : cond)
    (hk : Reads (k ()) bytes b) : Reads (ByteReader.ensure cond e >>= k) bytes b :=
  (ensure_bind h e).symm ▸ hk

theorem reads_take (bytes : Bytes) (e : ε) : Reads (take bytes.length e) bytes bytes :=
  (reads_slice bytes).need le_rfl

theorem reads_number {w n : Nat} (h : n < 256 ^ w) (e : ε) : Reads (number w e) (be w n) n := by
  have htake := reads_take (be w n) e
  rw [be_length] at htake
  have hmap := htake.map ofBe
  rwa [ofBe_be_of_lt h] at hmap

theorem reads_items {item : Reader ε α} {val : β → α} (h : ∀ x ∈ xs, Reads item (enc x) (val x)) :
    Reads (items item xs.length) (xs.flatMap enc) (xs.map val) := by
  induction xs with
  | nil => exact .pure []
  | cons x xs ih =>
    obtain ⟨hx, hxs⟩ := forall_mem_cons.mp h
    exact hx.bind ((ih hxs).map _)

theorem reads_repeated {body : α → Reader ε α} {next : α → β → α}
    (h : ∀ x ∈ xs, ∀ a, Reads (body a) (enc x) (next a x)) (a : α) :
    Reads (repeated body xs.length a) (xs.flatMap enc) (xs.foldl next a) := by
  induction xs generalizing a with
  | nil => exact .pure a
  | cons x xs ih =>
    obtain ⟨hx, hxs⟩ := forall_mem_cons.mp h
    exact (hx a).bind (ih hxs _)

end

section

/-- Of these bytes, whatever is around them, the reader makes this value; it may stop before
their end. -/
def Finds (r : Reader ε α) (bytes : Bytes) (a : α) : Prop :=
  ∀ before after, ∃ pos, r.run (before ++ bytes ++ after) before.length = .ok (a, pos)

variable {r : Reader ε α} {k : α → Reader ε β} {bytes bytes' : Bytes} {a : α} {b : β}

theorem Reads.finds (h : Reads r bytes a) : Finds r bytes a := fun before after =>
  ⟨_, h before after⟩

theorem Finds.append (h : Finds r bytes a) (more : Bytes) : Finds r (bytes ++ more) a := by
  intro before after
  obtain ⟨pos, hpos⟩ := h before (more ++ after)
  simp only [append_assoc] at hpos ⊢
  exact ⟨pos, hpos⟩

theorem Reads.finds_bind (h : Reads r bytes a) (hk : Finds (k a) bytes' b) :
    Finds (r >>= k) (bytes ++ bytes') b := by
  intro before after
  obtain ⟨pos, hpos⟩ := hk (before ++ bytes) after
  have hr := h before (bytes' ++ after)
  have hassoc : before ++ (bytes ++ bytes') ++ after = before ++ bytes ++ (bytes' ++ after) := by
    simp only [append_assoc]
  rw [length_append, append_assoc] at hpos
  refine ⟨pos, ?_⟩
  rw [Reader.run_bind, hassoc, hr]
  exact hpos

def ReadsLast (r : Reader ε α) (bytes : Bytes) (a : α) : Prop :=
  ∀ before, r.run (before ++ bytes) before.length = .ok (a, (before ++ bytes).length)

theorem readsLast_atEnd (e : ε) : ReadsLast (atEnd e) [] () := by
  intro before
  have hrun : (atEnd e).run before before.length = .ok ((), before.length) := if_pos rfl
  rw [append_nil]
  exact hrun

theorem Reads.last (h : Reads r bytes a) : ReadsLast r bytes a := by
  intro before
  have hrun := h before []
  rwa [append_nil, ← length_append] at hrun

theorem Reads.last_bind (h : Reads r bytes a) (hk : ReadsLast (k a) bytes' b) :
    ReadsLast (r >>= k) (bytes ++ bytes') b := by
  intro before
  have hr := h before bytes'
  have hb := hk (before ++ bytes)
  rw [length_append, append_assoc] at hb
  rw [Reader.run_bind, ← append_assoc, hr, append_assoc]
  exact hb

theorem ReadsLast.ensure {k : Unit → Reader ε β} {cond : Prop} [Decidable cond] {e : ε} (h : cond)
    (hk : ReadsLast (k ()) bytes b) : ReadsLast (ByteReader.ensure cond e >>= k) bytes b :=
  (ensure_bind h e).symm ▸ hk

theorem ReadsLast.bind_pure (h : ReadsLast r bs a) (f : α → β) :
    ReadsLast (r >>= fun a => Pure.pure (f a)) bs (f a) := by
  intro before
  rw [Reader.run_bind, h before]
  rfl

end

section

/-- No stop of the program; a value that satisfies `P`, and a place in the bytes. -/
def Ends (len : Nat) (P : α → Prop) : Except (Stop ε) (α × Nat) → Prop
  | .ok (a, pos) => P a ∧ pos ≤ len
  | .error (.error _) => True
  | .error .panic => False

/-- From any place in any bytes the program is not stopped, and what is returned satisfies `P`. -/
def Safe (r : Reader ε α) (P : α → Prop) : Prop :=
  ∀ data pos, pos ≤ data.length → Ends data.length P (r.run data pos)

variable {r : Reader ε α} {k : α → Reader ε β} {P : α → Prop} {Q : β → Prop}

theorem Safe.pure {a : α} (h : P a) : Safe (Pure.pure a : Reader ε α) P := fun _ _ hpos => ⟨h, hpos⟩

theorem Safe.fail (e : ε) : Safe (ByteReader.fail e : Reader ε α) P := fun _ _ _ => trivial

theorem Safe.bind (h : Safe r P) (hk : ∀ a, P a → Safe (k a) Q) : Safe (r >>= k) Q := by
  intro data pos hpos
  have hr := h data pos hpos
  rw [Reader.run_bind]
  generalize r.run data pos = out at hr ⊢
  rcases out with stop | ⟨a, pos'⟩
  · cases stop with
    | error e => trivial
    | panic => exact hr
  · exact hk a hr.1 data pos' hr.2

theorem Safe.mono (h : Safe r P) {P' : α → Prop} (hP : ∀ a, P a → P' a) : Safe r P' := by
  intro data pos hpos
  have hr := h data pos hpos
  generalize r.run data pos = out at hr ⊢
  rcases out with stop | ⟨a, pos'⟩
  · cases stop with
    | error e => trivial
    | panic => exact hr
  · exact ⟨hP a hr.1, hr.2⟩

theorem safe_take (n : Nat) (e : ε) : Safe (take n e) fun bytes => bytes.length = n := by
  intro data pos hpos
  unfold take
  rw [Reader.run_bind]
  by_cases hle : pos + n ≤ data.length
  · have hneed : (need n e).run data pos = .ok ((), pos) := if_pos hle
    have hslice : (slice n : Reader ε Bytes).run data pos =
        .ok ((data.drop pos).take n, pos + n) := if_pos hle
    rw [hneed, Fallible.ok_bind, hslice]
    refine ⟨?_, hle⟩
    change ((data.drop pos).take n).length = n
    rw [length_take, length_drop]
    omega
  · have hneed : (need n e).run data pos = .error (.error e) := if_neg hle
    rw [hneed]
    trivial

theorem safe_number (w : Nat) (e : ε) : Safe (number w e) fun n => n < 256 ^ w :=
  (safe_take w e).bind fun bytes hbytes => .pure (hbytes ▸ ofBe_lt bytes)

theorem safe_ensure (cond : Prop) [Decidable cond] (e : ε) :
    Safe (ensure cond e) fun _ => cond := by
  unfold ensure
  split_ifs with h
  · exact .pure h
  · exact .fail e

theorem safe_atEnd (e : ε) : Safe (atEnd e) fun _ => True := by
  intro data pos hpos
  change Ends _ _ (if pos = data.length then _ else _)
  split_ifs
  · exact ⟨trivial, hpos⟩
  · trivial

/-- Where `n` bytes more are there. -/
def Within (n : Nat) (r : Reader ε α) (P : α → Prop) : Prop :=
  ∀ data pos, pos + n ≤ data.length → Ends data.length P (r.run data pos)

theorem Safe.within (h : Safe r P) (n : Nat) : Within n r P := fun data pos hpos =>
  h data pos (Nat.le_of_add_right_le hpos)

theorem Safe.need {k : Unit → Reader ε β} {n : Nat} {e : ε} (h : Within n (k ()) Q) :
    Safe (ByteReader.need n e >>= k) Q := by
  intro data pos hpos
  rw [Reader.run_bind]
  by_cases hle : pos + n ≤ data.length
  · have hneed : (ByteReader.need n e).run data pos = .ok ((), pos) := if_pos hle
    rw [hneed]
    exact h data pos hle
  · have hneed : (ByteReader.need n e).run data pos = .error (.error e) := if_neg hle
    rw [hneed]
    trivial

theorem Within.slice {k : Bytes → Reader ε β} {m n : Nat}
    (h : ∀ bytes : Bytes, bytes.length = m → Within n (k bytes) Q) :
    Within (m + n) (ByteReader.slice m >>= k) Q := by
  intro data pos hpos
  have hle : pos + m ≤ data.length := by omega
  have hslice : (ByteReader.slice m : Reader ε Bytes).run data pos =
      .ok ((data.drop pos).take m, pos + m) := if_pos hle
  rw [Reader.run_bind, hslice]
  refine h _ ?_ data (pos + m) (by omega)
  rw [length_take, length_drop]
  omega

theorem safe_items {item : Reader ε α} (h : Safe item P) (n : Nat) :
    Safe (items item n) fun as => as.length = n ∧ ∀ a ∈ as, P a := by
  induction n with
  | zero => exact .pure ⟨rfl, forall_mem_nil _⟩
  | succ n ih =>
    refine h.bind fun a ha => ih.bind fun as has => .pure ⟨?_, ?_⟩
    · rw [length_cons, has.1]
    · exact forall_mem_cons.mpr ⟨ha, has.2⟩

theorem safe_repeated {body : α → Reader ε α} {Inv : Nat → α → Prop}
    (h : ∀ i a, Inv i a → Safe (body a) (Inv (i + 1))) (n : Nat) {i : Nat} {a : α}
    (ha : Inv i a) : Safe (repeated body n a) (Inv (i + n)) := by
  induction n generalizing i a with
  | zero => exact .pure ha
  | succ n ih =>
    refine (h i a ha).bind fun a' ha' => ?_
    have hrest := ih ha'
    rwa [Nat.add_right_comm i 1 n] at hrest

theorem Safe.decode_ne_panic (h : Safe r P) (data : Bytes) : r.decode data ≠ .error .panic := by
  intro hpanic
  have hends := h data 0 (Nat.zero_le _)
  unfold Reader.decode at hpanic
  generalize r.run data 0 = out at hends hpanic
  rcases out with stop | ⟨a, pos⟩
  · cases stop with
    | error e => cases hpanic
    | panic => exact hends
  · cases hpanic

end

section

variable {r : Reader ε α} {bytes : Bytes} {a : α}

theorem ReadsLast.decode (h : ReadsLast r bytes a) : r.decode bytes = .ok a :=
  congrArg (Except.map Prod.fst) (h [])

theorem Reads.decode (h : Reads r bytes a) : r.decode bytes = .ok a := h.last.decode

theorem decode_iff {Same : α → Prop} {fits : Prop}
    (hreads : fits → ∃ a, r.decode bytes = .ok a ∧ Same a) (hsafe : Safe r fun a => Same a → fits) :
    (∃ a, r.decode bytes = .ok a ∧ Same a) ↔ fits := by
  refine ⟨?_, hreads⟩
  rintro ⟨a, hdecode, hsame⟩
  have hends := hsafe bytes 0 (Nat.zero_le _)
  unfold Reader.decode at hdecode
  generalize r.run bytes 0 = out at hends hdecode
  rcases out with stop | ⟨a', pos⟩
  · cases hdecode
  · cases hdecode
    exact hends.1 hsame

end

end ByteReader

end RhypeDb
