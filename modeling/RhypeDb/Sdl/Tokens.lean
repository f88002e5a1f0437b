import RhypeDb.Sdl.Parser

/-! What the scanners of the schema's tokens return, and which texts they read. Each skips the
whitespace and the comments in front of its token, so that its text may start anywhere that
`skipWhitespace` brings it to. -/

namespace RhypeDb.Sdl

open List Nat Scan

variable {chars : CharTable}

theorem yields_skipLineTurn :
    Yields skipLineTurn fun turn n => turn.Meets (fun _ => 0 < n ∧ True) fun _ => True := by
  refine Yields.advance.bind fun next n hn => ?_
  cases next with
  | none => exact .pure trivial
  | some c =>
    refine .pure ?_
    split_ifs
    · trivial
    · exact ⟨hn rfl, trivial⟩

theorem yields_skipLine : Yields skipLine fun _ _ => True :=
  Yields.loop (I := fun _ => True) (fun _ _ => yields_skipLineTurn) trivial

theorem wp_skipLine {s : Parser} {c : Char} {cs : List Char} (hs : rest s = c :: cs)
    (hc : c ≠ '\n') :
    Wp True skipLine (fun _ s' => ∃ n, (rest s).length = (rest s').length + n ∧ 0 < n) s := by
  rw [skipLine, loop_eq (.of_yields fun _ _ => yields_skipLineTurn) trivial, skipLineTurn, wp_bind, wp_bind,
    wp_advance_cons hs]
  change Wp True (pure (if c = '\n' then Turn.done () else Turn.again ())) _ _
  rw [if_neg hc]
  change Wp True skipLine _ _
  refine (yields_skipLine _).mono fun _ s' ⟨n, hn, _⟩ => ⟨n + 1, ?_, succ_pos n⟩
  rw [Cursor.rest_step] at hn
  rw [hs, length_cons, hn, add_assoc]

theorem wp_skipWhitespaceTurn (s : Parser) : Wp True skipWhitespaceTurn (fun turn s' =>
    ∃ n, (rest s).length = (rest s').length + n ∧
      turn.Meets (fun _ => 0 < n ∧ True) fun _ => ∀ c ∈ (rest s').head?, isWhitespace c = false)
    s := by
  unfold skipWhitespaceTurn
  rw [wp_bind, wp_peek]
  cases hs : rest s with
  | nil =>
    refine ⟨0, by rw [hs]; rfl, ?_⟩
    rw [hs]
    exact nofun
  | cons c cs =>
    have hstop : isWhitespace c = false → ∀ d ∈ (rest s).head?, isWhitespace d = false := by
      rintro hc d hd
      rw [hs] at hd
      cases hd
      exact hc
    have hlen : (c :: cs).length = (rest s).length := by rw [hs]
    change Wp True (if isWhitespace c then _ else _) _ s
    split_ifs with hspace hslash
    · rw [wp_bind, wp_advance_cons hs]
      exact ⟨1, by rw [Cursor.rest_step]; rfl, one_pos, trivial⟩
    · rw [wp_bind, wp_lookingAt]
      split_ifs with hcomment
      · rw [wp_bind]
        refine (wp_skipLine hs (by rw [hslash]; decide)).mono fun _ s' ⟨n, hn, hpos⟩ => ?_
        exact ⟨n, hlen.trans hn, hpos, trivial⟩
      · exact ⟨0, hlen, hstop (Bool.eq_false_iff.mpr hspace)⟩
    · exact ⟨0, hlen, hstop (Bool.eq_false_iff.mpr hspace)⟩

theorem progress_skipWhitespace : Progress (fun _ => True) fun _ : Unit => skipWhitespaceTurn :=
  fun _ _ s => (wp_skipWhitespaceTurn s).mono fun _ _ ⟨n, hn, hturn⟩ =>
    ⟨n, hn, hturn.mono (fun _ h => h) fun _ _ => trivial⟩

theorem wp_skipWhitespace (s : Parser) : Wp True skipWhitespace (fun _ s' =>
    ∃ n, (rest s).length = (rest s').length + n ∧
      ∀ c ∈ (rest s').head?, isWhitespace c = false) s :=
  wp_loop (I := fun _ => True) (fun _ _ s => wp_skipWhitespaceTurn s) trivial s

theorem yields_skipWhitespace : Yields skipWhitespace fun _ _ => True :=
  fun s => (wp_skipWhitespace s).mono fun _ _ ⟨n, hn, _⟩ => ⟨n, hn, trivial⟩

section

variable {Q : Unit → Nat → Prop} {expected : Char}

theorem yields_error {α : Type} {Q : α → Nat → Prop} {message : String} :
    Yields (error message : Parse α) Q := .fail

theorem yields_expect : Yields (expect expected) fun _ n => 0 < n := by
  refine yields_skipWhitespace.bind fun _ m _ => Yields.advance.bind fun next n hn => ?_
  cases next with
  | none => exact yields_error
  | some ch =>
    change Yields (if ch = expected then pure () else error _) _
    split_ifs
    · exact .pure (Nat.add_pos_right m (hn rfl))
    · exact yields_error

theorem yields_expectIf {needed : Bool} : Yields (expectIf needed expected) fun _ _ => True := by
  unfold expectIf
  split_ifs
  · exact yields_expect.mono fun _ _ _ => trivial
  · exact .pure trivial

/-- What `parse_ident` returns: it starts with no whitespace, which was passed before. -/
structure IsIdent (chars : CharTable) (name : String) : Prop where
  ne_nil : name.toList ≠ []
  chars_ident : ∀ c ∈ name.toList, isIdentChar chars c = true
  head_space : ∀ c ∈ name.toList.head?, isWhitespace c = false

theorem yields_parseIdent : Yields (parseIdent chars) fun name n => 0 < n ∧ IsIdent chars name := by
  intro s
  unfold parseIdent
  rw [wp_bind]
  refine (wp_skipWhitespace s).mono fun _ s' ⟨m, hm, hhead⟩ => ?_
  rw [wp_bind, wp_takeWhile]
  split_ifs with hnil
  · trivial
  · have hsplit := takeWhile_append_dropWhile (p := isIdentChar chars) (l := rest s')
    refine ⟨m + ((rest s').takeWhile (isIdentChar chars)).length, ?_, ?_, ?_, ?_, ?_⟩
    · rw [rest_passWhile, hm, add_comm m, ← add_assoc, add_right_cancel_iff,
        add_comm, ← length_append, hsplit]
    · exact Nat.add_pos_right m (length_pos_iff.mpr hnil)
    · rwa [String.toList_ofList]
    · rw [String.toList_ofList]
      exact fun c hc => mem_takeWhile_imp hc
    · rw [String.toList_ofList]
      intro c hc
      refine hhead c ?_
      rw [← hsplit, head?_append, hc]
      rfl

theorem yields_parseU32 : Yields parseU32 fun _ _ => True := by
  refine yields_skipWhitespace.bind fun _ m _ => Yields.takeWhile.bind fun digits n _ => ?_
  dsimp only
  split_ifs
  · exact yields_error
  · exact .pure trivial
  · exact yields_error

theorem yields_parseStringValue : Yields parseStringValue fun s _ => '"' ∉ s.toList := by
  refine yields_skipWhitespace.bind fun _ _ _ => yields_expect.bind fun _ _ _ =>
    Yields.takeWhile.bind fun cs _ hcs => Yields.advance.bind fun next _ _ => ?_
  cases next with
  | none => exact yields_error
  | some ch =>
    refine .pure fun hmem => ?_
    rw [String.toList_ofList] at hmem
    exact absurd (hcs.2 _ hmem) (by decide)

theorem yields_parseBoolValue : Yields (parseBoolValue chars) fun _ _ => True := by
  refine yields_skipWhitespace.bind fun _ _ _ => Yields.peek.bind fun next _ _ => ?_
  split_ifs
  · refine yields_parseIdent.bind fun word _ _ => ?_
    split
    · exact .pure trivial
    · exact .pure trivial
    · exact yields_error
  · exact yields_error

end

section

/-- `skipWhitespace` goes from the text `i` to the text `r`. -/
def Skips (i r : List Char) : Prop := Reads skipWhitespace i () r

variable {i : List Char}

theorem skips_self (h : ∀ c ∈ i.head?, isWhitespace c = false ∧ c ≠ '/') : Skips i i := by
  apply Reads.loop_done
  refine Reads.peek.bind ?_
  cases i with
  | nil => exact .pure
  | cons c i =>
    obtain ⟨hspace, hslash⟩ := h c rfl
    change Reads (if isWhitespace c = true then _ else _) _ _ _
    rw [if_neg (by rw [hspace]; exact Bool.false_ne_true), if_neg hslash]
    exact .pure

variable {c : Char} {r : List Char}

theorem Skips.space (hc : isWhitespace c = true) (h : Skips i r) : Skips (c :: i) r := by
  apply Reads.loop_again progress_skipWhitespace trivial _ h
  refine Reads.peek.bind ?_
  change Reads (if isWhitespace c = true then _ else _) _ _ _
  rw [if_pos hc]
  exact Reads.advance.bind .pure

structure IsMark (c : Char) : Prop where
  ascii : c.toNat < 128
  not_alphanum : c.isAlphanum = false
  ne_underscore : c ≠ '_'
  not_space : isWhitespace c = false
  ne_slash : c ≠ '/'

instance (c : Char) : Decidable (IsMark c) :=
  decidable_of_iff (c.toNat < 128 ∧ c.isAlphanum = false ∧ c ≠ '_' ∧ isWhitespace c = false ∧
      c ≠ '/')
    ⟨fun ⟨h₁, h₂, h₃, h₄, h₅⟩ => ⟨h₁, h₂, h₃, h₄, h₅⟩, fun ⟨h₁, h₂, h₃, h₄, h₅⟩ =>
      ⟨h₁, h₂, h₃, h₄, h₅⟩⟩

theorem isIdentChar_ascii (hc : c.toNat < 128) :
    isIdentChar chars c = (c.isAlphanum || c == '_') := by
  rw [isIdentChar, chars.alphanumeric_ascii hc]

theorem IsMark.not_ident (h : IsMark c) : isIdentChar chars c = false := by
  rw [isIdentChar_ascii h.ascii, h.not_alphanum, Bool.false_or]
  exact beq_false_of_ne h.ne_underscore

theorem IsMark.not_digit (h : IsMark c) : c.isDigit = false := by
  have := h.not_alphanum
  rw [Char.isAlphanum, Bool.or_eq_false_iff] at this
  exact this.2

theorem IsMark.skips (h : IsMark c) : Skips (c :: r) (c :: r) := by
  apply skips_self
  rintro d ⟨⟩
  exact ⟨h.not_space, h.ne_slash⟩

theorem reads_expect (h : Skips i (c :: r)) : Reads (expect c) i () r := by
  refine h.bind (Reads.advance.bind ?_)
  change Reads (if c = c then _ else _) _ _ _
  rw [if_pos rfl]
  exact .pure

theorem reads_mark (h : IsMark c) :
    Reads (expect c) (c :: r) () r := reads_expect h.skips

namespace IsIdent

variable {name : String} (hname : IsIdent chars name)

include hname

theorem head : ∃ c cs, name.toList ++ r = c :: cs ∧ isIdentChar chars c = true ∧
    isWhitespace c = false := by
  cases h : name.toList with
  | nil => exact absurd h hname.ne_nil
  | cons c cs =>
    have hc : c ∈ name.toList := by rw [h]; exact mem_cons_self
    exact ⟨c, cs ++ r, rfl, hname.chars_ident c hc, hname.head_space c (by rw [h]; rfl)⟩

theorem head_ne {d : Char} (hd : d.toNat < 128) (hnot : d.isAlphanum = false) (hne : d ≠ '_') :
    ∀ c ∈ (name.toList ++ r).head?, c ≠ d := by
  obtain ⟨c, cs, heq, hc, -⟩ := hname.head (r := r)
  rw [heq]
  rintro _ ⟨⟩ rfl
  rw [isIdentChar_ascii hd, hnot, Bool.false_or] at hc
  exact hne (eq_of_beq hc)

theorem skips : Skips (name.toList ++ r) (name.toList ++ r) := by
  apply skips_self
  intro c hc
  refine ⟨?_, hname.head_ne (by decide) (by decide) (by decide) c hc⟩
  obtain ⟨d, cs, heq, -, hd⟩ := hname.head (r := r)
  rw [heq] at hc
  cases hc
  exact hd

theorem reads (h : Skips i (name.toList ++ r))
    (hr : ∀ c ∈ r.head?, isIdentChar chars c = false) : Reads (parseIdent chars) i name r := by
  refine h.bind ((Reads.takeWhile hname.chars_ident hr).bind ?_)
  rw [if_neg hname.ne_nil, String.ofList_toList]
  exact .pure

theorem reads_before {c : Char} (h : Skips i (name.toList ++ c :: r))
    (hc : IsMark c) : Reads (parseIdent chars) i name (c :: r) := by
  apply hname.reads h
  rintro _ ⟨⟩
  exact hc.not_ident

end IsIdent

end

section

variable {i r : List Char}

def IsWord (name : String) : Prop :=
  name.toList ≠ [] ∧ ∀ c ∈ name.toList,
    c.toNat < 128 ∧ (c.isAlphanum || c == '_') = true ∧ isWhitespace c = false

instance (name : String) : Decidable (IsWord name) :=
  @instDecidableAnd _ _ _ (List.decidableBAll _ _)

theorem isWord_ofList {cs : List Char} (h : (!cs.isEmpty && cs.all fun c =>
    decide (c.toNat < 128) && (c.isAlphanum || c == '_') && !isWhitespace c) = true) :
    IsWord (String.ofList cs) := by
  rw [Bool.and_eq_true, Bool.not_eq_true', List.isEmpty_eq_false_iff] at h
  rw [IsWord, String.toList_ofList]
  refine ⟨h.1, fun c hc => ?_⟩
  have hchar := List.all_eq_true.mp h.2 c hc
  simpa only [Bool.and_eq_true, decide_eq_true_eq, Bool.not_eq_true', and_assoc] using hchar

variable {name : String}

theorem IsWord.isIdent (h : IsWord name) : IsIdent chars name where
  ne_nil := h.1
  chars_ident c hc := by
    rw [isIdentChar_ascii (h.2 c hc).1]
    exact (h.2 c hc).2.1
  head_space c hc := (h.2 c (mem_of_head? hc)).2.2

theorem isWord_toString (n : Nat) : IsWord (toString n) := by
  have htext : (toString n).toList = Nat.toDigits 10 n := toList_repr
  rw [IsWord, htext]
  refine ⟨toDigits_ne_nil, fun c hc => ?_⟩
  have hdigit := isDigit_of_mem_toDigits (by decide) (by decide) hc
  have halphanum : c.isAlphanum = true := by rw [Char.isAlphanum, hdigit, Bool.or_true]
  refine ⟨?_, ?_, not_isWhitespace_alphanum halphanum⟩
  · simp only [Char.isDigit, Bool.and_eq_true, decide_eq_true_eq] at hdigit
    have hhigh : c.toNat ≤ 57 := hdigit.2
    omega
  · rw [halphanum, Bool.true_or]

theorem IsWord.skips (h : IsWord name) : Skips (name.toList ++ r) (name.toList ++ r) :=
  (h.isIdent : IsIdent .ascii name).skips

theorem IsWord.reads (h : IsWord name) {c : Char} (hi : Skips i (name.toList ++ c :: r))
    (hc : IsMark c) : Reads (parseIdent chars) i name (c :: r) :=
  h.isIdent.reads_before hi hc

def Broken (chars : CharTable) (r : List Char) : Prop :=
  ∀ c ∈ r.head?, isIdentChar chars c = false

theorem broken_cons {c : Char} (hc : c.toNat < 128) (h : (c.isAlphanum || c == '_') = false) :
    Broken chars (c :: r) := by
  rintro _ ⟨⟩
  rw [isIdentChar_ascii hc, h]

theorem Skips.blank {i r : List Char} (h : Skips i r) : Skips (' ' :: i) r :=
  .space (by decide) h

end

end RhypeDb.Sdl
