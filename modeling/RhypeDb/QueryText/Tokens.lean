import RhypeDb.QueryText.Print

/-! The scanners of a query's tokens read what is printed for them. A name and a number are read up
to the token that follows, which starts with a sign of the grammar. -/

namespace RhypeDb.QueryText

open List Nat Option Scan Storage
open Sdl (IsIdent IsMark IsWord isIdentChar)

variable {chars : CharTable} {readers : Readers} {ts : List Tok} {name : String} {s : String}
  {r : List Char} {c : Char}

section

def EndsWord (ts : List Tok) : Prop := ∀ t ∈ ts.head?, ∃ c cs, t.text = c :: cs ∧ IsMark c

def EndsNumber (ts : List Tok) : Prop :=
  ∀ t ∈ ts.head?, ∃ c cs, t.text = c :: cs ∧ IsMark c ∧ c ≠ '.'

theorem free_mark (hc : IsMark c) : (Tok.mark c).Free :=
  ⟨rfl, cons_ne_nil _ _, .cons hc.not_space⟩

theorem free_ident (h : IsIdent chars name) : (Tok.loose name).Free :=
  ⟨rfl, h.ne_nil, h.head_space⟩

theorem free_word (h : IsWord name) : (Tok.loose name).Free :=
  free_ident (h.isIdent : IsIdent .ascii name)

theorem ready_cons {t : Tok} (h : t.Free) : Ready (t :: ts) := by
  rintro _ ⟨⟩
  exact h

theorem endsWord_mark (hc : IsMark c) : EndsWord (.mark c :: ts) := by
  rintro _ ⟨⟩
  exact ⟨c, [], rfl, hc⟩

theorem endsNumber_mark (hc : IsMark c) (hne : c ≠ '.') : EndsNumber (.mark c :: ts) := by
  rintro _ ⟨⟩
  exact ⟨c, [], rfl, hc, hne⟩

theorem whitespace_not_ident (hc : isWhitespace c = true) : isIdentChar chars c = false := by
  rw [isIdentChar, CharTable.isAlphanumeric, (chars.whitespace c hc).1, (chars.whitespace c hc).2,
    Bool.or_false, Bool.false_or, beq_eq_false_iff_ne]
  rintro rfl
  exact absurd hc (by decide)

theorem Written.next (h : Written ts r) {P : Char → Prop}
    (hspace : ∀ c, isWhitespace c = true → P c)
    (hts : ∀ t ∈ ts.head?, ∃ c cs, t.text = c :: cs ∧ P c) : ∀ c ∈ r.head?, P c := by
  cases ts with
  | nil => exact fun c hc => hspace c (h c (mem_of_head? hc))
  | cons t ts =>
    obtain ⟨ws, r, rfl, hws, -, -⟩ := h
    obtain ⟨c, cs, htext, hc⟩ := hts t rfl
    cases ws with
    | nil =>
      rw [htext]
      rintro _ ⟨⟩
      exact hc
    | cons w ws =>
      rintro _ ⟨⟩
      exact hspace w (hws w mem_cons_self)

theorem EndsWord.broken (h : EndsWord ts) (hr : Written ts r) : Sdl.Broken chars r :=
  Written.next hr (fun _ hc => whitespace_not_ident hc) fun t ht =>
    let ⟨c, cs, htext, hc⟩ := h t ht
    ⟨c, cs, htext, hc.not_ident⟩

end

theorem reads_expectChar (hc : IsMark c) : Reads (expectChar c) (c :: r) () r := by
  have hdrop : (c :: r).dropWhile isWhitespace = c :: r :=
    dropWhile_cons_of_neg (by rw [hc.not_space]; exact Bool.false_ne_true)
  have hskip : Reads (skipWs : Parse Unit) (c :: r) () ((c :: r).dropWhile isWhitespace) :=
    reads_skipBlank
  rw [hdrop] at hskip
  refine hskip.bind (Reads.advance.bind ?_)
  change Reads (if c = c then _ else _) _ _ _
  rw [if_pos rfl]
  exact .pure

theorem parses_expectChar (hc : IsMark c) : Parses (expectChar c) [.mark c] () fun _ => True := by
  refine ParsesAt.skip (fun ts i _ hflush hi => ?_) fun ts _ => ready_cons (free_mark hc)
  obtain ⟨r, rfl, hr⟩ := hi.flush hflush
  refine ⟨r, hr, le_rfl, Reads.advance.bind ?_⟩
  change Reads (if c = c then _ else _) _ _ _
  rw [if_pos rfl]
  exact .pure

theorem parses_expectStr (hs : (Tok.loose s).Free) :
    Parses (expectStr s) [.loose s] () fun _ => True :=
  ParsesAt.skip (ParsesAt.accept (t := .loose s) hs .pure) fun _ _ => ready_cons hs

theorem reads_parseIdent (h : IsIdent chars name) (ws : List Char)
    (hws : ∀ c ∈ ws, isWhitespace c = true) (hr : Sdl.Broken chars r) :
    Reads (parseIdent chars) (ws ++ (name.toList ++ r)) name r := by
  have hskip : Reads (skipWs : Parse Unit) (ws ++ (name.toList ++ r)) ()
      ((ws ++ (name.toList ++ r)).dropWhile isWhitespace) := reads_skipBlank
  rw [dropWhile_of_flush hws (Flush.append h.head_space h.ne_nil)] at hskip
  refine hskip.bind ((Reads.takeWhile h.chars_ident hr).bind ?_)
  rw [if_neg h.ne_nil, String.ofList_toList]
  exact .pure

theorem parses_parseIdent (h : IsIdent chars name) :
    Parses (parseIdent chars) [.loose name] name EndsWord := by
  rintro ts i hts ⟨ws, r, rfl, hws, -, hr⟩
  have hpos := List.length_pos_iff.mpr h.ne_nil
  refine ⟨r, hr, ?_, reads_parseIdent h ws hws (hts.broken hr)⟩
  change r.length + 1 ≤ (ws ++ (name.toList ++ r)).length
  rw [length_append, length_append]
  omega

theorem readInt_natAbs {i : Int64} :
    readInt (decide (i.toInt < 0)) (Nat.toDigits 10 i.toInt.natAbs) = some i := by
  have hlow : -2 ^ 63 ≤ i.toInt := i.le_toInt
  have hhigh : i.toInt < 2 ^ 63 := i.toInt_lt
  have hvalue : (if decide (i.toInt < 0) = true then -(i.toInt.natAbs : Int) else
      (i.toInt.natAbs : Int)) = i.toInt := by
    split_ifs with hneg
    · rw [decide_eq_true_eq] at hneg
      omega
    · rw [decide_eq_true_eq] at hneg
      omega
  unfold readInt
  rw [ofDigitChars_ten_toDigits]
  dsimp only
  rw [hvalue, if_pos ⟨toDigits_ne_nil, hlow, hhigh⟩, Int64.ofInt_toInt]

theorem toList_toString (i : Int) : (toString i).toList =
    (if i < 0 then ['-'] else []) ++ Nat.toDigits 10 i.natAbs := by
  cases i with
  | ofNat n =>
    exact toList_repr
  | negSucc n =>
    rw [if_pos (Int.negSucc_lt_zero n)]
    change ("-" ++ Nat.repr (n + 1)).toList = _
    rw [String.toList_append, toList_repr]
    rfl

theorem digits_of_natAbs (i : Int) : ∀ c ∈ Nat.toDigits 10 i.natAbs, c.isDigit = true :=
  fun _ hc => isDigit_of_mem_toDigits (by decide) (by decide) hc

theorem reads_sign {i : Int} :
    Reads (accept ['-'] : Parse Bool) ((toString i).toList ++ r) (decide (i < 0))
      (Nat.toDigits 10 i.natAbs ++ r) := by
  rw [toList_toString, append_assoc]
  by_cases hneg : i < 0
  · rw [if_pos hneg, decide_eq_true hneg]
    exact .accept
  · rw [if_neg hneg, decide_eq_false hneg]
    refine Reads.accept_not (not_prefix_of_head fun hhead => ?_)
    obtain ⟨c, cs, hdigits⟩ := exists_cons_of_ne_nil
      (toDigits_ne_nil : Nat.toDigits 10 i.natAbs ≠ [])
    have hc := digits_of_natAbs i c (by rw [hdigits]; exact mem_cons_self)
    rw [hdigits] at hhead
    cases hhead
    exact absurd hc (by decide)

theorem free_toString (i : Int) : (Tok.loose (toString i)).Free := by
  refine ⟨rfl, ?_, ?_⟩
  · change (toString i).toList ≠ []
    rw [toList_toString]
    exact append_ne_nil_of_right_ne_nil _ toDigits_ne_nil
  · change Flush (toString i).toList
    rw [toList_toString]
    split_ifs
    · exact .cons (by decide)
    · intro c hc
      have hdigit := digits_of_natAbs i c (mem_of_head? hc)
      exact not_isWhitespace_alphanum (by rw [Char.isAlphanum, hdigit, Bool.or_true])

theorem EndsNumber.next (h : EndsNumber ts) (hr : Written ts r) :
    ∀ c ∈ r.head?, c.isDigit = false ∧ c ≠ '.' ∧ c ≠ 'e' ∧ c ≠ 'E' := by
  refine Written.next hr (fun c hc => ?_) fun t ht => ?_
  · refine ⟨?_, ?_, ?_, ?_⟩
    · rw [Bool.eq_false_iff]
      intro hdigit
      rw [not_isWhitespace_alphanum (by rw [Char.isAlphanum, hdigit, Bool.or_true])] at hc
      cases hc
    all_goals
      rintro rfl
      exact absurd hc (by decide)
  · obtain ⟨c, cs, htext, hc, hpoint⟩ := h t ht
    refine ⟨c, cs, htext, hc.not_digit, hpoint, ?_, ?_⟩
    all_goals
      rintro rfl
      exact absurd hc.not_alphanum (by decide)

theorem length_toString_pos (i : Int) : 0 < (toString i).toList.length :=
  List.length_pos_iff.mpr (free_toString i).2.1

theorem parses_parseInt (i : Int64) : Parses parseInt [.loose (toString i.toInt)] i EndsNumber := by
  refine ParsesAt.skip (fun ts t hts hflush hi => ?_) fun ts _ => ready_cons (free_toString _)
  obtain ⟨r, rfl, hr⟩ := hi.flush hflush
  have hpos := length_toString_pos i.toInt
  refine ⟨r, hr, ?_, reads_sign.bind ((Reads.takeWhile (digits_of_natAbs _)
    fun c hc => (hts.next hr c hc).1).bind ?_)⟩
  · change r.length + 1 ≤ ((toString i.toInt).toList ++ r).length
    rw [length_append]
    omega
  · rw [if_neg toDigits_ne_nil, readInt_natAbs]
    exact .pure

theorem toInt_ofNat {n : Nat} (h : n < 2 ^ 63) : (Int64.ofNat n).toInt = n :=
  Int64.toInt_ofNat_of_lt h

theorem parses_parseCount {n : Nat} (h : n < 2 ^ 63) :
    Parses parseCount [numberTok n] n EndsNumber := by
  have hint := parses_parseInt (Int64.ofNat n)
  rw [toInt_ofNat h] at hint
  refine hint.token ?_ fun ts hts => hts
  have hnonneg : ¬ Int64.ofNat n < 0 := by
    rw [Int64.lt_iff_toInt_lt, toInt_ofNat h]
    simp
  rw [if_neg hnonneg, toInt_ofNat h]
  exact .pure

theorem parses_parseId {id : UInt64} (h : id.toNat < 2 ^ 63) :
    Parses parseId [numberTok id.toNat] id EndsNumber := by
  have hint := parses_parseInt (Int64.ofNat id.toNat)
  rw [toInt_ofNat h] at hint
  refine hint.token ?_ fun ts hts => hts
  have hcast : (Int64.ofNat id.toNat).toUInt64 = id := UInt64.ofNat_toNat
  rw [hcast]
  exact .pure

theorem reads_plainChar {acc : List Char} (hquote : c ≠ '"') (hescape : c ≠ '\\') :
    Reads (parseStringChar acc) (c :: r) (.again (acc ++ [c])) r := by
  refine Reads.advance.bind ?_
  split
  · contradiction
  · next h => exact absurd (some_inj.mp h) hquote
  · next h => exact absurd (some_inj.mp h) hescape
  · next h =>
    cases h
    exact .pure

theorem reads_stringChars (cs acc r : List Char) :
    Reads (loop parseStringChar acc) (cs.flatMap escapeChar ++ '"' :: r)
      (String.ofList (acc ++ cs)) r := by
  induction cs generalizing acc with
  | nil =>
    rw [append_nil]
    exact .loop_done (Reads.advance.bind .pure)
  | cons c cs ih =>
    have hrest := ih (acc ++ [c])
    rw [append_assoc] at hrest
    rw [flatMap_cons, append_assoc, escapeChar]
    split_ifs with hquote hescape
    · subst hquote
      exact .loop_next (Reads.advance.bind (Reads.advance.bind .pure))
        (Nat.lt_add_of_pos_right Nat.two_pos) hrest
    · subst hescape
      exact .loop_next (Reads.advance.bind (Reads.advance.bind .pure))
        (Nat.lt_add_of_pos_right Nat.two_pos) hrest
    · exact .loop_next (reads_plainChar hquote hescape) (lt_succ_self _) hrest

theorem qlStringLiteral_toList (s : String) : (qlStringLiteral s).toList =
    '"' :: (s.toList.flatMap escapeChar ++ ['"']) := by
  unfold qlStringLiteral
  simp only [String.toList_append, String.toList_ofList, append_assoc]
  rfl

theorem free_qlStringLiteral (s : String) : (Tok.loose (qlStringLiteral s)).Free := by
  refine ⟨rfl, ?_, ?_⟩
  · change (qlStringLiteral s).toList ≠ []
    rw [qlStringLiteral_toList]
    exact cons_ne_nil _ _
  · change Flush (qlStringLiteral s).toList
    rw [qlStringLiteral_toList]
    exact .cons (by decide)

theorem firstChar_qlStringLiteral : firstChar (.loose (qlStringLiteral s) :: ts) = some '"' := by
  change (qlStringLiteral s).toList.head? = _
  rw [qlStringLiteral_toList]
  rfl

theorem parses_parseStringLiteral :
    Parses parseStringLiteral [.loose (qlStringLiteral s)] s fun _ => True := by
  refine ParsesAt.skip (fun ts i _ hflush hi => ?_) fun ts _ => ready_cons (free_qlStringLiteral s)
  obtain ⟨r, rfl, hr⟩ := hi.flush hflush
  have htext : (Tok.loose (qlStringLiteral s)).text ++ r =
      '"' :: (s.toList.flatMap escapeChar ++ '"' :: r) := by
    change (qlStringLiteral s).toList ++ r = _
    rw [qlStringLiteral_toList, cons_append, append_assoc]
    rfl
  have hquote : IsMark '"' := by decide
  rw [htext]
  have hread := reads_stringChars s.toList [] r
  rw [nil_append, String.ofList_toList] at hread
  refine ⟨r, hr, ?_, (reads_expectChar hquote).bind hread⟩
  simp only [length_cons, length_nil, length_append]
  omega

theorem reads_parseExponent (hr : ∀ c ∈ r.head?, c ≠ 'e' ∧ c ≠ 'E') :
    Reads parseExponent r [] r := by
  refine Reads.get_bind fun s _ => ?_
  exact (reads_accept_not fun c hc => (hr c hc).1).bind
    ((reads_accept_not fun c hc => (hr c hc).2).bind .pure)

theorem parses_intLiteral (i : Int64) :
    Parses (parseNumber readers) [.loose (toString i.toInt)] (.int i) EndsNumber := by
  refine ParsesAt.skip (fun ts t hts hflush hi => ?_) fun ts _ => ready_cons (free_toString _)
  obtain ⟨r, rfl, hr⟩ := hi.flush hflush
  have hpos := length_toString_pos i.toInt
  have hnext := hts.next hr
  refine ⟨r, hr, ?_, reads_sign.bind ((Reads.takeWhile (digits_of_natAbs _)
    fun c hc => (hnext c hc).1).bind ((reads_accept_not fun c hc => (hnext c hc).2.1).bind
    (Reads.pure.bind ((reads_parseExponent fun c hc => (hnext c hc).2.2).bind ?_))))⟩
  · change r.length + 1 ≤ ((toString i.toInt).toList ++ r).length
    rw [length_append]
    omega
  · rw [if_neg (by decide), readInt_natAbs]
    exact .pure

theorem parses_parseLiteral {v : Literal} (hv : v.Plain) :
    Parses (parseLiteral readers) [.loose (literalText v)] v EndsNumber := by
  cases v with
  | float bits => exact hv.elim
  | json text => exact hv.elim
  | string s =>
    have hfree := free_qlStringLiteral s
    refine ParsesAt.skip (ParsesAt.peek (c := '"') ?_ (fun ts _ => ready_cons hfree)
      fun ts _ => firstChar_qlStringLiteral) fun ts _ => ready_cons hfree
    exact ((Parses.map parses_parseStringLiteral).mono fun _ _ => trivial).at
  | int i =>
    have hfree := free_toString i.toInt
    obtain ⟨c, cs, htext⟩ := exists_cons_of_ne_nil hfree.2.1
    have hc : c.isDigit = true ∨ c = '-' := by
      have htext' : (toString i.toInt).toList = c :: cs := htext
      rw [toList_toString] at htext'
      split_ifs at htext'
      · cases htext'
        exact .inr rfl
      · have hdigits : Nat.toDigits 10 i.toInt.natAbs = c :: cs := htext'
        exact .inl (digits_of_natAbs i.toInt c (hdigits ▸ mem_cons_self))
    have hfirst : ∀ ts, firstChar (.loose (toString i.toInt) :: ts) = some c := by
      intro ts
      change (Tok.loose (toString i.toInt)).text.head? = _
      rw [htext]
      rfl
    refine ParsesAt.skip (ParsesAt.peek (c := c) ?_ (fun ts _ => ready_cons hfree)
      fun ts _ => hfirst ts) fun ts _ => ready_cons hfree
    have hnot : ∀ d : Char, d.isDigit = false → d ≠ '-' → c ≠ d := by
      rintro d hdigit hminus rfl
      rcases hc with hc | hc
      · rw [hdigit] at hc
        cases hc
      · exact hminus hc
    split
    · next h => exact absurd (some_inj.mp h) (hnot _ (by decide) (by decide))
    · next h => exact absurd (some_inj.mp h) (hnot _ (by decide) (by decide))
    · next h => exact absurd (some_inj.mp h) (hnot _ (by decide) (by decide))
    · next h => exact absurd (some_inj.mp h) (hnot _ (by decide) (by decide))
    · next h =>
      cases h
      have hbrace : ¬ (c = '\x7b' ∨ c = '[') :=
        not_or.mpr ⟨hnot _ (by decide) (by decide), hnot _ (by decide) (by decide)⟩
      rw [if_neg hbrace, if_pos hc]
      exact (parses_intLiteral i).at
    · contradiction
  | bool b =>
    cases b with
    | true =>
      have hfree : (Tok.loose "true").Free := free_word (by decide)
      refine ParsesAt.skip (ParsesAt.peek (c := 't') ?_ (fun ts _ => ready_cons hfree)
        fun ts _ => rfl) fun ts _ => ready_cons hfree
      have hparses := Parses.map (f := fun _ => Literal.bool true) (parses_expectStr hfree)
      exact (hparses.mono fun _ _ => trivial).at
    | false =>
      have hfree : (Tok.loose "false").Free := free_word (by decide)
      refine ParsesAt.skip (ParsesAt.peek (c := 'f') ?_ (fun ts _ => ready_cons hfree)
        fun ts _ => rfl) fun ts _ => ready_cons hfree
      have hparses := Parses.map (f := fun _ => Literal.bool false) (parses_expectStr hfree)
      exact (hparses.mono fun _ _ => trivial).at
  | null =>
    have hfree : (Tok.loose "null").Free := free_word (by decide)
    refine ParsesAt.skip (ParsesAt.peek (c := 'n') ?_ (fun ts _ => ready_cons hfree)
      fun ts _ => rfl) fun ts _ => ready_cons hfree
    exact ((Parses.map (f := fun _ => Literal.null) (parses_expectStr hfree)).mono fun _ _ => trivial).at

end RhypeDb.QueryText
