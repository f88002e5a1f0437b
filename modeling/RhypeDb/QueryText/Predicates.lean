import RhypeDb.QueryText.Tokens

/-! Objects and predicates are read as they are printed. A field path goes on behind a dot only
where an operator or the predicate method comes next, and a predicate is grouped as its operators
bind. -/

namespace RhypeDb.QueryText

open List Scan SortedMap Storage
open Sdl (IsIdent IsMark IsWord isIdentChar isWord_ofList)

variable {chars : CharTable} {readers : Readers} {path : String} {ts : List Tok}

theorem firstChar_ident {name : String} (h : IsIdent chars name) {c : Char} (hc : IsMark c) :
    firstChar (.loose name :: ts) ≠ some c := by
  intro hfirst
  have hident := h.chars_ident c (mem_of_head? hfirst)
  rw [hc.not_ident] at hident
  cases hident

theorem firstChar_mark {c d : Char} (h : d ≠ c) :
    firstChar (.mark d :: ts) ≠ some c := fun hfirst => h (Option.some_inj.mp hfirst)

section

variable {toks : List Tok}

theorem parses_expect {β : Type} {c : Char} {f : Unit → Parse β} {b : β} {Next : List Tok → Prop}
    (hc : IsMark c) (hf : Parses (f ()) toks b Next) :
    Parses (expectChar c >>= f) (.mark c :: toks) b Next :=
  (parses_expectChar hc).token hf fun _ _ => trivial

def Fields.Printable (chars : CharTable) (fields : Fields) : Prop :=
  ∀ e ∈ fields.entries, IsIdent chars e.1 ∧ e.2.Plain

variable {Next : List Tok → Prop}

variable {fields : Fields}

theorem parses_parseField {e : String × Literal} (hname : IsIdent chars e.1) (hvalue : e.2.Plain)
    {turn : Turn Fields Fields}
    (hcomma : Parses (do skipWs let _ ← accept [','] return .again (fields.insert e.1 e.2)) toks
      turn Next) (hnext : ∀ ts, Next ts → EndsNumber (toks ++ ts)) :
    Parses (parseField chars readers fields)
      (.loose e.1 :: .mark ':' :: .loose (literalText e.2) :: toks) turn Next := by
  have hbrace : IsMark '\x7d' := by decide
  have hcolon : IsMark ':' := by decide
  have hready : ∀ ts, Next ts → Ready (.loose e.1 :: .mark ':' ::
      .loose (literalText e.2) :: toks ++ ts) := fun ts _ => ready_cons (free_ident hname)
  refine ParsesAt.skip (ParsesAt.accept_not ?_ hready fun ts _ =>
    firstChar_ident hname hbrace) hready
  refine ((parses_parseIdent hname).token ?_ fun ts _ => endsWord_mark hcolon).at
  exact parses_expect hcolon ((parses_parseLiteral hvalue).token hcomma hnext)

variable {es : List (String × Literal)}

theorem parses_fields (hes : ∀ e ∈ es, IsIdent chars e.1 ∧ e.2.Plain) (fields : Fields) :
    Parses (loop (parseField chars readers) fields) (fieldToks es ++ [.mark '\x7d'])
      (fields.insertAll es) Next := by
  have hbrace : IsMark '\x7d' := by decide
  have hcomma : IsMark ',' := by decide
  induction es generalizing fields with
  | nil =>
    exact .loop_done (ParsesAt.skip (ParsesAt.accept (t := .mark '\x7d') (free_mark hbrace) .pure)
      fun _ _ => ready_cons (free_mark hbrace))
  | cons e es ih =>
    rw [forall_mem_cons] at hes
    have hrest := ih hes.2 (fields.insert e.1 e.2)
    cases es with
    | nil =>
      have hlast : Parses (parseField chars readers fields)
          [.loose e.1, .mark ':', .loose (literalText e.2)]
          (.again (fields.insert e.1 e.2)) fun ts => ∃ ts', ts = .mark '\x7d' :: ts' := by
        refine parses_parseField hes.1.1 hes.1.2 (ParsesAt.skip
          (ParsesAt.accept_not (c := ',') Parses.pure.at ?_ ?_) ?_) ?_
        all_goals
          rintro _ ⟨ts, rfl⟩
        · exact ready_cons (free_mark hbrace)
        · exact firstChar_mark (by decide)
        · exact ready_cons (free_mark hbrace)
        · exact endsNumber_mark hbrace (by decide)
      exact hlast.loop_next (cons_ne_nil _ _) hrest fun ts _ => ⟨ts, rfl⟩
    | cons e' es =>
      have hone : Parses (parseField chars readers fields) _ _ fun _ => True :=
        parses_parseField hes.1.1 hes.1.2
          (ParsesAt.skip (ParsesAt.accept (t := .mark ',') (free_mark hcomma) .pure)
            fun _ _ => ready_cons (free_mark hcomma))
          fun ts _ => endsNumber_mark hcomma (by decide)
      exact hone.loop_next (cons_ne_nil _ _) hrest fun _ _ => trivial

theorem insertAll_of_perm (h : es.Perm fields.entries) : SortedMap.empty.insertAll es = fields := by
  have hkeys : (es.map Prod.fst).Nodup := by
    refine (h.map Prod.fst).nodup_iff.mpr (pairwise_map.mpr ?_)
    exact fields.sorted.imp fun hlt => hlt.ne
  refine eq_of_lookup fun k => ?_
  by_cases hk : k ∈ es.map Prod.fst
  · obtain ⟨e, he, rfl⟩ := mem_map.mp hk
    rw [lookup_insertAll_of_mem _ hkeys he, eq_comm, lookup_eq_some]
    exact h.mem_iff.mp he
  · rw [lookup_insertAll_of_notMem _ hk, lookup_empty, eq_comm,
      Option.eq_none_iff_forall_ne_some]
    intro v hv
    exact hk (mem_map.mpr ⟨(k, v), h.mem_iff.mpr (lookup_eq_some.mp hv), rfl⟩)

variable (readers) in
theorem parses_parseObject (hfields : fields.Printable chars) (htoks : ObjectPrinted fields toks) :
    Parses (parseObject chars readers) toks fields fun _ => True := by
  have hbrace : IsMark '\x7b' := by decide
  obtain ⟨es, hperm, rfl⟩ := htoks
  have hes : ∀ e ∈ es, IsIdent chars e.1 ∧ e.2.Plain :=
    fun e he => hfields e (hperm.mem_iff.mp he)
  have hloop : Parses (loop (parseField chars readers) .empty) _ _ fun _ => True :=
    parses_fields hes .empty
  rw [insertAll_of_perm hperm] at hloop
  exact parses_expect hbrace hloop

inductive IsPath (chars : CharTable) : String → Prop
  | one {first : String} (hfirst : IsIdent chars first) : IsPath chars first
  | two {first next : String} (hfirst : IsIdent chars first) (hnext : IsIdent chars next)
      (hhead : ∀ c ∈ next.toList.head?, chars.isAlphabetic c = true ∨ c = '_') :
      IsPath chars (first ++ "." ++ next)

def EndsPath (ts : List Tok) : Prop := ∃ text ∈ pathEnds, ∃ ts', ts = .loose text :: ts'

theorem pathEnds_head {text : String} (h : text ∈ pathEnds) : ∃ c cs, text.toList = c :: cs ∧
    IsMark c ∧ c ≠ '(' ∧ (c = '.' → text = ".contains(") := by
  have hall : ∀ text ∈ pathEnds, ∃ c cs, text.toList = c :: cs ∧ IsMark c ∧ c ≠ '(' ∧
      (c = '.' → text = ".contains(") := by
    simp only [pathEnds, forall_mem_cons]
    exact ⟨⟨'=', ['='], rfl, by decide⟩, ⟨'!', ['='], rfl, by decide⟩, ⟨'<', ['='], rfl, by decide⟩,
      ⟨'>', ['='], rfl, by decide⟩, ⟨'<', [], rfl, by decide⟩, ⟨'>', [], rfl, by decide⟩,
      ⟨'.', _, rfl, by decide, by decide, fun _ => trivial⟩, forall_mem_nil _⟩
  exact hall text h

variable {r : List Char}

theorem EndsPath.cons (h : EndsPath ts) :
    ∃ text ∈ pathEnds, ∃ c cs ts', ts = .loose text :: ts' ∧ text.toList = c :: cs ∧
      IsMark c ∧ c ≠ '(' ∧ (c = '.' → text = ".contains(") := by
  obtain ⟨text, htext, ts', rfl⟩ := h
  obtain ⟨c, cs, hcs, hc⟩ := pathEnds_head htext
  exact ⟨text, htext, c, cs, ts', rfl, hcs, hc⟩

theorem EndsPath.endsWord (h : EndsPath ts) : EndsWord ts := by
  obtain ⟨text, -, c, cs, ts', rfl, hcs, hmark, -⟩ := h.cons
  rintro _ ⟨⟩
  exact ⟨c, cs, hcs, hmark⟩

theorem EndsPath.ready (h : EndsPath ts) : Ready ts := by
  obtain ⟨text, -, c, cs, ts', rfl, hcs, hmark, -⟩ := h.cons
  refine ready_cons ⟨rfl, ?_, ?_⟩
  · rw [show (Tok.loose text).text = c :: cs from hcs]
    exact cons_ne_nil _ _
  · rw [show (Tok.loose text).text = c :: cs from hcs]
    exact .cons hmark.not_space

def AtPathEnd (r : List Char) : Prop :=
  (∀ c ∈ r.head?, c ≠ '.') ∨ ∃ r', r = ".contains(".toList ++ r'

theorem EndsPath.atPathEnd (h : EndsPath ts) (hr : Written ts r) : AtPathEnd r := by
  obtain ⟨text, -, c, cs, ts', rfl, hcs, -, -, hdot⟩ := h.cons
  by_cases hc : c = '.'
  · by_cases hhead : ∀ c ∈ r.head?, c ≠ '.'
    · exact .inl hhead
    · push Not at hhead
      obtain ⟨d, hd, rfl⟩ := hhead
      have hflush : Flush r := by
        intro d hd'
        rw [Option.mem_unique hd' hd]
        decide
      obtain ⟨r', rfl, -⟩ := hr.flush hflush
      rw [hdot hc]
      exact .inr ⟨r', rfl⟩
  · refine .inl (Written.next hr ?_ ?_)
    · rintro _ hspace rfl
      exact absurd hspace (by decide)
    · rintro _ ⟨⟩
      exact ⟨c, cs, hcs, hc⟩

theorem reads_lookingAtAny (texts : List String) {i : List Char} :
    Reads (lookingAtAny texts) i (texts.any fun text => text.toList.isPrefixOf i) i := by
  induction texts with
  | nil => exact .pure
  | cons text texts ih =>
    refine Reads.lookingAt.bind ?_
    rw [any_cons]
    cases text.toList.isPrefixOf i with
    | true => exact .pure
    | false => exact ih

theorem reads_parseSegment_done (h : AtPathEnd r) :
    Reads (parseSegment chars path) r (.done path) r := by
  refine Reads.get_bind fun saved hsaved => ?_
  rcases h with hdot | ⟨r', rfl⟩
  · exact (reads_accept_not hdot).bind .pure
  · have hword : IsWord "contains" := isWord_ofList rfl
    have hopen : Sdl.Broken chars ('(' :: r') := by
      rintro _ ⟨⟩
      exact IsMark.not_ident (by decide)
    have hletter : (some 'c').any (fun ch => chars.isAlphabetic ch || ch == '_') = true := by
      rw [Option.any_some, chars.alphabetic_ascii 'c' (by decide)]
      rfl
    refine (Reads.accept : Reads (accept ['.']) (['.'] ++ ("contains".toList ++ '(' :: r')) _ _).bind
      (Reads.peek.bind ?_)
    change Reads (if (some 'c').any _ = true then _ else _) _ _ _
    rw [if_pos hletter]
    refine (reads_parseIdent hword.isIdent [] (forall_mem_nil _) hopen).bind
      (Reads.lookingAt.bind ?_)
    exact (Reads.set hsaved).bind .pure

theorem reads_parseSegment_next {path next : String} (hnext : IsIdent chars next)
    (hhead : ∀ c ∈ next.toList.head?, chars.isAlphabetic c = true ∨ c = '_')
    (hr : ∀ c ∈ r.head?, isIdentChar chars c = false ∧ c ≠ '(')
    (hend : ∃ text ∈ pathEnds, text.toList <+: r.dropWhile isWhitespace) :
    Reads (parseSegment chars path) ('.' :: (next.toList ++ r)) (.again (path ++ "." ++ next))
      (r.dropWhile isWhitespace) := by
  refine Reads.get_bind fun saved _ => (reads_accept (c := '.')).bind (Reads.peek.bind ?_)
  obtain ⟨c, cs, hcs⟩ := exists_cons_of_ne_nil hnext.ne_nil
  have hletter : (next.toList ++ r).head?.any (fun ch => chars.isAlphabetic ch || ch == '_') =
      true := by
    have hc := hhead c (by rw [hcs]; rfl)
    rw [hcs, cons_append, head?_cons, Option.any_some, Bool.or_eq_true, beq_iff_eq]
    exact hc
  have hopen : ['('].isPrefixOf r = false := by
    rw [Bool.eq_false_iff]
    intro hprefix
    obtain ⟨r', rfl⟩ := isPrefixOf_iff_prefix.mp hprefix
    exact (hr '(' rfl).2 rfl
  have hany : (pathEnds.any fun text => text.toList.isPrefixOf (r.dropWhile isWhitespace)) =
      true := by
    obtain ⟨text, htext, hprefix⟩ := hend
    exact any_eq_true.mpr ⟨text, htext, isPrefixOf_iff_prefix.mpr hprefix⟩
  rw [if_pos hletter]
  refine (reads_parseIdent hnext [] (forall_mem_nil _) fun c hc => (hr c hc).1).bind
    (Reads.lookingAt.bind ?_)
  rw [hopen, if_neg fun h => Bool.false_ne_true h.2]
  refine reads_skipBlank.bind ((reads_lookingAtAny pathEnds).bind ?_)
  rw [hany]
  exact .pure

theorem parses_path (h : IsPath chars path) :
    Parses (parseIdent chars >>= loop (parseSegment chars)) [.loose path] path EndsPath := by
  cases h with
  | one hfirst =>
    have hloop : Parses (loop (parseSegment chars) path) [] path EndsPath :=
      .loop_done fun ts i hts hi => ⟨i, hi, le_rfl, reads_parseSegment_done (hts.atPathEnd hi)⟩
    exact (parses_parseIdent hfirst).token hloop fun ts hts => hts.endsWord
  | @two first next hfirst hnext hhead =>
    rintro ts i hts ⟨ws, r, rfl, hws, -, hr⟩
    obtain ⟨hdrop, hflush⟩ := hr.drop hts.ready
    have hrest : Reads (parseSegment chars (first ++ "." ++ next)) _ _ _ :=
      reads_parseSegment_done (hts.atPathEnd hdrop)
    obtain ⟨text, htext, c, cs, ts', rfl, hcs, hmark, hopen, -⟩ := hts.cons
    have hbroken : ∀ c ∈ r.head?, isIdentChar chars c = false ∧ c ≠ '(' := by
      refine Written.next hr (fun d hd => ⟨whitespace_not_ident hd, ?_⟩) ?_
      · rintro rfl
        exact absurd hd (by decide)
      · rintro _ ⟨⟩
        exact ⟨c, cs, hcs, hmark.not_ident, hopen⟩
    have hend : ∃ text ∈ pathEnds, text.toList <+: r.dropWhile isWhitespace := by
      obtain ⟨r', hr', -⟩ := hdrop.flush hflush
      exact ⟨text, htext, r', hr'.symm⟩
    have hdot : Sdl.Broken chars ('.' :: (next.toList ++ r)) := by
      rintro _ ⟨⟩
      exact IsMark.not_ident (by decide)
    have hlen := length_dropWhile_le isWhitespace r
    have htoks : (Tok.loose (first ++ "." ++ next)).text ++ r =
        first.toList ++ '.' :: (next.toList ++ r) := by
      change (first ++ "." ++ next).toList ++ r = _
      simp only [String.toList_append, append_assoc]
      rfl
    rw [htoks]
    refine ⟨_, hdrop, ?_, (reads_parseIdent hfirst ws hws hdot).bind
      ((reads_parseSegment_next hnext hhead hbroken hend).loop_next ?_ (.loop_done hrest))⟩
    · simp only [length_append, length_cons, length_nil]
      omega
    · simp only [length_append, length_cons]
      omega

theorem parses_path_bind {β : Type} (h : IsPath chars path) {f : String → Parse β} {toks : List Tok}
    {b : β} {Next : List Tok → Prop} (hf : Parses (f path) toks b Next)
    (hnext : ∀ ts, Next ts → EndsPath (toks ++ ts)) :
    Parses (parseIdent chars >>= fun first => loop (parseSegment chars) first >>= f)
      (.loose path :: toks) b Next := by
  rw [← bind_assoc]
  exact (parses_path h).token hf hnext

end

theorem literalText_head {v : Literal} (hv : v.Plain) :
    ∃ c cs, (literalText v).toList = c :: cs ∧ c ≠ '=' := by
  cases v with
  | float bits => exact hv.elim
  | json text => exact hv.elim
  | string s => exact ⟨_, _, qlStringLiteral_toList s, by decide⟩
  | int i =>
    obtain ⟨c, cs, htext⟩ := exists_cons_of_ne_nil (free_toString i.toInt).2.1
    refine ⟨c, cs, htext, ?_⟩
    rintro rfl
    have htext' : (toString i.toInt).toList = '=' :: cs := htext
    rw [toList_toString] at htext'
    split_ifs at htext'
    · cases htext'
    · have hdigit := digits_of_natAbs i.toInt '='
      rw [show Nat.toDigits 10 i.toInt.natAbs = '=' :: cs from htext'] at hdigit
      exact absurd (hdigit mem_cons_self) (by decide)
  | bool b =>
    cases b with
    | true => exact ⟨'t', _, rfl, by decide⟩
    | false => exact ⟨'f', _, rfl, by decide⟩
  | null => exact ⟨'n', _, rfl, by decide⟩

theorem opText_mem (op : CompareOp) : opText op ∈ pathEnds := by
  cases op <;> decide

theorem free_opText (op : CompareOp) : (Tok.loose (opText op)).Free :=
  EndsPath.ready ⟨opText op, opText_mem op, [], rfl⟩ _ rfl

theorem reads_parseOpOf (op : CompareOp) {r : List Char} (hr : ∀ c ∈ r.head?, c ≠ '=') :
    Reads (parseOpOf compareOps) ((opText op).toList ++ r) op r := by
  have hother {c d : Char} {cs i : List Char} (h : d ≠ c) :
      Reads (accept (c :: cs) : Parse Bool) (d :: i) false (d :: i) :=
    .accept_not (not_prefix_of_head fun hhead => h (Option.some_inj.mp hhead))
  have hshort {c : Char} : Reads (accept [c, '='] : Parse Bool) (c :: r) false (c :: r) := by
    refine .accept_not ?_
    rintro ⟨t, ht⟩
    obtain ⟨-, rfl⟩ := List.cons.inj ht
    exact hr '=' rfl rfl
  cases op with
  | eq => exact Reads.accept.bind .pure
  | ne => exact (hother (by decide)).bind (Reads.accept.bind .pure)
  | le => exact (hother (by decide)).bind ((hother (by decide)).bind (Reads.accept.bind .pure))
  | ge =>
    exact (hother (by decide)).bind ((hother (by decide)).bind ((hother (by decide)).bind
      (Reads.accept.bind .pure)))
  | lt =>
    exact (hother (by decide)).bind ((hother (by decide)).bind (hshort.bind
      ((hother (by decide)).bind (Reads.accept.bind .pure))))
  | gt =>
    exact (hother (by decide)).bind ((hother (by decide)).bind ((hother (by decide)).bind
      (hshort.bind ((hother (by decide)).bind (Reads.accept.bind .pure)))))

theorem parses_parseCompareOp (op : CompareOp) : Parses parseCompareOp [.loose (opText op)] op
    fun ts => ∃ v : Literal, v.Plain ∧ ∃ ts', ts = .loose (literalText v) :: ts' := by
  refine ParsesAt.skip (fun ts i hts hflush hi => ?_) fun ts _ => ready_cons (free_opText op)
  obtain ⟨r, rfl, hr⟩ := hi.flush hflush
  obtain ⟨v, hv, ts', rfl⟩ := hts
  have hpos := length_pos_iff.mpr (free_opText op).2.1
  refine ⟨r, hr, ?_, reads_parseOpOf op (Written.next hr ?_ ?_)⟩
  · rw [length_append, length_singleton]
    omega
  · rintro c hc rfl
    exact absurd hc (by decide)
  · rintro _ ⟨⟩
    exact literalText_head hv

theorem parses_compare (hpath : IsPath chars path) (op : CompareOp)
    {value : Literal} (hvalue : value.Plain) : Parses (parsePredicateAtom chars readers)
      (pathToks path ++ [.loose (opText op), .loose (literalText value)])
      (.compare path op value) EndsNumber := by
  have hready : ∀ ts, EndsNumber ts → Ready ([.loose (opText op), .loose (literalText value)] ++ ts) :=
    fun _ _ => ready_cons (free_opText op)
  refine parses_expect (by decide) (parses_path_bind hpath (ParsesAt.skip
    (ParsesAt.accept_not (c := '.') ?_ hready fun _ _ => ?_) hready) fun ts _ => ?_)
  · exact ((parses_parseCompareOp op).token (parses_parseLiteral hvalue).map
      fun ts _ => ⟨value, hvalue, ts, rfl⟩).at
  · cases op <;> exact fun h => absurd (Option.some_inj.mp h) (by decide)
  · exact ⟨opText op, opText_mem op, _, rfl⟩

theorem parses_contains (hpath : IsPath chars path) (needle : String)
    {Next : List Tok → Prop} : Parses (parsePredicateAtom chars readers)
      (pathToks path ++ [.loose ".contains(", .loose (qlStringLiteral needle), .mark ')'])
      (.contains path needle) Next := by
  have hmethod : ".contains(" ∈ pathEnds := by decide
  have hfree : (Tok.loose ".contains(").Free := EndsPath.ready ⟨_, hmethod, [], rfl⟩ _ rfl
  have hquoted : ∀ ts, Next ts →
      Ready ([.loose (qlStringLiteral needle), .mark ')'] ++ ts) :=
    fun _ _ => ready_cons (free_qlStringLiteral needle)
  have hclose : IsMark ')' := by decide
  refine parses_expect (by decide) (parses_path_bind hpath (ParsesAt.skip
    (ParsesAt.accept (t := .loose ".contains(") hfree ?_) fun _ _ => ready_cons hfree)
    fun ts _ => ⟨_, hmethod, _, rfl⟩)
  refine ParsesAt.skip (ParsesAt.looking ?_ hquoted fun ts _ => firstChar_qlStringLiteral) hquoted
  refine (parses_parseStringLiteral.token ?_ fun _ _ => trivial).at
  refine ParsesAt.skip (Parses.at ?_) fun _ _ => ready_cons (free_mark hclose)
  exact parses_expect hclose .pure

section

def EndsOr (ts : List Tok) : Prop := ∃ ts', ts = .mark ')' :: ts'

def EndsAnd (ts : List Tok) : Prop := EndsOr ts ∨ ∃ ts', ts = .loose "||" :: ts'

def EndsFactor (ts : List Tok) : Prop := EndsAnd ts ∨ ∃ ts', ts = .loose "&&" :: ts'

theorem EndsFactor.endsNumber (h : EndsFactor ts) : EndsNumber ts := by
  rcases h with (⟨ts, rfl⟩ | ⟨ts, rfl⟩) | ⟨ts, rfl⟩
  · exact endsNumber_mark (by decide) (by decide)
  · rintro _ ⟨⟩
    exact ⟨'|', ['|'], rfl, by decide, by decide⟩
  · rintro _ ⟨⟩
    exact ⟨'&', ['&'], rfl, by decide, by decide⟩

theorem free_and : (Tok.loose "&&").Free :=
  ⟨rfl, cons_ne_nil '&' ['&'], Flush.cons (c := '&') (by decide)⟩

theorem free_or : (Tok.loose "||").Free :=
  ⟨rfl, cons_ne_nil '|' ['|'], Flush.cons (c := '|') (by decide)⟩

theorem EndsOr.first (h : EndsOr ts) :
    Ready ts ∧ firstChar ts ≠ some '|' ∧ firstChar ts ≠ some 'o' := by
  obtain ⟨ts, rfl⟩ := h
  exact ⟨ready_cons (free_mark (by decide)), firstChar_mark (by decide), firstChar_mark (by decide)⟩

theorem EndsAnd.first (h : EndsAnd ts) :
    Ready ts ∧ firstChar ts ≠ some '&' ∧ firstChar ts ≠ some 'a' := by
  rcases h with ⟨ts, rfl⟩ | ⟨ts, rfl⟩
  · exact ⟨ready_cons (free_mark (by decide)), firstChar_mark (by decide),
      firstChar_mark (by decide)⟩
  · have hfirst : firstChar (.loose "||" :: ts) = some '|' := rfl
    rw [hfirst]
    exact ⟨ready_cons free_or, by decide, by decide⟩

variable {sign word : String} {join : Predicate → Predicate → Predicate}
  {operand : Parse Predicate} {left right : Predicate} {toks : List Tok} {Next : List Tok → Prop}

theorem parses_operand_next (hsign : (Tok.loose sign).Free)
    (hright : Parses operand toks right Next) :
    Parses (parseOperand sign word join operand left) (.loose sign :: toks)
      (.again (join left right)) Next := by
  have hop : Parses (acceptOperator sign word) [.loose sign] true fun _ => True :=
    ParsesAt.skip (ParsesAt.accept (t := .loose sign) hsign .pure) fun _ _ => ready_cons hsign
  exact hop.token hright.map fun _ _ => trivial

theorem parses_operand_done {c d : Char} {cs ds : List Char} (hsign : sign.toList = c :: cs)
    (hword : word.toList = d :: ds)
    (hnext : ∀ ts, Next ts → Ready ts ∧ firstChar ts ≠ some c ∧ firstChar ts ≠ some d) :
    Parses (parseOperand sign word join operand left) [] (.done left) Next := by
  have hready : ∀ ts, Next ts → Ready ([] ++ ts) := fun ts hts => (hnext ts hts).1
  have hno : Parses (acceptOperator sign word) [] false Next := by
    unfold acceptOperator
    rw [hsign, hword]
    have hlast : ParsesAt (accept (d :: ds) >>= Pure.pure : Parse Bool) [] false Next :=
      ParsesAt.accept_not Parses.pure.at hready fun ts hts => (hnext ts hts).2.2
    rw [bind_pure] at hlast
    exact ParsesAt.skip (ParsesAt.accept_not hlast hready fun ts hts => (hnext ts hts).2.1) hready
  exact hno.bind .pure fun _ hts => hts

end

variable (chars : CharTable) (readers : Readers)

/-- `parse_predicate_factor` where parentheses may be nested less deep than `depth`. -/
abbrev factorTo (depth : Nat) : Parse Predicate :=
  parsePredicateFactor chars readers (parsePredicateTo chars readers depth)

def ParsesFactor (p : Predicate) (depth : Nat) : Prop :=
  (p.toks .factor).length ≤ depth →
    Parses (factorTo chars readers depth) (p.toks .factor) p EndsFactor

def ParsesAnd (p : Predicate) (depth : Nat) : Prop :=
  (p.toks .and).length ≤ depth → ∀ toks b,
    Parses (loop (parseOperand "&&" "and " .and (factorTo chars readers depth)) p) toks b EndsAnd →
    (∀ ts, EndsAnd ts → EndsFactor (toks ++ ts)) →
    Parses (parseAndTerm (factorTo chars readers depth)) (p.toks .and ++ toks) b EndsAnd

def ParsesOr (p : Predicate) (depth : Nat) : Prop :=
  (p.toks .or).length ≤ depth → ∀ toks b,
    Parses (loop (parseOperand "||" "or " .or (parseAndTerm (factorTo chars readers depth))) p)
      toks b EndsOr →
    (∀ ts, EndsOr ts → EndsAnd (toks ++ ts)) →
    Parses (parseOrTerm (factorTo chars readers depth)) (p.toks .or ++ toks) b EndsOr

variable {chars readers} {p : Predicate} {depth : Nat}

theorem ParsesAnd.parses (h : ParsesAnd chars readers p depth)
    (hlen : (p.toks .and).length ≤ depth) :
    Parses (parseAndTerm (factorTo chars readers depth)) (p.toks .and) p EndsAnd := by
  have hterm := h hlen [] p
    (.loop_done (parses_operand_done rfl rfl fun _ hts => EndsAnd.first hts)) fun _ hts => .inl hts
  rwa [append_nil] at hterm

theorem ParsesOr.parses (h : ParsesOr chars readers p depth) (hlen : (p.toks .or).length ≤ depth) :
    Parses (parseOrTerm (factorTo chars readers depth)) (p.toks .or) p EndsOr := by
  have hterm := h hlen [] p
    (.loop_done (parses_operand_done rfl rfl fun _ hts => EndsOr.first hts)) fun _ hts => .inl hts
  rwa [append_nil] at hterm

variable {Next : List Tok → Prop} {inner : Parse Predicate} {toks : List Tok}

theorem parses_parenthesized (h : Parses inner toks p EndsOr) :
    Parses (parsePredicateFactor chars readers inner) (.mark '(' :: (toks ++ [.mark ')'])) p
      Next := by
  have hopen : IsMark '(' := by decide
  refine ParsesAt.skip (ParsesAt.accept (t := .mark '(') (free_mark hopen) ?_)
    fun _ _ => ready_cons (free_mark hopen)
  exact h.bind (parses_expect (by decide) .pure) fun ts _ => ⟨ts, rfl⟩

theorem parses_atom (h : Parses (parsePredicateAtom chars readers) (.mark '.' :: toks) p Next) :
    Parses (parsePredicateFactor chars readers inner) (.mark '.' :: toks) p Next := by
  have hdot : ∀ ts, Next ts → Ready (.mark '.' :: toks ++ ts) :=
    fun _ _ => ready_cons (free_mark (by decide))
  exact ParsesAt.skip (ParsesAt.accept_not h.at hdot fun _ _ => firstChar_mark (by decide)) hdot

theorem ParsesFactor.and (h : ParsesFactor chars readers p depth)
    (htoks : p.toks .and = p.toks .factor) : ParsesAnd chars readers p depth := by
  intro hlen toks b hloop hnext
  rw [htoks] at hlen ⊢
  exact (h hlen).bind hloop hnext

theorem ParsesAnd.or (h : ParsesAnd chars readers p depth)
    (htoks : p.toks .or = p.toks .and) : ParsesOr chars readers p depth := by
  intro hlen toks b hloop hnext
  rw [htoks] at hlen ⊢
  exact (h.parses hlen).bind hloop hnext

theorem ParsesOr.factor (h : ∀ depth, ParsesOr chars readers p depth)
    (htoks : p.toks .factor = .mark '(' :: (p.toks .or ++ [.mark ')'])) :
    ParsesFactor chars readers p depth := by
  intro hlen
  have hinner : (p.toks .or).length + 2 ≤ depth := by
    rw [htoks, length_cons, length_append, length_singleton] at hlen
    exact hlen
  obtain ⟨depth, rfl⟩ := Nat.exists_eq_succ_of_ne_zero (Nat.ne_zero_of_lt hinner)
  rw [htoks]
  exact parses_parenthesized ((h depth).parses (by omega))

def Predicate.Printable (chars : CharTable) : Predicate → Prop
  | .compare path _ value => IsPath chars path ∧ value.Plain
  | .contains path _ => IsPath chars path
  | .and left right => left.Printable chars ∧ right.Printable chars
  | .or left right => left.Printable chars ∧ right.Printable chars

theorem parses_levels (hp : p.Printable chars) (depth : Nat) :
    ParsesFactor chars readers p depth ∧ ParsesAnd chars readers p depth ∧
      ParsesOr chars readers p depth := by
  induction p generalizing depth with
  | compare path op value =>
    have hfactor : ParsesFactor chars readers (.compare path op value) depth := fun _ =>
      (parses_atom (parses_compare hp.1 op hp.2)).mono fun _ hts => EndsFactor.endsNumber hts
    exact ⟨hfactor, hfactor.and rfl, (hfactor.and rfl).or rfl⟩
  | contains path needle =>
    have hfactor : ParsesFactor chars readers (.contains path needle) depth := fun _ =>
      parses_atom (parses_contains hp needle)
    exact ⟨hfactor, hfactor.and rfl, (hfactor.and rfl).or rfl⟩
  | and left right ihl ihr =>
    have hand : ∀ depth, ParsesAnd chars readers (.and left right) depth := by
      intro depth hlen toks b hloop hnext
      have htoks : (Predicate.and left right).toks .and =
          left.toks .and ++ .loose "&&" :: right.toks .factor := rfl
      rw [htoks, length_append, length_cons] at hlen
      rw [htoks, append_assoc]
      have hright := (ihr hp.2 depth).1 (by omega)
      exact (ihl hp.1 depth).2.1 (by omega) _ b
        ((parses_operand_next free_and hright).loop_next (cons_ne_nil _ _) hloop hnext)
        fun ts _ => .inr ⟨_, rfl⟩
    exact ⟨ParsesOr.factor (fun depth => (hand depth).or rfl) rfl, hand depth, (hand depth).or rfl⟩
  | or left right ihl ihr =>
    have hor : ∀ depth, ParsesOr chars readers (.or left right) depth := by
      intro depth hlen toks b hloop hnext
      have htoks : (Predicate.or left right).toks .or =
          left.toks .or ++ .loose "||" :: right.toks .and := rfl
      rw [htoks, length_append, length_cons] at hlen
      rw [htoks, append_assoc]
      have hright := (ihr hp.2 depth).2.1.parses (by omega)
      exact (ihl hp.1 depth).2.2 (by omega) _ b
        ((parses_operand_next free_or hright).loop_next (cons_ne_nil _ _) hloop hnext)
        fun ts _ => .inr ⟨_, rfl⟩
    have hfactor : ParsesFactor chars readers (.or left right) depth := ParsesOr.factor hor rfl
    exact ⟨hfactor, hfactor.and rfl, hor depth⟩

theorem parses_parsePredicate (hp : p.Printable chars) :
    Parses (parsePredicate chars readers) (p.toks .or) p EndsOr := by
  intro ts i hts hi
  have hterm : ∀ depth, (p.toks .or).length ≤ depth →
      Parses (parsePredicateTo chars readers (depth + 1)) (p.toks .or) p EndsOr :=
    fun depth hlen => (parses_levels hp depth).2.2.parses hlen
  obtain ⟨_, -, hlen, -⟩ := hterm _ le_rfl ts i hts hi
  obtain ⟨r, hr, hlen', hread⟩ := hterm i.length (by omega) ts i hts hi
  refine ⟨r, hr, hlen', fun s hs => ?_⟩
  have hrest : s.rest = i := hs
  have hrun := hread s hs
  unfold Wp at hrun ⊢
  unfold parsePredicate
  rw [hrest]
  exact hrun

end RhypeDb.QueryText
