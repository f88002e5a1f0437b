import RhypeDb.QueryText.Predicates

/-! The parser inverts printing. A source is told from the steps behind it by the name after the
first dot, where the parser goes back if that is no method of a type. -/

namespace RhypeDb.QueryText

open List Scan Storage
open Sdl (IsIdent IsMark IsWord isIdentChar isWord_ofList)

variable {chars : CharTable} {readers : Readers}

def Step.Printable (chars : CharTable) : Step → Prop
  | .traverse fieldName => IsIdent chars fieldName
  | .filter predicate => predicate.Printable chars
  | .similar fieldName _ k ef rerank => IsIdent chars fieldName ∧ k < 2 ^ 63 ∧
    (∀ n ∈ ef, 0 < n ∧ n < 2 ^ 63) ∧ ∀ n ∈ rerank, n < 2 ^ 63
  | .matches fieldName _ k => IsIdent chars fieldName ∧ k < 2 ^ 63
  | .update fields => fields.Printable chars
  | .delete => True
  | .link targetType targetId edgeFields =>
    IsIdent chars targetType ∧ targetId.toNat < 2 ^ 63 ∧ edgeFields.Printable chars
  | .unlink targetType targetId => IsIdent chars targetType ∧ targetId.toNat < 2 ^ 63
  | .limit count => count < 2 ^ 63
  | .offset count => count < 2 ^ 63

def Source.Printable (chars : CharTable) : Source → Prop
  | .get typeName id => IsIdent chars typeName ∧ id.toNat < 2 ^ 63
  | .filter typeName predicate => IsIdent chars typeName ∧ predicate.Printable chars
  | .create typeName fields => IsIdent chars typeName ∧ fields.Printable chars
  | .createBatch typeName rows =>
    IsIdent chars typeName ∧ ∀ fields ∈ rows, Fields.Printable chars fields
  | .all typeName => IsIdent chars typeName

/-- The names that a type's dot is followed by in a source. -/
def sourceMethods : List String := ["get", "filter", "create", "create_batch"]

def Step.ReadsAsSource : Step → Prop
  | .traverse fieldName => fieldName ∈ sourceMethods
  | .filter _ => True
  | _ => False

def Step.Moves : Step → Prop
  | .traverse _ | .similar _ _ _ _ _ | .matches _ _ _ => True
  | _ => False

def OffsetsFirst (steps : List Step) : Prop :=
  ∀ before between after count skipped,
    steps = before ++ .limit count :: (between ++ .offset skipped :: after) →
    ∃ step ∈ between, step.Moves

structure Query.Printable (chars : CharTable) (q : Query) : Prop where
  source : q.source.Printable chars
  steps : ∀ step ∈ q.steps, step.Printable chars
  first : ∀ typeName, q.source = .all typeName → ∀ step ∈ q.steps.head?, ¬ step.ReadsAsSource
  offsets : OffsetsFirst q.steps

section

variable {toks : List Tok} {Next : List Tok → Prop} {β : Type} {c : Char} {b : β}

theorem parses_number {n : Nat} (h : n < 2 ^ 63) {f : Nat → Parse β} (hc : IsMark c) (hne : c ≠ '.')
    (hf : Parses (f n) (.mark c :: toks) b Next) :
    Parses (parseCount >>= f) (numberTok n :: .mark c :: toks) b Next :=
  (parses_parseCount h).token hf fun _ _ => endsNumber_mark hc hne

theorem parses_name {name : String} (h : IsIdent chars name) {f : String → Parse β} (hc : IsMark c)
    (hf : Parses (f name) (.mark c :: toks) b Next) :
    Parses (parseIdent chars >>= f) (.loose name :: .mark c :: toks) b Next :=
  (parses_parseIdent h).token hf fun _ _ => endsWord_mark hc

theorem parses_skip_mark {k : Parse β} (hc : IsMark c) (hk : ParsesAt k (.mark c :: toks) b Next) :
    Parses (skipWs >>= fun _ => k) (.mark c :: toks) b Next :=
  ParsesAt.skip hk fun _ _ => ready_cons (free_mark hc)

variable {targetType : String} {targetId : UInt64}

theorem parses_parseTarget (htype : IsIdent chars targetType) (hid : targetId.toNat < 2 ^ 63) :
    Parses (parseTarget chars) (targetToks targetType targetId) (targetType, targetId)
      fun _ => True := by
  refine parses_expect (by decide) (parses_name htype (by decide) (parses_expect (by decide) ?_))
  refine (parses_expectStr (free_word (by decide))).token ?_ fun _ _ => trivial
  refine parses_expect (by decide) ((parses_parseId hid).token ?_ fun _ _ =>
    endsNumber_mark (by decide) (by decide))
  exact parses_expect (by decide) .pure

variable {fieldName : String} {rerank ef : Option Nat}

theorem parses_parseLink (htype : IsIdent chars targetType) (hid : targetId.toNat < 2 ^ 63)
    {edgeFields : Fields} (hfields : edgeFields.Printable chars)
    (htoks : StepPrinted (.link targetType targetId edgeFields) toks) :
    ∃ rest, toks = .loose "link" :: .mark '(' :: rest ∧
      Parses (parseLink chars readers) (.mark '(' :: rest) (.link targetType targetId edgeFields)
        fun _ => True := by
  have hclose : IsMark ')' := by decide
  have hcomma : IsMark ',' := by decide
  have htarget := parses_parseTarget htype hid
  rcases htoks with ⟨rfl, rfl⟩ | ⟨object, hobject, rfl⟩
  · have hnone : Parses (parseEdgeFields chars readers) [] .empty EndsOr := by
      refine ParsesAt.skip (ParsesAt.accept_not (c := ',') Parses.pure.at ?_ ?_) ?_
      all_goals
        rintro _ ⟨ts, rfl⟩
      · exact ready_cons (free_mark hclose)
      · exact firstChar_mark (by decide)
      · exact ready_cons (free_mark hclose)
    exact ⟨_, rfl, htarget.bind (hnone.bind (parses_expect hclose .pure) fun ts _ => ⟨ts, rfl⟩)
      fun _ _ => trivial⟩
  · have hsome : Parses (parseEdgeFields chars readers) (.mark ',' :: object) edgeFields
        fun _ => True :=
      parses_skip_mark hcomma (ParsesAt.accept (free_mark hcomma)
        (parses_parseObject readers hfields hobject))
    exact ⟨_, rfl, htarget.bind (hsome.bind (parses_expect hclose .pure) fun _ _ => trivial)
      fun _ _ => trivial⟩

theorem parses_parseUnlink (htype : IsIdent chars targetType) (hid : targetId.toNat < 2 ^ 63) :
    Parses (parseUnlink chars) (targetToks targetType targetId ++ [.mark ')'])
      (.unlink targetType targetId) Next :=
  (parses_parseTarget htype hid).bind (parses_expect (by decide) .pure) fun _ _ => trivial

theorem parses_parseSimilarParam {key : String} (hkey : IsWord key) {n : Nat} (hn : n < 2 ^ 63)
    {given given' : Option Nat × Option Nat}
    (hgiven : key = "ef" ∧ given.1 = none ∧ n ≠ 0 ∧ given' = (some n, given.2) ∨
      key = "rerank" ∧ given.2 = none ∧ given' = (given.1, some n)) :
    Parses (parseSimilarParam chars given) [.mark ',', .loose key, .mark ':', numberTok n]
      (.again given') EndsNumber := by
  have hcomma : IsMark ',' := by decide
  have hcolon : IsMark ':' := by decide
  have hready : ∀ ts, EndsNumber ts → Ready ([.loose key, .mark ':', numberTok n] ++ ts) :=
    fun _ _ => ready_cons (free_word hkey)
  refine parses_skip_mark hcomma (ParsesAt.accept (free_mark hcomma) (ParsesAt.skip
    (ParsesAt.looking_not ?_ hready fun ts _ => 
      firstChar_ident (hkey.isIdent : IsIdent chars key) (by decide)) hready))
  refine (parses_name hkey.isIdent hcolon (parses_skip_mark hcolon (Parses.at
    (parses_expect hcolon ((parses_parseCount hn).token ?_ fun _ hts => hts))))).at
  rcases hgiven with ⟨rfl, hnone, hzero, rfl⟩ | ⟨rfl, hnone, rfl⟩
  · change Parses (if given.1.isSome = true then _ else if n = 0 then _ else _) _ _ _
    rw [hnone, if_neg nofun, if_neg hzero]
    exact .pure
  · change Parses (if given.2.isSome = true then _ else _) _ _ _
    rw [hnone, if_neg nofun]
    exact .pure

theorem parses_similarParams (hef : ∀ n ∈ ef, 0 < n ∧ n < 2 ^ 63)
    (hrerank : ∀ n ∈ rerank, n < 2 ^ 63) :
    Parses (loop (parseSimilarParam chars) (none, none))
      (paramToks "ef" ef ++ paramToks "rerank" rerank) (ef, rerank) EndsOr := by
  have hclose : IsMark ')' := by decide
  have hcomma : IsMark ',' := by decide
  have hdone : ∀ given, Parses (loop (parseSimilarParam chars) given) [] given EndsOr := by
    refine fun given => .loop_done (ParsesAt.skip (ParsesAt.accept_not (c := ',') Parses.pure.at
      ?_ ?_) ?_)
    all_goals
      rintro _ ⟨ts, rfl⟩
    · exact ready_cons (free_mark hclose)
    · exact firstChar_mark (by decide)
    · exact ready_cons (free_mark hclose)
  have hends : ∀ ts, EndsOr ts → EndsNumber ts := by
    rintro _ ⟨ts, rfl⟩
    exact endsNumber_mark hclose (by decide)
  have hlast : Parses (loop (parseSimilarParam chars) (ef, none)) (paramToks "rerank" rerank)
      (ef, rerank) EndsOr := by
    cases rerank with
    | none => exact hdone _
    | some n =>
      exact (parses_parseSimilarParam (by decide) (hrerank n rfl) (.inr ⟨rfl, rfl, rfl⟩)).loop_next
        (cons_ne_nil _ _) (hdone _) hends
  cases ef with
  | none => exact hlast
  | some n =>
    obtain ⟨hpos, hlt⟩ := hef n rfl
    refine (parses_parseSimilarParam (by decide) hlt
      (.inl ⟨rfl, rfl, Nat.ne_zero_of_lt hpos, rfl⟩)).loop_next (cons_ne_nil _ _) hlast ?_
    intro ts hts
    cases rerank with
    | none => exact hends ts hts
    | some m => exact endsNumber_mark hcomma (by decide)

theorem free_k : (Tok.loose "k:").Free :=
  ⟨rfl, cons_ne_nil 'k' [':'], Flush.cons (c := 'k') (by decide)⟩

theorem parses_parseSimilar (hname : IsIdent chars fieldName) {s : String}
    {k : Nat} (hk : k < 2 ^ 63) (hef : ∀ n ∈ ef, 0 < n ∧ n < 2 ^ 63)
    (hrerank : ∀ n ∈ rerank, n < 2 ^ 63) :
    Parses (parseSimilar chars readers) (.mark '(' :: .mark '.' :: .loose fieldName :: .mark ',' ::
      .loose (qlStringLiteral s) :: .mark ',' :: .loose "k:" :: numberTok k ::
      (paramToks "ef" ef ++ paramToks "rerank" rerank ++ [.mark ')']))
      (.similar fieldName (.text s) k ef rerank) Next := by
  have hcomma : IsMark ',' := by decide
  have hquoted : ∀ ts, True → Ready ([.loose (qlStringLiteral s)] ++ ts) :=
    fun _ _ => ready_cons (free_qlStringLiteral s)
  have hquery : Parses (parseSimilarQuery readers) [.loose (qlStringLiteral s)] (.text s)
      fun _ => True :=
    ParsesAt.skip (ParsesAt.looking parses_parseStringLiteral.map.at hquoted
      fun ts _ => firstChar_qlStringLiteral) hquoted
  refine parses_expect (by decide) (parses_expect (by decide) (parses_name hname hcomma
    (parses_expect hcomma (hquery.token ?_ fun _ _ => trivial))))
  refine parses_expect hcomma (ParsesAt.skip (Parses.at ?_) fun _ _ => ready_cons free_k)
  refine (parses_expectStr free_k).token ?_ fun _ _ => trivial
  refine (parses_parseCount hk).token ((parses_similarParams hef hrerank).bind
    (parses_expect (by decide) .pure) fun ts _ => ⟨ts, rfl⟩) fun ts _ => ?_
  cases ef with
  | some n => exact endsNumber_mark hcomma (by decide)
  | none =>
    cases rerank with
    | some n => exact endsNumber_mark hcomma (by decide)
    | none => exact endsNumber_mark (by decide) (by decide)

theorem parses_parseMatches (hname : IsIdent chars fieldName) {s : String}
    {k : Nat} (hk : k < 2 ^ 63) : Parses (parseMatches chars)
      [.mark '(', .mark '.', .loose fieldName, .mark ',', .loose (qlStringLiteral s), .mark ',',
        .loose "k:", numberTok k, .mark ')'] (.matches fieldName s k) Next := by
  have hcomma : IsMark ',' := by decide
  have hclose : IsMark ')' := by decide
  have hquoted : ∀ toks ts, Next ts → Ready (.loose (qlStringLiteral s) :: toks ++ ts) :=
    fun _ _ _ => ready_cons (free_qlStringLiteral s)
  refine parses_expect (by decide) (parses_skip_mark (by decide) (Parses.at
    (parses_expect (by decide) (parses_name hname hcomma (parses_skip_mark hcomma (Parses.at
    (parses_expect hcomma (ParsesAt.skip (ParsesAt.looking ?_ (hquoted _)
      fun ts _ => firstChar_qlStringLiteral) (hquoted _)))))))))
  refine (parses_parseStringLiteral.token (parses_skip_mark hcomma (Parses.at
    (parses_expect hcomma (ParsesAt.skip (Parses.at ?_) fun _ _ => ready_cons free_k))))
    fun _ _ => trivial).at
  refine (parses_expectStr free_k).token (parses_number hk hclose (by decide)
    (parses_skip_mark hclose (ParsesAt.accept_not ?_ (fun _ _ => ready_cons (free_mark hclose))
      fun _ _ => firstChar_mark (by decide)))) fun _ _ => trivial
  change ParsesAt (expectChar ')' >>= fun _ => pure (Step.matches fieldName s k)) _ _ _
  exact Parses.at (parses_expect hclose .pure)

variable (readers) in
theorem parses_parseFunctionStep {step : Step} (hstep : step.Printable chars)
    (htoks : StepPrinted step toks) (hname : ∀ fieldName, step ≠ .traverse fieldName) :
    ∃ name rest, IsWord name ∧ (name = "filter" → ∃ predicate, step = .filter predicate) ∧
      name ∉ ["get", "create", "create_batch"] ∧ toks = .loose name :: .mark '(' :: rest ∧
      Parses (parseFunctionStep chars readers name) (.mark '(' :: rest) step fun _ => True := by
  have hopen : IsMark '(' := by decide
  have hclose : IsMark ')' := by decide
  cases step with
  | traverse fieldName => exact absurd rfl (hname fieldName)
  | filter predicate =>
    refine ⟨"filter", _, by decide, fun _ => ⟨_, rfl⟩, by decide, htoks, parses_expect hopen ?_⟩
    exact (parses_parsePredicate hstep).bind (parses_expect hclose .pure) fun ts _ => ⟨ts, rfl⟩
  | similar fieldName query k ef rerank =>
    cases query with
    | vector bits => exact htoks.elim
    | text s =>
      exact ⟨"similar", _, by decide, nofun, by decide, htoks,
        parses_parseSimilar hstep.1 hstep.2.1 hstep.2.2.1 hstep.2.2.2⟩
  | «matches» fieldName query k =>
    exact ⟨"matches", _, by decide, nofun, by decide, htoks,
      parses_parseMatches hstep.1 hstep.2⟩
  | update fields =>
    obtain ⟨object, hobject, rfl⟩ := htoks
    refine ⟨"update", _, by decide, nofun, by decide, rfl, parses_expect hopen ?_⟩
    exact (parses_parseObject readers hstep hobject).bind (parses_expect hclose .pure) fun _ _ => trivial
  | delete =>
    exact ⟨"delete", _, by decide, nofun, by decide, htoks,
      parses_expect hopen (parses_expect hclose .pure)⟩
  | link targetType targetId edgeFields =>
    obtain ⟨rest, htoks, hlink⟩ := parses_parseLink hstep.1 hstep.2.1 hstep.2.2 htoks
    exact ⟨"link", rest, by decide, nofun, by decide, htoks, hlink⟩
  | unlink targetType targetId =>
    exact ⟨"unlink", _, by decide, nofun, by decide, htoks,
      parses_parseUnlink hstep.1 hstep.2⟩
  | limit count =>
    exact ⟨"limit", _, by decide, nofun, by decide, htoks,
      parses_expect hopen (parses_number hstep hclose (by decide) (parses_expect hclose .pure))⟩
  | offset count =>
    exact ⟨"offset", _, by decide, nofun, by decide, htoks,
      parses_expect hopen (parses_number hstep hclose (by decide) (parses_expect hclose .pure))⟩

end

section

def EndsStep (ts : List Tok) : Prop := ts = [] ∨ ∃ ts', ts = .mark '.' :: ts'

theorem EndsStep.next {ts : List Tok} (h : EndsStep ts) {c : Char} (hc : '.' ≠ c) :
    EndsWord ts ∧ Ready ts ∧ firstChar ts ≠ some c := by
  rcases h with rfl | ⟨ts, rfl⟩
  · exact ⟨nofun, nofun, nofun⟩
  · exact ⟨endsWord_mark (by decide), ready_cons (free_mark (by decide)), firstChar_mark hc⟩

variable {toks : List Tok}

theorem parses_parseNamedStep {step : Step} (hstep : step.Printable chars)
    (htoks : StepPrinted step toks) : Parses (parseNamedStep chars readers) toks step EndsStep := by
  have hopen : IsMark '(' := by decide
  by_cases hname : ∃ fieldName, step = .traverse fieldName
  · obtain ⟨fieldName, rfl⟩ := hname
    have hident : IsIdent chars fieldName := hstep
    have hnext : ∀ ts, EndsStep ts → EndsWord ts ∧ Ready ts ∧ firstChar ts ≠ some '(' :=
      fun ts hts => hts.next (by decide)
    obtain rfl : toks = [.loose fieldName] := htoks
    refine ParsesAt.skip (Parses.at ?_) fun _ _ => ready_cons (free_ident hident)
    refine (parses_parseIdent hident).token (ParsesAt.skip (ParsesAt.looking_not
      Parses.pure.at ?_ ?_) ?_) fun ts hts => (hnext ts hts).1
    · exact fun ts hts => (hnext ts hts).2.1
    · exact fun ts hts => (hnext ts hts).2.2
    · exact fun ts hts => (hnext ts hts).2.1
  · obtain ⟨name, args, hword, -, -, rfl, hargs⟩ := parses_parseFunctionStep readers
      hstep htoks (not_exists.mp hname)
    have hready : ∀ ts, EndsStep ts → Ready (.mark '(' :: args ++ ts) :=
      fun _ _ => ready_cons (free_mark hopen)
    refine ParsesAt.skip (Parses.at ?_) fun _ _ => ready_cons (free_word hword)
    refine parses_name hword.isIdent hopen (parses_skip_mark hopen (ParsesAt.looking ?_ hready
      fun _ _ => rfl))
    exact (hargs.mono fun _ _ => trivial).at

variable {steps : List Step} {sawLimit : Bool}

theorem parses_parseStep {step : Step} (hstep : step.Printable chars)
    (htoks : StepPrinted step toks)
    (hoffset : ¬ (step.isOffset = true ∧ sawLimit = true)) :
    Parses (parseStep chars readers (steps, sawLimit)) (.mark '.' :: toks)
      (.again (steps ++ [step], sawLimitAfter sawLimit step)) EndsStep := by
  have hdot : IsMark '.' := by decide
  refine parses_skip_mark hdot (ParsesAt.accept (free_mark hdot) ?_)
  rw [← append_nil toks]
  refine (parses_parseNamedStep hstep htoks).bind ?_ fun _ hts => hts
  rw [if_neg hoffset]
  exact .pure

def NoOffset (steps : List Step) : Prop :=
  ∀ before after skipped, steps = before ++ .offset skipped :: after → ∃ step ∈ before, step.Moves

theorem NoOffset.nil : NoOffset [] := by
  intro before after skipped h
  exact absurd h.symm (append_ne_nil_of_right_ne_nil _ (cons_ne_nil _ _))

theorem OffsetsFirst.nil : OffsetsFirst [] := by
  intro before between after count skipped h
  exact absurd h.symm (append_ne_nil_of_right_ne_nil _ (cons_ne_nil _ _))

theorem OffsetsFirst.cons {step : Step} (h : OffsetsFirst steps)
    (hlimit : ∀ count, step = .limit count → NoOffset steps) : OffsetsFirst (step :: steps) := by
  intro before between after count skipped heq
  cases before with
  | nil =>
    obtain ⟨hstep, hsteps⟩ := List.cons.inj heq
    exact hlimit count hstep between after skipped hsteps
  | cons first before => exact h before between after count skipped (List.cons.inj heq).2

theorem OffsetsFirst.step {step : Step} (h : OffsetsFirst (step :: steps))
    (hsaw : sawLimit = true → NoOffset (step :: steps)) :
    ¬ (step.isOffset = true ∧ sawLimit = true) ∧ OffsetsFirst steps ∧
      (sawLimitAfter sawLimit step = true → NoOffset steps) := by
  have htail : ¬ step.Moves → sawLimit = true → NoOffset steps := by
    rintro hstay hlimit before after skipped rfl
    obtain ⟨moving, hmem, hmoves⟩ := hsaw hlimit (step :: before) after skipped rfl
    rcases mem_cons.mp hmem with rfl | hmem
    · exact absurd hmoves hstay
    · exact ⟨moving, hmem, hmoves⟩
  refine ⟨?_, ?_, ?_⟩
  · rintro ⟨hoffset, hlimit⟩
    cases step with
    | offset skipped =>
      obtain ⟨_, hmem, -⟩ := hsaw hlimit [] steps skipped rfl
      cases hmem
    | _ => cases hoffset
  · rintro before between after count skipped rfl
    exact h (step :: before) between after count skipped rfl
  · intro hafter
    cases step with
    | limit count =>
      rintro before after skipped rfl
      exact h [] before after count skipped rfl
    | traverse | similar | «matches» => cases hafter
    | filter | update | delete | link | unlink | offset => exact htail (fun h => h) hafter

variable (readers) in
theorem parses_steps (hsteps : ∀ step ∈ steps, step.Printable chars)
    (htoks : StepsPrinted steps toks) (before : List Step) (sawLimit : Bool)
    (hfirst : OffsetsFirst steps) (hsaw : sawLimit = true → NoOffset steps) :
    Parses (loop (parseStep chars readers) (before, sawLimit)) toks (before ++ steps)
      fun ts => ts = [] := by
  induction steps generalizing toks before sawLimit with
  | nil =>
    obtain rfl : toks = [] := htoks
    rw [append_nil]
    refine .loop_done (ParsesAt.skip (ParsesAt.accept_not (c := '.') Parses.pure.at ?_ ?_) ?_)
    all_goals
      rintro _ rfl
      exact nofun
  | cons step steps ih =>
    obtain ⟨first, more, hprinted, hmore, rfl⟩ := htoks
    rw [forall_mem_cons] at hsteps
    obtain ⟨hoffset, hrest, hsaw'⟩ := hfirst.step hsaw
    have htail := ih hsteps.2 hmore (before ++ [step]) _ hrest hsaw'
    rw [append_assoc] at htail
    refine (parses_parseStep hsteps.1 hprinted hoffset).loop_next (cons_ne_nil _ _) htail ?_
    rintro _ rfl
    rw [append_nil]
    cases steps with
    | nil => exact .inl hmore
    | cons step steps =>
      obtain ⟨_, _, _, _, rfl⟩ := hmore
      exact .inr ⟨_, rfl⟩

end

section

variable {Next : List Tok → Prop} {typeName method : String} {source : Source}

theorem parses_method (htype : IsIdent chars typeName) (hmethod : IsWord method) {args : List Tok}
    (hparse : Parses (parseSourceMethod chars readers typeName method (.new ""))
      (.mark '(' :: args) source Next)
    (hsaved : ∀ saved, parseSourceMethod chars readers typeName method saved =
      parseSourceMethod chars readers typeName method (.new "")) :
    Parses (parseSource chars readers)
      (.loose typeName :: .mark '.' :: .loose method :: .mark '(' :: args) source Next := by
  have hdot : IsMark '.' := by decide
  have hopen : IsMark '(' := by decide
  intro ts i hts hi
  obtain ⟨r₁, hr₁, hlen₁, hread₁⟩ := parses_parseIdent htype _ i (endsWord_mark hdot) hi
  obtain ⟨hr₂, hflush₂⟩ := hr₁.drop (ready_cons (free_mark hdot))
  obtain ⟨r₃, hr₃, hwritten₃⟩ := hr₂.flush hflush₂
  have heq : r₁.dropWhile isWhitespace = '.' :: r₃ := hr₃
  obtain ⟨r₄, hr₄, hlen₄, hread₄⟩ :=
    parses_parseIdent (hmethod.isIdent : IsIdent chars method) _ r₃ (endsWord_mark hopen) hwritten₃
  obtain ⟨hr₅, -⟩ := hr₄.drop (ready_cons (free_mark hopen))
  obtain ⟨r₆, hr₆, hlen₆, hread₆⟩ := hparse ts _ hts hr₅
  have hdrop₁ := length_dropWhile_le isWhitespace r₁
  have hdrop₄ := length_dropWhile_le isWhitespace r₄
  refine ⟨r₆, hr₆, ?_, hread₁.bind (reads_skipBlank.bind (Reads.get_bind fun saved _ => ?_))⟩
  · rw [heq] at hdrop₁
    simp only [length_cons, length_nil] at *
    omega
  · rw [heq]
    refine Reads.accept.bind (hread₄.bind (reads_skipBlank.bind ?_))
    rw [hsaved]
    exact hread₆

def EndsType (chars : CharTable) (ts : List Tok) : Prop :=
  ts = [] ∨ ∃ name ts', ts = .mark '.' :: .loose name :: ts' ∧ IsIdent chars name ∧
    name ∉ sourceMethods ∧ EndsWord ts' ∧ Ready ts'

theorem parseSourceMethod_other {saved : Parser}
    (h : method ∉ sourceMethods) : parseSourceMethod chars readers typeName method saved = do
      set saved
      return .all typeName := by
  unfold parseSourceMethod
  split
  all_goals first | rfl | exact absurd (by decide) h

theorem parses_all (htype : IsIdent chars typeName) :
    Parses (parseSource chars readers) [.loose typeName] (.all typeName) (EndsType chars) := by
  have hdot : IsMark '.' := by decide
  intro ts i hts hi
  rcases hts with rfl | ⟨name, ts, rfl, hname, hother, hword, hready⟩
  · obtain ⟨r, hr, hlen, hread⟩ := parses_parseIdent htype [] i nofun hi
    obtain ⟨hr', hflush⟩ := hr.drop nofun
    have hnil := hr'.flush_nil hflush
    refine ⟨[], nofun, ?_, hread.bind (reads_skipBlank.bind (Reads.get_bind fun saved _ => ?_))⟩
    · rw [length_nil]
      omega
    · rw [hnil]
      exact (reads_accept_not fun _ hd => by cases hd).bind .pure
  · obtain ⟨r₁, hr₁, hlen₁, hread₁⟩ := parses_parseIdent htype _ i (endsWord_mark hdot) hi
    obtain ⟨hr₂, hflush₂⟩ := hr₁.drop (ready_cons (free_mark hdot))
    obtain ⟨r₃, heq, hr₃⟩ := hr₂.flush hflush₂
    obtain ⟨r₄, hr₄, -, hread₄⟩ := parses_parseIdent hname _ r₃ hword hr₃
    have hdrop := length_dropWhile_le isWhitespace r₁
    refine ⟨_, hr₂, by omega, hread₁.bind (reads_skipBlank.bind
      (Reads.get_bind fun saved hsaved => ?_))⟩
    rw [heq] at hsaved ⊢
    refine Reads.accept.bind (hread₄.bind (reads_skipBlank.bind ?_))
    rw [parseSourceMethod_other hother]
    exact (Reads.set hsaved).bind .pure

variable (readers) in
theorem parses_moreRows {rows : List Fields} (hrows : ∀ fields ∈ rows, Fields.Printable chars fields)
    {objects : List (List Tok)} (hobjects : List.Forall₂ ObjectPrinted rows objects)
    (before : List Fields) :
    Parses (loop (parseRow chars readers) before) (objects.flatMap (.mark ',' :: ·))
      (before ++ rows) fun ts => ∃ ts', ts = .mark ']' :: ts' := by
  have hcomma : IsMark ',' := by decide
  have hclose : IsMark ']' := by decide
  induction hobjects generalizing before with
  | nil =>
    rw [append_nil]
    refine .loop_done (ParsesAt.skip (ParsesAt.accept_not (c := ',') Parses.pure.at ?_ ?_) ?_)
    all_goals
      rintro _ ⟨ts, rfl⟩
    · exact ready_cons (free_mark hclose)
    · exact firstChar_mark (by decide)
    · exact ready_cons (free_mark hclose)
  | @cons row object rows objects hobject _ ih =>
    rw [forall_mem_cons] at hrows
    have htail := ih hrows.2 (before ++ [row])
    rw [append_assoc] at htail
    have hobj := parses_parseObject readers hrows.1 hobject
    obtain ⟨es, -, rfl⟩ := hobject
    have hbrace : ∀ ts, True → Ready (.mark '\x7b' :: (fieldToks es ++ [.mark '\x7d']) ++ ts) :=
      fun _ _ => ready_cons (free_mark (by decide))
    have hrow : Parses (parseRow chars readers before) _ (.again (before ++ [row])) fun _ => True :=
      parses_skip_mark hcomma (ParsesAt.accept (free_mark hcomma) (ParsesAt.skip
        (ParsesAt.looking_not hobj.map.at hbrace fun _ _ => firstChar_mark (by decide)) hbrace))
    exact hrow.loop_next (cons_ne_nil _ _) htail fun _ _ => trivial

theorem rowToks_cons (object : List Tok) (objects : List (List Tok)) :
    rowToks (object :: objects) = object ++ objects.flatMap (.mark ',' :: ·) := by
  induction objects generalizing object with
  | nil => exact (append_nil object).symm
  | cons next objects ih =>
    rw [rowToks, ih, flatMap_cons]
    · rfl
    · exact cons_ne_nil _ _

theorem parses_parseRows {rows : List Fields}
    (hrows : ∀ fields ∈ rows, Fields.Printable chars fields) {objects : List (List Tok)}
    (hobjects : List.Forall₂ ObjectPrinted rows objects) :
    Parses (parseRows chars readers) (rowToks objects) rows
      fun ts => ∃ ts', ts = .mark ']' :: ts' := by
  cases hobjects with
  | nil =>
    refine ParsesAt.skip (ParsesAt.looking Parses.pure.at ?_ ?_) ?_
    all_goals
      rintro _ ⟨ts, rfl⟩
    · exact ready_cons (free_mark (by decide))
    · rfl
    · exact ready_cons (free_mark (by decide))
  | @cons row object rows objects hobject hobjects =>
    rw [forall_mem_cons] at hrows
    have hmore := parses_moreRows readers hrows.2 hobjects [row]
    have hobj := parses_parseObject readers hrows.1 hobject
    obtain ⟨es, -, rfl⟩ := hobject
    rw [rowToks_cons]
    refine ParsesAt.skip (ParsesAt.looking_not (Parses.at ?_) ?_ ?_) ?_
    · exact hobj.bind hmore fun _ _ => trivial
    · exact fun _ _ => ready_cons (free_mark (by decide))
    · exact fun _ _ => firstChar_mark (by decide)
    · exact fun _ _ => ready_cons (free_mark (by decide))

variable (readers) in
theorem parses_parseSource (hsource : source.Printable chars) {toks : List Tok}
    (htoks : SourcePrinted source toks) :
    Parses (parseSource chars readers) toks source
      fun ts => ∀ typeName, source = .all typeName → EndsType chars ts := by
  have hopen : IsMark '(' := by decide
  have hclose : IsMark ')' := by decide
  cases source with
  | get typeName id =>
    obtain rfl : toks = _ := htoks
    refine parses_method hsource.1 (by decide) (parses_expect hopen ?_) fun _ => rfl
    exact (parses_parseId hsource.2).token (parses_expect hclose .pure)
      fun _ _ => endsNumber_mark hclose (by decide)
  | filter typeName predicate =>
    obtain rfl : toks = _ := htoks
    refine parses_method hsource.1 (by decide) (parses_expect hopen ?_) fun _ => rfl
    exact (parses_parsePredicate hsource.2).bind (parses_expect hclose .pure) fun ts _ => ⟨ts, rfl⟩
  | create typeName fields =>
    obtain ⟨object, hobject, rfl⟩ := htoks
    refine parses_method hsource.1 (by decide) (parses_expect hopen ?_) fun _ => rfl
    exact (parses_parseObject readers hsource.2 hobject).bind (parses_expect hclose .pure)
      fun _ _ => trivial
  | createBatch typeName rows =>
    obtain ⟨objects, hobjects, rfl⟩ := htoks
    have hbracket : IsMark '[' := by decide
    refine parses_method hsource.1 (by decide) (parses_expect hopen ?_) fun _ => rfl
    refine parses_skip_mark hbracket (Parses.at (parses_expect hbracket ?_))
    refine (parses_parseRows hsource.2 hobjects).bind (parses_expect (by decide)
      (parses_skip_mark hclose (Parses.at (parses_expect hclose .pure)))) fun ts _ => ⟨_, rfl⟩
  | all typeName =>
    obtain rfl : toks = _ := htoks
    exact (parses_all hsource).mono fun ts hts => hts typeName rfl

end

theorem endsType_steps {steps : List Step} (hsteps : ∀ step ∈ steps, step.Printable chars)
    (hfirst : ∀ step ∈ steps.head?, ¬ step.ReadsAsSource) {toks : List Tok}
    (htoks : StepsPrinted steps toks) : EndsType chars toks := by
  cases steps with
  | nil => exact .inl htoks
  | cons step steps =>
    obtain ⟨first, more, hprinted, hmore, rfl⟩ := htoks
    have hstep := hsteps step mem_cons_self
    have hnot := hfirst step rfl
    by_cases hname : ∃ fieldName, step = .traverse fieldName
    · obtain ⟨fieldName, rfl⟩ := hname
      obtain rfl : first = [.loose fieldName] := hprinted
      have hends : EndsStep more := by
        cases steps with
        | nil => exact .inl hmore
        | cons step steps =>
          obtain ⟨_, _, _, _, rfl⟩ := hmore
          exact .inr ⟨_, rfl⟩
      have hnext := hends.next (c := '(') (by decide)
      exact .inr ⟨fieldName, more, rfl, hstep, hnot, hnext.1, hnext.2.1⟩
    · obtain ⟨name, args, hword, hfilter, hother, rfl, -⟩ :=
        parses_parseFunctionStep .none hstep hprinted (not_exists.mp hname)
      refine .inr ⟨name, _, rfl, hword.isIdent, ?_, endsWord_mark (by decide),
        ready_cons (free_mark (by decide))⟩
      intro hmem
      rcases mem_cons.mp hmem with rfl | hmem
      · exact hother mem_cons_self
      · rcases mem_cons.mp hmem with rfl | hmem
        · obtain ⟨predicate, rfl⟩ := hfilter rfl
          exact hnot trivial
        · exact hother (mem_cons_of_mem _ hmem)

/-- What a query is printed as, the parser makes that query of. -/
theorem parse_printed (chars : CharTable) (readers : Readers) (q : Query)
    (hq : q.Printable chars) (text : String) (h : Prints q text) :
    parseQuery chars readers text = some (.ok q) := by
  obtain ⟨source, steps, hsource, hsteps, hwritten⟩ := h
  obtain ⟨r₁, hr₁, -, hread₁⟩ := parses_parseSource readers hq.source hsource steps _
    (fun typeName hall => endsType_steps hq.steps (hq.first typeName hall) hsteps) hwritten
  rw [← append_nil steps] at hr₁
  obtain ⟨r₂, hr₂, -, hread₂⟩ := parses_steps readers hq.steps hsteps [] false hq.offsets
    nofun [] r₁ rfl hr₁
  obtain ⟨hr₃, hflush⟩ := hr₂.drop nofun
  have hread : Reads (parseQueryParts chars readers) text.toList q [] := by
    refine hread₁.bind (hread₂.bind (reads_skipBlank.bind ?_))
    rw [hr₃.flush_nil hflush]
    exact Reads.peek.bind .pure
  obtain ⟨s, hrun, -⟩ := hread.exists_ok (s := .new text) rfl
  change Option.map _ (parseQueryParts chars readers (.new text)) = _
  rw [hrun]
  rfl

theorem written_flat (ts : List Tok) : Written ts (ts.flatMap Tok.text) := by
  induction ts with
  | nil => exact forall_mem_nil _
  | cons t ts ih => exact written_text ih

theorem prints_of_text {q : Query} {text : String} {source steps : List Tok}
    (hsource : SourcePrinted q.source source) (hsteps : StepsPrinted q.steps steps)
    (h : text.toList = (source ++ steps).flatMap Tok.text) : Prints q text :=
  ⟨source, steps, hsource, hsteps, h ▸ written_flat _⟩

def postsQuery : Query where
  source := .get "User" 7
  steps := [.traverse "posts",
    .filter (.and (.or (.compare "likes" .ge (.int (-3))) (.contains "title" "a\"b"))
      (.compare ("tags" ++ "." ++ "name") .ne .null)), .offset 2, .limit 3]

theorem postsQuery_printable : postsQuery.Printable .ascii := by
  have hident {cs : List Char} (h) : IsIdent .ascii (String.ofList cs) := (isWord_ofList h).isIdent
  have hlikes : IsIdent .ascii "likes" := hident rfl
  have htitle : IsIdent .ascii "title" := hident rfl
  have hpath : IsPath .ascii ("tags" ++ "." ++ "name") :=
    .two (hident rfl) (hident rfl) (by rintro _ ⟨⟩; exact .inl rfl)
  refine ⟨⟨hident rfl, by decide⟩, ?_, nofun, ?_⟩
  · have htwo : 2 < 2 ^ 63 := by decide
    have hthree : 3 < 2 ^ 63 := by decide
    simp only [postsQuery, forall_mem_cons]
    exact ⟨hident rfl, ⟨⟨⟨.one hlikes, trivial⟩, .one htitle⟩, hpath, trivial⟩, htwo,
      hthree, forall_mem_nil _⟩
  · exact (((OffsetsFirst.nil.cons fun _ _ => .nil).cons fun _ h => by cases h).cons
      fun _ h => by cases h).cons nofun

theorem parse_printed_posts : parseQuery .ascii .none ("User.get(7).posts.filter((.likes>=-3||" ++
    ".title.contains(\"a\\\"b\"))&&.tags.name!=null).offset(2).limit(3)") =
      some (.ok postsQuery) := by
  refine parse_printed .ascii .none postsQuery postsQuery_printable _ (prints_of_text rfl
    ⟨_, _, rfl, ⟨_, _, rfl, ⟨_, _, rfl, ⟨_, _, rfl, rfl, rfl⟩, rfl⟩, rfl⟩, rfl⟩ ?_)
  refine String.toList_append.trans ((congrArg₂ _ String.toList_ofList String.toList_ofList).trans ?_)
  decide +kernel

theorem numberTok_high : numberTok (9223372036854775808 : UInt64).toNat =
    .loose "9223372036854775808" := by decide +kernel

/-- A filter right behind a type, and a traversal of the name of a method, are read as a source;
an identifier that is negative as a signed integer, a path of three names or with a digit behind
its dot, and no candidates at all, are not read. Without parentheses, operands of one operator are
grouped to the left. -/
theorem printed_otherwise :
    (Prints ⟨.all "T", [.filter (.compare "a" .eq .null)]⟩ "T.filter(.a==null)" ∧
      parseQuery .ascii .none "T.filter(.a==null)" =
        some (.ok ⟨.filter "T" (.compare "a" .eq .null), []⟩)) ∧
    (Prints ⟨.all "T", [.traverse "get"]⟩ "T.get" ∧
      parseQuery .ascii .none "T.get" = some (.error (.parse 5 "expected '(', got EOF"))) ∧
    (Prints ⟨.get "T" 9223372036854775808, []⟩ "T.get(9223372036854775808)" ∧
      parseQuery .ascii .none "T.get(9223372036854775808)" =
        some (.error (.parse 25 "invalid integer"))) ∧
    (Prints ⟨.filter "T" (.compare "a.b.c" .eq .null), []⟩ "T.filter(.a.b.c==null)" ∧
      parseQuery .ascii .none "T.filter(.a.b.c==null)" =
        some (.error (.parse 11 "expected comparison operator"))) ∧
    (Prints ⟨.filter "T" (.compare "a.1" .eq .null), []⟩ "T.filter(.a.1==null)" ∧
      parseQuery .ascii .none "T.filter(.a.1==null)" =
        some (.error (.parse 11 "expected comparison operator"))) ∧
    (Prints ⟨.all "T", [.similar "f" (.text "x") 1 (some 0) none]⟩
        "T.similar(.f,\"x\",k:1,ef:0)" ∧
      parseQuery .ascii .none "T.similar(.f,\"x\",k:1,ef:0)" =
        some (.error (.parse 25 "ef must be >= 1"))) ∧
    parseQuery .ascii .none "T.filter(.a==null&&.b==null&&.c==null)" =
      some (.ok ⟨.filter "T" (.and (.and (.compare "a" .eq .null) (.compare "b" .eq .null))
        (.compare "c" .eq .null)), []⟩) := by
  have hget : Prints ⟨.get "T" 9223372036854775808, []⟩ "T.get(9223372036854775808)" := by
    refine ⟨[.loose "T", .mark '.', .loose "get", .mark '(', .loose "9223372036854775808",
      .mark ')'], [], ?_, rfl, written_flat _⟩
    change _ = [Tok.loose "T", .mark '.', .loose "get", .mark '(',
      numberTok (9223372036854775808 : UInt64).toNat, .mark ')']
    rw [numberTok_high]
  refine ⟨⟨prints_of_text rfl ⟨_, _, rfl, rfl, rfl⟩ (by decide +kernel), by decide +kernel⟩,
    ⟨prints_of_text rfl ⟨_, _, rfl, rfl, rfl⟩ (by decide +kernel), by decide +kernel⟩,
    ⟨hget, by decide +kernel⟩,
    ⟨prints_of_text rfl rfl (by decide +kernel), by decide +kernel⟩,
    ⟨prints_of_text rfl rfl (by decide +kernel), by decide +kernel⟩,
    ⟨prints_of_text rfl ⟨_, _, rfl, rfl, rfl⟩ (by decide +kernel), by decide +kernel⟩,
    by decide +kernel⟩

end RhypeDb.QueryText
