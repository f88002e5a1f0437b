import Mathlib.Data.List.DropRight
import RhypeDb.Basic.ByteReader
import RhypeDb.Basic.Scan
import RhypeDb.Fulltext.Index
import RhypeDb.Fulltext.Search

/-! `parse_query`: one loop over the characters of a `.matches` text and their byte indices. What
a turn of it finds is in the characters that it passes, so that a text falls apart at whitespace
between two turns. The analyzer is a parameter, of which `English` is one. -/

namespace RhypeDb.Fulltext

open ByteReader Fallible List Nat Scan

section

structure Analyzed where
  tokens : List Token
  stopWordsDropped : Nat

/-- `analyze_opts`, by the text and whether stop words are kept: without them it gives what it gives
with them, less some tokens, and counts these. -/
structure TextAnalyzer where
  analyzeOpts : List Char → Bool → Analyzed
  ascending : ∀ text keep, (analyzeOpts text keep).tokens.Pairwise fun s t => s.position < t.position
  dropped : ∀ text, (analyzeOpts text false).tokens.Sublist (analyzeOpts text true).tokens
  counted : ∀ text, (analyzeOpts text false).tokens.length +
    (analyzeOpts text false).stopWordsDropped = (analyzeOpts text true).tokens.length

inductive QuerySyntaxError
  | unterminatedPhrase
  | noSearchableTerms
  | prefixTooShort (raw : List Char) (text : String)
  | prefixInPhrase (phrase : List Char)
  | queryTooLong (bytes : Nat)
  | tooManyTerms
  | phraseTooLong
  deriving DecidableEq

def minPrefixChars : Nat := 2

def maxQueryBytes : Nat := 16 * 1024

def maxQueryTerms : Nat := 256

def maxPhraseTerms : Nat := 32

/-- `char_indices`: what is left, and the byte index of its first character. -/
structure CharIndices where
  rest : List Char
  index : Nat

instance : Cursor CharIndices where
  rest := CharIndices.rest
  step chars c cs := { rest := cs, index := chars.index + c.utf8Size }
  rest_step _ _ _ := rfl

def byteLen (cs : List Char) : Nat := (cs.map Char.utf8Size).sum

/-- `split_at`, or nothing inside of a character. -/
def splitBytes : Nat → List Char → Option (List Char × List Char)
  | 0, cs => some ([], cs)
  | _ + 1, [] => none
  | n + 1, c :: cs =>
    if c.utf8Size ≤ n + 1 then
      (splitBytes (n + 1 - c.utf8Size) cs).map fun (front, back) => (c :: front, back)
    else none

/-- `&raw[start..end]`. -/
def slice {ε : Type} (raw : List Char) (start stop : Nat) : Except (Stop ε) (List Char) :=
  match (splitBytes start raw).bind fun (_, cs) => splitBytes (stop - start) cs with
  | some (text, _) => if start ≤ stop then .ok text else .error .panic
  | none => .error .panic

structure Findings where
  clauses : List Clause := []
  stopWordsDropped : Nat := 0

theorem terms_ne_nil (term : String) : [term] ≠ [] := List.cons_ne_nil _ _

def Clause.term (term : String) (required : Bool) : Clause :=
  { required, terms := [term], isPrefix := false, offsets := [], nonempty := terms_ne_nil term }

def Clause.prefixOf (text : String) (required : Bool) : Clause :=
  { required, terms := [text ++ "*"], isPrefix := true, offsets := [],
    nonempty := List.cons_ne_nil _ _ }

def phraseClause (required : Bool) : List Token → List Clause
  | [] => []
  | first :: tokens =>
    [{ required
       terms := (first :: tokens).map Token.term
       isPrefix := false
       offsets := if tokens = [] then []
         else (first :: tokens).map fun t => t.position - first.position
       nonempty := List.cons_ne_nil _ _ }]

def turned (found : Except QuerySyntaxError Findings) (behind : CharIndices) :
    Except (Stop QuerySyntaxError) (Findings × CharIndices) :=
  match found with
  | .error e => .error (.error e)
  | .ok found => .ok (found, behind)

variable (raw : List Char) (analyzer : TextAnalyzer) (required : Bool)

def phraseOf (text : List Char) : Except QuerySyntaxError Findings :=
  if '*' ∈ text then .error (.prefixInPhrase text)
  else
    let analyzed := analyzer.analyzeOpts text false
    if maxPhraseTerms < analyzed.tokens.length then .error .phraseTooLong
    else .ok
      { clauses := phraseClause required analyzed.tokens
        stopWordsDropped := analyzed.stopWordsDropped }

/-- The last word before a `*`: a stop word is no term. -/
def prefixToken (stem : List Char) : Except QuerySyntaxError (Option String) :=
  match (analyzer.analyzeOpts stem true).tokens.getLast? with
  | none => .error (.prefixTooShort stem "")
  | some t =>
    if ¬ ∃ d ∈ (analyzer.analyzeOpts stem false).tokens, d.position = t.position then .ok none
    else if minPrefixChars ≤ t.term.length then .ok (some t.term)
    else .error (.prefixTooShort stem t.term)

def wordOf (word : List Char) : Except QuerySyntaxError Findings := do
  let stem := word.rdropWhile (· == '*')
  let analyzed := analyzer.analyzeOpts stem false
  let text ← (if byteLen stem ≠ byteLen word then prefixToken analyzer stem else .ok none)
  let tokens := if text.isSome then analyzed.tokens.dropLast else analyzed.tokens
  pure
    { clauses := tokens.map (fun t => .term t.term required) ++
        text.toList.map fun text => .prefixOf text required
      stopWordsDropped := analyzed.stopWordsDropped }

def isText (c : Char) : Bool := c != '"'

def quoted (start : Nat) (chars : CharIndices) :
    Except (Stop QuerySyntaxError) (Findings × CharIndices) :=
  let before := passWhile isText chars chars.rest
  match before.rest with
  | [] => .error (.error .unterminatedPhrase)
  | c :: cs => do
    let text ← slice raw (start + 1) before.index
    turned (phraseOf analyzer required text) (step before c cs)

def isBare (c : Char) : Bool := !(isWhitespace c || c == '"')

def bareText (chars : CharIndices) : Except (Stop QuerySyntaxError) (Findings × CharIndices) := do
  let behind := passWhile isBare chars chars.rest
  let word ← slice raw chars.index (if behind.rest = [] then byteLen raw else behind.index)
  turned (wordOf analyzer required word) behind

def clauseAt (chars : CharIndices) (c : Char) (cs : List Char) :
    Except (Stop QuerySyntaxError) (Findings × CharIndices) :=
  if c = '"' then quoted raw analyzer required chars.index (step chars c cs)
  else bareText raw analyzer required chars

/-- One turn of the loop, at a character that is there. A `+` before whitespace is skipped. -/
def turn (chars : CharIndices) (c : Char) (cs : List Char) :
    Except (Stop QuerySyntaxError) (Findings × CharIndices) :=
  if isWhitespace c then .ok ({}, step chars c cs)
  else if c = '+' then
    let chars := step chars c cs
    match chars.rest with
    | [] => .ok ({}, chars)
    | c :: cs =>
      if isWhitespace c then .ok ({}, chars) else clauseAt raw analyzer true chars c cs
  else clauseAt raw analyzer false chars c cs

structure Parse where
  clauses : List Clause := []
  termCount : Nat := 0
  stopWordsDropped : Nat := 0

def Parse.push (st : Parse) (clause : Clause) : Except QuerySyntaxError Parse :=
  let termCount := st.termCount + clause.terms.length
  if maxQueryTerms < termCount then .error .tooManyTerms
  else .ok { st with clauses := st.clauses ++ [clause], termCount }

def Parse.add (st : Parse) (found : Findings) : Except QuerySyntaxError Parse :=
  found.clauses.foldlM Parse.push
    { st with stopWordsDropped := st.stopWordsDropped + found.stopWordsDropped }

def Ahead (chars behind : CharIndices) : Prop :=
  ∃ passed, passed ≠ [] ∧ chars.rest = passed ++ behind.rest ∧
    behind.index = chars.index + byteLen passed

end

section

variable {raw mid post cs t : List Char} {chars behind : CharIndices} {p : Char → Bool} {c : Char}

theorem byteLen_cons : byteLen (c :: cs) = c.utf8Size + byteLen cs := rfl

theorem byteLen_append : byteLen (mid ++ post) = byteLen mid + byteLen post := by
  unfold byteLen
  rw [map_append, sum_append_nat]

theorem splitBytes_append (pre s : List Char) :
    splitBytes (byteLen pre) (pre ++ s) = some (pre, s) := by
  induction pre with
  | nil =>
    cases s with
    | nil => rfl
    | cons c s => rfl
  | cons c pre ih =>
    have hpos := c.utf8Size_pos
    obtain ⟨n, hn⟩ : ∃ n, byteLen (c :: pre) = n + 1 :=
      exists_eq_add_one.mpr (by rw [byteLen_cons]; omega)
    have hle : c.utf8Size ≤ n + 1 := by
      rw [← hn, byteLen_cons]
      exact le_add_right _ _
    have hrest : n + 1 - c.utf8Size = byteLen pre := by
      rw [← hn, byteLen_cons]
      exact Nat.add_sub_cancel_left _ _
    rw [hn, cons_append, splitBytes, if_pos hle, hrest, ih]
    rfl

def At (raw : List Char) (chars : CharIndices) : Prop :=
  ∃ pre, raw = pre ++ chars.rest ∧ chars.index = byteLen pre

theorem At.slice (h : At raw chars) (hrest : chars.rest = mid ++ post) {ε : Type} :
    slice (ε := ε) raw chars.index (chars.index + byteLen mid) = .ok mid := by
  obtain ⟨pre, rfl, hindex⟩ := h
  unfold Fulltext.slice
  rw [hindex, Nat.add_sub_cancel_left, splitBytes_append, Option.bind_some, hrest]
  dsimp only
  rw [splitBytes_append]
  exact if_pos (le_add_right _ _)

theorem At.ahead (h : At raw chars) (hahead : Ahead chars behind) : At raw behind := by
  obtain ⟨pre, rfl, hindex⟩ := h
  obtain ⟨passed, -, hrest, hbehind⟩ := hahead
  refine ⟨pre ++ passed, ?_, ?_⟩
  · rw [hrest, append_assoc]
  · rw [hbehind, hindex, byteLen_append]

theorem rest_eq : (step chars c cs).rest = cs := rfl

theorem ahead_step (hrest : chars.rest = c :: cs) : Ahead chars (step chars c cs) :=
  ⟨[c], cons_ne_nil _ _, hrest, rfl⟩

theorem Ahead.trans {last : CharIndices} (h : Ahead chars behind) (hlast : Ahead behind last) :
    Ahead chars last := by
  obtain ⟨passed, hne, hrest, hindex⟩ := h
  obtain ⟨passed', -, hrest', hindex'⟩ := hlast
  refine ⟨passed ++ passed', by simp [hne], ?_, ?_⟩
  · rw [hrest, hrest', append_assoc]
  · rw [hindex', hindex, byteLen_append, add_assoc]

theorem Ahead.length_lt (h : Ahead chars behind) : behind.rest.length < chars.rest.length := by
  obtain ⟨passed, hne, hrest, -⟩ := h
  have hlen := length_pos_iff.mpr hne
  rw [hrest, length_append]
  omega

theorem passWhile_eq (p : Char → Bool) (chars : CharIndices) :
    passWhile p chars chars.rest =
      ⟨chars.rest.dropWhile p, chars.index + byteLen (chars.rest.takeWhile p)⟩ := by
  obtain ⟨cs, i⟩ := chars
  induction cs generalizing i with
  | nil => rfl
  | cons c cs ih =>
    rw [passWhile, dropWhile_cons, takeWhile_cons]
    split_ifs with hc
    · refine (ih _).trans ?_
      rw [byteLen_cons, add_assoc]
    · rfl

theorem while_append (h : cs.dropWhile p ≠ [] ∨ ∀ c ∈ t.head?, p c = false) :
    (cs ++ t).takeWhile p = cs.takeWhile p ∧ (cs ++ t).dropWhile p = cs.dropWhile p ++ t := by
  induction cs with
  | nil =>
    obtain h | h := h
    · exact absurd rfl h
    · cases t with
      | nil => exact ⟨rfl, rfl⟩
      | cons c t =>
        have hc := h c rfl
        exact ⟨takeWhile_cons_of_neg (by simp [hc]), dropWhile_cons_of_neg (by simp [hc])⟩
  | cons c cs ih =>
    by_cases hc : p c = true
    · rw [dropWhile_cons_of_pos hc] at h
      rw [cons_append, takeWhile_cons_of_pos hc, takeWhile_cons_of_pos hc,
        dropWhile_cons_of_pos hc, dropWhile_cons_of_pos hc, (ih h).1]
      exact ⟨rfl, (ih h).2⟩
    · rw [cons_append, takeWhile_cons_of_neg hc, takeWhile_cons_of_neg hc,
        dropWhile_cons_of_neg hc, dropWhile_cons_of_neg hc]
      exact ⟨rfl, rfl⟩

/-- Positions of phrase terms are relative to the first; the key of a prefix ends in a `*`. -/
structure Clause.Bounded (clause : Clause) : Prop where
  phrase : clause.isPhrase = true → 2 ≤ clause.terms.length ∧
    clause.terms.length ≤ maxPhraseTerms ∧ clause.offsets.length = clause.terms.length ∧
    clause.offsets.head? = some 0 ∧ clause.offsets.Pairwise (· < ·)
  key : clause.isPrefix = true → ∃ text, clause.terms = [text ++ "*"] ∧ minPrefixChars ≤ text.length

variable {analyzer : TextAnalyzer} {required : Bool} {text : List Char} {found : Findings}

theorem bounded_term {term : String} : (Clause.term term required).Bounded :=
  ⟨fun h => absurd h (by simp [Clause.isPhrase, Clause.term]), fun h => by cases h⟩

theorem bounded_phraseClause {tokens : List Token} {clause : Clause}
    (hascending : tokens.Pairwise fun s t => s.position < t.position)
    (hlen : tokens.length ≤ maxPhraseTerms) (h : clause ∈ phraseClause required tokens) :
    clause.Bounded := by
  cases tokens with
  | nil => cases h
  | cons first tokens =>
    cases mem_singleton.mp h
    refine ⟨fun hphrase => ?_, fun h => by cases h⟩
    unfold Clause.isPhrase at hphrase
    rw [decide_eq_true_eq] at hphrase
    have hmany : tokens ≠ [] := by
      rintro rfl
      exact absurd hphrase (lt_irrefl 1)
    rw [if_neg hmany, length_map, length_map]
    rw [length_map] at hphrase
    refine ⟨hphrase, hlen, rfl, congrArg some (UInt32.sub_self _), pairwise_map.mpr ?_⟩
    -- no token stands before the first
    have hfirst : ∀ t ∈ first :: tokens, first.position ≤ t.position :=
      forall_mem_cons.mpr
        ⟨UInt32.le_refl _, fun t ht => UInt32.le_of_lt (rel_of_pairwise_cons hascending ht)⟩
    refine hascending.imp_of_mem fun {s t} hs ht hlt => ?_
    rw [UInt32.lt_iff_toNat_lt] at hlt ⊢
    rw [UInt32.toNat_sub_of_le _ _ (hfirst s hs), UInt32.toNat_sub_of_le _ _ (hfirst t ht)]
    have := UInt32.le_iff_toNat_le.mp (hfirst s hs)
    omega

theorem phraseOf_bounded (h : phraseOf analyzer required text = .ok found) :
    ∀ clause ∈ found.clauses, clause.Bounded := by
  unfold phraseOf at h
  dsimp only at h
  split_ifs at h with hstar hlong
  cases h
  exact fun clause => bounded_phraseClause (analyzer.ascending text false) (Nat.le_of_not_lt hlong)

theorem prefixToken_length {key : String}
    (h : prefixToken analyzer text = .ok (some key)) : minPrefixChars ≤ key.length := by
  unfold prefixToken at h
  split at h
  · cases h
  · split_ifs at h with hstop hlen
    · cases h
      exact hlen
    · cases h

theorem wordOf_bounded (h : wordOf analyzer required text = .ok found) :
    ∀ clause ∈ found.clauses, clause.Bounded := by
  obtain ⟨key, hkey, h⟩ := bind_eq_ok.mp h
  cases pure_eq_ok.mp h
  intro clause hclause
  rcases mem_append.mp hclause with hterm | hprefix
  · obtain ⟨token, -, rfl⟩ := mem_map.mp hterm
    exact bounded_term
  · obtain ⟨k, hk, rfl⟩ := mem_map.mp hprefix
    cases Option.mem_toList.mp hk
    split_ifs at hkey with hstar
    · exact ⟨fun h => absurd h (by simp [Clause.isPhrase, Clause.prefixOf]),
        fun _ => ⟨k, rfl, prefixToken_length hkey⟩⟩
    · cases hkey

end

section

variable {raw raw' : List Char} {analyzer : TextAnalyzer} {required : Bool}
  {chars chars' behind : CharIndices} {c : Char} {cs t : List Char} {found : Findings}
  {x : Except QuerySyntaxError Findings}

theorem turned_eq_ok {last : CharIndices} :
    turned x last = .ok (found, behind) ↔ x = .ok found ∧ last = behind := by
  cases x with
  | error e => simp [turned]
  | ok f => simp [turned]

theorem turned_ne_panic : turned x behind ≠ .error .panic := by
  cases x with
  | error e => simp [turned]
  | ok f => simp [turned]

theorem bareText_eq (h : At raw chars) :
    bareText raw analyzer required chars =
      turned (wordOf analyzer required (chars.rest.takeWhile isBare))
        (passWhile isBare chars chars.rest) := by
  have hsplit : chars.rest = chars.rest.takeWhile isBare ++ chars.rest.dropWhile isBare :=
    takeWhile_append_dropWhile.symm
  have hend : (if (passWhile isBare chars chars.rest).rest = [] then byteLen raw
      else (passWhile isBare chars chars.rest).index) =
      chars.index + byteLen (chars.rest.takeWhile isBare) := by
    rw [passWhile_eq]
    dsimp only
    split_ifs with hnil
    · obtain ⟨pre, hraw, hindex⟩ := h
      rw [hnil, append_nil] at hsplit
      rw [hraw, hindex, byteLen_append, ← hsplit]
    · rfl
  unfold bareText
  dsimp only
  rw [hend, h.slice hsplit, ok_bind]

theorem quoted_eq {start : Nat} (h : At raw chars) (hstart : start + 1 = chars.index) :
    quoted raw analyzer required start chars =
      match chars.rest.dropWhile isText with
      | [] => .error (.error .unterminatedPhrase)
      | c :: cs =>
        turned (phraseOf analyzer required (chars.rest.takeWhile isText))
          (step (passWhile isText chars chars.rest) c cs) := by
  have hslice := h.slice (ε := QuerySyntaxError)
    (takeWhile_append_dropWhile (p := isText) (l := chars.rest)).symm
  unfold quoted
  rw [passWhile_eq]
  cases chars.rest.dropWhile isText with
  | nil => rfl
  | cons c cs =>
    dsimp only
    rw [hstart, hslice, ok_bind]

theorem Ahead.passWhile (p : Char → Bool) (h : Ahead chars behind) :
    Ahead chars (passWhile p behind behind.rest) := by
  obtain ⟨passed, hne, hrest, hindex⟩ := h
  rw [passWhile_eq]
  refine ⟨passed ++ behind.rest.takeWhile p, by simp [hne], ?_, ?_⟩
  · rw [hrest, append_assoc, takeWhile_append_dropWhile]
  · rw [hindex, byteLen_append, add_assoc]

theorem isBare_of_whitespace (hc : isWhitespace c = true) : isBare c = false := by
  rw [isBare, hc]
  rfl

theorem clauseAt_ahead (hrest : chars.rest = c :: cs) (hc : isWhitespace c = false)
    (h : clauseAt raw analyzer required chars c cs = .ok (found, behind)) :
    Ahead chars behind ∧ ∀ clause ∈ found.clauses, clause.Bounded := by
  have hstep := ahead_step hrest
  unfold clauseAt at h
  split_ifs at h with hquote
  · unfold quoted at h
    dsimp only at h
    have hbefore := hstep.passWhile isText
    split at h
    · cases h
    · next c' cs' hc' =>
      obtain ⟨text, -, h⟩ := bind_eq_ok.mp h
      obtain ⟨hphrase, rfl⟩ := turned_eq_ok.mp h
      exact ⟨hbefore.trans (ahead_step hc'), phraseOf_bounded hphrase⟩
  · obtain ⟨word, -, h⟩ := bind_eq_ok.mp h
    obtain ⟨hword, rfl⟩ := turned_eq_ok.mp h
    have hbare : isBare c = true := by
      rw [isBare, hc]
      simpa using hquote
    refine ⟨?_, wordOf_bounded hword⟩
    rw [hrest, passWhile, if_pos hbare]
    exact hstep.passWhile isBare

theorem clauseAt_ne_panic (h : At raw chars) (hrest : chars.rest = c :: cs) :
    clauseAt raw analyzer required chars c cs ≠ .error .panic := by
  unfold clauseAt
  split_ifs with hquote
  · subst hquote
    rw [quoted_eq (h.ahead (ahead_step hrest)) rfl]
    split
    · simp
    · exact turned_ne_panic
  · rw [bareText_eq h]
    exact turned_ne_panic

theorem clauseAt_append (h : At raw chars) (h' : At raw' chars') (hrest : chars.rest = c :: cs)
    (hrest' : chars'.rest = c :: (cs ++ t)) (ht : ∀ w ∈ t.head?, isWhitespace w = true)
    (hn : clauseAt raw analyzer required chars c cs = .ok (found, behind)) :
    ∃ behind', clauseAt raw' analyzer required chars' c (cs ++ t) = .ok (found, behind') ∧
      behind'.rest = behind.rest ++ t := by
  unfold clauseAt at hn ⊢
  split_ifs at hn ⊢ with hquote
  · subst hquote
    rw [quoted_eq (h.ahead (ahead_step hrest)) rfl, rest_eq] at hn
    rw [quoted_eq (h'.ahead (ahead_step hrest')) rfl, rest_eq]
    cases hd : cs.dropWhile isText with
    | nil =>
      rw [hd] at hn
      cases hn
    | cons q cs' =>
      obtain ⟨htake, hdrop⟩ := while_append (t := t) (.inl (hd ▸ cons_ne_nil q cs'))
      rw [hd] at hn hdrop
      obtain ⟨hphrase, rfl⟩ := turned_eq_ok.mp hn
      rw [hdrop, htake]
      exact ⟨_, turned_eq_ok.mpr ⟨hphrase, rfl⟩, rfl⟩
  · rw [bareText_eq h, hrest] at hn
    obtain ⟨hword, rfl⟩ := turned_eq_ok.mp hn
    obtain ⟨htake, hdrop⟩ := @while_append (c :: cs) t isBare
      (.inr fun w hw => isBare_of_whitespace (ht w hw))
    rw [bareText_eq h', hrest', ← cons_append, htake]
    refine ⟨_, turned_eq_ok.mpr ⟨hword, rfl⟩, ?_⟩
    rw [cons_append, ← hrest', passWhile_eq, ← hrest, passWhile_eq]
    rw [hrest', hrest]
    exact hdrop

theorem turn_ahead (hrest : chars.rest = c :: cs)
    (h : turn raw analyzer chars c cs = .ok (found, behind)) :
    Ahead chars behind ∧ ∀ clause ∈ found.clauses, clause.Bounded := by
  have hstep := ahead_step hrest
  unfold turn at h
  split_ifs at h with hspace hplus
  · cases h
    exact ⟨hstep, fun _ h => absurd h not_mem_nil⟩
  · dsimp only at h
    split at h
    · cases h
      exact ⟨hstep, fun _ h => absurd h not_mem_nil⟩
    · next c' cs' hc' =>
      split_ifs at h with hstray
      · cases h
        exact ⟨hstep, fun _ h => absurd h not_mem_nil⟩
      · exact (clauseAt_ahead hc' (by simpa using hstray) h).imp_left hstep.trans
  · exact clauseAt_ahead hrest (by simpa using hspace) h

theorem turn_ne_panic (h : At raw chars) (hrest : chars.rest = c :: cs) :
    turn raw analyzer chars c cs ≠ .error .panic := by
  unfold turn
  split_ifs with hspace hplus
  · simp
  · dsimp only
    split
    · simp
    · next c' cs' hc' =>
      split_ifs with hstray
      · simp
      · exact clauseAt_ne_panic (h.ahead (ahead_step hrest)) hc'
  · exact clauseAt_ne_panic h hrest

theorem turn_append (h : At raw chars) (h' : At raw' chars') (hrest : chars.rest = c :: cs)
    (hrest' : chars'.rest = c :: (cs ++ t)) (ht : ∀ w ∈ t.head?, isWhitespace w = true)
    (hn : turn raw analyzer chars c cs = .ok (found, behind)) :
    ∃ behind', turn raw' analyzer chars' c (cs ++ t) = .ok (found, behind') ∧
      behind'.rest = behind.rest ++ t := by
  unfold turn at hn ⊢
  split_ifs at hn ⊢ with hspace hplus
  · cases hn
    exact ⟨_, rfl, rfl⟩
  · dsimp only at hn ⊢
    rw [rest_eq] at hn ⊢
    have hat := h.ahead (ahead_step hrest)
    have hat' := h'.ahead (ahead_step hrest')
    cases cs with
    | nil =>
      cases hn
      cases t with
      | nil => exact ⟨_, rfl, rfl⟩
      | cons w t => exact ⟨_, if_pos (ht w rfl), rfl⟩
    | cons d cs =>
      dsimp only [cons_append] at hn ⊢
      split_ifs at hn ⊢ with hstray
      · cases hn
        exact ⟨_, rfl, rfl⟩
      · exact clauseAt_append hat hat' rfl rfl ht hn
  · exact clauseAt_append h h' hrest hrest' ht hn

end

section

variable (raw : List Char) (analyzer : TextAnalyzer)

/-- `while let Some(&(i, c)) = chars.peek()`. -/
def parseLoop (st : Parse) (chars : CharIndices) : Except (Stop QuerySyntaxError) Parse :=
  match hrest : chars.rest with
  | [] => .ok st
  | c :: cs =>
    match hturn : turn raw analyzer chars c cs with
    | .error e => .error e
    | .ok (found, behind) =>
      have := (turn_ahead hrest hturn).1.length_lt
      match st.add found with
      | .error e => .error (.error e)
      | .ok st => parseLoop st behind
termination_by chars.rest.length

def parseQuery : Except (Stop QuerySyntaxError) ParsedQuery :=
  if maxQueryBytes < byteLen raw then .error (.error (.queryTooLong (byteLen raw)))
  else do
    let st ← parseLoop raw analyzer {} ⟨raw, 0⟩
    if st.clauses = [] ∧ st.stopWordsDropped = 0 then .error (.error .noSearchableTerms)
    else .ok { clauses := st.clauses }

end

section

def termsOf (clauses : List Clause) : Nat := (clauses.map fun clause => clause.terms.length).sum

def Findings.parse (f : Findings) : Parse :=
  { clauses := f.clauses, termCount := termsOf f.clauses, stopWordsDropped := f.stopWordsDropped }

def Findings.append (f g : Findings) : Findings :=
  { clauses := f.clauses ++ g.clauses
    stopWordsDropped := f.stopWordsDropped + g.stopWordsDropped }

def Findings.Few (f : Findings) : Prop := termsOf f.clauses ≤ maxQueryTerms

instance (f : Findings) : Decidable f.Few := inferInstanceAs (Decidable (_ ≤ _))

variable {raw raw' : List Char} {analyzer : TextAnalyzer} {chars : CharIndices} {c : Char}
  {cs ws b t : List Char} {f g g' : Findings} {st : Parse}

theorem termsOf_append (xs ys : List Clause) : termsOf (xs ++ ys) = termsOf xs + termsOf ys := by
  unfold termsOf
  rw [map_append, sum_append_nat]

theorem append_assoc : (f.append g).append g' = f.append (g.append g') := by
  unfold Findings.append
  rw [List.append_assoc, add_assoc]

theorem append_empty : f.append {} = f := by
  unfold Findings.append
  rw [append_nil, add_zero]

theorem empty_append : ({} : Findings).append f = f := by
  unfold Findings.append
  rw [nil_append, zero_add]

theorem Findings.Few.of_append (h : (f.append g).Few) : f.Few :=
  (le_add_right _ _).trans ((termsOf_append f.clauses g.clauses).symm.le.trans h)

theorem add_parse (h : f.Few) : f.parse.add g =
    if (f.append g).Few then .ok (f.append g).parse else .error .tooManyTerms := by
  obtain ⟨clauses, n⟩ := g
  induction clauses generalizing f n with
  | nil =>
    have hsame : f.append ⟨[], n⟩ = ⟨f.clauses, f.stopWordsDropped + n⟩ := by
      unfold Findings.append
      rw [append_nil]
    rw [hsame]
    exact (if_pos h).symm
  | cons clause clauses ih =>
    have hone : termsOf (f.append ⟨[clause], 0⟩).clauses = termsOf f.clauses + clause.terms.length :=
      termsOf_append _ _
    have hsplit : f.append ⟨clause :: clauses, n⟩ =
        (f.append ⟨[clause], 0⟩).append ⟨clauses, n⟩ := by
      simp [Findings.append]
    rw [hsplit]
    change (Parse.push _ clause >>= fun st => clauses.foldlM Parse.push st) = _
    by_cases hfew : (f.append ⟨[clause], 0⟩).Few
    · rw [← ih hfew, Parse.push, if_neg (not_lt.mpr (hone ▸ hfew))]
      unfold Parse.add Findings.parse
      rw [hone]
      rfl
    · rw [if_neg fun h => hfew h.of_append, Parse.push, if_pos (Nat.lt_of_not_le (hone ▸ hfew))]
      rfl

theorem parseLoop_nil (hrest : chars.rest = []) : parseLoop raw analyzer st chars = .ok st := by
  rw [parseLoop]
  split
  · rfl
  · next h => cases hrest.symm.trans h

theorem parseLoop_cons (hrest : chars.rest = c :: cs) : parseLoop raw analyzer st chars =
    turn raw analyzer chars c cs >>= fun (found, behind) =>
      match st.add found with
      | .error e => .error (.error e)
      | .ok st => parseLoop raw analyzer st behind := by
  rw [parseLoop]
  split
  · next h => cases hrest.symm.trans h
  · next c' cs' h =>
    cases hrest.symm.trans h
    split
    · next hturn =>
      rw [hturn]
      rfl
    · next hturn =>
      simp only [hturn]
      rfl

theorem parseLoop_ne_panic (h : At raw chars) : parseLoop raw analyzer st chars ≠ .error .panic := by
  induction hn : chars.rest.length using Nat.strong_induction_on generalizing chars st with
  | _ n ih =>
  subst hn
  cases hrest : chars.rest with
  | nil =>
    rw [parseLoop_nil hrest]
    simp
  | cons c cs =>
    rw [parseLoop_cons hrest]
    cases hturn : turn raw analyzer chars c cs with
    | error e =>
      rintro ⟨⟩
      exact turn_ne_panic h hrest hturn
    | ok r =>
      have hahead := (turn_ahead hrest hturn).1
      rw [ok_bind]
      dsimp only
      cases st.add r.1 with
      | error e => simp
      | ok st => exact ih _ hahead.length_lt (h.ahead hahead) rfl

theorem parseLoop_ok (hat : At raw chars) (hf : f.Few)
    (h : parseLoop raw analyzer f.parse chars = .ok st) :
    ∃ g : Findings, st = (f.append g).parse ∧ (f.append g).Few ∧
      (∀ clause ∈ g.clauses, clause.Bounded) ∧
      ∀ {raw' chars' t}, At raw' chars' → chars'.rest = chars.rest ++ t →
        (∀ w ∈ t.head?, isWhitespace w = true) → ∃ last, At raw' last ∧ last.rest = t ∧
        ∀ f' : Findings, f'.Few → parseLoop raw' analyzer f'.parse chars' =
          if (f'.append g).Few then parseLoop raw' analyzer (f'.append g).parse last
          else .error (.error .tooManyTerms) := by
  induction hn : chars.rest.length using Nat.strong_induction_on generalizing chars f with
  | _ n ih =>
  subst hn
  cases hrest : chars.rest with
  | nil =>
    rw [parseLoop_nil hrest] at h
    cases h
    refine ⟨{}, congrArg _ append_empty.symm, append_empty.symm ▸ hf,
      fun _ h => absurd h not_mem_nil, ?_⟩
    intro raw' chars' t hat' hrest' ht
    refine ⟨chars', hat', hrest', fun f' hf' => ?_⟩
    rw [append_empty, if_pos hf']
  | cons c cs =>
    rw [parseLoop_cons hrest] at h
    obtain ⟨⟨found, behind⟩, hturn, h⟩ := bind_eq_ok.mp h
    obtain ⟨hahead, hfound⟩ := turn_ahead hrest hturn
    dsimp only at h
    rw [add_parse hf] at h
    split_ifs at h with hfew
    · obtain ⟨g, hst, hg, hbounded, hmore⟩ := ih _ hahead.length_lt (hat.ahead hahead) hfew h rfl
      rw [append_assoc] at hst hg
      refine ⟨found.append g, hst, hg, fun clause hmem => ?_, ?_⟩
      · rcases mem_append.mp hmem with hmem | hmem
        · exact hfound clause hmem
        · exact hbounded clause hmem
      intro raw' chars' t hat' hrest' ht
      replace hrest' : chars'.rest = c :: (cs ++ t) := hrest'
      obtain ⟨behind', hturn', hbehind'⟩ := turn_append hat hat' hrest hrest' ht hturn
      obtain ⟨last, hlast, hlastrest, hrun⟩ :=
        hmore (hat'.ahead (turn_ahead hrest' hturn').1) hbehind' ht
      refine ⟨last, hlast, hlastrest, fun f' hf' => ?_⟩
      rw [parseLoop_cons hrest', hturn', ok_bind]
      dsimp only
      rw [add_parse hf', ← append_assoc]
      split_ifs with hfew' hall hall
      · exact (hrun _ hfew').trans (if_pos hall)
      · exact (hrun _ hfew').trans (if_neg hall)
      · exact absurd hall.of_append hfew'
      · rfl

theorem parseLoop_space (hat : At raw chars) (hws : ∀ c ∈ ws, isWhitespace c = true)
    (hrest : chars.rest = ws ++ b) : ∃ last, At raw last ∧ last.rest = b ∧
      ∀ f : Findings, f.Few →
        parseLoop raw analyzer f.parse chars = parseLoop raw analyzer f.parse last := by
  induction ws generalizing chars with
  | nil => exact ⟨chars, hat, hrest, fun _ _ => rfl⟩
  | cons w ws ih =>
    obtain ⟨hw, hws⟩ := forall_mem_cons.mp hws
    replace hrest : chars.rest = w :: (ws ++ b) := hrest
    obtain ⟨last, hlast, hb, hrun⟩ := ih (hat.ahead (ahead_step hrest)) hws rfl
    refine ⟨last, hlast, hb, fun f hf => ?_⟩
    have hturn : turn raw analyzer chars w (ws ++ b) = .ok ({}, step chars w (ws ++ b)) := if_pos hw
    rw [parseLoop_cons hrest, hturn, ok_bind]
    exact hrun f hf

end

section

def maxTermBytes : Nat := 255

def maxAnalyzedWords : Nat := 65536

/-- `analyze_words` from a position on. A word takes its position whether or not its term is kept. -/
def analyzeWords (fold : List Char → Option String) : Nat → List (List Char) → Analyzed
  | _, [] => { tokens := [], stopWordsDropped := 0 }
  | position, word :: words =>
    let rest := analyzeWords fold (position + 1) words
    match fold word with
    | none => { rest with stopWordsDropped := rest.stopWordsDropped + 1 }
    | some term =>
      if term = "" ∨ maxTermBytes < byteLen term.toList then rest
      else { rest with tokens := { term, position := UInt32.ofNat position } :: rest.tokens }

/-- The word boundaries, the fold, the stop words and the stemmer of `Analyzer::English`. -/
structure English where
  unicodeWords : List Char → List (List Char)
  fold : List Char → String
  isStopWord : String → Bool
  stem : String → String
  stemmed : ∀ word, isStopWord word = true →
    stem word ≠ "" ∧ byteLen (stem word).toList ≤ maxTermBytes

def English.foldEnglish (e : English) (keepStopWords : Bool) (word : List Char) : Option String :=
  let folded := e.fold word
  if folded = "" then some folded
  else if !keepStopWords && e.isStopWord folded then none
  else some (e.stem folded)

variable {fold : List Char → Option String} {position : Nat} {words : List (List Char)}

theorem analyzeWords_position {t : Token} (hroom : position + words.length ≤ 2 ^ 32)
    (h : t ∈ (analyzeWords fold position words).tokens) : position ≤ t.position.toNat := by
  induction words generalizing position with
  | nil => cases h
  | cons word words ih =>
    rw [length_cons] at hroom
    have hrest : t ∈ (analyzeWords fold (position + 1) words).tokens → position ≤ t.position.toNat :=
      fun h => (le_succ _).trans (ih (by omega) h)
    unfold analyzeWords at h
    split at h
    · exact hrest h
    · split_ifs at h with hdrop
      · exact hrest h
      · rcases mem_cons.mp h with rfl | h
        · exact (UInt32.toNat_ofNat_of_lt' (show position < 2 ^ 32 by omega)).ge
        · exact hrest h

theorem analyzeWords_ascending (hroom : position + words.length ≤ 2 ^ 32) :
    (analyzeWords fold position words).tokens.Pairwise fun s t => s.position < t.position := by
  induction words generalizing position with
  | nil => exact .nil
  | cons word words ih =>
    rw [length_cons] at hroom
    have hnext : position + 1 + words.length ≤ 2 ^ 32 := by omega
    have hrest := ih hnext
    unfold analyzeWords
    split
    · exact hrest
    · split_ifs with hdrop
      · exact hrest
      · refine pairwise_cons.mpr ⟨fun t ht => UInt32.lt_iff_toNat_lt.mpr ?_, hrest⟩
        rw [UInt32.toNat_ofNat_of_lt' (show position < 2 ^ 32 by omega)]
        exact analyzeWords_position (by omega) ht

theorem English.analyze_drop (e : English) (position : Nat) (words : List (List Char)) :
    let kept := analyzeWords (e.foldEnglish true) position words
    let dropped := analyzeWords (e.foldEnglish false) position words
    dropped.tokens.Sublist kept.tokens ∧
      dropped.tokens.length + dropped.stopWordsDropped = kept.tokens.length := by
  induction words generalizing position with
  | nil => exact ⟨.refl _, rfl⟩
  | cons word words ih =>
    obtain ⟨hsub, hcount⟩ := ih (position + 1)
    unfold analyzeWords
    by_cases hstop : e.fold word ≠ "" ∧ e.isStopWord (e.fold word) = true
    · obtain ⟨hsome, hstop⟩ := hstop
      obtain ⟨hne, hshort⟩ := e.stemmed _ hstop
      have hkept : e.foldEnglish true word = some (e.stem (e.fold word)) := by
        unfold foldEnglish
        rw [if_neg hsome]
        rfl
      have hdropped : e.foldEnglish false word = none := by
        unfold foldEnglish
        rw [if_neg hsome, hstop]
        rfl
      rw [hkept, hdropped]
      dsimp only
      rw [if_neg (not_or.mpr ⟨hne, not_lt.mpr hshort⟩)]
      refine ⟨hsub.cons _, ?_⟩
      rw [length_cons, ← hcount, add_assoc]
    · obtain ⟨term, hterm⟩ : ∃ term, ∀ keep, e.foldEnglish keep word = some term := by
        refine ⟨if e.fold word = "" then e.fold word else e.stem (e.fold word), fun keep => ?_⟩
        unfold foldEnglish
        dsimp only
        split_ifs with hnone hdrop
        · rfl
        · exact absurd ⟨hnone, (Bool.and_eq_true_iff.mp hdrop).2⟩ hstop
        · rfl
      rw [hterm, hterm]
      dsimp only
      split_ifs
      · exact ⟨hsub, hcount⟩
      · refine ⟨hsub.cons_cons _, ?_⟩
        rw [length_cons, length_cons, ← hcount]
        exact add_right_comm _ _ _

/-- `Analyzer::English`: stops after `maxAnalyzedWords` words. -/
def English.analyzer (e : English) : TextAnalyzer where
  analyzeOpts text keepStopWords :=
    analyzeWords (e.foldEnglish keepStopWords) 0 ((e.unicodeWords text).take maxAnalyzedWords)
  ascending text _ := analyzeWords_ascending <| by
    have := length_take_le maxAnalyzedWords (e.unicodeWords text)
    have : maxAnalyzedWords ≤ 2 ^ 32 := by decide
    omega
  dropped _ := (e.analyze_drop _ _).1
  counted _ := (e.analyze_drop _ _).2

/-- Words of ASCII text, with one stop word and no stemming. -/
def plain : English where
  unicodeWords text := (text.splitOnP fun c => !c.isAlphanum).filter (· ≠ [])
  fold word := String.ofList (word.map Char.toLower)
  isStopWord word := word = "the"
  stem := id
  stemmed word h := by
    cases of_decide_eq_true h
    exact ⟨by decide, by decide⟩

end

variable {raw : List Char} {analyzer : TextAnalyzer} {q : ParsedQuery}

theorem at_start (raw : List Char) : At raw ⟨raw, 0⟩ := ⟨[], rfl, rfl⟩

theorem few_empty : ({} : Findings).Few := zero_le _

theorem parseLoop_of_parseQuery (h : parseQuery raw analyzer = .ok q) :
    ∃ st, parseLoop raw analyzer ({} : Findings).parse ⟨raw, 0⟩ = .ok st ∧ q.clauses = st.clauses ∧
      ¬ (st.clauses = [] ∧ st.stopWordsDropped = 0) := by
  unfold parseQuery at h
  split_ifs at h with hlong
  obtain ⟨st, hst, h⟩ := bind_eq_ok.mp h
  split_ifs at h with hnone
  cases h
  exact ⟨st, hst, rfl, hnone⟩

/-- The parser slices between characters and keeps its bounds, and the clauses of two texts with
whitespace between them are the clauses of the one and of the other, up to its two limits. -/
theorem parse_query_compositional (analyzer : TextAnalyzer) :
    (∀ raw, parseQuery raw analyzer ≠ .error .panic) ∧
    (∀ raw q, parseQuery raw analyzer = .ok q →
      termsOf q.clauses ≤ maxQueryTerms ∧ ∀ clause ∈ q.clauses, clause.Bounded) ∧
    ∀ a ws b p q, parseQuery a analyzer = .ok p → parseQuery b analyzer = .ok q → ws ≠ [] →
      (∀ c ∈ ws, isWhitespace c = true) →
      parseQuery (a ++ (ws ++ b)) analyzer =
        if maxQueryBytes < byteLen (a ++ (ws ++ b)) then
          .error (.error (.queryTooLong (byteLen (a ++ (ws ++ b)))))
        else if termsOf p.clauses + termsOf q.clauses ≤ maxQueryTerms then
          .ok { clauses := p.clauses ++ q.clauses }
        else .error (.error .tooManyTerms) := by
  refine ⟨fun raw => ?_, fun raw q h => ?_, fun a ws b p q hp hq hne hws => ?_⟩
  · unfold parseQuery
    split_ifs with hlong
    · simp
    · cases hloop : parseLoop raw analyzer {} ⟨raw, 0⟩ with
      | error e =>
        rintro ⟨⟩
        exact parseLoop_ne_panic (at_start raw) hloop
      | ok st =>
        rw [ok_bind]
        split_ifs <;> simp
  · obtain ⟨st, hst, hclauses, -⟩ := parseLoop_of_parseQuery h
    obtain ⟨g, rfl, hfew, hbounded, -⟩ := parseLoop_ok (at_start raw) few_empty hst
    rw [hclauses]
    exact ⟨hfew, hbounded⟩
  · obtain ⟨st, hst, hp, hsome⟩ := parseLoop_of_parseQuery hp
    obtain ⟨f, rfl, hf, -, hrun⟩ := parseLoop_ok (at_start a) few_empty hst
    obtain ⟨st', hst', hq, -⟩ := parseLoop_of_parseQuery hq
    obtain ⟨g, rfl, -, -, hrun'⟩ := parseLoop_ok (at_start b) few_empty hst'
    rw [empty_append] at hf hp hq hsome
    -- the first text, the whitespace, the second text
    have hhead : ∀ w ∈ (ws ++ b).head?, isWhitespace w = true := by
      cases ws with
      | nil => exact absurd rfl hne
      | cons w ws =>
        rintro _ ⟨⟩
        exact hws w mem_cons_self
    obtain ⟨mid, hmid, hmidrest, hfirst⟩ := hrun (at_start (a ++ (ws ++ b))) rfl hhead
    obtain ⟨next, hnext, hnextrest, hspace⟩ := parseLoop_space hmid hws hmidrest
    obtain ⟨last, -, hlast, hsecond⟩ :=
      hrun' hnext (hnextrest.trans (append_nil b).symm) nofun
    have hloop := hfirst {} few_empty
    rw [empty_append, if_pos hf, hspace f hf, hsecond f hf, parseLoop_nil hlast] at hloop
    have hfew : (f.append g).Few ↔ termsOf p.clauses + termsOf q.clauses ≤ maxQueryTerms := by
      rw [hp, hq, Findings.Few, Findings.append, termsOf_append]
      exact Iff.rfl
    refine if_congr Iff.rfl rfl ?_
    rw [show ({} : Parse) = ({} : Findings).parse from rfl, hloop]
    by_cases hall : (f.append g).Few
    · rw [if_pos hall, if_pos (hfew.mp hall), ok_bind, if_neg, hp, hq]
      · rfl
      · rintro ⟨hnil, hzero⟩
        exact hsome ⟨(append_eq_nil_iff.mp hnil).1, (Nat.add_eq_zero_iff.mp hzero).1⟩
    · rw [if_neg hall, if_neg (hfew.not.mp hall)]
      rfl

variable {st st' : Parse} {chars behind : CharIndices} {c : Char} {cs : List Char}
  {found : Findings}

theorem parseLoop_step (hrest : chars.rest = c :: cs)
    (hturn : turn raw analyzer chars c cs = .ok (found, behind)) (hadd : st.add found = .ok st') :
    parseLoop raw analyzer st chars = parseLoop raw analyzer st' behind := by
  rw [parseLoop_cons hrest, hturn, ok_bind]
  dsimp only
  rw [hadd]

def seeCat : List Char := "+\"see the cat\"".toList

def theRun : List Char := "the run*".toList

theorem parseQuery_seeCat : parseQuery seeCat plain.analyzer =
    .ok { clauses := phraseClause true [⟨"see", 0⟩, ⟨"cat", 2⟩] } := by
  have hloop : parseLoop seeCat plain.analyzer {} ⟨seeCat, 0⟩ = .ok
      { clauses := phraseClause true [⟨"see", 0⟩, ⟨"cat", 2⟩], termCount := 2
        stopWordsDropped := 1 } :=
    (parseLoop_step rfl rfl rfl).trans (parseLoop_nil rfl)
  unfold parseQuery
  rw [hloop]
  rfl

theorem parseQuery_theRun : parseQuery theRun plain.analyzer =
    .ok { clauses := [.prefixOf "run" false] } := by
  have hloop : parseLoop theRun plain.analyzer {} ⟨theRun, 0⟩ = .ok
      { clauses := [.prefixOf "run" false], termCount := 1, stopWordsDropped := 1 } :=
    (parseLoop_step rfl rfl rfl).trans <| (parseLoop_step rfl rfl rfl).trans <|
      (parseLoop_step rfl rfl rfl).trans (parseLoop_nil rfl)
  unfold parseQuery
  rw [hloop]
  rfl

theorem parse_query_compositional_seeCat :
    parseQuery (seeCat ++ ([' '] ++ theRun)) plain.analyzer = .ok
      { clauses := phraseClause true [⟨"see", 0⟩, ⟨"cat", 2⟩] ++ [.prefixOf "run" false] } ∧
      ∀ clause ∈ phraseClause true [⟨"see", 0⟩, ⟨"cat", 2⟩], clause.Bounded := by
  obtain ⟨-, hbounds, happend⟩ := parse_query_compositional plain.analyzer
  have h := happend seeCat [' '] theRun _ _ parseQuery_seeCat parseQuery_theRun
    (cons_ne_nil _ _) (forall_mem_singleton.mpr rfl)
  exact ⟨h, (hbounds seeCat _ parseQuery_seeCat).2⟩

end RhypeDb.Fulltext
