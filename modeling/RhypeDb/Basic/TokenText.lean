import RhypeDb.Basic.Scan

/-! Texts of tokens with any whitespace between them, and the scanners that read them. A token may
have to stand right behind the one before it. `Parses` says that a scanner makes of the tokens
what it should, wherever a text goes on as it has to; it composes along the tokens. -/

namespace RhypeDb.Scan

open List

structure Tok where
  text : List Char
  tight : Bool
  deriving DecidableEq, Repr

def Tok.loose (text : String) : Tok := ⟨text.toList, false⟩

def Tok.mark (c : Char) : Tok := ⟨[c], false⟩

/-- The text is that of the tokens, with whitespace in front of those that are not tight. -/
def Written : List Tok → List Char → Prop
  | [], i => ∀ c ∈ i, isWhitespace c = true
  | t :: ts, i => ∃ ws r, i = ws ++ (t.text ++ r) ∧ (∀ c ∈ ws, isWhitespace c = true) ∧
      (t.tight = true → ws = []) ∧ Written ts r

def Flush (i : List Char) : Prop := ∀ c ∈ i.head?, isWhitespace c = false

def Tok.Free (t : Tok) : Prop := t.tight = false ∧ t.text ≠ [] ∧ Flush t.text

def Ready (ts : List Tok) : Prop := ∀ t ∈ ts.head?, t.Free

section

variable {ts : List Tok} {t : Tok} {i : List Char} {r : List Char}

theorem Flush.cons {c : Char} {cs : List Char} (h : isWhitespace c = false) : Flush (c :: cs) := by
  rintro _ ⟨⟩
  exact h

theorem Flush.append {i : List Char} (h : Flush i) (hne : i ≠ []) : Flush (i ++ r) := by
  obtain ⟨c, cs, rfl⟩ := exists_cons_of_ne_nil hne
  exact .cons (h c rfl)

theorem written_text (h : Written ts r) : Written (t :: ts) (t.text ++ r) :=
  ⟨[], r, rfl, forall_mem_nil _, fun _ => rfl, h⟩

theorem dropWhile_of_flush {ws : List Char} (hws : ∀ c ∈ ws, isWhitespace c = true)
    (hr : Flush r) : (ws ++ r).dropWhile isWhitespace = r := by
  rw [dropWhile_append_of_pos hws]
  cases r with
  | nil => rfl
  | cons c r => exact dropWhile_cons_of_neg (by rw [hr c rfl]; exact Bool.false_ne_true)

theorem Written.drop (h : Written ts i) (hready : Ready ts) :
    Written ts (i.dropWhile isWhitespace) ∧ Flush (i.dropWhile isWhitespace) := by
  cases ts with
  | nil =>
    have hnil : i.dropWhile isWhitespace = [] := dropWhile_eq_nil_iff.mpr h
    rw [hnil]
    exact ⟨forall_mem_nil _, nofun⟩
  | cons t ts =>
    obtain ⟨ws, r, rfl, hws, -, hr⟩ := h
    obtain ⟨htight, hne, hflush⟩ := hready t rfl
    rw [dropWhile_of_flush hws (hflush.append hne)]
    exact ⟨written_text hr, hflush.append hne⟩

theorem Written.flush (h : Written (t :: ts) i) (hi : Flush i) :
    ∃ r, i = t.text ++ r ∧ Written ts r := by
  obtain ⟨ws, r, rfl, hws, -, hr⟩ := h
  cases ws with
  | nil => exact ⟨r, rfl, hr⟩
  | cons c ws =>
    have hc := hi c rfl
    rw [hws c mem_cons_self] at hc
    cases hc

theorem Written.flush_nil (h : Written [] i) (hi : Flush i) : i = [] := by
  cases i with
  | nil => rfl
  | cons c i =>
    have hc := hi c rfl
    rw [h c mem_cons_self] at hc
    cases hc

def firstChar (ts : List Tok) : Option Char := ts.head?.bind fun t => t.text.head?

theorem Written.head? (h : Written ts i) (hi : Flush i) (hready : Ready ts) :
    i.head? = firstChar ts := by
  cases ts with
  | nil =>
    rw [h.flush_nil hi]
    rfl
  | cons t ts =>
    obtain ⟨r, rfl, -⟩ := h.flush hi
    obtain ⟨c, cs, htext⟩ := exists_cons_of_ne_nil (hready t rfl).2.1
    change (t.text ++ r).head? = t.text.head?
    rw [htext]
    rfl

end

variable {σ ε α β : Type} [Cursor σ]

def skipBlank : Scanner σ ε Unit := do
  let _ ← takeWhile isWhitespace

theorem reads_skipBlank {i : List Char} :
    Reads (skipBlank : Scanner σ ε Unit) i () (i.dropWhile isWhitespace) := by
  intro s hs
  change Wp False (takeWhile isWhitespace >>= fun _ => pure ()) _ s
  refine ⟨rfl, ?_⟩
  rw [rest_passWhile, hs]

/-- On any text of the tokens, that goes on with tokens that may follow, the scanner returns `a`
and leaves a text of what follows. -/
def Parses (p : Scanner σ ε α) (toks : List Tok) (a : α) (Next : List Tok → Prop) : Prop :=
  ∀ ts i, Next ts → Written (toks ++ ts) i →
    ∃ r, Written ts r ∧ r.length + toks.length ≤ i.length ∧ Reads p i a r

def ParsesAt (p : Scanner σ ε α) (toks : List Tok) (a : α) (Next : List Tok → Prop) : Prop :=
  ∀ ts i, Next ts → Flush i → Written (toks ++ ts) i →
    ∃ r, Written ts r ∧ r.length + toks.length ≤ i.length ∧ Reads p i a r

variable {p : Scanner σ ε α} {f : α → Scanner σ ε β} {k : Scanner σ ε β} {a : α} {b : β}
  {toks toks' : List Tok} {Next Next' : List Tok → Prop}

theorem Parses.at (h : Parses p toks a Next) : ParsesAt p toks a Next :=
  fun ts i hts _ hi => h ts i hts hi

theorem Parses.mono (h : Parses p toks a Next) (hnext : ∀ ts, Next' ts → Next ts) :
    Parses p toks a Next' := fun ts i hts hi => h ts i (hnext ts hts) hi

theorem Parses.pure : Parses (Pure.pure a : Scanner σ ε α) [] a Next :=
  fun _ i _ hi => ⟨i, hi, le_rfl, .pure⟩

theorem Parses.bind (hp : Parses p toks a Next) (hf : Parses (f a) toks' b Next')
    (hnext : ∀ ts, Next' ts → Next (toks' ++ ts)) : Parses (p >>= f) (toks ++ toks') b Next' := by
  intro ts i hts hi
  rw [append_assoc] at hi
  obtain ⟨m, hm, hlen, hread⟩ := hp _ i (hnext ts hts) hi
  obtain ⟨r, hr, hlen', hread'⟩ := hf ts m hts hm
  refine ⟨r, hr, ?_, hread.bind hread'⟩
  rw [length_append]
  omega

theorem Parses.token {t : Tok} (hp : Parses p [t] a Next) (hf : Parses (f a) toks b Next')
    (hnext : ∀ ts, Next' ts → Next (toks ++ ts)) : Parses (p >>= f) (t :: toks) b Next' :=
  hp.bind hf hnext

theorem Parses.map {f : α → β} (h : Parses p toks a Next) :
    Parses (p >>= fun a => Pure.pure (f a)) toks (f a) Next := by
  intro ts i hts hi
  obtain ⟨r, hr, hlen, hread⟩ := h ts i hts hi
  exact ⟨r, hr, hlen, hread.bind .pure⟩

theorem ParsesAt.skip (hk : ParsesAt k toks b Next) (hready : ∀ ts, Next ts → Ready (toks ++ ts)) :
    Parses (skipBlank >>= fun _ => k) toks b Next := by
  intro ts i hts hi
  obtain ⟨hwritten, hflush⟩ := hi.drop (hready ts hts)
  obtain ⟨r, hr, hlen, hread⟩ := hk ts _ hts hflush hwritten
  have hdrop := length_dropWhile_le isWhitespace i
  exact ⟨r, hr, by omega, reads_skipBlank.bind hread⟩

theorem ParsesAt.accept {t : Tok} {f : Bool → Scanner σ ε β} (ht : t.Free)
    (hf : Parses (f true) toks b Next) :
    ParsesAt (Scan.accept t.text >>= f) (t :: toks) b Next := by
  intro ts i hts hflush hi
  obtain ⟨m, rfl, hm⟩ := Written.flush hi hflush
  obtain ⟨r, hr, hlen, hread⟩ := hf ts m hts hm
  refine ⟨r, hr, ?_, Reads.accept.bind hread⟩
  have hpos := length_pos_iff.mpr ht.2.1
  rw [length_cons, length_append]
  omega

variable {c : Char} {cs : List Char}

theorem not_prefix_of_head {i : List Char} (h : i.head? ≠ some c) : ¬ c :: cs <+: i := by
  rintro ⟨t, rfl⟩
  exact h rfl

theorem ParsesAt.accept_not {f : Bool → Scanner σ ε β}
    (hf : ParsesAt (f false) toks b Next) (hready : ∀ ts, Next ts → Ready (toks ++ ts))
    (hne : ∀ ts, Next ts → firstChar (toks ++ ts) ≠ some c) :
    ParsesAt (Scan.accept (c :: cs) >>= f) toks b Next := by
  intro ts i hts hflush hi
  obtain ⟨r, hr, hlen, hread⟩ := hf ts i hts hflush hi
  refine ⟨r, hr, hlen, (Reads.accept_not (not_prefix_of_head ?_)).bind hread⟩
  rw [hi.head? hflush (hready ts hts)]
  exact hne ts hts

theorem ParsesAt.looking {f : Bool → Scanner σ ε β} (hf : ParsesAt (f true) toks b Next)
    (hready : ∀ ts, Next ts → Ready (toks ++ ts))
    (hc : ∀ ts, Next ts → firstChar (toks ++ ts) = some c) :
    ParsesAt (Scan.lookingAt [c] >>= f) toks b Next := by
  intro ts i hts hflush hi
  obtain ⟨r, hr, hlen, hread⟩ := hf ts i hts hflush hi
  refine ⟨r, hr, hlen, Reads.lookingAt.bind ?_⟩
  have hhead := hi.head? hflush (hready ts hts)
  rw [hc ts hts] at hhead
  obtain ⟨cs, rfl⟩ := head?_eq_some_iff.mp hhead
  have hstart : [c].isPrefixOf (c :: cs) = true :=
    isPrefixOf_iff_prefix.mpr (prefix_append [c] cs)
  rw [hstart]
  exact hread

theorem ParsesAt.looking_not {f : Bool → Scanner σ ε β}
    (hf : ParsesAt (f false) toks b Next) (hready : ∀ ts, Next ts → Ready (toks ++ ts))
    (hne : ∀ ts, Next ts → firstChar (toks ++ ts) ≠ some c) :
    ParsesAt (Scan.lookingAt (c :: cs) >>= f) toks b Next := by
  intro ts i hts hflush hi
  obtain ⟨r, hr, hlen, hread⟩ := hf ts i hts hflush hi
  refine ⟨r, hr, hlen, Reads.lookingAt.bind ?_⟩
  have hnot : (c :: cs).isPrefixOf i = false := by
    rw [Bool.eq_false_iff]
    intro hstart
    refine not_prefix_of_head ?_ ( isPrefixOf_iff_prefix.mp hstart)
    rw [hi.head? hflush (hready ts hts)]
    exact hne ts hts
  rw [hnot]
  exact hread

theorem ParsesAt.peek {f : Option Char → Scanner σ ε β} (hf : ParsesAt (f (some c)) toks b Next)
    (hready : ∀ ts, Next ts → Ready (toks ++ ts))
    (hc : ∀ ts, Next ts → firstChar (toks ++ ts) = some c) :
    ParsesAt (Scan.peek >>= f) toks b Next := by
  intro ts i hts hflush hi
  obtain ⟨r, hr, hlen, hread⟩ := hf ts i hts hflush hi
  refine ⟨r, hr, hlen, Reads.peek.bind ?_⟩
  rw [hi.head? hflush (hready ts hts), hc ts hts]
  exact hread

variable {body : α → Scanner σ ε (Turn α β)}

theorem Parses.loop_next {a a' : α} (hbody : Parses (body a) toks (.again a') Next)
    (htoks : toks ≠ []) (hloop : Parses (loop body a') toks' b Next')
    (hnext : ∀ ts, Next' ts → Next (toks' ++ ts)) :
    Parses (loop body a) (toks ++ toks') b Next' := by
  intro ts i hts hi
  rw [append_assoc] at hi
  obtain ⟨m, hm, hlen, hread⟩ := hbody _ i (hnext ts hts) hi
  obtain ⟨r, hr, hlen', hread'⟩ := hloop ts m hts hm
  have hpos := length_pos_iff.mpr htoks
  refine ⟨r, hr, ?_, Reads.loop_next hread (by omega) hread'⟩
  rw [length_append]
  omega

theorem Parses.loop_done {a : α} (hbody : Parses (body a) toks (.done b) Next) :
    Parses (loop body a) toks b Next := by
  intro ts i hts hi
  obtain ⟨r, hr, hlen, hread⟩ := hbody ts i hts hi
  exact ⟨r, hr, hlen, Reads.loop_done hread⟩

end RhypeDb.Scan
