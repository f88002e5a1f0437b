import Mathlib.Data.List.TakeWhile
import Mathlib.Tactic.Common

/-! Hand-written scanners. A scanner reads a text from a cursor, character by character, and goes
back by putting an earlier cursor in place again; a loop of it repeats a body until the body is
done. `Reads` says what a scanner makes of a given text, `Yields` what holds of anything it
returns, with how far it has come. A loop whose body moves on each time comes to an end. Which
characters are letters and numbers is Unicode's to say, and a table here. -/

namespace RhypeDb.Scan

open List

/-- `char::is_whitespace`: the characters with the property `White_Space`. -/
def isWhitespace (c : Char) : Bool :=
  decide (9 ≤ c.toNat ∧ c.toNat ≤ 13 ∨ 0x2000 ≤ c.toNat ∧ c.toNat ≤ 0x200A ∨
    c.toNat ∈ [0x20, 0x85, 0xA0, 0x1680, 0x2028, 0x2029, 0x202F, 0x205F, 0x3000])

variable {c : Char}

theorem not_isWhitespace (hlow : 33 ≤ c.toNat) (hhigh : c.toNat ≤ 126) :
    isWhitespace c = false := by
  refine decide_eq_false ?_
  simp only [mem_cons, not_mem_nil, or_false]
  omega

theorem not_isWhitespace_alphanum (hc : c.isAlphanum = true) : isWhitespace c = false := by
  have hranges : (decide (c.val ≥ 65 ∧ c.val ≤ 90) || (c.val ≥ 97 && c.val ≤ 122) ||
    (c.val ≥ 48 && c.val ≤ 57)) = true := hc
  simp only [Bool.or_eq_true, Bool.and_eq_true, decide_eq_true_eq] at hranges
  have hbounds : 48 ≤ c.toNat ∧ c.toNat ≤ 122 := by
    rcases hranges with (⟨hlow, hhigh⟩ | ⟨hlow, hhigh⟩) | ⟨hlow, hhigh⟩
    · exact ⟨le_trans (by decide) (show 65 ≤ c.toNat from hlow),
        le_trans (show c.toNat ≤ 90 from hhigh) (by decide)⟩
    · exact ⟨le_trans (by decide) (show 97 ≤ c.toNat from hlow), show c.toNat ≤ 122 from hhigh⟩
    · exact ⟨show 48 ≤ c.toNat from hlow, le_trans (show c.toNat ≤ 57 from hhigh) (by decide)⟩
  exact not_isWhitespace (by omega) (by omega)

/-- `char::is_alphabetic` and `char::is_numeric`: only the ASCII part is given, and that no
whitespace is either. -/
structure CharTable where
  isAlphabetic : Char → Bool
  isNumeric : Char → Bool
  alphabetic_ascii : ∀ c : Char, c.toNat < 128 → isAlphabetic c = c.isAlpha
  numeric_ascii : ∀ c : Char, c.toNat < 128 → isNumeric c = c.isDigit
  whitespace : ∀ c, isWhitespace c = true → isAlphabetic c = false ∧ isNumeric c = false

def CharTable.ascii : CharTable where
  isAlphabetic := Char.isAlpha
  isNumeric := Char.isDigit
  alphabetic_ascii _ _ := rfl
  numeric_ascii _ _ := rfl
  whitespace c hc := by
    have hnot : c.isAlphanum = false := by
      rw [Bool.eq_false_iff]
      intro halphanum
      rw [not_isWhitespace_alphanum halphanum] at hc
      cases hc
    rwa [Char.isAlphanum, Bool.or_eq_false_iff] at hnot

def CharTable.isAlphanumeric (chars : CharTable) (c : Char) : Bool :=
  chars.isAlphabetic c || chars.isNumeric c

theorem CharTable.alphanumeric_ascii (chars : CharTable) (hc : c.toNat < 128) :
    chars.isAlphanumeric c = c.isAlphanum := by
  rw [isAlphanumeric, chars.alphabetic_ascii c hc, chars.numeric_ascii c hc, Char.isAlphanum]

/-- A place in a text: what is left of the text, and the place after its first character. -/
class Cursor (σ : Type) where
  rest : σ → List Char
  step : σ → Char → List Char → σ
  rest_step : ∀ s c cs, rest (step s c cs) = cs

export Cursor (rest step)

attribute [simp] Cursor.rest_step

/-- A run with no result at all does not come to an end. -/
abbrev Scanner (σ ε : Type) := StateT σ (ExceptT ε Option)

inductive Turn (α β : Type)
  | again (a : α)
  | done (b : β)

def Turn.Meets {α β : Type} (I : α → Prop) (Q : β → Prop) : Turn α β → Prop
  | .again a => I a
  | .done b => Q b

variable {σ ε α β : Type}

section

def stuck : Scanner σ ε α := fun _ => (none : Option (Except ε (α × σ)))

def fail (e : σ → ε) : Scanner σ ε α := fun s => throw (e s)

variable [Cursor σ]

def peek : Scanner σ ε (Option Char) := fun s => pure ((rest s).head?, s)

def advance : Scanner σ ε (Option Char) := fun s =>
  match rest s with
  | [] => pure (none, s)
  | c :: cs => pure (some c, step s c cs)

def lookingAt (word : List Char) : Scanner σ ε Bool := fun s =>
  pure (word.isPrefixOf (rest s), s)

def skip : Nat → Scanner σ ε Unit
  | 0 => pure ()
  | n + 1 => do
    let _ ← advance
    skip n

def accept (word : List Char) : Scanner σ ε Bool := do
  if ← lookingAt word then
    skip word.length
    pure true
  else pure false

def passWhile (p : Char → Bool) : σ → List Char → σ
  | s, [] => s
  | s, c :: cs => if p c then passWhile p (step s c cs) cs else s

def takeWhile (p : Char → Bool) : Scanner σ ε (List Char) := fun s =>
  pure ((rest s).takeWhile p, passWhile p s (rest s))

def loopFrom (body : α → Scanner σ ε (Turn α β)) : Nat → α → Scanner σ ε β
  | 0, _ => stuck
  | n + 1, a => do
    match ← body a with
    | .again a => loopFrom body n a
    | .done b => pure b

/-- Repeat the body until it is done. A body that moves on each time has no more turns than
characters are left. -/
def loop (body : α → Scanner σ ε (Turn α β)) (a : α) : Scanner σ ε β := fun s =>
  loopFrom body ((rest s).length + 1) a s

end

section

/-- The run comes to an end, and what it returns has the property; `E` allows it to fail. -/
def Wp (E : Prop) (p : Scanner σ ε α) (Q : α → σ → Prop) (s : σ) : Prop :=
  match (p s : Option (Except ε (α × σ))) with
  | none => False
  | some (.error _) => E
  | some (.ok (a, s')) => Q a s'

variable {E : Prop} {Q : α → σ → Prop} {s : σ}

theorem wp_bind {p : Scanner σ ε β} {f : β → Scanner σ ε α} :
    Wp E (p >>= f) Q s ↔ Wp E p (fun b s' => Wp E (f b) Q s') s := by
  unfold Wp
  change (match (ExceptT.bind (p s) fun r => f r.1 r.2 : Option (Except ε (α × σ))) with
    | none => False
    | some (.error _) => E
    | some (.ok (a, s')) => Q a s') ↔ _
  cases h : (p s : Option (Except ε (β × σ))) with
  | none => exact Iff.rfl
  | some r =>
    cases r with
    | error e => exact Iff.rfl
    | ok r => exact Iff.rfl

variable {p : Scanner σ ε α}

theorem Wp.mono {Q' : α → σ → Prop} (h : Wp E p Q s) (hQ : ∀ a s', Q a s' → Q' a s') :
    Wp E p Q' s := by
  unfold Wp at *
  revert h
  cases (p s : Option (Except ε (α × σ))) with
  | none => exact id
  | some r =>
    cases r with
    | error e => exact id
    | ok r => exact hQ r.1 r.2

theorem Wp.of_ok (h : Wp E p Q s) {a : α} {s' : σ} (hp : p s = some (.ok (a, s'))) : Q a s' := by
  unfold Wp at h
  rw [hp] at h
  exact h

theorem Wp.exists_ok (h : Wp False p Q s) : ∃ a s', p s = some (.ok (a, s')) ∧ Q a s' := by
  unfold Wp at h
  cases hp : (p s : Option (Except ε (α × σ))) with
  | none =>
    rw [hp] at h
    exact h.elim
  | some r =>
    rw [hp] at h
    cases r with
    | error e => exact h.elim
    | ok r => exact ⟨r.1, r.2, rfl, h⟩

variable [Cursor σ] {Q : Option Char → σ → Prop}

theorem wp_peek :
    Wp E (peek : Scanner σ ε (Option Char)) Q s ↔ Q (rest s).head? s := Iff.rfl

theorem wp_lookingAt {Q : Bool → σ → Prop} {word : List Char} :
    Wp E (lookingAt word : Scanner σ ε Bool) Q s ↔ Q (word.isPrefixOf (rest s)) s := Iff.rfl

theorem wp_advance_nil (h : rest s = []) :
    Wp E (advance : Scanner σ ε (Option Char)) Q s ↔ Q none s := by
  unfold Wp advance
  rw [h]
  exact Iff.rfl

theorem wp_advance_cons {c : Char} {cs : List Char} (h : rest s = c :: cs) :
    Wp E (advance : Scanner σ ε (Option Char)) Q s ↔ Q (some c) (step s c cs) := by
  unfold Wp advance
  rw [h]
  exact Iff.rfl

theorem rest_passWhile (p : Char → Bool) (s : σ) :
    rest (passWhile p s (rest s)) = (rest s).dropWhile p := by
  have hall : ∀ cs (s : σ), rest s = cs → rest (passWhile p s cs) = cs.dropWhile p := by
    intro cs
    induction cs with
    | nil => exact fun s h => h
    | cons c cs ih =>
      intro s h
      rw [passWhile, dropWhile_cons]
      split_ifs with hc
      · exact ih _ (Cursor.rest_step s c cs)
      · exact h
  exact hall _ s rfl

theorem wp_takeWhile {Q : List Char → σ → Prop} {p : Char → Bool} :
    Wp E (takeWhile p : Scanner σ ε (List Char)) Q s ↔
      Q ((rest s).takeWhile p) (passWhile p s (rest s)) := Iff.rfl

end

variable [Cursor σ]

section

def Yields (p : Scanner σ ε α) (Q : α → Nat → Prop) : Prop :=
  ∀ s, Wp True p (fun a s' => ∃ n, (rest s).length = (rest s').length + n ∧ Q a n) s

namespace Yields

variable {p : Scanner σ ε α} {Q Q' : α → Nat → Prop} {word : List Char}

theorem mono (h : Yields p Q) (hQ : ∀ a n, Q a n → Q' a n) : Yields p Q' :=
  fun s => (h s).mono fun a _ hn => hn.imp fun n hn => ⟨hn.1, hQ a n hn.2⟩

theorem pure {a : α} (h : Q a 0) : Yields (Pure.pure a : Scanner σ ε α) Q :=
  fun _ => ⟨0, rfl, h⟩

theorem fail {e : σ → ε} : Yields (Scan.fail e : Scanner σ ε α) Q := fun _ => trivial

theorem throw {e : ε} : Yields (MonadExcept.throw e : Scanner σ ε α) Q := fun _ => trivial

theorem bind {f : α → Scanner σ ε β} {R : β → Nat → Prop} (hp : Yields p Q)
    (hf : ∀ a m, Q a m → Yields (f a) fun b n => R b (m + n)) : Yields (p >>= f) R := by
  intro s
  rw [wp_bind]
  refine (hp s).mono fun a s' ⟨m, hm, ha⟩ => (hf a m ha s').mono fun b s'' ⟨n, hn, hb⟩ => ?_
  exact ⟨m + n, by omega, hb⟩

theorem peek : Yields (Scan.peek : Scanner σ ε (Option Char)) fun _ n => n = 0 :=
  fun _ => ⟨0, rfl, rfl⟩

theorem advance : Yields (Scan.advance : Scanner σ ε (Option Char))
    fun c n => c.isSome = true → 0 < n := by
  intro s
  cases h : rest s with
  | nil =>
    rw [wp_advance_nil h]
    exact ⟨0, by rw [h]; rfl, nofun⟩
  | cons c cs =>
    rw [wp_advance_cons h]
    exact ⟨1, by rw [Cursor.rest_step]; rfl, fun _ => Nat.one_pos⟩

theorem lookingAt : Yields (Scan.lookingAt word : Scanner σ ε Bool) fun _ n => n = 0 :=
  fun _ => ⟨0, rfl, rfl⟩

theorem takeWhile {p : Char → Bool} : Yields (Scan.takeWhile p : Scanner σ ε (List Char))
    fun cs n => n = cs.length ∧ ∀ c ∈ cs, p c = true := by
  intro s
  refine ⟨_, ?_, rfl, fun c hc => mem_takeWhile_imp hc⟩
  rw [rest_passWhile, Nat.add_comm, ← length_append, takeWhile_append_dropWhile]

theorem skip (n : Nat) : Yields (Scan.skip n : Scanner σ ε Unit) fun _ _ => True := by
  induction n with
  | zero => exact .pure trivial
  | succ n ih => exact advance.bind fun _ _ _ => ih

theorem accept : Yields (Scan.accept word : Scanner σ ε Bool) fun _ _ => True := by
  refine lookingAt.bind fun found _ _ => ?_
  cases found with
  | true => exact (skip _).bind fun _ _ _ => .pure trivial
  | false => exact .pure trivial

end Yields

variable {Q : β → Prop}

theorem Turn.Meets.mono {I I' : α → Prop} {Q' : β → Prop} {turn : Turn α β}
    (h : turn.Meets I Q) (hI : ∀ a, I a → I' a) (hQ : ∀ b, Q b → Q' b) : turn.Meets I' Q' := by
  cases turn with
  | again a => exact hI a h
  | done b => exact hQ b h

def Progress (I : α → Prop) (body : α → Scanner σ ε (Turn α β)) : Prop :=
  ∀ a, I a → Yields (body a) fun turn n => turn.Meets (fun a' => 0 < n ∧ I a') fun _ => True

variable {I : α → Prop} {body : α → Scanner σ ε (Turn α β)}

theorem Progress.of_yields
    (h : ∀ a, I a → Yields (body a) fun turn n => turn.Meets (fun a' => 0 < n ∧ I a') Q) :
    Progress I body :=
  fun a ha => (h a ha).mono fun _ _ hturn => hturn.mono (fun _ h => h) fun _ _ => trivial

variable {a : α}

theorem loopFrom_eq (h : Progress I body) {m n : Nat} (ha : I a) {s : σ} (hm : (rest s).length < m)
    (hn : (rest s).length < n) : loopFrom body m a s = loopFrom body n a s := by
  induction m generalizing n a s with
  | zero => exact absurd hm (Nat.not_lt_zero _)
  | succ m ih =>
    obtain ⟨n, rfl⟩ := Nat.exists_eq_succ_of_ne_zero (Nat.ne_zero_of_lt hn)
    have hturn := h a ha s
    unfold Wp at hturn
    change ExceptT.bind (body a s) _ = ExceptT.bind (body a s) _
    cases hbody : (body a s : Option (Except ε (Turn α β × σ))) with
    | none => rfl
    | some r =>
      rw [hbody] at hturn
      match r, hturn with
      | .error e, _ => rfl
      | .ok (.done b, s'), _ => rfl
      | .ok (.again a', s'), ⟨k, hk, hmoved, ha'⟩ => exact ih ha' (by omega) (by omega)

theorem loop_eq (h : Progress I body) (ha : I a) :
    loop body a = body a >>= fun
      | .again a => loop body a
      | .done b => pure b := by
  funext s
  have hturn := h a ha s
  unfold Wp at hturn
  change ExceptT.bind (body a s) _ = ExceptT.bind (body a s) _
  cases hbody : (body a s : Option (Except ε (Turn α β × σ))) with
  | none => rfl
  | some r =>
    rw [hbody] at hturn
    match r, hturn with
    | .error e, _ => rfl
    | .ok (.done b, s'), _ => rfl
    | .ok (.again a', s'), ⟨k, hk, hmoved, ha'⟩ => exact loopFrom_eq h ha' (by omega) (by omega)

theorem wp_loop {Q : β → σ → Prop}
    (hbody : ∀ a, I a → ∀ s, Wp True (body a) (fun turn s' => ∃ n, (rest s).length = (rest
      s').length + n ∧ turn.Meets (fun a' => 0 < n ∧ I a') fun b => Q b s') s) (ha : I a) (s : σ) :
    Wp True (loop body a) (fun b s' => ∃ n, (rest s).length = (rest s').length + n ∧ Q b s') s := by
  have hfrom : ∀ m a, I a → ∀ s : σ, (rest s).length < m →
      Wp True (loopFrom body m a)
        (fun b s' => ∃ n, (rest s).length = (rest s').length + n ∧ Q b s') s := by
    intro m
    induction m with
    | zero => exact fun _ _ s hs => absurd hs (Nat.not_lt_zero _)
    | succ m ih =>
      intro a ha s hs
      unfold loopFrom
      rw [wp_bind]
      refine (hbody a ha s).mono fun turn s' ⟨n, hn, hturn⟩ => ?_
      cases turn with
      | done b => exact ⟨n, hn, hturn⟩
      | again a' =>
        have hmoved := hturn.1
        exact (ih a' hturn.2 s' (by omega)).mono fun b s'' ⟨k, hk, hb⟩ => ⟨n + k, by omega, hb⟩
  exact hfrom _ a ha s (Nat.lt_succ_self _)

omit [Cursor σ] in
theorem wp_loopFrom_le {E : Prop} {Q : β → σ → Prop} {m n : Nat} (hle : m ≤ n) {s : σ}
    (h : Wp E (loopFrom body m a) Q s) : Wp E (loopFrom body n a) Q s := by
  induction m generalizing n a s with
  | zero => exact h.elim
  | succ m ih =>
    obtain ⟨n, rfl⟩ := Nat.exists_eq_succ_of_ne_zero (Nat.ne_zero_of_lt hle)
    rw [loopFrom, wp_bind] at h ⊢
    refine h.mono fun turn s' hturn => ?_
    cases turn with
    | again a' => exact ih (Nat.le_of_succ_le_succ hle) hturn
    | done b => exact hturn

theorem Yields.loop
    (hbody : ∀ a, I a → Yields (body a) fun turn n => turn.Meets (fun a' => 0 < n ∧ I a') Q)
    (ha : I a) : Yields (Scan.loop body a) fun b _ => Q b :=
  wp_loop hbody ha

end

/-- On the text `i`, the scanner returns `a` and leaves `r`. -/
def Reads (p : Scanner σ ε α) (i : List Char) (a : α) (r : List Char) : Prop :=
  ∀ s, rest s = i → Wp False p (fun b s' => b = a ∧ rest s' = r) s

namespace Reads

variable {p : Scanner σ ε α} {i r : List Char} {a : α}

theorem pure : Reads (Pure.pure a : Scanner σ ε α) i a i := fun _ h => ⟨rfl, h⟩

theorem bind {f : α → Scanner σ ε β} {m : List Char} {b : β} (hp : Reads p i a m)
    (hf : Reads (f a) m b r) : Reads (p >>= f) i b r := by
  intro s hs
  rw [wp_bind]
  refine (hp s hs).mono fun a' s' ⟨ha, hs'⟩ => ?_
  subst ha
  exact hf s' hs'

theorem peek : Reads (Scan.peek : Scanner σ ε (Option Char)) i i.head? i :=
  fun _ h => ⟨by rw [h], h⟩

theorem advance {c : Char} :
    Reads (Scan.advance : Scanner σ ε (Option Char)) (c :: r) (some c) r := by
  intro s hs
  rw [wp_advance_cons hs]
  exact ⟨rfl, Cursor.rest_step s c r⟩

variable {word : List Char}

theorem lookingAt : Reads (Scan.lookingAt word : Scanner σ ε Bool) i (word.isPrefixOf i) i :=
  fun _ h => ⟨by rw [h], h⟩

theorem skip (word : List Char) :
    Reads (Scan.skip word.length : Scanner σ ε Unit) (word ++ r) () r := by
  induction word with
  | nil => exact .pure
  | cons c cs ih => exact advance.bind ih

theorem accept : Reads (Scan.accept word : Scanner σ ε Bool) (word ++ r) true r := by
  refine lookingAt.bind ?_
  rw [ isPrefixOf_iff_prefix.mpr (prefix_append word r)]
  exact (skip word).bind .pure

theorem accept_not (h : ¬ word <+: i) : Reads (Scan.accept word : Scanner σ ε Bool) i false i := by
  refine lookingAt.bind ?_
  rw [Bool.eq_false_iff.mpr fun hp => h ( isPrefixOf_iff_prefix.mp hp)]
  exact .pure

theorem takeWhile {p : Char → Bool} {cs : List Char} (hcs : ∀ c ∈ cs, p c = true)
    (hr : ∀ c ∈ r.head?, p c = false) :
    Reads (Scan.takeWhile p : Scanner σ ε (List Char)) (cs ++ r) cs r := by
  intro s hs
  have hstop : r.takeWhile p = [] ∧ r.dropWhile p = r := by
    cases r with
    | nil => exact ⟨rfl, rfl⟩
    | cons c r =>
      have hc : ¬ p c = true := by rw [hr c rfl]; exact Bool.false_ne_true
      exact ⟨takeWhile_cons_of_neg hc, dropWhile_cons_of_neg hc⟩
  constructor
  · rw [hs, takeWhile_append_of_pos hcs, hstop.1, append_nil]
  · rw [rest_passWhile, hs, dropWhile_append_of_pos hcs, hstop.2]

theorem get_bind {k : σ → Scanner σ ε β} {b : β} (h : ∀ s, rest s = i → Reads (k s) i b r) :
    Reads (MonadState.get >>= k) i b r :=
  fun s hs => h s hs s hs

theorem set {s : σ} (hs : rest s = r) : Reads (MonadStateOf.set s : Scanner σ ε PUnit) i ⟨⟩ r :=
  fun _ _ => ⟨rfl, hs⟩

section

variable {I : α → Prop} {body : α → Scanner σ ε (Turn α β)} {b : β} {m : List Char}

theorem loop_next {a' : α} (hbody : Reads (body a) i (.again a') m)
    (hlt : m.length < i.length) (hloop : Reads (Scan.loop body a') m b r) :
    Reads (Scan.loop body a) i b r := by
  intro s hs
  change Wp False (loopFrom body ((rest s).length + 1) a) _ s
  rw [loopFrom, wp_bind]
  refine (hbody s hs).mono fun turn s' ⟨hturn, hs'⟩ => ?_
  subst hturn
  refine wp_loopFrom_le ?_ (hloop s' hs')
  rw [hs', hs]
  exact hlt

theorem loop_done (hbody : Reads (body a) i (.done b) r) : Reads (Scan.loop body a) i b r := by
  intro s hs
  change Wp False (loopFrom body ((rest s).length + 1) a) _ s
  rw [loopFrom, wp_bind]
  refine (hbody s hs).mono fun turn s' ⟨hturn, hs'⟩ => ?_
  subst hturn
  exact ⟨rfl, hs'⟩

theorem loop_again (h : Progress I body) (ha : I a) {a' : α}
    (hbody : Reads (body a) i (.again a') m) (hloop : Reads (Scan.loop body a') m b r) :
    Reads (Scan.loop body a) i b r := by
  intro s hs
  obtain ⟨turn, s', hrun, hturn, hs'⟩ := (hbody s hs).exists_ok
  obtain ⟨n, hn, hmoved⟩ := (h a ha s).of_ok hrun
  rw [hturn] at hmoved
  have hpos := hmoved.1
  have hlt : m.length < i.length := by
    rw [← hs, ← hs']
    omega
  exact loop_next hbody hlt hloop s hs

theorem loop_list {P : α → Prop} {next : List α → Scanner σ ε (Turn (List α) (List α))}
    (At : List Char → List α → Prop) (h : Progress (fun xs => ∀ x ∈ xs, P x) next)
    (hnext : ∀ acc x xs i, (∀ y ∈ x :: xs, P y) → At i (x :: xs) →
      ∃ m, At m xs ∧ Reads (next acc) i (.again (acc ++ [x])) m)
    (hdone : ∀ acc i, At i [] → Reads (next acc) i (.done acc) r) {xs : List α}
    (hxs : ∀ x ∈ xs, P x) {acc : List α} (hacc : ∀ x ∈ acc, P x) (hi : At i xs) :
    Reads (Scan.loop next acc) i (acc ++ xs) r := by
  induction xs generalizing acc i with
  | nil =>
    rw [append_nil]
    exact loop_done (hdone acc i hi)
  | cons x xs ih =>
    obtain ⟨m, hm, hread⟩ := hnext acc x xs i hxs hi
    rw [forall_mem_cons] at hxs
    have hacc' : ∀ y ∈ acc ++ [x], P y := by
      intro y hy
      rcases mem_append.mp hy with hy | hy
      · exact hacc y hy
      · rw [mem_singleton.mp hy]
        exact hxs.1
    have hrest := ih hxs.2 hacc' hm
    rw [append_assoc] at hrest
    exact loop_again h hacc hread hrest

end

theorem exists_ok (h : Reads p i a r) {s : σ} (hs : rest s = i) :
    ∃ s', p s = some (.ok (a, s')) ∧ rest s' = r := by
  obtain ⟨b, s', hp, rfl, hr⟩ := (h s hs).exists_ok
  exact ⟨s', hp, hr⟩

end Reads

theorem reads_accept {r : List Char} :
    Reads (accept [c] : Scanner σ ε Bool) (c :: r) true r := Reads.accept

theorem reads_accept_not {i : List Char} (h : ∀ d ∈ i.head?, d ≠ c) :
    Reads (accept [c] : Scanner σ ε Bool) i false i := by
  apply Reads.accept_not
  rintro ⟨t, rfl⟩
  exact h c rfl rfl

end RhypeDb.Scan
