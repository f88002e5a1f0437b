import RhypeDb.Basic.ByteReader

/-! Slices and sums at places that the data itself says, and the exact outcome of a program over
them: the guard under which it is not stopped, and what of the data it returns a value. -/

namespace RhypeDb.ByteReader

open ByteOrder List

variable {ε α β : Type}

section

/-- `if !cond { return Err(e) }`, outside of a reader. -/
def check (cond : Prop) [Decidable cond] (e : ε) : Except (Stop ε) Unit :=
  if cond then .ok () else .error (.error e)

/-- `a + b` in a `usize`. -/
def usizeAdd (a b : Nat) : Except (Stop ε) Nat :=
  if a + b < 2 ^ 64 then .ok (a + b) else .error .panic

def bytesAt (data : Bytes) (start n : Nat) : Bytes := (data.drop start).take n

/-- `data[start..start + n]`. -/
def sliceAt (data : Bytes) (start n : Nat) : Except (Stop ε) Bytes :=
  if start + n ≤ data.length then .ok (bytesAt data start n) else .error .panic

/-- The number that is written in `w` bytes at a place. -/
def word (data : Bytes) (pos w : Nat) : Nat := ofBe (bytesAt data pos w)

def numberAt (data : Bytes) (pos w : Nat) : Except (Stop ε) Nat := do
  return ofBe (← sliceAt data pos w)

variable {cond : Prop}

theorem check_eq_ok [Decidable cond] {e : ε} {u : Unit} : check cond e = .ok u ↔ cond := by
  unfold check
  split_ifs with h
  · exact ⟨fun _ => h, fun _ => rfl⟩
  · exact ⟨fun hok => (nomatch hok), fun hc => absurd hc h⟩

theorem check_bind_eq_ok [Decidable cond] {e : ε} {f : Unit → Except (Stop ε) β}
    {b : β} : (check cond e >>= f) = .ok b ↔ cond ∧ f () = .ok b := by
  rw [Fallible.bind_eq_ok]
  exact ⟨fun ⟨_, hok, h⟩ => ⟨check_eq_ok.mp hok, h⟩, fun ⟨hc, h⟩ => ⟨(), check_eq_ok.mpr hc, h⟩⟩

variable {data : Bytes} {n start : Nat}

theorem length_bytesAt (h : start + n ≤ data.length) : (bytesAt data start n).length = n := by
  rw [bytesAt, length_take, length_drop]
  omega

theorem sliceAt_eq (h : start + n ≤ data.length) :
    (sliceAt data start n : Except (Stop ε) Bytes) = .ok (bytesAt data start n) := if_pos h

theorem numberAt_eq {pos w : Nat} (h : pos + w ≤ data.length) :
    (numberAt data pos w : Except (Stop ε) Nat) = .ok (word data pos w) := by
  unfold numberAt
  rw [sliceAt_eq h]
  rfl

theorem bytesAt_append (before bytes after : Bytes) :
    bytesAt (before ++ (bytes ++ after)) before.length bytes.length = bytes := by
  rw [bytesAt, drop_left, take_left]

theorem word_append (before after : Bytes) (w n : Nat) :
    word (before ++ (be w n ++ after)) before.length w = n % 256 ^ w := by
  have hbytes := bytesAt_append before (be w n) after
  rw [be_length] at hbytes
  rw [word, hbytes, ofBe_be]

def words (fields : List (Nat × Nat)) : Bytes := fields.flatMap fun field => be field.1 field.2

theorem length_words (fields : List (Nat × Nat)) :
    (words fields).length = (fields.map Prod.fst).sum := by
  simp only [words, length_flatMap, be_length]

theorem word_words (before : Bytes) (fields : List (Nat × Nat)) (after : Bytes) {i w : Nat}
    (h : fields[i]? = some (w, n)) :
    word (before ++ (words fields ++ after)) (before.length + ((fields.take i).map Prod.fst).sum) w =
      n % 256 ^ w := by
  induction fields generalizing before i with
  | nil => cases h
  | cons field fields ih =>
    rw [words, flatMap_cons, append_assoc]
    cases i with
    | zero =>
      cases h
      exact word_append before _ w n
    | succ i =>
      have hrest := ih (before ++ be field.1 field.2) h
      rwa [append_assoc, length_append, be_length, Nat.add_assoc] at hrest

end

section

variable {x : Except (Stop ε) α} {f : α → Except (Stop ε) β} {guard fits guard' fits' : Prop}
  {cond : Prop}

/-- The program is not stopped just where the guard holds, and there it returns a value just
where the data fits. -/
structure Outcome (x : Except (Stop ε) α) (guard fits : Prop) : Prop where
  runs : x ≠ .error .panic ↔ guard
  returns : guard → ((∃ a, x = .ok a) ↔ fits)

namespace Outcome

theorem ok (a : α) : Outcome (.ok a : Except (Stop ε) α) True True :=
  ⟨iff_of_true nofun trivial, fun _ => iff_of_true ⟨a, rfl⟩ trivial⟩

theorem error (e : ε) : Outcome (.error (.error e) : Except (Stop ε) α) True False :=
  ⟨iff_of_true nofun trivial, fun _ => iff_of_false (fun ⟨_, h⟩ => by cases h) id⟩

theorem congr (h : Outcome x guard fits) (hguard : guard ↔ guard') (hfits : fits ↔ fits') :
    Outcome x guard' fits' :=
  ⟨h.runs.trans hguard, fun hg => (h.returns (hguard.mpr hg)).trans hfits⟩

theorem bind (h : Outcome x guard fits) (hf : ∀ a, x = .ok a → Outcome (f a) guard' fits') :
    Outcome (x >>= f) (guard ∧ (fits → guard')) (fits ∧ fits') := by
  rcases x with stop | a
  · cases stop with
    | error e =>
      have hnot : ¬ fits := fun hfits => by
        obtain ⟨a, ha⟩ := (h.returns (h.runs.mp fun he => by cases he)).mpr hfits
        cases ha
      exact (Outcome.error e).congr
        (iff_of_true trivial ⟨h.runs.mp nofun, fun hfits => absurd hfits hnot⟩)
        (iff_of_false id fun hboth => hnot hboth.1)
    | panic =>
      have hguard : ¬ guard := fun hg => h.runs.mpr hg rfl
      exact ⟨iff_of_false (fun hruns => hruns rfl) fun hg => hguard hg.1,
        fun hg => absurd hg.1 hguard⟩
  · have hg : guard := h.runs.mp nofun
    have hfits : fits := (h.returns hg).mp ⟨a, rfl⟩
    exact (hf a rfl).congr ⟨fun hg' => ⟨hg, fun _ => hg'⟩, fun hg' => hg'.2 hfits⟩
      ⟨fun hf' => ⟨hfits, hf'⟩, And.right⟩

theorem check_bind {cond : Prop} [Decidable cond] {e : ε} {f : Unit → Except (Stop ε) β}
    (hf : cond → Outcome (f ()) guard fits) :
    Outcome (check cond e >>= f) (cond → guard) (cond ∧ fits) := by
  unfold check
  split_ifs with h
  · exact (hf h).congr ⟨fun hg _ => hg, fun hg => hg h⟩ ⟨fun hfits => ⟨h, hfits⟩, And.right⟩
  · exact (Outcome.error e).congr (iff_of_true trivial fun hc => absurd hc h)
      (iff_of_false id fun hc => h hc.1)

variable {f : Nat → Except (Stop ε) β}

theorem add_bind {a b : Nat} (hf : Outcome (f (a + b)) guard fits) :
    Outcome (usizeAdd a b >>= f) (a + b < 2 ^ 64 ∧ guard) fits := by
  unfold usizeAdd
  split_ifs with h
  · exact hf.congr ⟨fun hg => ⟨h, hg⟩, And.right⟩ Iff.rfl
  · exact ⟨iff_of_false (fun hruns => hruns rfl) fun hg => h hg.1, fun hg => absurd hg.1 h⟩

variable {data : Bytes} {start : Nat}

theorem slice_bind {n : Nat} {f : Bytes → Except (Stop ε) β} (h : start + n ≤ data.length)
    (hf : Outcome (f (bytesAt data start n)) guard fits) :
    Outcome (sliceAt data start n >>= f) guard fits := by
  rw [sliceAt_eq h]
  exact hf

theorem number_bind {pos w : Nat} (h : pos + w ≤ data.length)
    (hf : Outcome (f (word data pos w)) guard fits) :
    Outcome (numberAt data pos w >>= f) guard fits := by
  rw [numberAt_eq h]
  exact hf

theorem slice_bind' {n : Nat} {f : Bytes → Except (Stop ε) β}
    (hf : start + n ≤ data.length → Outcome (f (bytesAt data start n)) guard fits) :
    Outcome (sliceAt data start n >>= f) (start + n ≤ data.length ∧ guard) fits := by
  by_cases h : start + n ≤ data.length
  · exact (slice_bind h (hf h)).congr ⟨fun hg => ⟨h, hg⟩, And.right⟩ Iff.rfl
  · unfold sliceAt
    rw [if_neg h]
    exact ⟨iff_of_false (fun hruns => hruns rfl) fun hg => h hg.1, fun hg => absurd hg.1 h⟩

theorem number_bind' {pos w : Nat}
    (hf : pos + w ≤ data.length → Outcome (f (word data pos w)) guard fits) :
    Outcome (numberAt data pos w >>= f) (pos + w ≤ data.length ∧ guard) fits := by
  unfold numberAt
  rw [bind_assoc]
  exact slice_bind' hf

end Outcome

theorem bind_ne_panic (hx : x ≠ .error .panic) (hf : ∀ a, x = .ok a → f a ≠ .error .panic) :
    (x >>= f) ≠ .error .panic := by
  intro h
  rcases Fallible.bind_eq_error.mp h with h | ⟨a, ha, h⟩
  · exact hx h
  · exact hf a ha h

theorem check_bind_ne_panic [Decidable cond] {e : ε} {f : Unit → Except (Stop ε) β}
    (h : cond → f () ≠ .error .panic) : (check cond e >>= f) ≠ .error .panic := by
  unfold check
  split_ifs with hc
  · exact h hc
  · exact nofun

theorem check_bind_ne_panic_iff [Decidable cond] {e : ε} {f : Unit → Except (Stop ε) β} :
    (check cond e >>= f) ≠ .error .panic ↔ (cond → f () ≠ .error .panic) := by
  refine ⟨fun h hc => ?_, check_bind_ne_panic⟩
  have hcheck : check cond e = .ok () := if_pos hc
  rw [hcheck] at h
  exact h

theorem Outcome.bind_runs (h : Outcome x guard fits)
    (hf : ∀ a, x = .ok a → (f a ≠ .error .panic ↔ guard')) :
    (x >>= f) ≠ .error .panic ↔ guard ∧ (fits → guard') := by
  have hbind : Outcome (x >>= f) (guard ∧ (fits → guard')) (fits ∧ ∃ b, (x >>= f) = .ok b) := by
    refine h.bind fun a ha => ⟨hf a ha, fun _ => ?_⟩
    rw [ha]
    exact Iff.rfl
  exact hbind.runs

section

variable {data : Bytes} {pos : Nat}

theorem outcome_take (n : Nat) (e : ε) {k : Bytes → Reader ε β}
    (hk : pos + n ≤ data.length →
      Outcome ((k (bytesAt data pos n)).run data (pos + n)) guard fits) :
    Outcome ((take n e >>= k).run data pos) (pos + n ≤ data.length → guard)
      (pos + n ≤ data.length ∧ fits) := by
  have htake : (take n e).run data pos =
      if pos + n ≤ data.length then .ok (bytesAt data pos n, pos + n) else .error (.error e) := by
    unfold take
    rw [Reader.run_bind]
    by_cases h : pos + n ≤ data.length
    · have hneed : (need n e).run data pos = .ok ((), pos) := if_pos h
      rw [hneed, if_pos h]
      exact if_pos h
    · have hneed : (need n e).run data pos = .error (.error e) := if_neg h
      rw [hneed, if_neg h]
      rfl
  rw [Reader.run_bind, htake]
  split_ifs with h
  · exact (hk h).congr ⟨fun hg _ => hg, fun hg => hg h⟩ ⟨fun hfits => ⟨h, hfits⟩, And.right⟩
  · exact (Outcome.error e).congr (iff_of_true trivial fun hc => absurd hc h)
      (iff_of_false id fun hc => h hc.1)

theorem outcome_number (w : Nat) (e : ε) {k : Nat → Reader ε β}
    (hk : pos + w ≤ data.length →
      Outcome ((k (word data pos w)).run data (pos + w)) guard fits) :
    Outcome ((number w e >>= k).run data pos) (pos + w ≤ data.length → guard)
      (pos + w ≤ data.length ∧ fits) := by
  unfold number
  rw [bind_assoc]
  exact outcome_take w e (k := fun bytes => Pure.pure (ofBe bytes) >>= k) hk

theorem outcome_items_number (w : Nat) (e : ε) (n : Nat) {k : List Nat → Reader ε β}
    (hpos : pos ≤ data.length) (hk : pos + w * n ≤ data.length →
      ∀ as, Outcome ((k as).run data (pos + w * n)) guard fits) :
    Outcome ((items (number w e) n >>= k).run data pos) (pos + w * n ≤ data.length → guard)
      (pos + w * n ≤ data.length ∧ fits) := by
  induction n generalizing pos k with
  | zero =>
    have hle : pos + w * 0 ≤ data.length := hpos
    exact (hk hle []).congr ⟨fun hg _ => hg, fun hg => hg hle⟩
      ⟨fun hfits => ⟨hle, hfits⟩, And.right⟩
  | succ n ih =>
    have hadd : pos + w + w * n = pos + w * (n + 1) := by ring
    have hrest : pos + w ≤ data.length →
        Outcome ((items (number w e) n >>= fun as => k (word data pos w :: as)).run data
          (pos + w)) (pos + w + w * n ≤ data.length → guard) (pos + w + w * n ≤ data.length ∧ fits) :=
      fun hle => ih hle fun hall as => by
        rw [hadd] at hall ⊢
        exact hk hall _
    have hassoc : items (number w e) (n + 1) >>= k =
        number w e >>= fun a => items (number w e) n >>= fun as => k (a :: as) := by
      simp only [items, bind_assoc, pure_bind]
    rw [hassoc]
    refine (outcome_number w e hrest).congr ?_ ?_
    · rw [hadd]
      exact ⟨fun hg hle => hg (by omega) hle, fun hg _ => hg⟩
    · rw [hadd]
      exact ⟨And.right, fun hboth => ⟨by omega, hboth⟩⟩

theorem Outcome.decode {r : Reader ε α} (h : Outcome (r.run data 0) guard fits) :
    Outcome (r.decode data) guard fits := by
  have hbind : (r.run data 0).map Prod.fst = r.run data 0 >>= fun p => .ok p.1 := by
    generalize r.run data 0 = out
    rcases out with stop | p <;> rfl
  exact (h.bind fun p _ => Outcome.ok p.1).congr
    ⟨And.left, fun hg => ⟨hg, fun _ => trivial⟩⟩ ⟨And.left, fun hfits => ⟨hfits, trivial⟩⟩

end

end

end RhypeDb.ByteReader
