import RhypeDb.Storage.PointRead

/-! The moving cursor of the batched reads of a v5 file: a position in the data region and the
block it lies in. The cursor gallops over blocks whose keys are still below the key it looks
for, and is kept in step with its block everywhere else. -/

namespace RhypeDb.Storage

open List

variable {V : Type}

structure Cursor where
  pos : Nat
  blockIdx : Nat

namespace SstFile

def blockOffset (f : SstFile V) (blockIdx : Nat) : Nat :=
  ((f.index[blockIdx]?).map IndexEntry.offset).getD f.data.length

/-- `locate_block_from`, and `prefix_start_block_from`, which is the same search. -/
def locateBlockFrom (f : SstFile V) (userKey : Bytes) (start : Nat) : Nat :=
  start + seekBlock (f.index.drop start) (.seek userKey)

def seedCursor (f : SstFile V) (userKey : Bytes) (start : Nat) : Cursor :=
  ⟨f.blockOffset (f.locateBlockFrom userKey start), f.locateBlockFrom userKey start⟩

/-- `while block_idx + 1 < index.len() && pos >= index[block_idx + 1].offset`. -/
def syncBlock (f : SstFile V) (c : Cursor) : Cursor :=
  ⟨c.pos, c.blockIdx + ((f.index.drop (c.blockIdx + 1)).takeWhile
    fun e => decide (e.offset ≤ c.pos)).length⟩

def gallop (f : SstFile V) (userKey : Bytes) (c : Cursor) : Cursor :=
  match f.index[c.blockIdx + 1]? with
  | none => c
  | some next => if next.offset ≤ c.pos then f.seedCursor userKey (c.blockIdx + 1) else c

/-- The entries from `a` to `b` all satisfy `P`. -/
def Between (f : SstFile V) (a b : Nat) (P : Entry V → Prop) : Prop :=
  ∃ mid, f.data.drop a = mid ++ f.data.drop b ∧ ∀ e ∈ mid, P e

variable {f : SstFile V} {a b c : Nat} {P Q : Entry V → Prop}

theorem between_rfl : f.Between a a P := ⟨[], rfl, by simp⟩

theorem Between.trans (h₁ : f.Between a b P) (h₂ : f.Between b c P) : f.Between a c P := by
  obtain ⟨mid₁, hmid₁, hP₁⟩ := h₁
  obtain ⟨mid₂, hmid₂, hP₂⟩ := h₂
  refine ⟨mid₁ ++ mid₂, by rw [hmid₁, hmid₂, append_assoc], ?_⟩
  rw [forall_mem_append]
  exact ⟨hP₁, hP₂⟩

theorem Between.mono (h : f.Between a b P) (hPQ : ∀ e, P e → Q e) : f.Between a b Q := by
  obtain ⟨mid, hmid, hP⟩ := h
  exact ⟨mid, hmid, fun e he => hPQ e (hP e he)⟩

theorem between_succ {e : Entry V} (he : f.data[a]? = some e) (hP : P e) :
    f.Between a (a + 1) P := by
  obtain ⟨hlt, rfl⟩ := List.getElem?_eq_some_iff.mp he
  exact ⟨[f.data[a]], by rw [drop_eq_getElem_cons hlt]; rfl, by simpa using hP⟩

theorem between_of_take (hab : a ≤ b) (h : ∀ e ∈ f.data.take b, P e) : f.Between a b P := by
  refine ⟨(f.data.drop a).take (b - a), ?_, ?_⟩
  · conv_lhs => rw [← take_append_drop (b - a) (f.data.drop a)]
    rw [drop_drop, Nat.add_sub_cancel' hab]
  · intro e he
    rw [take_drop, Nat.add_sub_cancel' hab] at he
    exact h e (mem_of_mem_drop he)

end SstFile

structure Cursor.Synced (f : SstFile V) (c : Cursor) : Prop where
  lt : c.blockIdx < f.index.length
  le : 16 * c.blockIdx ≤ c.pos
  next : c.blockIdx + 1 < f.index.length → c.pos < 16 * (c.blockIdx + 1)
  pos_le : c.pos ≤ f.data.length

namespace SstFile

variable {env : StorageEnv V} {f : SstFile V} {start : Nat}

theorem WellFormed.blockOffset_eq (hf : f.WellFormed env) {i : Nat} (hi : i < f.index.length) :
    f.blockOffset i = 16 * i := by
  rw [blockOffset, getElem?_eq_getElem hi]
  exact (hf.index_get i _ (getElem?_eq_getElem hi)).1

theorem WellFormed.offset_lt (hf : f.WellFormed env) {i : Nat} (hi : i < f.index.length) :
    16 * i < f.data.length := by
  have := hf.index_length
  omega

theorem locateBlockFrom_lt (hstart : start < f.index.length) (k : Bytes) :
    start ≤ f.locateBlockFrom k start ∧ f.locateBlockFrom k start < f.index.length := by
  have hne : f.index.drop start ≠ [] := by
    rw [Ne, drop_eq_nil_iff]
    omega
  have hlt := (seekBlock_spec (f.index.drop start) (.seek k)).1 hne
  rw [length_drop] at hlt
  unfold locateBlockFrom
  omega

theorem WellFormed.seedCursor_spec (hf : f.WellFormed env)
    (hstart : start < f.index.length) (k : Bytes) :
    (f.seedCursor k start).Synced f ∧ 16 * start ≤ (f.seedCursor k start).pos ∧
      f.Between (16 * start) (f.seedCursor k start).pos fun e => e.1.userKey < k := by
  obtain ⟨hge, hlt⟩ := locateBlockFrom_lt hstart k
  have hpos : (f.seedCursor k start).pos = 16 * f.locateBlockFrom k start := hf.blockOffset_eq hlt
  have hend := hf.offset_lt hlt
  refine ⟨⟨hlt, hpos.ge, fun _ => ?_, by omega⟩, by omega, ?_⟩
  · show (f.seedCursor k start).pos < 16 * (f.locateBlockFrom k start + 1)
    omega
  · rw [hpos]
    rcases (seekBlock_spec (f.index.drop start) (.seek k)).2 with hzero | ⟨ie, hie, hkey⟩
    · rw [locateBlockFrom, hzero, Nat.add_zero]
      exact between_rfl
    · apply between_of_take (by omega)
      intro e he
      rw [getElem?_drop] at hie
      exact InternalKey.userKey_lt_of_lt_seek ((hf.lt_of_mem_take hie he).trans_le hkey)

theorem WellFormed.gallop_spec (hf : f.WellFormed env) {c : Cursor}
    (hlt : c.blockIdx < f.index.length)
    (hle : 16 * c.blockIdx ≤ c.pos)
    (hnext : c.blockIdx + 1 < f.index.length → c.pos ≤ 16 * (c.blockIdx + 1))
    (hend : c.pos ≤ f.data.length) (k : Bytes) :
    (f.gallop k c).Synced f ∧ c.pos ≤ (f.gallop k c).pos ∧
      f.Between c.pos (f.gallop k c).pos fun e => e.1.userKey < k := by
  unfold gallop
  cases hn : f.index[c.blockIdx + 1]? with
  | none =>
    have hlast := List.getElem?_eq_none_iff.mp hn
    exact ⟨⟨hlt, hle, fun h => absurd h (Nat.not_lt.mpr hlast), hend⟩, le_rfl, between_rfl⟩
  | some next =>
    have hblock : c.blockIdx + 1 < f.index.length := (List.getElem?_eq_some_iff.mp hn).1
    have hoff := (hf.index_get _ next hn).1
    dsimp only
    split_ifs with hreach
    · -- the next block starts exactly at the cursor
      have hpos : c.pos = 16 * (c.blockIdx + 1) := le_antisymm (hnext hblock) (hoff ▸ hreach)
      rw [hpos]
      exact hf.seedCursor_spec hblock k
    · exact ⟨⟨hlt, hle, fun _ => by omega, hend⟩, le_rfl, between_rfl⟩

theorem takeWhile_length_spec {α : Type} (p : α → Bool) (xs : List α) :
    (∀ j < (xs.takeWhile p).length, ∃ x, xs[j]? = some x ∧ p x = true) ∧
      ∀ x, xs[(xs.takeWhile p).length]? = some x → p x = false := by
  induction xs with
  | nil => simp
  | cons x xs ih =>
    cases hx : p x with
    | false => simp [hx]
    | true =>
      rw [takeWhile_cons_of_pos hx]
      refine ⟨fun j hj => ?_, fun y hy => ih.2 y (by simpa using hy)⟩
      cases j with
      | zero => exact ⟨x, rfl, hx⟩
      | succ j => exact ih.1 j (by simpa using hj)

theorem WellFormed.syncBlock_spec (hf : f.WellFormed env) {c : Cursor}
    (hlt : c.blockIdx < f.index.length) (hle : 16 * c.blockIdx ≤ c.pos)
    (hend : c.pos ≤ f.data.length) : (f.syncBlock c).Synced f := by
  obtain ⟨hbefore, hafter⟩ := takeWhile_length_spec (fun e : IndexEntry => decide (e.offset ≤ c.pos))
    (f.index.drop (c.blockIdx + 1))
  unfold syncBlock
  generalize ((f.index.drop (c.blockIdx + 1)).takeWhile
    fun e => decide (e.offset ≤ c.pos)).length = n at hbefore hafter ⊢
  have hreached : c.blockIdx + n < f.index.length ∧ 16 * (c.blockIdx + n) ≤ c.pos := by
    cases n with
    | zero => exact ⟨hlt, hle⟩
    | succ n =>
      obtain ⟨ie, hie, hoff⟩ := hbefore n (Nat.lt_succ_self n)
      rw [getElem?_drop] at hie
      have hpos := (hf.index_get _ ie hie).1
      have hoff : ie.offset ≤ c.pos := by simpa using hoff
      have := (List.getElem?_eq_some_iff.mp hie).1
      constructor <;> omega
  refine ⟨hreached.1, hreached.2, fun hmore => ?_, hend⟩
  have hget : (f.index.drop (c.blockIdx + 1))[n]? = f.index[c.blockIdx + n + 1]? := by
    rw [getElem?_drop]
    congr 1
    omega
  rw [hget, getElem?_eq_getElem hmore] at hafter
  have hoff := hafter _ rfl
  rw [(hf.index_get _ _ (getElem?_eq_getElem hmore)).1] at hoff
  show c.pos < 16 * (c.blockIdx + n + 1)
  simpa using hoff

end SstFile
end RhypeDb.Storage
