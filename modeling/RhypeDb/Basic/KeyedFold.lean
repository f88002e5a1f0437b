import Mathlib.Data.List.AList
import Mathlib.Data.List.Count
import Mathlib.Data.List.Perm.Basic
import RhypeDb.Basic.Fallible

/-! Folding keyed rows into an association list, each row into the value of its own key: what the
result has at a key depends on the rows of that key alone. -/

namespace RhypeDb.KeyedFold

open AList Fallible List

variable {κ α β : Type*} [DecidableEq κ]

def rowsOf (k : κ) (rows : List (κ × α)) : List α :=
  (rows.filter fun e => decide (e.1 = k)).map Prod.snd

section

variable {k : κ} {rows : List (κ × α)} {p : κ → Bool}

@[simp] theorem rowsOf_nil : rowsOf k ([] : List (κ × α)) = [] := rfl

theorem rowsOf_cons (e : κ × α) :
    rowsOf k (e :: rows) = if e.1 = k then e.2 :: rowsOf k rows else rowsOf k rows := by
  unfold rowsOf
  by_cases h : e.1 = k
  · rw [filter_cons_of_pos (by simpa using h), if_pos h, map_cons]
  · rw [filter_cons_of_neg (by simpa using h), if_neg h]

theorem mem_rowsOf {a : α} : a ∈ rowsOf k rows ↔ (k, a) ∈ rows := by
  unfold rowsOf
  rw [mem_map]
  constructor
  · rintro ⟨⟨k', a'⟩, he, rfl⟩
    obtain ⟨he, hk⟩ := mem_filter.mp he
    have hk : k' = k := by simpa using hk
    exact hk ▸ he
  · intro h
    exact ⟨(k, a), mem_filter.mpr ⟨h, by simp⟩, rfl⟩

theorem rowsOf_filter (hk : p k = true) :
    rowsOf k (rows.filter fun e => p e.1) = rowsOf k rows := by
  unfold rowsOf
  rw [filter_filter]
  congr 1
  apply filter_congr
  intro e _
  by_cases h : e.1 = k
  · simp [h, hk]
  · simp [h]

variable {rows' : List (κ × α)}

theorem rowsOf_perm (h : rows.Perm rows') (k : κ) :
    (rowsOf k rows).Perm (rowsOf k rows') := (h.filter _).map _

theorem rowsOf_filterMap (f : α → Option β) :
    rowsOf k (rows.filterMap fun e => (f e.2).map fun b => (e.1, b)) =
      (rowsOf k rows).filterMap f := by
  induction rows with
  | nil => rfl
  | cons e rows ih =>
    rw [filterMap_cons, rowsOf_cons]
    by_cases hk : e.1 = k
    · rw [if_pos hk, filterMap_cons]
      cases hf : f e.2 with
      | none => exact ih
      | some b =>
        rw [Option.map_some]
        rw [rowsOf_cons, if_pos hk, ih]
    · rw [if_neg hk, ← ih]
      cases hf : f e.2 with
      | none => rfl
      | some b =>
        rw [Option.map_some]
        rw [rowsOf_cons, if_neg hk]

theorem count_eq_count_rowsOf [DecidableEq α] (e : κ × α) :
    rows.count e = (rowsOf e.1 rows).count e.2 := by
  induction rows with
  | nil => rfl
  | cons x rows ih =>
    rw [rowsOf_cons, count_cons, ih]
    by_cases hkey : x.1 = e.1
    · rw [if_pos hkey, count_cons]
      congr 1
      have hiff : x = e ↔ x.2 = e.2 := by
        rw [Prod.ext_iff]
        exact and_iff_right hkey
      by_cases hval : x.2 = e.2
      · have hx : x = e := hiff.mpr hval
        simp [hx]
      · have hx : x ≠ e := fun h => hval (hiff.mp h)
        simp [hx, hval]
    · have hx : x ≠ e := fun h => hkey (congrArg Prod.fst h)
      rw [if_neg hkey]
      simp [hx]

theorem perm_filter_of_rowsOf [DecidableEq α]
    (h : ∀ k, p k = true → rowsOf k rows = rowsOf k rows') :
    (rows.filter fun e => p e.1).Perm (rows'.filter fun e => p e.1) := by
  rw [perm_iff_count]
  intro e
  by_cases hp : p e.1 = true
  · rw [count_eq_count_rowsOf, count_eq_count_rowsOf, rowsOf_filter hp, rowsOf_filter hp, h e.1 hp]
  · have hnot : ∀ l : List (κ × α), (l.filter fun e => p e.1).count e = 0 := by
      intro l
      rw [count_eq_zero]
      exact fun he => hp (mem_filter.mp he).2
    rw [hnot, hnot]

end

section

variable {m m' : AList fun _ : κ => β}

theorem lookup_insert' (m : AList fun _ : κ => β) (k k' : κ) (b : β) :
    (m.insert k b).lookup k' = if k' = k then some b else m.lookup k' := by
  by_cases h : k' = k
  · subst h
    rw [if_pos rfl, lookup_insert]
  · rw [if_neg h, lookup_insert_ne h]

theorem lookup_foldl_upsert (f : Option β → α → β) (rows : List (κ × α)) (k : κ) :
    (rows.foldl (fun m e => m.insert e.1 (f (m.lookup e.1) e.2)) m).lookup k =
      (rowsOf k rows).foldl (fun o a => some (f o a)) (m.lookup k) := by
  induction rows generalizing m with
  | nil => rfl
  | cons e rows ih =>
    rw [foldl_cons, ih, lookup_insert', rowsOf_cons]
    by_cases h : e.1 = k
    · rw [if_pos h.symm, if_pos h, foldl_cons, h]
    · rw [if_neg (Ne.symm h), if_neg h]

theorem foldl_some_eq_getLast? (l : List α) (o : Option α) :
    l.foldl (fun _ a => some a) o = l.getLast?.or o := by
  induction l generalizing o with
  | nil => rfl
  | cons a l ih =>
    rw [foldl_cons, ih]
    cases l with
    | nil => rfl
    | cons b l =>
      rfl

theorem lookup_foldl_insert (rows : List (κ × α)) (k : κ) :
    (rows.foldl (fun m e => m.insert e.1 e.2) (∅ : AList fun _ : κ => α)).lookup k =
      (rowsOf k rows).getLast? := by
  rw [lookup_foldl_upsert fun _ a => a, lookup_empty, foldl_some_eq_getLast?, Option.or_none]

theorem perm_of_lookup_eq (h : ∀ k, m.lookup k = m'.lookup k) : m.entries.Perm m'.entries := by
  refine lookup_ext m.nodupKeys m'.nodupKeys fun k b => ?_
  have hk : m.entries.dlookup k = m'.entries.dlookup k := h k
  rw [hk]

theorem rowsOf_of_perm_entries {es : List (Sigma fun _ : κ => β)} (h : es.Perm m.entries) (k : κ) :
    rowsOf k (es.map fun e => (e.1, e.2)) = (m.lookup k).toList := by
  have hnodup : es.NodupKeys := (perm_nodupKeys h).mpr m.nodupKeys
  have hlookup : m.lookup k = es.dlookup k := (perm_dlookup k hnodup h).symm
  rw [hlookup]
  clear hlookup h
  induction es with
  | nil => rfl
  | cons e es ih =>
    obtain ⟨k', b⟩ := e
    obtain ⟨hfresh, hnodup⟩ := nodupKeys_cons.mp hnodup
    rw [map_cons, rowsOf_cons]
    by_cases hk : k' = k
    · subst hk
      have hnone : es.dlookup k' = none := dlookup_eq_none.mpr hfresh
      rw [if_pos rfl, ih hnodup, hnone, dlookup_cons_eq]
      rfl
    · rw [if_neg hk, ih hnodup, dlookup_cons_ne _ _ (Ne.symm hk)]

theorem lookup_foldl_orInsert (f : α → β) (rows : List (κ × α)) (k : κ) :
    (rows.foldl (fun m e => if e.1 ∈ m then m else m.insert e.1 (f e.2)) m).lookup k =
      (m.lookup k).or ((rowsOf k rows).head?.map f) := by
  induction rows generalizing m with
  | nil => exact Option.or_none.symm
  | cons e rows ih =>
    rw [foldl_cons, ih, rowsOf_cons]
    by_cases hmem : e.1 ∈ m
    · rw [if_pos hmem]
      by_cases hk : e.1 = k
      · obtain ⟨b, hb⟩ := Option.isSome_iff_exists.mp (lookup_isSome.mpr (hk ▸ hmem))
        rw [hb]
        rfl
      · rw [if_neg hk]
    · rw [if_neg hmem, lookup_insert']
      by_cases hk : e.1 = k
      · have hnone : m.lookup k = none := lookup_eq_none.mpr (hk ▸ hmem)
        rw [if_pos hk.symm, if_pos hk, hnone]
        rfl
      · rw [if_neg (Ne.symm hk), if_neg hk]

end

section

variable {ε κ γ δ : Type} [DecidableEq κ]

def insertResult (f : κ → γ → Except ε δ) (out : AList fun _ : κ => δ) (e : Sigma fun _ : κ => γ) :
    Except ε (AList fun _ : κ => δ) := do
  let x ← f e.1 e.2
  return out.insert e.1 x

variable {f : κ → γ → Except ε δ}

variable {entries : List (Sigma fun _ : κ => γ)} {m : AList fun _ : κ => δ}

theorem foldlM_insert_ok (hnodup : entries.NodupKeys) {out : AList fun _ : κ => δ}
    (h : entries.foldlM (insertResult f) m = .ok out) :
    (∀ e ∈ entries, ∃ x, f e.1 e.2 = .ok x ∧ out.lookup e.1 = some x) ∧
      ∀ k, k ∉ entries.keys → out.lookup k = m.lookup k := by
  induction entries generalizing m with
  | nil =>
    cases h
    exact ⟨nofun, fun _ _ => rfl⟩
  | cons e entries ih =>
    obtain ⟨k₀, c⟩ := e
    obtain ⟨hfresh, hnodup⟩ := nodupKeys_cons.mp hnodup
    obtain ⟨m', hm', h⟩ := bind_eq_ok.mp h
    obtain ⟨x, hx, hins⟩ := bind_eq_ok.mp hm'
    cases hins
    obtain ⟨hentries, hothers⟩ := ih hnodup h
    refine ⟨?_, fun k hk => ?_⟩
    · rintro e he
      rcases mem_cons.mp he with rfl | he
      · exact ⟨x, hx, by rw [hothers k₀ hfresh, lookup_insert]⟩
      · exact hentries e he
    · rw [keys_cons, mem_cons, not_or] at hk
      rw [hothers k hk.2, lookup_insert_ne hk.1]

theorem foldlM_insert_error {err : ε} (h : entries.foldlM (insertResult f) m = .error err) :
    ∃ e ∈ entries, f e.1 e.2 = .error err := by
  induction entries generalizing m with
  | nil => cases h
  | cons e entries ih =>
    rcases bind_eq_error.mp h with h | ⟨m', -, h⟩
    · rcases bind_eq_error.mp h with h | ⟨x, -, h⟩
      · exact ⟨e, mem_cons_self, h⟩
      · cases h
    · obtain ⟨e', he', hfail⟩ := ih h
      exact ⟨e', mem_cons_of_mem e he', hfail⟩

end

end RhypeDb.KeyedFold
