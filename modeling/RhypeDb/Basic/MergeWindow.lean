import RhypeDb.Basic.SortedMap

/-! Sorted sources merged into one, a later source over an earlier one, when every source gives its
first rows only. Up to the length of these windows the merge is that of the whole sources. -/

namespace RhypeDb.MergeWindow

open List SortedMap

variable {κ β : Type*} [LinearOrder κ]

def merge (sources : List (List (κ × β))) : SortedMap κ β :=
  sources.foldl SortedMap.insertAll .empty

abbrev Ascending (rows : List (κ × β)) : Prop := rows.Pairwise fun a b => a.1 < b.1

theorem merge_concat (sources : List (List (κ × β))) (rows : List (κ × β)) :
    merge (sources ++ [rows]) = (merge sources).insertAll rows := by
  unfold merge
  rw [foldl_append, foldl_cons, foldl_nil]

variable {rows : List (κ × β)}

theorem Ascending.nodup (h : Ascending rows) : (rows.map Prod.fst).Nodup :=
  pairwise_map.mpr (h.imp fun hlt => hlt.ne)

theorem Ascending.take (h : Ascending rows) (n : Nat) :
    Ascending (rows.take n) := h.sublist (take_sublist n rows)

variable {sources : List (List (κ × β))} {k : κ}

theorem mem_merge_concat (hrows : Ascending rows) {v : β} :
    (k, v) ∈ (merge (sources ++ [rows])).entries ↔
      (k, v) ∈ rows ∨ k ∉ rows.map Prod.fst ∧ (k, v) ∈ (merge sources).entries := by
  rw [merge_concat, ← lookup_eq_some]
  by_cases hk : k ∈ rows.map Prod.fst
  · obtain ⟨e, he, rfl⟩ := mem_map.mp hk
    rw [lookup_insertAll_of_mem _ hrows.nodup he, Option.some_inj]
    constructor
    · rintro rfl
      exact .inl he
    · rintro (hmem | ⟨hnot, -⟩)
      · exact congrArg Prod.snd (eq_of_mem (m := ⟨rows, hrows⟩) he hmem rfl)
      · exact absurd hk hnot
  · rw [lookup_insertAll_of_notMem _ hk, lookup_eq_some, and_iff_right hk]
    exact (or_iff_right fun hmem => hk (mem_map_of_mem hmem)).symm

theorem exists_mem_merge (hs : ∀ rows ∈ sources, Ascending rows) :
    (∃ v, (k, v) ∈ (merge sources).entries) ↔ ∃ rows ∈ sources, k ∈ rows.map Prod.fst := by
  induction sources using List.reverseRecOn with
  | nil =>
    constructor
    · rintro ⟨v, hv⟩
      cases hv
    · rintro ⟨rows, hrows, -⟩
      cases hrows
  | append_singleton sources rows ih =>
    rw [forall_mem_append, forall_mem_singleton] at hs
    have hrest := ih hs.1
    constructor
    · rintro ⟨v, hv⟩
      obtain hv | ⟨-, hv⟩ := (mem_merge_concat hs.2).mp hv
      · exact ⟨rows, mem_append_right _ (mem_singleton_self rows), mem_map_of_mem hv⟩
      · obtain ⟨old, hold, hk⟩ := hrest.mp ⟨v, hv⟩
        exact ⟨old, mem_append_left _ hold, hk⟩
    · rintro ⟨source, hsource, hk⟩
      by_cases hrows : k ∈ rows.map Prod.fst
      · obtain ⟨e, he, rfl⟩ := mem_map.mp hrows
        exact ⟨e.2, (mem_merge_concat hs.2).mpr (.inl he)⟩
      · obtain hold | hlast := mem_append.mp hsource
        · obtain ⟨v, hv⟩ := hrest.mpr ⟨source, hold, hk⟩
          exact ⟨v, (mem_merge_concat hs.2).mpr (.inr ⟨hrows, hv⟩)⟩
        · cases mem_singleton.mp hlast
          exact absurd hk hrows

theorem mem_merge_take (hs : ∀ rows ∈ sources, Ascending rows) {n : Nat} {v : β}
    (hwithin : ∀ rows ∈ sources, ∀ w, (k, w) ∈ rows → (k, w) ∈ rows.take n) :
    (k, v) ∈ (merge (sources.map (List.take n))).entries ↔ (k, v) ∈ (merge sources).entries := by
  induction sources using List.reverseRecOn with
  | nil => rfl
  | append_singleton sources rows ih =>
    rw [forall_mem_append, forall_mem_singleton] at hs hwithin
    have hkeys : k ∈ (rows.take n).map Prod.fst ↔ k ∈ rows.map Prod.fst := by
      constructor
      · intro hk
        obtain ⟨e, he, rfl⟩ := mem_map.mp hk
        exact mem_map_of_mem (mem_of_mem_take he)
      · intro hk
        obtain ⟨e, he, rfl⟩ := mem_map.mp hk
        exact mem_map_of_mem (hwithin.2 e.2 he)
    have hrow : (k, v) ∈ rows.take n ↔ (k, v) ∈ rows :=
      ⟨mem_of_mem_take, hwithin.2 v⟩
    rw [map_append, map_singleton, mem_merge_concat (hs.2.take n), mem_merge_concat hs.2,
      hrow, hkeys, ih hs.1 hwithin.1]

variable {n : Nat}

theorem mem_merge_take_of_mem_take (hs : ∀ rows ∈ sources, Ascending rows) {x : κ × β}
    (hx : x ∈ (merge sources).entries.take n) :
    x ∈ (merge (sources.map (List.take n))).entries := by
  obtain ⟨hmem, hbelow⟩ := (mem_take_iff (merge sources).sorted).mp hx
  refine (mem_merge_take hs fun rows hrows w hw => ?_).mpr hmem
  -- what is below the key in its source is below it in the merge
  refine (mem_take_iff (hs rows hrows)).mpr ⟨hw, fun s hsub => hbelow s fun j hj => ?_⟩
  obtain ⟨hlt, u, hu⟩ := hsub j hj
  exact ⟨hlt, (exists_mem_merge hs).mpr ⟨rows, hrows, mem_map_of_mem hu⟩⟩

theorem take_merge_take (hs : ∀ rows ∈ sources, Ascending rows) :
    (merge (sources.map (List.take n))).entries.take n = (merge sources).entries.take n := by
  have hwindows : ∀ rows ∈ sources.map (List.take n), Ascending rows := by
    intro rows hrows
    obtain ⟨source, hsource, rfl⟩ := mem_map.mp hrows
    exact (hs source hsource).take n
  have hkeys : ∀ {x : κ × β}, x ∈ (merge (sources.map (List.take n))).entries →
      ∃ v, (x.1, v) ∈ (merge sources).entries := by
    intro x hx
    obtain ⟨rows, hrows, hk⟩ := (exists_mem_merge hwindows).mp ⟨x.2, hx⟩
    obtain ⟨source, hsource, rfl⟩ := mem_map.mp hrows
    exact (exists_mem_merge hs).mpr ⟨source, hsource, (map_subset _ (take_subset n source)) hk⟩
  apply entries_eq_of_mem_iff ((merge _).sorted.sublist (take_sublist _ _))
    ((merge _).sorted.sublist (take_sublist _ _))
  intro x
  constructor
  · intro hx
    obtain ⟨hmem, hbelow⟩ := (mem_take_iff (merge _).sorted).mp hx
    obtain ⟨v, hv⟩ := hkeys hmem
    have htake : (x.1, v) ∈ (merge sources).entries.take n := by
      by_contra hnot
      -- then the first `n` rows of the merge all stand below `x`, within the windows
      have hsplit := take_append_drop n (merge sources).entries
      have hdrop : (x.1, v) ∈ (merge sources).entries.drop n := by
        rw [← hsplit, mem_append] at hv
        exact hv.resolve_left hnot
      have hfull : ((merge sources).entries.take n).length = n := by
        refine length_take_of_le ?_
        by_contra hshort
        rw [drop_eq_nil_of_le (Nat.le_of_not_le hshort)] at hdrop
        cases hdrop
      have hsorted := (merge sources).sorted
      rw [← hsplit, pairwise_append] at hsorted
      have hcard := hbelow (((merge sources).entries.take n).map Prod.fst).toFinset ?_
      · have hnodup : (((merge sources).entries.take n).map Prod.fst).Nodup :=
          Ascending.nodup hsorted.1
        rw [toFinset_card_of_nodup hnodup, length_map, hfull] at hcard
        exact lt_irrefl n hcard
      · intro j hj
        obtain ⟨y, hy, rfl⟩ := mem_map.mp (mem_toFinset.mp hj)
        exact ⟨hsorted.2.2 y hy (x.1, v) hdrop, y.2, mem_merge_take_of_mem_take hs hy⟩
    have heq : x = (x.1, v) :=
      eq_of_mem hmem (mem_merge_take_of_mem_take hs htake) rfl
    exact heq ▸ htake
  · intro hx
    have hmem := mem_merge_take_of_mem_take hs hx
    refine (mem_take_iff (merge _).sorted).mpr ⟨hmem, fun s hsub => ?_⟩
    refine ((mem_take_iff (merge sources).sorted).mp hx).2 s fun j hj => ?_
    obtain ⟨hlt, u, hu⟩ := hsub j hj
    exact ⟨hlt, hkeys hu⟩

omit [LinearOrder κ] in
theorem map_take_of_short (hshort : ∀ rows ∈ sources, (rows.take n).length ≠ n) :
    sources.map (List.take n) = sources := by
  refine (map_congr_left fun rows hrows => ?_).trans (map_id sources)
  refine take_of_length_le (Nat.le_of_not_le fun hle => ?_)
  exact hshort rows hrows (length_take_of_le hle)

end RhypeDb.MergeWindow
