import Mathlib.Data.List.Sort
import Mathlib.Data.Prod.Lex

/-! Best-first search of a graph with a beam: the nearest candidate is expanded, and of what has
been scored the nearest `ef` nodes are kept, until no candidate can still come among them. -/

namespace RhypeDb.BestFirst

open List

variable {ν δ : Type} [LinearOrder ν] [LinearOrder δ]

/-- Nearer, or just as near and not a larger node: the order of both heaps. -/
def Nearer (a b : δ × ν) : Prop := toLex a ≤ toLex b

instance : DecidableRel (@Nearer ν δ _ _) := fun a b =>
  inferInstanceAs (Decidable (toLex a ≤ toLex b))

instance : IsTrans (δ × ν) Nearer := ⟨fun _ _ _ => le_trans⟩

instance : Std.Total (@Nearer ν δ _ _) := ⟨fun a b => le_total (toLex a) (toLex b)⟩

instance : IsTrans (δ × ν) fun a b => Nearer b a := ⟨fun _ _ _ h h' => le_trans h' h⟩

instance : Std.Total fun a b : δ × ν => Nearer b a := ⟨fun a b => le_total (toLex b) (toLex a)⟩

theorem Nearer.fst_le {a b : δ × ν} (h : Nearer a b) : a.1 ≤ b.1 := by
  rcases Prod.Lex.toLex_le_toLex.mp h with h | h
  · exact h.le
  · exact h.1.le

/-- A result takes its place, and the farthest drops out if there are too many. -/
def keep (ef : ℕ) (r : δ × ν) (results : List (δ × ν)) : List (δ × ν) :=
  let all := results.orderedInsert (fun a b => Nearer b a) r
  if ef < all.length then all.tail else all

/-- The candidates come nearest first, the results farthest first. -/
structure Beam (ν δ : Type) where
  visited : List ν
  candidates : List (δ × ν)
  results : List (δ × ν)

namespace Beam

def start (v : ν) (d : δ) : Beam ν δ := ⟨[v], [(d, v)], [(d, v)]⟩

/-- `far` stands in where there is no result. -/
def worst (far : δ) (b : Beam ν δ) : δ := (b.results.head?.map Prod.fst).getD far

/-- A node that is come to for the first time; one without a score is passed over. -/
def accept (ef : ℕ) (far : δ) (b : Beam ν δ) (v : ν) : Option δ → Beam ν δ
  | none => { b with visited := v :: b.visited }
  | some d =>
    if d < b.worst far ∨ b.results.length < ef then
      { visited := v :: b.visited
        candidates := b.candidates.orderedInsert Nearer (d, v)
        results := keep ef (d, v) b.results }
    else { b with visited := v :: b.visited }

def visit (ef : ℕ) (far : δ) (score : ν → Option δ) (b : Beam ν δ) (v : ν) : Beam ν δ :=
  if v ∈ b.visited then b else b.accept ef far v (score v)

/-- The candidate is behind every result, and no more results are wanted. -/
def Stops (ef : ℕ) (far : δ) (b : Beam ν δ) (c : δ × ν) : Prop :=
  b.worst far < c.1 ∧ ef ≤ b.results.length

instance (ef : ℕ) (far : δ) (b : Beam ν δ) (c : δ × ν) : Decidable (b.Stops ef far c) :=
  inferInstanceAs (Decidable (_ ∧ _))

end Beam

def search (ef : ℕ) (far : δ) (score : ν → Option δ) (nbrs : ν → List ν) :
    ℕ → Beam ν δ → Option (Beam ν δ)
  | 0, _ => none
  | fuel + 1, b =>
    match b.candidates with
    | [] => some b
    | c :: rest =>
      if b.Stops ef far c then some b
      else search ef far score nbrs fuel
        ((nbrs c.2).foldl (Beam.visit ef far score) { b with candidates := rest })

variable {ef : ℕ} {far : δ} {b b' : Beam ν δ} {v : ν} {P : ν → δ → Prop}

theorem keep_cases (ef : ℕ) (r : δ × ν) (results : List (δ × ν)) :
    ∃ dropped, results.orderedInsert (fun a b => Nearer b a) r = dropped ++ keep ef r results ∧
      (keep ef r results).length ≤ max ef results.length ∧
      (dropped = [] ∨ (∃ e, dropped = [e]) ∧ ef ≤ (keep ef r results).length) := by
  have hlen := orderedInsert_length (fun a b => Nearer b a) results r
  unfold keep
  generalize results.orderedInsert (fun a b => Nearer b a) r = all at hlen
  obtain ⟨e, rest, rfl⟩ := exists_cons_of_length_eq_add_one hlen
  by_cases hfull : ef < (e :: rest).length
  · rw [if_pos hfull]
    refine ⟨[e], rfl, ?_, .inr ⟨⟨e, rfl⟩, Nat.le_of_lt_succ hfull⟩⟩
    exact (Nat.succ.inj hlen).le.trans (le_max_right _ _)
  · rw [if_neg hfull]
    exact ⟨[], rfl, (not_lt.mp hfull).trans (le_max_left _ _), .inl rfl⟩

theorem mem_of_mem_keep {r r' : δ × ν} {results : List (δ × ν)} (h : r' ∈ keep ef r results) :
    r' = r ∨ r' ∈ results := by
  obtain ⟨dropped, heq, -⟩ := keep_cases ef r results
  exact (mem_orderedInsert _).mp (heq ▸ mem_append_right _ h)

theorem Beam.accept_cases (b : Beam ν δ) (v : ν) (ef : ℕ) (far : δ) (score : Option δ) :
    ((∀ d ∈ score, b.worst far ≤ d ∧ ef ≤ b.results.length) ∧
      b.accept ef far v score = { b with visited := v :: b.visited }) ∨
    ∃ d, score = some d ∧ (d < b.worst far ∨ b.results.length < ef) ∧
      b.accept ef far v score = ⟨v :: b.visited, b.candidates.orderedInsert Nearer (d, v),
        keep ef (d, v) b.results⟩ := by
  cases score with
  | none => exact .inl ⟨nofun, rfl⟩
  | some d =>
    by_cases hin : d < b.worst far ∨ b.results.length < ef
    · exact .inr ⟨d, rfl, hin, if_pos hin⟩
    · refine .inl ⟨?_, if_neg hin⟩
      rw [not_or, not_lt, not_lt] at hin
      rintro _ ⟨⟩
      exact hin

/-- The results are known nodes, each once, the farthest first, and no more than are wanted. -/
structure Beam.Holds (ef : ℕ) (P : ν → δ → Prop) (b : Beam ν δ) : Prop where
  candidates : ∀ c ∈ b.candidates, P c.2 c.1
  results : ∀ r ∈ b.results, P r.2 r.1 ∧ r.2 ∈ b.visited
  nodup : (b.results.map Prod.snd).Nodup
  sorted : b.results.Pairwise fun a b => Nearer b a
  length_le : b.results.length ≤ max 1 ef
  ne_nil : b.results ≠ []

theorem Beam.Holds.imp {P' : ν → δ → Prop} (h : b.Holds ef P) (hP : ∀ v d, P v d → P' v d) :
    b.Holds ef P' :=
  { h with
    candidates := fun c hc => hP _ _ (h.candidates c hc)
    results := fun r hr => ⟨hP _ _ (h.results r hr).1, (h.results r hr).2⟩ }

theorem Beam.Holds.start {d : δ} (h : P v d) : (Beam.start v d).Holds ef P where
  candidates := by simpa [Beam.start] using h
  results := by simpa [Beam.start] using h
  nodup := List.nodup_singleton v
  sorted := List.pairwise_singleton _ _
  length_le := le_max_left _ _
  ne_nil := nofun

theorem Beam.Holds.accept {score : Option δ} (h : b.Holds ef P) (hv : v ∉ b.visited)
    (hscore : ∀ d ∈ score, P v d) : (b.accept ef far v score).Holds ef P := by
  have hold : ∀ r ∈ b.results, P r.2 r.1 ∧ r.2 ∈ v :: b.visited := fun r hr =>
    ⟨(h.results r hr).1, mem_cons_of_mem _ (h.results r hr).2⟩
  rcases b.accept_cases v ef far score with ⟨-, heq⟩ | ⟨d, rfl, -, heq⟩
  · rw [heq]
    exact { h with results := hold }
  obtain ⟨dropped, hkeep, hlen, hdropped⟩ := keep_cases ef (d, v) b.results
  have hsub : (keep ef (d, v) b.results).Sublist
      (b.results.orderedInsert (fun a b => Nearer b a) (d, v)) :=
    hkeep ▸ sublist_append_right _ _
  have hnodup : (((d, v) :: b.results).map Prod.snd).Nodup := by
    refine nodup_cons.mpr ⟨fun hmem => ?_, h.nodup⟩
    obtain ⟨r, hr, rfl⟩ := mem_map.mp hmem
    exact hv (h.results r hr).2
  have hperm := (perm_orderedInsert (fun a b => Nearer b a) (d, v) b.results).map Prod.snd
  rw [heq]
  refine ⟨fun c hc => ?_, fun r hr => ?_, (hperm.nodup_iff.mpr hnodup).sublist (hsub.map _),
    (h.sorted.orderedInsert _ _).sublist hsub, hlen.trans (max_le (le_max_right _ _) h.length_le),
    fun hnil => ?_⟩
  · rcases (mem_orderedInsert _).mp hc with rfl | hc
    · exact hscore d rfl
    · exact h.candidates c hc
  · rcases mem_of_mem_keep hr with rfl | hr
    · exact ⟨hscore d rfl, mem_cons_self⟩
    · exact hold r hr
  · have hlength := congrArg length hkeep
    rw [show keep ef (d, v) b.results = [] from hnil, orderedInsert_length] at hlength
    have hpos := length_pos_iff.mpr h.ne_nil
    rcases hdropped with rfl | ⟨⟨e, rfl⟩, -⟩
    · simp at hlength
    · simp only [append_nil, length_singleton] at hlength
      omega

theorem Beam.Holds.le_worst (h : b.Holds ef P) (far : δ) : ∀ r ∈ b.results, r.1 ≤ b.worst far := by
  obtain ⟨r₀, rest, hr₀⟩ := exists_cons_of_ne_nil h.ne_nil
  have hsorted := h.sorted
  rw [hr₀] at hsorted
  intro r hr
  rw [hr₀] at hr
  rw [Beam.worst, hr₀]
  rcases mem_cons.mp hr with rfl | hr
  · exact le_rfl
  · exact (rel_of_pairwise_cons hsorted hr).fst_le

theorem Beam.Holds.worst_mem (h : b.Holds ef P) (far : δ) : ∃ r ∈ b.results, r.1 = b.worst far := by
  obtain ⟨r₀, rest, hr₀⟩ := exists_cons_of_ne_nil h.ne_nil
  refine ⟨r₀, hr₀ ▸ mem_cons_self, ?_⟩
  rw [Beam.worst, hr₀]
  rfl

section

variable {score : ν → Option δ} {nbrs : ν → List ν} {results : List (δ × ν)} {r : δ × ν}

theorem le_length_keep (h : ef ≤ results.length) : ef ≤ (keep ef r results).length := by
  obtain ⟨dropped, hkeep, -, rfl | ⟨-, hle⟩⟩ := keep_cases ef r results
  · have hlen := congrArg length hkeep
    rw [orderedInsert_length, nil_append] at hlen
    omega
  · exact hle

/-- What drops out is not nearer than what is kept. -/
theorem mem_keep_or {r' : δ × ν}
    (hsorted : results.Pairwise fun a b => Nearer b a) (h : r' = r ∨ r' ∈ results) :
    r' ∈ keep ef r results ∨
      ef ≤ (keep ef r results).length ∧ ∀ k ∈ keep ef r results, k.1 ≤ r'.1 := by
  have hall := hsorted.orderedInsert r
  have hmem := (mem_orderedInsert fun a b => Nearer b a).mpr h
  obtain ⟨dropped, hkeep, -, hdropped⟩ := keep_cases ef r results
  rw [hkeep] at hall hmem
  rcases hdropped with rfl | ⟨⟨e, rfl⟩, hle⟩
  · exact .inl hmem
  · rcases mem_cons.mp hmem with rfl | hmem
    · exact .inr ⟨hle, fun k hk => (rel_of_pairwise_cons hall hk).fst_le⟩
    · exact .inl hmem

/-- What holds at every moment of a search: what has been visited is among the results, or these
are full and none of them is farther. -/
structure Beam.Tracks (ef : ℕ) (P : ν → δ → Prop) (score : ν → Option δ) (b : Beam ν δ) : Prop
    extends b.Holds ef P where
  passed : ∀ v ∈ b.visited, ∀ d ∈ score v, (d, v) ∈ b.results ∨
    ef ≤ b.results.length ∧ ∀ r ∈ b.results, r.1 ≤ d
  ordered : b.candidates.Pairwise Nearer

/-- Nothing that was visited or is a candidate is lost, and new results are candidates. -/
structure Beam.Grows (b b' : Beam ν δ) : Prop where
  visited : b.visited ⊆ b'.visited
  candidates : b.candidates ⊆ b'.candidates
  results : ∀ r ∈ b'.results, r ∈ b.results ∨ r ∈ b'.candidates

omit [LinearOrder ν] [LinearOrder δ] in
theorem Beam.Grows.refl (b : Beam ν δ) : b.Grows b := ⟨fun _ => id, fun _ => id, fun _ => .inl⟩

omit [LinearOrder ν] [LinearOrder δ] in
theorem Beam.Grows.trans {b₁ b₂ b₃ : Beam ν δ} (h : b₁.Grows b₂) (h' : b₂.Grows b₃) :
    b₁.Grows b₃ where
  visited := List.Subset.trans h.visited h'.visited
  candidates := List.Subset.trans h.candidates h'.candidates
  results r hr := by
    rcases h'.results r hr with hr | hr
    · exact (h.results r hr).imp_right fun hr => h'.candidates hr
    · exact .inr hr

theorem Beam.Tracks.accept (hscore : ∀ v, ∀ d ∈ score v, P v d) (h : b.Tracks ef P score)
    (hv : v ∉ b.visited) : (b.accept ef far v (score v)).Tracks ef P score ∧
      b.Grows (b.accept ef far v (score v)) := by
  have hholds : (b.accept ef far v (score v)).Holds ef P := h.toHolds.accept hv (hscore v)
  rcases b.accept_cases v ef far (score v) with ⟨hout, heq⟩ | ⟨d, hd, hin, heq⟩
  · rw [heq] at hholds ⊢
    refine ⟨⟨hholds, fun u hu e he => ?_, h.ordered⟩, subset_cons_self _ _, fun _ => id,
      fun _ => .inl⟩
    rcases mem_cons.mp hu with rfl | hu
    · obtain ⟨hle, hfull⟩ := hout e he
      exact .inr ⟨hfull, fun r hr => (h.le_worst far r hr).trans hle⟩
    · exact h.passed u hu e he
  · rw [heq] at hholds ⊢
    have hmem {c : δ × ν} := mem_orderedInsert Nearer (a := c) (b := (d, v)) (l := b.candidates)
    refine ⟨⟨hholds, fun u hu e he => ?_, h.ordered.orderedInsert _ _⟩, subset_cons_self _ _,
      fun c hc => hmem.mpr (.inr hc), fun r hr => ?_⟩
    · rcases mem_cons.mp hu with rfl | hu
      · rw [hd, Option.mem_some_iff] at he
        exact he ▸ mem_keep_or h.sorted (.inl rfl)
      rcases h.passed u hu e he with hr | ⟨hfull, hle⟩
      · exact mem_keep_or h.sorted (.inr hr)
      refine .inr ⟨le_length_keep hfull, fun r hr => ?_⟩
      rcases mem_of_mem_keep hr with rfl | hr
      · -- full as they were, the results let in only what is nearer than the worst
        obtain ⟨w, hw, hworst⟩ := h.worst_mem far
        have hlt := hin.resolve_right (not_lt.mpr hfull)
        exact (hworst ▸ hlt).le.trans (hle w hw)
      · exact hle r hr
    · rcases mem_of_mem_keep hr with rfl | hr
      · exact .inr (hmem.mpr (.inl rfl))
      · exact .inl hr

theorem Beam.Tracks.visits (far : δ) (hscore : ∀ v, ∀ d ∈ score v, P v d) (l : List ν)
    (h : b.Tracks ef P score) : (l.foldl (Beam.visit ef far score) b).Tracks ef P score ∧
      b.Grows (l.foldl (Beam.visit ef far score) b) ∧
      ∀ v ∈ l, v ∈ (l.foldl (Beam.visit ef far score) b).visited := by
  induction l generalizing b with
  | nil => exact ⟨h, .refl b, nofun⟩
  | cons v l ih =>
    have hstep : (b.visit ef far score v).Tracks ef P score ∧ b.Grows (b.visit ef far score v) ∧
        v ∈ (b.visit ef far score v).visited := by
      unfold Beam.visit
      split_ifs with hv
      · exact ⟨h, .refl b, hv⟩
      · refine ⟨(h.accept hscore hv).1, (h.accept hscore hv).2, ?_⟩
        rcases b.accept_cases v ef far (score v) with ⟨-, heq⟩ | ⟨d, -, -, heq⟩ <;>
          exact heq ▸ mem_cons_self
    obtain ⟨htracks, hgrows, hl⟩ := ih hstep.1
    refine ⟨htracks, hstep.2.1.trans hgrows, fun u hu => ?_⟩
    rcases mem_cons.mp hu with rfl | hu
    · exact hgrows.visited hstep.2.2
    · exact hl u hu

/-- A search ends with results all of whose neighbours have been visited: a candidate that is left
is behind the worst of them. -/
theorem search_spec (hscore : ∀ v, ∀ d ∈ score v, P v d) {fuel : ℕ}
    (h : search ef far score nbrs fuel b = some b') (htracks : b.Tracks ef P score)
    (hexpanded : ∀ r ∈ b.results, r ∈ b.candidates ∨ ∀ u ∈ nbrs r.2, u ∈ b.visited) :
    b'.Tracks ef P score ∧ b.visited ⊆ b'.visited ∧
      ∀ r ∈ b'.results, ∀ u ∈ nbrs r.2, u ∈ b'.visited := by
  induction fuel generalizing b with
  | zero => cases h
  | succ fuel ih =>
    unfold search at h
    split at h
    · next hnil =>
      cases h
      exact ⟨htracks, fun _ => id, fun r hr => (hexpanded r hr).resolve_left (hnil ▸ not_mem_nil)⟩
    · next c rest hcands =>
      have hordered := htracks.ordered
      rw [hcands] at hordered
      split_ifs at h with hstops
      · cases h
        refine ⟨htracks, fun _ => id, fun r hr => (hexpanded r hr).resolve_left fun hmem => ?_⟩
        have hle : c.1 ≤ r.1 := by
          rcases mem_cons.mp (hcands ▸ hmem) with rfl | hmem
          · exact le_rfl
          · exact (rel_of_pairwise_cons hordered hmem).fst_le
        exact absurd (hle.trans (htracks.le_worst far r hr)) (not_le.mpr hstops.1)
      · have hpopped : ({ b with candidates := rest } : Beam ν δ).Tracks ef P score :=
          { htracks with
            candidates := fun c' hc' => htracks.candidates c' (hcands ▸ mem_cons_of_mem _ hc')
            ordered := hordered.of_cons }
        obtain ⟨htracks', hgrows, hnbrs⟩ := hpopped.visits far hscore (nbrs c.2)
        obtain ⟨hfinal, hsub, hclosed⟩ := ih h htracks' fun r hr => by
          rcases hgrows.results r hr with hr | hr
          · rcases hexpanded r hr with hc | hvisited
            · rcases mem_cons.mp (hcands ▸ hc) with rfl | hc
              · exact .inr hnbrs
              · exact .inl (hgrows.candidates hc)
            · exact .inr fun u hu => hgrows.visited (hvisited u hu)
          · exact .inl hr
        exact ⟨hfinal, fun u hu => hsub (hgrows.visited hu), hclosed⟩

end

variable {score : ν → Option δ} {nbrs : ν → List ν} {nodes : List ν}

/-- The candidates, and what may still become one. -/
def Beam.work (nodes : List ν) (b : Beam ν δ) : ℕ :=
  b.candidates.length + (nodes.filter (· ∉ b.visited)).length

theorem Beam.work_visit (hnodes : ∀ v, (score v).isSome → v ∈ nodes) :
    (b.visit ef far score v).work nodes ≤ b.work nodes := by
  have hsub : (nodes.filter (· ∉ v :: b.visited)).Sublist (nodes.filter (· ∉ b.visited)) :=
    monotone_filter_right nodes fun u => by simp
  unfold visit
  split_ifs with hv
  · exact le_rfl
  rcases b.accept_cases v ef far (score v) with ⟨-, heq⟩ | ⟨d, hd, -, heq⟩
  · rw [heq]
    exact Nat.add_le_add_left hsub.length_le _
  · rw [heq, work, work, orderedInsert_length]
    have hmem : v ∈ nodes.filter (· ∉ b.visited) := by
      simpa [hv] using hnodes v (by rw [hd]; rfl)
    have hne : (nodes.filter (· ∉ v :: b.visited)).length <
        (nodes.filter (· ∉ b.visited)).length := by
      refine hsub.length_le.lt_of_ne fun hlen => ?_
      rw [← hsub.eq_of_length hlen] at hmem
      simp at hmem
    dsimp only
    omega

/-- Each turn takes a candidate, and what it adds was not visited before. -/
theorem search_ends (ef : ℕ) (far : δ) (nbrs : ν → List ν)
    (hnodes : ∀ v, (score v).isSome → v ∈ nodes) {fuel : ℕ}
    (h : b.work nodes < fuel) : ∃ b', search ef far score nbrs fuel b = some b' := by
  induction fuel generalizing b with
  | zero => cases h
  | succ fuel ih =>
    unfold search
    split
    · exact ⟨b, rfl⟩
    · next c rest hcands =>
      split_ifs
      · exact ⟨b, rfl⟩
      · refine ih (Nat.lt_of_le_of_lt (m := ({ b with candidates := rest } : Beam ν δ).work nodes)
          ?_ ?_)
        · generalize ({ b with candidates := rest } : Beam ν δ) = b₀
          induction nbrs c.2 generalizing b₀ with
          | nil => exact le_rfl
          | cons u l ihl => exact (ihl _).trans (Beam.work_visit hnodes)
        · simp only [Beam.work, hcands, length_cons] at h ⊢
          omega

end RhypeDb.BestFirst
