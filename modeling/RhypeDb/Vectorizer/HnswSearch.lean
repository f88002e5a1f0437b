import RhypeDb.Vectorizer.HnswRun

/-! A search of an index that nobody else is changing: it ends, and how near its hits are. -/

namespace RhypeDb.Vectorizer.Hnsw

open HnswIndex List Option

open Engine (Id)
open BestFirst Interleave Prog

variable {V S Q δ : Type} [LinearOrder δ] {ix : HnswIndex V S Q δ} {origin : Id → S → Prop}
  {g : Graph S} {query : Q} {current : Nat}

theorem run_closer (nbrs : List Nat) {dist : δ} (changed : Bool)
    (h : ix.Scored g query current dist) : ∃ current' dist' changed',
      (ix.closer query nbrs (current, dist, changed)).run g =
        some ((current', dist', changed'), g) ∧
      ix.Scored g query current' dist' ∧ dist' ≤ dist ∧
      (changed' = true → changed = true ∨ dist' < dist) := by
  induction nbrs generalizing current dist changed with
  | nil => exact ⟨current, dist, changed, rfl, h, le_rfl, .inl⟩
  | cons nbr nbrs ih =>
    simp only [closer, run_bind, run_load, bind_some]
    cases hd : ix.routable g query nbr with
    | none => exact ih changed h
    | some d =>
      dsimp only
      split_ifs with hlt
      · obtain ⟨c, d', changed', hrun, hscored, hle, -⟩ := ih true (routable_eq_some hd)
        exact ⟨c, d', changed', hrun, hscored, hle.trans hlt.le, fun _ => .inr (hle.trans_lt hlt)⟩
      · exact ih changed h

/-- The nodes that are nearer: each turn but the last comes to one of them. -/
def HnswIndex.nearer (ix : HnswIndex V S Q δ) (g : Graph S) (query : Q) (dist : δ) : List (Node S) :=
  g.nodes.filter fun n => ix.distance.distance query n.stored < dist

theorem run_greedyLoop (ix : HnswIndex V S Q δ) (query : Q) (layer turns : Nat)
    {dist : δ} (h : ix.Scored g query current dist)
    (hturns : (ix.nearer g query dist).length < turns) :
    ∃ i, (ix.greedyLoop query layer turns current dist).run g = some (i, g) ∧ g.Ready i := by
  induction turns generalizing current dist with
  | zero => cases hturns
  | succ turns ih =>
    obtain ⟨c, d, changed, hrun, hscored, -, hchanged⟩ :=
      run_closer (g.neighbors layer current) false h
    simp only [greedyLoop, copyNeighbors, run_bind, run_load, bind_some,
      hrun]
    cases changed with
    | false =>
      obtain ⟨n, hn, hready, -⟩ := hscored
      exact ⟨c, rfl, n, hn, hready⟩
    | true =>
      have hlt : d < dist := (hchanged rfl).resolve_left nofun
      refine ih hscored (Nat.lt_of_lt_of_le ?_ (Nat.le_of_lt_succ hturns))
      have hsub : (ix.nearer g query d).Sublist (ix.nearer g query dist) :=
        monotone_filter_right _ fun n hn => by
          simp only [decide_eq_true_eq] at hn ⊢
          exact hn.trans hlt
      refine hsub.length_le.lt_of_ne fun hlen => ?_
      obtain ⟨n, hn, -, rfl⟩ := hscored
      have hmem : n ∈ ix.nearer g query dist :=
        mem_filter.mpr ⟨mem_of_getElem? hn, by simpa using hlt⟩
      rw [← hsub.eq_of_length hlen] at hmem
      simpa using (mem_filter.mp hmem).2

omit [LinearOrder δ] in
theorem score_eq {i : Nat} {n : Node S} (hn : g.nodes[i]? = some n) :
    ix.score g query i = some (ix.distance.distance query n.stored) := by
  rw [score, hn]
  rfl

theorem run_descend (ix : HnswIndex V S Q δ) (query : Q) (hturns : g.nodes.length < ix.turns)
    (layers : List Nat) {ep : Nat} (h : g.Ready ep) :
    ∃ i, (ix.descend query layers ep).run g = some (i, g) ∧ g.Ready i := by
  induction layers generalizing ep with
  | nil => exact ⟨ep, rfl, h⟩
  | cons layer layers ih =>
    obtain ⟨n, hn, hready⟩ := h
    obtain ⟨i, hrun, hi⟩ := run_greedyLoop ix query layer ix.turns
      ⟨n, hn, hready, rfl⟩ ((length_filter_le _ _).trans_lt hturns)
    obtain ⟨j, hrun', hj⟩ := ih hi
    refine ⟨j, ?_, hj⟩
    simp only [descend, greedyClosest, run_bind, run_load, bind_some,
      score_eq hn, hrun]
    exact hrun'

section

variable {ef layer : Nat}

theorem run_expand (nbrs : List Nat) (b : Beam Nat δ) : (ix.expand query ef nbrs b).run g =
    some (nbrs.foldl (Beam.visit ef ix.distance.far (ix.routable g query)) b, g) := by
  induction nbrs generalizing b with
  | nil => rfl
  | cons nbr nbrs ih =>
    rw [expand, foldl_cons, Beam.visit]
    split_ifs
    · exact ih b
    · exact ih _

theorem run_beamLoop (turns : Nat) (b : Beam Nat δ) : (ix.beamLoop query ef layer turns b).run g =
    (BestFirst.search ef ix.distance.far (ix.routable g query) (g.neighbors layer) turns b).map
      (·, g) := by
  induction turns generalizing b with
  | zero => rfl
  | succ turns ih =>
    rw [beamLoop, BestFirst.search]
    cases b.candidates with
    | nil => rfl
    | cons c rest =>
      dsimp only
      split_ifs
      · rfl
      · simp only [copyNeighbors, run_bind, run_load, bind_some, run_expand]
        exact ih _

/-- The candidates are closed under the links of the layer: the entry point, and what they lead to,
are among them, or there are as many as are wanted and none of them is farther. -/
def HnswIndex.Closed (ix : HnswIndex V S Q δ) (g : Graph S) (query : Q) (layer ef ep : Nat)
    (l : List (δ × Nat)) : Prop :=
  ∀ j, (j = ep ∨ ∃ r ∈ l, j ∈ g.neighbors layer r.2) → ∀ d ∈ ix.routable g query j,
    (d, j) ∈ l ∨ ef ≤ l.length ∧ ∀ r ∈ l, r.1 ≤ d

theorem run_searchLayer (ix : HnswIndex V S Q δ) (query : Q) (ef layer : Nat)
    (hturns : g.nodes.length + 1 < ix.turns) {ep : Nat} (hep : g.Ready ep) : ∃ l,
    (ix.searchLayer query ep ef layer).run g = some (l, g) ∧
      ix.Hits query g l ∧ ix.Closed g query layer ef ep l := by
  obtain ⟨n, hn, hready⟩ := hep
  have hroutable : ix.routable g query ep = some (ix.distance.distance query n.stored) := by
    rw [routable, hn, filter_some, hready]
    rfl
  have hnodes : ∀ j, (ix.routable g query j).isSome → j ∈ range g.nodes.length := by
    intro j hj
    obtain ⟨d, hd⟩ := isSome_iff_exists.mp hj
    obtain ⟨m, hm, -⟩ := routable_eq_some hd
    exact List.mem_range.mpr (List.getElem?_eq_some_iff.mp hm).1
  have hwork : (Beam.start ep (ix.distance.distance query n.stored)).work
      (range g.nodes.length) < ix.turns := by
    refine Nat.lt_of_le_of_lt ?_ hturns
    rw [Beam.work, Nat.add_comm]
    exact Nat.add_le_add_right ((length_filter_le _ _).trans length_range.le) 1
  obtain ⟨b, hb⟩ := search_ends ef ix.distance.far (g.neighbors layer) hnodes hwork
  have hrun : (ix.searchLayer query ep ef layer).run g = some (ix.sorted b.results, g) := by
    simp only [searchLayer, run_bind, run_load, bind_some, score_eq hn,
      run_beamLoop, hb, map_some, run_pure]
  have hstart : (Beam.start ep (ix.distance.distance query n.stored)).Tracks ef
      (ix.Scored g query) (ix.routable g query) := by
    refine ⟨.start ⟨n, hn, hready, rfl⟩, fun v hv d hd => .inl ?_, pairwise_singleton _ _⟩
    rw [mem_singleton.mp hv, hroutable] at hd
    cases hd
    rw [mem_singleton.mp hv]
    exact mem_singleton_self _
  have hscored (j : Nat) (d : δ) (hd : d ∈ ix.routable g query j) := routable_eq_some hd
  obtain ⟨htracks, hvisited, hclosed⟩ := search_spec hscored hb hstart fun r hr => .inl hr
  have hperm : (ix.sorted b.results).Perm b.results :=
    (perm_insertionSort _ _).trans (ix.intoIter_perm _)
  refine ⟨_, hrun, hits_sorted htracks.toHolds, fun j hj d hd => ?_⟩
  rw [hperm.mem_iff, hperm.length_eq]
  simp only [hperm.mem_iff] at hj ⊢
  refine htracks.passed j ?_ d hd
  rcases hj with rfl | ⟨r, hr, hj⟩
  · exact hvisited mem_cons_self
  · exact hclosed r hr j hj

end

/-- What a search makes of its candidates. -/
def liveHits (g : Graph S) (k : Nat) (l : List (δ × Nat)) : List (Id × δ) :=
  (l.filterMap fun r => ((g.nodes[r.2]?.filter fun n => !n.deleted).map Node.id).map (·, r.1)).take k

omit [LinearOrder δ] in
theorem run_collect (k : Nat) (l : List (δ × Nat)) :
    (HnswIndex.collect k l).run g = some (liveHits g k l, g) := by
  induction l generalizing k with
  | nil => cases k <;> rfl
  | cons r rest ih =>
    obtain ⟨dist, i⟩ := r
    cases k with
    | zero => rfl
    | succ k =>
      simp only [collect, run_bind, run_load, bind_some]
      rw [liveHits, filterMap_cons]
      cases (g.nodes[i]?.filter fun n => !n.deleted).map Node.id with
      | none => exact ih (k + 1)
      | some id =>
        simp only [run_bind, ih, bind_some, run_pure, map_some, take_succ_cons]
        rfl

variable {st : EntryState}

theorem run_search (vector : V) (k ef : Nat) (hinv : ix.Inv origin g)
    (hturns : g.nodes.length + 1 < ix.turns) (hst : g.entry = some st) :
    ∃ ep l, (ix.descend (ix.distance.prepare vector) (HnswIndex.layersDown 1 st.maxLayer) st.node).run
        g = some (ep, g) ∧ g.Ready ep ∧
      (ix.search vector k ef).run g = some (liveHits g k l, g) ∧
      ix.Hits (ix.distance.prepare vector) g l ∧
      ix.Closed g (ix.distance.prepare vector) 0 (max ef k) ep l := by
  obtain ⟨n, hn, hready, -⟩ := hinv.entry st hst
  obtain ⟨ep, hdescend, hep⟩ := run_descend ix (ix.distance.prepare vector)
    ((Nat.lt_succ_self _).trans hturns) (layersDown 1 st.maxLayer) ⟨n, hn, hready⟩
  obtain ⟨l, hlayer, hl⟩ := run_searchLayer ix (ix.distance.prepare vector) (max ef k) 0
    hturns hep
  refine ⟨ep, l, hdescend, hep, ?_, hl⟩
  simp only [HnswIndex.search, run_bind, run_load, bind_some, hst, hdescend, hlayer,
    run_collect]

/-- At every moment of every interleaving: a search that is alone from then on ends and changes
nothing. Its hits are the nearest of its candidates that are not tombstoned, and these are closed
under the links of layer 0. -/
theorem search_closed (ix : HnswIndex V S Q δ) (calls : List (Call V)) (order : List Nat)
    (vector : V) (k ef : Nat)
    (hg : g = (Run.exec System.advance (ix.system calls) order).shared)
    (hturns : g.nodes.length + 1 < ix.turns) :
    ∃ hits, (ix.search vector k ef).run g = some (hits, g) ∧ (g.entry = none → hits = []) ∧
      ∀ st, g.entry = some st → ∃ ep l, (ix.descend (ix.distance.prepare vector)
          (HnswIndex.layersDown 1 st.maxLayer) st.node).run g = some (ep, g) ∧
        hits = liveHits g k l ∧ ix.Hits (ix.distance.prepare vector) g l ∧
        ix.Closed g (ix.distance.prepare vector) 0 (max ef k) ep l := by
  have hinv : ix.Inv (Inserted ix calls) g := hg ▸ (kept_exec ix calls order).shared
  cases hst : g.entry with
  | none =>
    refine ⟨[], ?_, fun _ => rfl, nofun⟩
    simp only [HnswIndex.search, run_bind, run_load, bind_some, hst, run_pure]
  | some st =>
    obtain ⟨ep, l, hdescend, -, hrun, hl⟩ := run_search vector k ef hinv hturns hst
    refine ⟨_, hrun, nofun, ?_⟩
    rintro _ ⟨⟩
    exact ⟨ep, l, hdescend, rfl, hl⟩

def lineGraph : Graph Nat := (Run.exec System.advance (lineIndex.system lineCalls) lineOrder).shared

theorem search_closed_line : ∃ hits, (lineIndex.search 12 2 4).run lineGraph =
    some (hits, lineGraph) :=
  (search_closed lineIndex lineCalls lineOrder 12 2 4 rfl (by decide +kernel)).imp fun _ h => h.1

/-- With as many candidates as there are nodes, the hits are the nearest of all objects that the
links of layer 0 lead to from where the descent ends: one of them that is not among the hits is no
nearer than any of these, and they are as many as were asked for. -/
theorem search_exact (ix : HnswIndex V S Q δ) (calls : List (Call V)) (order : List Nat)
    (vector : V) (k ef : Nat)
    (hg : g = (Run.exec System.advance (ix.system calls) order).shared)
    (hturns : g.nodes.length + 1 < ix.turns) (hst : g.entry = some st)
    (hef : g.nodes.length ≤ max ef k) :
    ∃ hits ep, (ix.search vector k ef).run g = some (hits, g) ∧
      ix.Answers (Inserted ix calls) (ix.distance.prepare vector) k hits ∧
      (ix.descend (ix.distance.prepare vector) (HnswIndex.layersDown 1 st.maxLayer) st.node).run g =
        some (ep, g) ∧
      ∀ j, Relation.ReflTransGen (fun a b => b ∈ g.neighbors 0 a ∧ g.Ready b) ep j →
        ∀ n : Node S, g.nodes[j]? = some n → n.deleted = false →
          (n.id, ix.distance.distance (ix.distance.prepare vector) n.stored) ∈ hits ∨
            hits.length = k ∧ ∀ hit ∈ hits,
              hit.2 ≤ ix.distance.distance (ix.distance.prepare vector) n.stored := by
  have hinv : ix.Inv (Inserted ix calls) g := hg ▸ (kept_exec ix calls order).shared
  obtain ⟨ep, l, hdescend, hep, hrun, hhits, hclosed⟩ := run_search vector k ef hinv
    hturns hst
  refine ⟨_, ep, hrun, ((keeps_search vector k ef).of_run hinv hrun).2.2, hdescend,
    fun j hj n hn hlive => ?_⟩
  have hrange : l.map Prod.snd ⊆ range g.nodes.length := by
    intro i hi
    obtain ⟨r, hr, rfl⟩ := mem_map.mp hi
    obtain ⟨m, hm, -⟩ := hhits.scored r hr
    exact List.mem_range.mpr (List.getElem?_eq_some_iff.mp hm).1
  -- a node that is left out would be one more than there are
  have hin : ∀ b, g.Ready b → (b = ep ∨ ∃ r ∈ l, b ∈ g.neighbors 0 r.2) → b ∈ l.map Prod.snd := by
    rintro b ⟨m, hm, hmready⟩ hb
    have hroutable : ix.routable g (ix.distance.prepare vector) b =
        some (ix.distance.distance (ix.distance.prepare vector) m.stored) := by
      rw [routable, hm, filter_some, hmready]
      rfl
    rcases hclosed b hb _ hroutable with hmem | ⟨hfull, -⟩
    · exact mem_map_of_mem hmem
    · by_contra hnot
      have hsub : b :: l.map Prod.snd ⊆ range g.nodes.length :=
        List.cons_subset.mpr ⟨List.mem_range.mpr (List.getElem?_eq_some_iff.mp hm).1, hrange⟩
      have hle := (subperm_of_subset (nodup_cons.mpr ⟨hnot, hhits.nodup⟩) hsub).length_le
      rw [length_cons, length_map, length_range] at hle
      omega
  have hmem : j ∈ l.map Prod.snd := by
    clear hn
    induction hj with
    | refl => exact hin ep hep (.inl rfl)
    | tail _ hab ih =>
      obtain ⟨r, hr, rfl⟩ := mem_map.mp ih
      exact hin _ hab.2 (.inr ⟨r, hr, hab.1⟩)
  obtain ⟨r, hr, rfl⟩ := mem_map.mp hmem
  obtain ⟨m, hm, -, hdist⟩ := hhits.scored r hr
  cases hn.symm.trans hm
  rw [hdist]
  have hascending := hhits.ascending.filterMap
    (fun r => ((g.nodes[r.2]?.filter fun n => !n.deleted).map Node.id).map (·, r.1))
    (S := fun a b : Id × δ => a.2 ≤ b.2) (by
      rintro a b hab _ ha _ hb
      obtain ⟨_, -, rfl⟩ := map_eq_some_iff.mp ha
      obtain ⟨_, -, rfl⟩ := map_eq_some_iff.mp hb
      exact hab)
  have hfound : (n.id, r.1) ∈ l.filterMap fun r =>
      ((g.nodes[r.2]?.filter fun n => !n.deleted).map Node.id).map (·, r.1) :=
    mem_filterMap.mpr ⟨r, hr, by rw [hn, filter_some, hlive]; rfl⟩
  unfold liveHits
  generalize l.filterMap _ = found at hascending hfound
  rw [← take_append_drop k found, pairwise_append] at hascending
  rw [← take_append_drop k found, mem_append] at hfound
  refine hfound.imp id fun hdrop => ⟨?_, fun hit hhit => hascending.2.2 hit hhit _ hdrop⟩
  have hlen := length_pos_of_mem hdrop
  rw [length_drop] at hlen
  rw [length_take]
  omega

theorem search_exact_line : ∃ hits ep, (lineIndex.search 12 2 4).run lineGraph =
    some (hits, lineGraph) ∧
      lineIndex.Answers (Inserted lineIndex lineCalls) (lineIndex.distance.prepare 12) 2 hits ∧
      (lineIndex.descend 12 (HnswIndex.layersDown 1 1) 0).run lineGraph = some (ep, lineGraph) := by
  have hentry : lineGraph.entry = some ⟨0, 1⟩ := by decide +kernel
  obtain ⟨hits, ep, hrun, hanswers, hdescend, -⟩ := search_exact lineIndex lineCalls lineOrder 12 2 4
    (g := lineGraph) rfl (by decide +kernel) hentry (by decide +kernel)
  exact ⟨hits, ep, hrun, hanswers, hdescend⟩

end RhypeDb.Vectorizer.Hnsw
