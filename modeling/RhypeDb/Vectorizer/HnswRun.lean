import RhypeDb.Vectorizer.Hnsw

/-! Inserts, deletes and searches of an index in any interleaving of their steps: what the graph
is at every moment, and what a search returns. -/

namespace RhypeDb.Vectorizer.Hnsw

open List Option

open Engine (Id)
open BestFirst Interleave Prog

variable {V S Q δ : Type}

section

/-- Of a node nothing changes but its lists, and the two flags that are set once. -/
structure Node.Becomes (n n' : Node S) : Prop where
  id : n'.id = n.id
  stored : n'.stored = n.stored
  layers : n'.links.upper.length = n.links.upper.length
  deleted : n.deleted = true → n'.deleted = true
  ready : n.ready = true → n'.ready = true

/-- The node is the one that the map has for its id, or tombstoned. -/
def Graph.Claimed (g : Graph S) (i : Nat) : Prop :=
  ∃ n, g.nodes[i]? = some n ∧ (n.deleted = true ∨ g.idToIdx n.id = some i)

instance : Preorder (Graph S) where
  le g g' :=
    (∀ (i : Nat) (n : Node S), g.nodes[i]? = some n → ∃ n', g'.nodes[i]? = some n' ∧ n.Becomes n') ∧
      ∀ i, g.Claimed i → g'.Claimed i
  le_refl g := ⟨fun _ n h => ⟨n, h, rfl, rfl, rfl, id, id⟩, fun _ => id⟩
  le_trans g₁ g₂ g₃ h h' := by
    refine ⟨fun i n hn => ?_, fun i hi => h'.2 i (h.2 i hi)⟩
    obtain ⟨n₂, hn₂, hb⟩ := h.1 i n hn
    obtain ⟨n₃, hn₃, hb'⟩ := h'.1 i n₂ hn₂
    exact ⟨n₃, hn₃, hb'.id.trans hb.id, hb'.stored.trans hb.stored, hb'.layers.trans hb.layers,
      hb'.deleted ∘ hb.deleted, hb'.ready ∘ hb.ready⟩

/-- A node that is there, with what the program that has pushed it knows of it. -/
def Graph.Has (g : Graph S) (i : Nat) (id : Id) (level : Nat) : Prop :=
  ∃ n, g.nodes[i]? = some n ∧ n.id = id ∧ n.links.upper.length = level

def Graph.Ready (g : Graph S) (i : Nat) : Prop := ∃ n, g.nodes[i]? = some n ∧ n.ready = true

def HnswIndex.Scored (ix : HnswIndex V S Q δ) (g : Graph S) (query : Q) (i : Nat) (d : δ) : Prop :=
  ∃ n, g.nodes[i]? = some n ∧ n.ready = true ∧ ix.distance.distance query n.stored = d

variable {g g' : Graph S} {i : Nat} {f : Node S → Node S}

theorem Graph.Has.mono {id : Id} {level : Nat} (h : g.Has i id level) (hle : g ≤ g') :
    g'.Has i id level := by
  obtain ⟨n, hn, rfl, rfl⟩ := h
  obtain ⟨n', hn', hb⟩ := hle.1 i n hn
  exact ⟨n', hn', hb.id, hb.layers⟩

theorem Graph.Ready.mono (h : g.Ready i) (hle : g ≤ g') : g'.Ready i := by
  obtain ⟨n, hn, hready⟩ := h
  obtain ⟨n', hn', hb⟩ := hle.1 i n hn
  exact ⟨n', hn', hb.ready hready⟩

theorem HnswIndex.Scored.mono {ix : HnswIndex V S Q δ} {query : Q} {d : δ}
    (h : ix.Scored g query i d) (hle : g ≤ g') : ix.Scored g' query i d := by
  obtain ⟨n, hn, hready, rfl⟩ := h
  obtain ⟨n', hn', hb⟩ := hle.1 i n hn
  exact ⟨n', hn', hb.ready hready, congrArg _ hb.stored⟩

theorem lookup_modifyNode {j : Nat} {n' : Node S} (h : (g.modifyNode i f).nodes[j]? = some n') :
    ∃ n, g.nodes[j]? = some n ∧ n' = if i = j then f n else n := by
  rw [Graph.modifyNode, getElem?_modify] at h
  obtain ⟨n, hn, rfl⟩ := map_eq_some_iff.mp h
  refine ⟨n, hn, ?_⟩
  split_ifs <;> rfl

theorem Graph.le_modifyNode (hf : ∀ n : Node S, g.nodes[i]? = some n → n.Becomes (f n)) :
    g ≤ g.modifyNode i f := by
  have hnodes : ∀ (j : Nat) (n : Node S), g.nodes[j]? = some n →
      ∃ n', (g.modifyNode i f).nodes[j]? = some n' ∧ n.Becomes n' := by
    intro j n hn
    refine ⟨_, by rw [modifyNode, getElem?_modify, hn]; rfl, ?_⟩
    split_ifs with hij
    · exact hf n (hij ▸ hn)
    · exact ⟨rfl, rfl, rfl, id, id⟩
  refine ⟨hnodes, fun j => ?_⟩
  rintro ⟨n, hn, hclaimed⟩
  obtain ⟨n', hn', hb⟩ := hnodes j n hn
  exact ⟨n', hn', hclaimed.imp hb.deleted fun h => hb.id ▸ h⟩

end

section

/-- The list of a node on a layer: other nodes that are there, each once, as many as the layer
allows; above the lowest, a configuration of none still lets one in. -/
structure HnswIndex.ListOk (ix : HnswIndex V S Q δ) (size i layer : Nat) (list : List Nat) :
    Prop where
  nodup : list.Nodup
  length_le : list.length ≤ if layer = 0 then ix.config.mMax0 else max 1 ix.config.m
  mem : ∀ j ∈ list, j ≠ i ∧ j < size

/-- What the graph is at every moment. A node that is ready and not tombstoned is the one of its
id; the entry point is ready and on all the layers that a search goes down. -/
structure HnswIndex.Inv (ix : HnswIndex V S Q δ) (origin : Id → S → Prop) (g : Graph S) :
    Prop where
  lists : ∀ (i : Nat) (n : Node S), g.nodes[i]? = some n →
    ∀ layer, ix.ListOk g.nodes.length i layer (n.links.neighbors layer)
  claimed : ∀ i, g.Ready i → g.Claimed i
  mapped : ∀ id i, g.idToIdx id = some i → ∃ n, g.nodes[i]? = some n ∧ n.id = id
  entry : ∀ st, g.entry = some st →
    ∃ n, g.nodes[st.node]? = some n ∧ n.ready = true ∧ n.links.upper.length = st.maxLayer
  origin : ∀ (i : Nat) (n : Node S), g.nodes[i]? = some n → origin n.id n.stored

variable {ix : HnswIndex V S Q δ} {origin : Id → S → Prop} {g : Graph S} {i : Nat}
  {f : Node S → Node S}

theorem inv_empty : ix.Inv origin (Graph.empty S) where
  lists _ _ := nofun
  claimed := by rintro i ⟨n, hn, -⟩; cases hn
  mapped _ _ := nofun
  entry _ := nofun
  origin _ _ := nofun

theorem HnswIndex.Inv.modifyNode (h : ix.Inv origin g)
    (hf : ∀ n : Node S, g.nodes[i]? = some n → n.Becomes (f n))
    (hlists : ∀ n : Node S, g.nodes[i]? = some n →
      ∀ layer, ix.ListOk g.nodes.length i layer ((f n).links.neighbors layer))
    (hready : ∀ n : Node S, g.nodes[i]? = some n → (f n).ready = true → n.ready = true ∨ g.Claimed i) :
    ix.Inv origin (g.modifyNode i f) where
  lists j n' hn' layer := by
    have hlen : (g.modifyNode i f).nodes.length = g.nodes.length := length_modify f _ _
    obtain ⟨n, hn, rfl⟩ := lookup_modifyNode hn'
    rw [hlen]
    split_ifs with hij
    · obtain rfl := hij
      exact hlists n hn layer
    · exact h.lists j n hn layer
  claimed j := by
    rintro ⟨n', hn', hr⟩
    obtain ⟨n, hn, rfl⟩ := lookup_modifyNode hn'
    refine (Graph.le_modifyNode hf).2 j ?_
    split_ifs at hr with hij
    · obtain rfl := hij
      exact (hready n hn hr).elim (fun hr => h.claimed i ⟨n, hn, hr⟩) id
    · exact h.claimed j ⟨n, hn, hr⟩
  mapped id j hj := by
    obtain ⟨n, hn, hid⟩ := h.mapped id j hj
    obtain ⟨n', hn', hb⟩ := (Graph.le_modifyNode hf).1 j n hn
    exact ⟨n', hn', hb.id.trans hid⟩
  entry st hst := by
    obtain ⟨n, hn, hr, hlevel⟩ := h.entry st hst
    obtain ⟨n', hn', hb⟩ := (Graph.le_modifyNode hf).1 st.node n hn
    exact ⟨n', hn', hb.ready hr, hb.layers.trans hlevel⟩
  origin j n' hn' := by
    obtain ⟨n, hn, rfl⟩ := lookup_modifyNode hn'
    split_ifs with hij
    · have hb := hf n (hij ▸ hn)
      rw [hb.id, hb.stored]
      exact h.origin j n hn
    · exact h.origin j n hn

theorem HnswIndex.Inv.delete (h : ix.Inv origin g) (i : Nat) :
    ix.Inv origin (g.modifyNode i fun n => { n with deleted := true }) ∧
      g ≤ g.modifyNode i fun n => { n with deleted := true } :=
  have hf (n : Node S) (_ : g.nodes[i]? = some n) : n.Becomes { n with deleted := true } :=
    ⟨rfl, rfl, rfl, fun _ => rfl, id⟩
  ⟨h.modifyNode hf (fun n hn => h.lists i n hn) fun _ _ => .inl, Graph.le_modifyNode hf⟩

theorem HnswIndex.Inv.setReady (h : ix.Inv origin g) (hi : g.Claimed i) {n : Node S}
    (hn : g.nodes[i]? = some n) (hf : f n = { n with ready := true }) :
    ix.Inv origin (g.modifyNode i f) ∧ g ≤ g.modifyNode i f ∧ (g.modifyNode i f).Ready i := by
  have hb : ∀ n' : Node S, g.nodes[i]? = some n' → n'.Becomes (f n') := by
    intro n' hn'
    cases hn.symm.trans hn'
    rw [hf]
    exact ⟨rfl, rfl, rfl, id, fun _ => rfl⟩
  refine ⟨h.modifyNode hb (fun n' hn' => ?_) fun _ _ _ => .inr hi, Graph.le_modifyNode hb, ?_⟩
  · cases hn.symm.trans hn'
    rw [hf]
    exact h.lists i n hn
  · exact ⟨f n, by simp [Graph.modifyNode, hn], by rw [hf]⟩

end

section

variable [LinearOrder δ] {ix : HnswIndex V S Q δ} {origin : Id → S → Prop} {g : Graph S} {query : Q}
  {ef layer : Nat} {taken : List Id} {b : Beam Nat δ} {dist : δ} {current : Nat}

omit [LinearOrder δ] in
theorem routable_eq_some {i : Nat} {d : δ} (h : d ∈ ix.routable g query i) :
    ix.Scored g query i d := by
  obtain ⟨n, hn, rfl⟩ := map_eq_some_iff.mp h
  obtain ⟨hn, hready⟩ := filter_eq_some_iff.mp hn
  exact ⟨n, hn, hready, rfl⟩

theorem keeps_closer (nbrs : List Nat) {changed : Bool} (h : g.Ready current) :
    Keeps (ix.Inv origin) (fun at_ g => g.Ready at_.1)
      (ix.closer query nbrs (current, dist, changed)) g := by
  induction nbrs generalizing g current dist changed with
  | nil => exact .pure h
  | cons nbr nbrs ih =>
    refine .bind (.load (Q := fun d g => ∀ e ∈ d, ix.Scored g query nbr e)
      fun g' _ _ _ => routable_eq_some) fun d g' hle hd => ?_
    cases d with
    | none => exact ih (h.mono hle)
    | some d =>
      obtain ⟨n, hn, hready, -⟩ := hd d rfl
      dsimp only
      split_ifs
      · exact ih ⟨n, hn, hready⟩
      · exact ih (h.mono hle)

theorem keeps_greedyLoop (turns : Nat) (h : g.Ready current) :
    Keeps (ix.Inv origin) (fun i g => g.Ready i)
      (ix.greedyLoop query layer turns current dist) g := by
  induction turns generalizing g current dist with
  | zero => trivial
  | succ turns ih =>
    refine .bind (.load (Q := fun _ _ => True) fun _ _ _ => trivial) fun nbrs g' hle _ => ?_
    refine .bind (keeps_closer nbrs (h.mono hle)) fun ⟨current', dist', changed⟩ g' _ hready => ?_
    cases changed with
    | true => exact ih hready
    | false => exact .pure hready

theorem keeps_descend (layers : List Nat) {ep : Nat} (h : g.Ready ep) :
    Keeps (ix.Inv origin) (fun i g => g.Ready i) (ix.descend query layers ep) g := by
  induction layers generalizing g ep with
  | nil => exact .pure h
  | cons layer layers ih =>
    have hclosest : Keeps (ix.Inv origin) (fun i g => g.Ready i)
        (ix.greedyClosest query ep layer) g := by
      refine .bind (.load (Q := fun _ g => g.Ready ep) fun _ hle _ => h.mono hle)
        fun d g' _ hready => ?_
      cases d with
      | none => exact .pure hready
      | some d => exact keeps_greedyLoop ix.turns hready
    exact .bind hclosest fun i g' _ hready => ih hready

theorem keeps_expand (nbrs : List Nat) (h : b.Holds ef (ix.Scored g query)) :
    Keeps (ix.Inv origin) (fun b g => b.Holds ef (ix.Scored g query))
      (ix.expand query ef nbrs b) g := by
  induction nbrs generalizing g b with
  | nil => exact .pure h
  | cons nbr nbrs ih =>
    unfold HnswIndex.expand
    split_ifs with hvisited
    · exact ih h
    · refine .bind (.load (Q := fun d g => ∀ e ∈ d, ix.Scored g query nbr e)
        fun g' _ _ _ => routable_eq_some) fun d g' hle hd => ?_
      exact ih ((h.imp fun _ _ hs => hs.mono hle).accept hvisited hd)

theorem keeps_beamLoop (turns : Nat) (h : b.Holds ef (ix.Scored g query)) :
    Keeps (ix.Inv origin) (fun b g => b.Holds ef (ix.Scored g query))
      (ix.beamLoop query ef layer turns b) g := by
  induction turns generalizing g b with
  | zero => trivial
  | succ turns ih =>
    unfold HnswIndex.beamLoop
    split
    · exact .pure h
    · next c rest hcands =>
      split_ifs
      · exact .pure h
      · refine .bind (.load (Q := fun _ _ => True) fun _ _ _ => trivial) fun nbrs g' hle _ => ?_
        have hpopped : ({ b with candidates := rest } : Beam Nat δ).Holds ef (ix.Scored g query) :=
          { h with candidates := fun c' hc' => h.candidates c' (hcands ▸ mem_cons_of_mem _ hc') }
        exact .bind (keeps_expand nbrs (hpopped.imp fun _ _ hs => hs.mono hle))
          fun b' g' _ hb' => ih hb'

/-- Distances that ascend, each of another node that is ready. -/
structure HnswIndex.Hits (ix : HnswIndex V S Q δ) (query : Q) (g : Graph S)
    (l : List (δ × Nat)) : Prop where
  ascending : l.Pairwise fun a b => a.1 ≤ b.1
  nodup : (l.map Prod.snd).Nodup
  scored : ∀ r ∈ l, ix.Scored g query r.2 r.1

theorem hits_sorted (h : b.Holds ef (ix.Scored g query)) :
    ix.Hits query g (ix.sorted b.results) := by
  have hperm : (ix.sorted b.results).Perm b.results :=
    (perm_insertionSort _ _).trans (ix.intoIter_perm _)
  exact ⟨pairwise_insertionSort _ _, (hperm.map Prod.snd).nodup_iff.mpr h.nodup,
    fun r hr => (h.results r (hperm.mem_iff.mp hr)).1⟩

theorem keeps_searchLayer {ep : Nat} (h : g.Ready ep) :
    Keeps (ix.Inv origin) (fun l g => ix.Hits query g l) (ix.searchLayer query ep ef layer) g := by
  refine .bind (.load (Q := fun d g => ∀ e ∈ d, ix.Scored g query ep e)
    fun g' hle _ e he => ?_) fun d g' _ hd => ?_
  · obtain ⟨n, hn, hready⟩ := h.mono hle
    obtain ⟨n', hn', rfl⟩ := map_eq_some_iff.mp he
    rw [hn] at hn'
    cases hn'
    exact ⟨n, hn, hready, rfl⟩
  · cases d with
    | none => exact .pure ⟨.nil, .nil, nofun⟩
    | some d =>
      exact .bind (keeps_beamLoop ix.turns (.start (hd d rfl))) fun b g' _ hb =>
        .pure (hits_sorted hb)

/-- What a search may return: as many hits as it was asked for, in the order of their distances,
each of another object, and at the distance of a vector that is of the object. -/
structure HnswIndex.Answers (ix : HnswIndex V S Q δ) (origin : Id → S → Prop) (query : Q) (k : Nat)
    (hits : List (Id × δ)) : Prop where
  length_le : hits.length ≤ k
  ascending : hits.Pairwise fun a b => a.2 ≤ b.2
  nodup : (hits.map Prod.fst).Nodup
  origin : ∀ hit ∈ hits, ∃ stored, origin hit.1 stored ∧ ix.distance.distance query stored = hit.2

/-- What a search has still to look at: the nodes of the ids that it has returned are tombstoned. -/
structure HnswIndex.Left (ix : HnswIndex V S Q δ) (query : Q) (g : Graph S) (taken : List Id)
    (l : List (δ × Nat)) : Prop extends ix.Hits query g l where
  deleted : ∀ r ∈ l, ∀ n : Node S, g.nodes[r.2]? = some n → n.id ∈ taken → n.deleted = true

theorem HnswIndex.Left.mono {g' : Graph S} {l : List (δ × Nat)}
    (h : ix.Left query g taken l) (hle : g ≤ g') : ix.Left query g' taken l where
  ascending := h.ascending
  nodup := h.nodup
  scored r hr := (h.scored r hr).mono hle
  deleted r hr n' hn' hid := by
    obtain ⟨n, hn, -⟩ := h.scored r hr
    obtain ⟨n'', hn'', hb⟩ := hle.1 r.2 n hn
    rw [hn'] at hn''
    cases hn''
    exact hb.deleted (h.deleted r hr n hn (hb.id ▸ hid))

/-- Of a ready node that is not tombstoned the other ready nodes of its id are: each had claimed
the id before it became ready, and this one has it still. -/
theorem HnswIndex.Left.look {i : Nat} {rest : List (δ × Nat)}
    (hinv : ix.Inv origin g) (h : ix.Left query g taken ((dist, i) :: rest)) :
    ∀ hit, hit = (g.nodes[i]?.filter fun n => !n.deleted).map Node.id →
      ix.Left query g (hit.toList ++ taken) rest ∧ ∀ id ∈ hit, id ∉ taken ∧
        ∃ stored, origin id stored ∧ ix.distance.distance query stored = dist := by
  obtain ⟨-, hascending⟩ := pairwise_cons.mp h.ascending
  obtain ⟨hnot, hnodup⟩ := nodup_cons.mp h.nodup
  have hscored : ∀ r ∈ rest, ix.Scored g query r.2 r.1 := fun r hr =>
    h.scored r (mem_cons_of_mem _ hr)
  have hdeleted : ∀ r ∈ rest, ∀ n : Node S, g.nodes[r.2]? = some n → n.id ∈ taken →
      n.deleted = true := fun r hr => h.deleted r (mem_cons_of_mem _ hr)
  obtain ⟨n, hn, hready, hdist⟩ := h.scored _ mem_cons_self
  rintro _ rfl
  rw [hn]
  cases hlive : n.deleted with
  | true =>
    rw [filter_some, hlive]
    exact ⟨⟨⟨hascending, hnodup, hscored⟩, hdeleted⟩, nofun⟩
  | false =>
    rw [filter_some, hlive]
    refine ⟨⟨⟨hascending, hnodup, hscored⟩, fun r hr m hm hid => ?_⟩, ?_⟩
    · rcases mem_cons.mp hid with hid | hid
      · obtain ⟨m', hm', hready', -⟩ := hscored r hr
        obtain ⟨o, ho, hclaim⟩ := hinv.claimed i ⟨n, hn, hready⟩
        obtain ⟨o', ho', hclaim'⟩ := hinv.claimed r.2 ⟨m', hm', hready'⟩
        cases hn.symm.trans ho
        cases hm.symm.trans ho'
        refine hclaim'.resolve_right fun hmap => hnot ?_
        rw [hlive] at hclaim
        have hi := hclaim.resolve_left nofun
        rw [← hid, hmap] at hi
        exact mem_map.mpr ⟨r, hr, Option.some.inj hi⟩
      · exact hdeleted r hr m hm hid
    · rintro _ ⟨⟩
      refine ⟨fun hid => ?_, n.stored, hinv.origin i n hn, hdist⟩
      rw [h.deleted _ mem_cons_self n hn hid] at hlive
      cases hlive

theorem keeps_collect (k : Nat) (l : List (δ × Nat)) (taken : List Id)
    (h : ix.Left query g taken l) :
    Keeps (ix.Inv origin) (fun hits _ => ix.Answers origin query k hits ∧
      ∀ hit ∈ hits, hit.1 ∉ taken ∧ ∃ r ∈ l, r.1 = hit.2) (HnswIndex.collect k l) g := by
  induction l generalizing g k taken with
  | nil => cases k <;> exact .pure ⟨⟨Nat.zero_le _, .nil, .nil, nofun⟩, nofun⟩
  | cons r rest ih =>
    obtain ⟨dist, i⟩ := r
    cases k with
    | zero => exact .pure ⟨⟨Nat.zero_le _, .nil, .nil, nofun⟩, nofun⟩
    | succ k =>
      refine .bind (.load (Q := fun hit g' => ix.Left query g' (hit.toList ++ taken) rest ∧
        ∀ id ∈ hit, id ∉ taken ∧
          ∃ stored, origin id stored ∧ ix.distance.distance query stored = dist)
        fun g' hle hinv => (h.mono hle).look hinv _ rfl) fun hit g' _ ⟨hleft, hhit⟩ => ?_
      cases hit with
      | none =>
        refine (ih (k + 1) taken hleft).weaken fun hits _ ⟨hanswers, hhits⟩ => ⟨hanswers, ?_⟩
        exact fun hit hmem => ⟨(hhits hit hmem).1, (hhits hit hmem).2.imp fun r =>
          And.imp_left (mem_cons_of_mem _)⟩
      | some id =>
        obtain ⟨hid, horigin⟩ := hhit id rfl
        refine .bind (ih k (id :: taken) hleft) fun hits _ _ ⟨hanswers, hhits⟩ =>
          .pure ⟨⟨?_, ?_, ?_, ?_⟩, ?_⟩
        · exact Nat.succ_le_succ hanswers.length_le
        · refine pairwise_cons.mpr ⟨fun hit hmem => ?_, hanswers.ascending⟩
          obtain ⟨r, hr, hdist⟩ := (hhits hit hmem).2
          exact hdist ▸ rel_of_pairwise_cons h.ascending hr
        · refine nodup_cons.mpr ⟨fun hmem => ?_, hanswers.nodup⟩
          obtain ⟨hit', hhit', rfl⟩ := mem_map.mp hmem
          exact (hhits hit' hhit').1 mem_cons_self
        · exact forall_mem_cons.mpr ⟨horigin, hanswers.origin⟩
        · refine forall_mem_cons.mpr ⟨⟨hid, _, mem_cons_self, rfl⟩, fun hit hmem => ?_⟩
          obtain ⟨hnot, r, hr, hdist⟩ := hhits hit hmem
          exact ⟨fun h => hnot (mem_cons_of_mem _ h), r, mem_cons_of_mem _ hr, hdist⟩

theorem keeps_search (vector : V) (k ef : Nat) :
    Keeps (ix.Inv origin) (fun hits _ => ix.Answers origin (ix.distance.prepare vector) k hits)
      (ix.search vector k ef) g := by
  refine .bind (.load (Q := fun st g => ∀ e ∈ st, g.Ready e.node) fun g' _ hinv e he => ?_)
    fun st g' _ hst => ?_
  · obtain ⟨n, hn, hready, -⟩ := hinv.entry e he
    exact ⟨n, hn, hready⟩
  · cases st with
    | none => exact .pure ⟨Nat.zero_le _, .nil, .nil, nofun⟩
    | some st =>
      refine .bind (keeps_descend _ (hst st rfl)) fun ep g' _ hep => ?_
      refine .bind (keeps_searchLayer hep) fun candidates g' _ hhits => ?_
      exact (keeps_collect k candidates [] ⟨hhits, fun _ _ _ _ => nofun⟩).weaken fun _ _ => And.left

end

section

variable {ix : HnswIndex V S Q δ} {origin : Id → S → Prop} {g : Graph S} {i idx level : Nat}
  {id : Id} {layer : Nat} {list : List Nat}

theorem HnswIndex.ListOk.mono {size size' : Nat}
    (h : ix.ListOk size i layer list) (hle : size ≤ size') : ix.ListOk size' i layer list :=
  { h with mem := fun j hj => ⟨(h.mem j hj).1, (h.mem j hj).2.trans_le hle⟩ }

theorem neighbors_new (numLayers layer : Nat) : (NodeLinks.new numLayers).neighbors layer = [] := by
  cases layer with
  | zero => rfl
  | succ layer =>
    simp only [NodeLinks.new, NodeLinks.neighbors, getD_eq_getElem?_getD,
      getElem?_replicate]
    split <;> rfl

theorem lookup_push {node n : Node S} (h : (g.nodes ++ [node])[i]? = some n) :
    g.nodes[i]? = some n ∨ i = g.nodes.length ∧ n = node := by
  rcases lt_trichotomy i g.nodes.length with hlt | rfl | hgt
  · rw [getElem?_append_left hlt] at h
    exact .inl h
  · rw [getElem?_concat_length] at h
    exact .inr ⟨rfl, (Option.some.inj h).symm⟩
  · have hlen := (List.getElem?_eq_some_iff.mp h).1
    rw [length_append, length_singleton] at hlen
    omega

theorem HnswIndex.Inv.push (h : ix.Inv origin g) (node : Node S) (hready : node.ready = false)
    (hlinks : ∀ layer, node.links.neighbors layer = []) (horigin : origin node.id node.stored) :
    ix.Inv origin { g with nodes := g.nodes ++ [node] } ∧
      g ≤ { g with nodes := g.nodes ++ [node] } := by
  have hold : ∀ (j : Nat) (n : Node S), g.nodes[j]? = some n → (g.nodes ++ [node])[j]? = some n :=
    fun j n hn => (List.getElem?_append_left (List.getElem?_eq_some_iff.mp hn).1).trans hn
  have hclaimed : ∀ j, g.Claimed j → ({ g with nodes := g.nodes ++ [node] } : Graph S).Claimed j :=
    fun j ⟨n, hn, hc⟩ => ⟨n, hold j n hn, hc⟩
  refine ⟨⟨fun j n hn layer => ?_, fun j hj => ?_, fun id j hj => ?_, fun st hst => ?_,
    fun j n hn => ?_⟩, fun j n hn => ⟨n, hold j n hn, rfl, rfl, rfl, fun h => h, fun h => h⟩, hclaimed⟩
  · rcases lookup_push hn with hn | ⟨-, rfl⟩
    · refine (h.lists j n hn layer).mono ?_
      rw [length_append]
      exact Nat.le_add_right _ _
    · rw [hlinks]
      exact ⟨.nil, Nat.zero_le _, nofun⟩
  · obtain ⟨n, hn, hr⟩ := hj
    rcases lookup_push hn with hn | ⟨-, rfl⟩
    · exact hclaimed j (h.claimed j ⟨n, hn, hr⟩)
    · rw [hready] at hr
      cases hr
  · obtain ⟨n, hn, hid⟩ := h.mapped id j hj
    exact ⟨n, hold j n hn, hid⟩
  · obtain ⟨n, hn, hn'⟩ := h.entry st hst
    exact ⟨n, hold _ n hn, hn'⟩
  · rcases lookup_push hn with hn | ⟨-, rfl⟩
    · exact h.origin j n hn
    · exact horigin

theorem HnswIndex.Inv.claim (h : ix.Inv origin g) (hidx : g.Has idx id level) :
    ix.Inv origin (g.claim id idx) ∧ g ≤ g.claim id idx ∧ (g.claim id idx).Claimed idx := by
  obtain ⟨g₁, heq, hinv, hle, hmap, hprev⟩ : ∃ g₁ : Graph S,
      g.claim id idx = { g₁ with idToIdx := Function.update g.idToIdx id (some idx) } ∧
      ix.Inv origin g₁ ∧ g ≤ g₁ ∧ g₁.idToIdx = g.idToIdx ∧
      ∀ (j : Nat) (n : Node S), g.idToIdx id = some j → g₁.nodes[j]? = some n →
        n.deleted = true := by
    cases hid : g.idToIdx id with
    | none => exact ⟨g, by rw [Graph.claim, hid], h, le_rfl, rfl, nofun⟩
    | some prev =>
      refine ⟨_, by rw [Graph.claim, hid], (h.delete prev).1, (h.delete prev).2, rfl, ?_⟩
      rintro j n' ⟨⟩ hn'
      obtain ⟨n, -, rfl⟩ := lookup_modifyNode hn'
      rw [if_pos rfl]
  rw [heq]
  have hclaimed : ∀ j, g₁.Claimed j →
      ({ g₁ with idToIdx := Function.update g.idToIdx id (some idx) } : Graph S).Claimed j := by
    rintro j ⟨n, hn, hc⟩
    by_cases hid : n.id = id
    · refine ⟨n, hn, .inl (hc.elim (fun h => h) fun hc => hprev j n ?_ hn)⟩
      rw [← hid, ← hmap]
      exact hc
    · refine ⟨n, hn, hc.imp_right fun hc => ?_⟩
      dsimp only
      rw [Function.update_of_ne hid, ← hmap]
      exact hc
  refine ⟨{ hinv with claimed := fun j hj => hclaimed j (hinv.claimed j hj), mapped := ?_ },
    hle.trans ⟨fun j n hn => ⟨n, hn, rfl, rfl, rfl, fun h => h, fun h => h⟩, hclaimed⟩, ?_⟩
  · intro id' j hj
    dsimp only at hj
    rw [Function.update_apply] at hj
    split_ifs at hj with hid
    · cases hj
      obtain ⟨n, hn, hn', -⟩ := hidx.mono hle
      exact ⟨n, hn, hn'.trans hid.symm⟩
    · rw [← hmap] at hj
      exact hinv.mapped id' j hj
  · obtain ⟨n, hn, rfl, -⟩ := hidx.mono hle
    exact ⟨n, hn, .inr (Function.update_self ..)⟩

theorem HnswIndex.Inv.withEntry (h : ix.Inv origin g) (st : EntryState)
    (hst : ∃ n, g.nodes[st.node]? = some n ∧ n.ready = true ∧ n.links.upper.length = st.maxLayer) :
    ix.Inv origin { g with entry := some st } ∧ g ≤ { g with entry := some st } :=
  ⟨{ h with entry := by rintro _ ⟨⟩; exact hst },
    fun _ n hn => ⟨n, hn, rfl, rfl, rfl, fun h => h, fun h => h⟩, fun _ h => h⟩

theorem set_eq_some (m : Nat) {l : NodeLinks} (list : List Nat) (hlayer : layer < l.numLayers)
    (hlen : layer = 0 → list.length ≤ m) : ∃ l', l.set m layer list = some l' ∧
      l'.upper.length = l.upper.length ∧
      ∀ layer', l'.neighbors layer' = if layer' = layer then list else l.neighbors layer' := by
  cases layer with
  | zero =>
    refine ⟨_, if_pos (hlen rfl), rfl, fun layer' => ?_⟩
    cases layer' <;> rfl
  | succ layer =>
    have hlt : layer < l.upper.length := by
      unfold NodeLinks.numLayers at hlayer
      omega
    refine ⟨_, if_pos hlt, length_set, fun layer' => ?_⟩
    cases layer' with
    | zero => rfl
    | succ layer' =>
      simp only [NodeLinks.neighbors, getD_eq_getElem?_getD, getElem?_set,
        Nat.add_right_cancel_iff]
      split_ifs <;> first | rfl | omega

/-- A list of a node is replaced by one that is as it should be. -/
theorem HnswIndex.Inv.setLinks (h : ix.Inv origin g) {n : Node S} (hn : g.nodes[i]? = some n)
    (hlayer : layer < n.links.numLayers)
    (hlist : ix.ListOk g.nodes.length i layer list) :
    ∃ l', n.links.set ix.config.mMax0 layer list = some l' ∧ ∀ f : Node S → Node S,
      f n = { n with links := l' } →
        ix.Inv origin (g.modifyNode i f) ∧ g ≤ g.modifyNode i f := by
  obtain ⟨l', hset, hlen, hneighbors⟩ := set_eq_some ix.config.mMax0 list hlayer
    fun h0 => by simpa only [h0, if_true] using hlist.length_le
  refine ⟨l', hset, fun f hf => ?_⟩
  have hb : ∀ n' : Node S, g.nodes[i]? = some n' → n'.Becomes (f n') := by
    rintro n' hn'
    cases hn.symm.trans hn'
    rw [hf]
    exact ⟨rfl, rfl, hlen, id, id⟩
  refine ⟨h.modifyNode hb (fun n' hn' layer' => ?_) fun n' hn' hr => ?_, Graph.le_modifyNode hb⟩
  · cases hn.symm.trans hn'
    rw [hf]
    rw [hneighbors]
    split_ifs with heq
    · exact heq ▸ hlist
    · exact h.lists i n hn layer'
  · cases hn.symm.trans hn'
    rw [hf] at hr
    exact .inl hr

theorem selectNeighbors_spec (idx maxNeighbors : Nat) (us neighbors : List Nat)
    (hnodup : neighbors.Nodup) (hidx : idx ∉ neighbors)
    (hlen : neighbors.length ≤ max 1 maxNeighbors)
    (hlt : neighbors ≠ [] → neighbors.length < maxNeighbors) :
    (HnswIndex.selectNeighbors idx maxNeighbors neighbors us).Nodup ∧
      (HnswIndex.selectNeighbors idx maxNeighbors neighbors us).length ≤ max 1 maxNeighbors ∧
      ∀ u ∈ HnswIndex.selectNeighbors idx maxNeighbors neighbors us,
        u ≠ idx ∧ (u ∈ neighbors ∨ u ∈ us) := by
  induction us generalizing neighbors with
  | nil => exact ⟨hnodup, hlen, fun u hu => ⟨fun h => hidx (h ▸ hu), .inl hu⟩⟩
  | cons u us ih =>
    unfold HnswIndex.selectNeighbors
    split_ifs with hskip hfull
    · obtain ⟨hnodup', hlen', hmem'⟩ := ih neighbors hnodup hidx hlen hlt
      exact ⟨hnodup', hlen', fun v hv => ⟨(hmem' v hv).1, (hmem' v hv).2.imp_right
        (mem_cons_of_mem _)⟩⟩
    all_goals
      rw [not_or] at hskip
      have hnodup' : (neighbors ++ [u]).Nodup := nodup_append.mpr
        ⟨hnodup, nodup_singleton u, by
          rintro a ha b hb rfl
          exact hskip.2 (mem_singleton.mp hb ▸ ha)⟩
      have hidx' : idx ∉ neighbors ++ [u] := by
        simpa only [mem_append, mem_singleton, not_or] using ⟨hidx, Ne.symm hskip.1⟩
      have hlen' : (neighbors ++ [u]).length ≤ max 1 maxNeighbors := by
        rw [length_append, length_singleton]
        rcases neighbors with - | ⟨v, neighbors⟩
        · exact le_max_left _ _
        · exact (hlt (cons_ne_nil _ _)).trans_le (le_max_right _ _)
      have hsub : ∀ v ∈ neighbors ++ [u], v ≠ idx ∧ (v ∈ neighbors ∨ v ∈ u :: us) := by
        intro v hv
        refine ⟨fun h => hidx' (h ▸ hv), (mem_append.mp hv).imp_right fun hv => ?_⟩
        exact mem_singleton.mp hv ▸ mem_cons_self
    · exact ⟨hnodup', hlen', hsub⟩
    · obtain ⟨hnodup'', hlen'', hmem''⟩ := ih _ hnodup' hidx' hlen' fun _ => not_le.mp hfull
      refine ⟨hnodup'', hlen'', fun v hv => ⟨(hmem'' v hv).1, ?_⟩⟩
      rcases (hmem'' v hv).2 with hv | hv
      · exact (hsub v hv).2
      · exact .inr (mem_cons_of_mem _ hv)

end

section

variable [LinearOrder δ] {ix : HnswIndex V S Q δ} {origin : Id → S → Prop} {g : Graph S}
  {idx level layer maxNeighbors : Nat} {id : Id} {query : Q}

theorem pruned_spec (ix : HnswIndex V S Q δ) (maxNeighbors : Nat) (g : Graph S) (query : Q)
    {members : List Nat} (hnodup : members.Nodup) (hidx : idx ∉ members) (own : S) :
    (ix.pruned g query members idx own maxNeighbors).Nodup ∧
      (ix.pruned g query members idx own maxNeighbors).length ≤ maxNeighbors ∧
      ∀ j ∈ ix.pruned g query members idx own maxNeighbors, j ∈ members ∨ j = idx := by
  unfold HnswIndex.pruned
  dsimp only
  generalize hscored : (members.map fun c => ((ix.score g query c).getD ix.distance.far, c)) = scored
  have hsnd : (scored ++ [(ix.distance.distance query own, idx)]).map Prod.snd = members ++ [idx] := by
    subst hscored
    simp [Function.comp_def]
  generalize scored ++ [(ix.distance.distance query own, idx)] = all at hsnd
  have hperm := (perm_insertionSort (fun a b : δ × Nat => a.1 ≤ b.1) all).map Prod.snd
  rw [hsnd] at hperm
  have hsub := (take_sublist maxNeighbors
    (all.insertionSort fun a b : δ × Nat => a.1 ≤ b.1)).map Prod.snd
  have hall : (members ++ [idx]).Nodup := nodup_append.mpr
    ⟨hnodup, nodup_singleton idx, by
      rintro a ha b hb rfl
      exact hidx (mem_singleton.mp hb ▸ ha)⟩
  refine ⟨(hperm.nodup_iff.mpr hall).sublist hsub, ?_, fun j hj => ?_⟩
  · rw [length_map]
    exact length_take_le _ _
  · simpa using hperm.mem_iff.mp (hsub.subset hj)

theorem keeps_backEdge {nbr : Nat} (hidx : g.Has idx id level) (hne : nbr ≠ idx)
    (hmax : maxNeighbors = if layer = 0 then ix.config.mMax0 else ix.config.m) :
    Keeps (ix.Inv origin) (fun _ _ => True) (ix.backEdge idx layer maxNeighbors nbr) g := by
  refine .atomic fun g' hle hinv => ?_
  obtain ⟨own, hown, -⟩ := hidx.mono hle
  cases hn : g'.nodes[nbr]? with
  | none => exact ⟨(), g', rfl, hinv, le_rfl, trivial⟩
  | some n =>
    dsimp only
    by_cases hskip : n.links.numLayers ≤ layer ∨ idx ∈ n.links.neighbors layer
    · exact ⟨(), g', if_pos hskip, hinv, le_rfl, trivial⟩
    rw [if_neg hskip]
    rw [not_or, not_le] at hskip
    have hold := hinv.lists nbr n hn layer
    have hbound : maxNeighbors ≤ if layer = 0 then ix.config.mMax0 else max 1 ix.config.m := by
      rw [hmax]
      split_ifs
      · exact le_rfl
      · exact le_max_right _ _
    have hmem : ∀ j, j ∈ n.links.neighbors layer ∨ j = idx → j ≠ nbr ∧ j < g'.nodes.length := by
      rintro j (hj | rfl)
      · exact hold.mem j hj
      · exact ⟨hne.symm, (List.getElem?_eq_some_iff.mp hown).1⟩
    by_cases hlen : (n.links.neighbors layer).length < maxNeighbors
    · have hlist : ix.ListOk g'.nodes.length nbr layer (n.links.neighbors layer ++ [idx]) := by
        refine ⟨nodup_append.mpr ⟨hold.nodup, nodup_singleton idx, ?_⟩, ?_,
          fun j hj => hmem j (by simpa using hj)⟩
        · rintro a ha b hb rfl
          exact hskip.2 (mem_singleton.mp hb ▸ ha)
        · rw [length_append, length_singleton]
          exact le_trans hlen hbound
      obtain ⟨l', hset, hkeep⟩ := hinv.setLinks hn hskip.1 hlist
      rw [if_pos hlen, NodeLinks.push, hset]
      exact ⟨(), _, rfl, (hkeep _ rfl).1, (hkeep _ rfl).2, trivial⟩
    · obtain ⟨hnodup, hle', hsub⟩ := pruned_spec ix maxNeighbors g'
        (ix.distance.prepareStored n.stored) hold.nodup hskip.2 own.stored
      obtain ⟨l', hset, hkeep⟩ := hinv.setLinks hn hskip.1
        ⟨hnodup, hle'.trans hbound, fun j hj => hmem j (hsub j hj)⟩
      rw [if_neg hlen, hown]
      dsimp only [bind_eq_bind, bind_some]
      rw [hset]
      exact ⟨(), _, rfl, (hkeep _ rfl).1, (hkeep _ rfl).2, trivial⟩

theorem keeps_backEdges (nbrs : List Nat) (hidx : g.Has idx id level) (hne : idx ∉ nbrs)
    (hmax : maxNeighbors = if layer = 0 then ix.config.mMax0 else ix.config.m) :
    Keeps (ix.Inv origin) (fun _ _ => True) (ix.backEdges idx layer maxNeighbors nbrs) g := by
  induction nbrs generalizing g with
  | nil => exact .pure trivial
  | cons nbr nbrs ih =>
    rw [mem_cons, not_or] at hne
    exact .bind (keeps_backEdge hidx (Ne.symm hne.1) hmax) fun _ g' hle _ => ih (hidx.mono hle) hne.2

theorem keeps_link (layers : List Nat) {ep : Nat} (hidx : g.Has idx id level) (hep : g.Ready ep)
    (hlayers : ∀ layer ∈ layers, layer ≤ level) :
    Keeps (ix.Inv origin) (fun _ _ => True) (ix.link query idx layers ep) g := by
  induction layers generalizing g ep with
  | nil => exact .pure trivial
  | cons layer layers ih =>
    refine .bind (keeps_searchLayer hep) fun candidates g₁ hle₁ hhits => ?_
    obtain ⟨hnodup, hlen, hmem⟩ := selectNeighbors_spec idx
      (if layer = 0 then ix.config.mMax0 else ix.config.m) (candidates.map Prod.snd) [] .nil
      not_mem_nil (Nat.zero_le _) (absurd rfl)
    dsimp only
    generalize HnswIndex.selectNeighbors idx _ [] (candidates.map Prod.snd) = neighbors
      at hnodup hlen hmem
    have hready : ∀ u ∈ candidates.map Prod.snd, g₁.Ready u := by
      intro u hu
      obtain ⟨r, hr, rfl⟩ := mem_map.mp hu
      obtain ⟨n, hn, hready, -⟩ := hhits.scored r hr
      exact ⟨n, hn, hready⟩
    refine .bind (.atomic (Q := fun _ _ => True) fun g₂ hle₂ hinv => ?_) fun _ g₂ hle₂ _ => ?_
    · obtain ⟨n, hn, -, hlevel⟩ := hidx.mono (hle₁.trans hle₂)
      have hlayer : layer < n.links.numLayers := by
        have hle := hlayers layer mem_cons_self
        unfold NodeLinks.numLayers
        omega
      have hlist : ix.ListOk g₂.nodes.length idx layer neighbors := by
        refine ⟨hnodup, hlen.trans ?_, fun u hu => ⟨(hmem u hu).1, ?_⟩⟩
        · split_ifs
          · exact max_le ix.mMax0_pos le_rfl
          · exact le_rfl
        · obtain ⟨n', hn', -⟩ :=
            (hready u ((hmem u hu).2.resolve_left not_mem_nil)).mono hle₂
          exact (List.getElem?_eq_some_iff.mp hn').1
      obtain ⟨l', hset, hkeep⟩ := hinv.setLinks hn hlayer hlist
      rw [hn]
      dsimp only [bind_eq_bind, bind_some]
      rw [hset]
      exact ⟨(), _, rfl, (hkeep _ rfl).1, (hkeep _ rfl).2, trivial⟩
    · have hidx₂ := hidx.mono (hle₁.trans hle₂)
      refine .bind (keeps_backEdges neighbors hidx₂ (fun h => (hmem idx h).1 rfl) rfl)
        fun _ g₃ hle₃ _ => ih (hidx₂.mono hle₃) ?_ fun l hl => hlayers l (mem_cons_of_mem _ hl)
      cases candidates with
      | nil => exact hep.mono (hle₁.trans (hle₂.trans hle₃))
      | cons c _ => exact (hready c.2 mem_cons_self).mono (hle₂.trans hle₃)

theorem keeps_insert (vector : V) (level : Nat) (horigin : origin id (ix.distance.store vector)) :
    Keeps (ix.Inv origin) (fun _ _ => True) (ix.insert id vector level) g := by
  refine .bind (.atomic (Q := fun idx g => g.Has idx id level) fun g' _ hinv => ?_)
    fun idx g hle hidx => ?_
  · obtain ⟨hinv', hle'⟩ := hinv.push ⟨id, ix.distance.store vector, .new (level + 1), false, false⟩
      rfl (neighbors_new _) horigin
    exact ⟨_, _, rfl, hinv', hle', _, getElem?_concat_length, rfl, length_replicate⟩
  split_ifs
  · exact .pure trivial
  refine .bind (.write (Q := fun _ g => g.Claimed idx) fun g' hle hinv => hinv.claim (hidx.mono hle))
    fun _ g₁ hle₁ hclaimed => ?_
  refine .bind (.atomic (Q := fun st g => ∀ e ∈ st, g.Ready e.node) fun g' hle hinv => ?_)
    fun st g₂ hle₂ hst => ?_
  · cases hentry : g'.entry with
    | some st =>
      refine ⟨_, _, rfl, hinv, le_rfl, ?_⟩
      rintro _ ⟨⟩
      obtain ⟨n, hn, hready, -⟩ := hinv.entry st hentry
      exact ⟨n, hn, hready⟩
    | none =>
      obtain ⟨n, hn, -, hlevel⟩ := hidx.mono (hle₁.trans hle)
      obtain ⟨hinv', hle', -⟩ := hinv.setReady (hle.2 idx hclaimed) hn
        (f := fun n => { n with ready := true }) rfl
      obtain ⟨hinv'', hle''⟩ := hinv'.withEntry ⟨idx, level⟩
        ⟨{ n with ready := true }, by simp [Graph.modifyNode, hn], rfl, hlevel⟩
      exact ⟨none, _, by rw [hn]; rfl, hinv'', hle'.trans hle'', nofun⟩
  cases st with
  | none => exact .pure trivial
  | some st =>
    have hidx₂ := hidx.mono (hle₁.trans hle₂)
    refine .bind (keeps_descend _ (hst st rfl)) fun ep g₃ hle₃ hep => ?_
    refine .bind (keeps_link _ (hidx₂.mono hle₃) hep fun layer hlayer => ?_) fun _ g₄ hle₄ _ => ?_
    · rw [mem_reverse, mem_range] at hlayer
      exact Nat.le_of_lt_succ hlayer
    have hidx₄ := hidx₂.mono (hle₃.trans hle₄)
    refine .bind (.atomic (Q := fun _ g => g.Ready idx) fun g' hle hinv => ?_)
      fun _ g₅ hle₅ hready => ?_
    · obtain ⟨n, hn, -⟩ := hidx₄.mono hle
      obtain ⟨hinv', hle', hready⟩ := hinv.setReady
        ((hle₂.trans (hle₃.trans (hle₄.trans hle))).2 idx hclaimed) hn
        (f := fun _ => { n with ready := true }) rfl
      exact ⟨(), _, by rw [hn]; rfl, hinv', hle', hready⟩
    split_ifs
    · refine .bind (.write (Q := fun _ _ => True) fun g' hle hinv => ?_) fun _ _ _ _ => .pure trivial
      obtain ⟨n, hn, hready'⟩ := hready.mono hle
      obtain ⟨n', hn', -, hlevel⟩ := hidx₄.mono (hle₅.trans hle)
      cases hn.symm.trans hn'
      have hset := hinv.withEntry ⟨idx, level⟩ ⟨n, hn, hready', hlevel⟩
      split
      · split_ifs
        · exact ⟨hinv, le_rfl, trivial⟩
        · exact ⟨hset.1, hset.2, trivial⟩
      · exact ⟨hset.1, hset.2, trivial⟩
    · exact .pure trivial

omit [LinearOrder δ] in
theorem keeps_delete (id : Id) :
    Keeps (ix.Inv origin) (fun _ _ => True) (HnswIndex.delete (S := S) id) g := by
  refine .bind (.load (Q := fun _ _ => True) fun _ _ _ => trivial) fun idx g' _ _ => ?_
  cases idx with
  | none => exact .pure trivial
  | some idx =>
    exact .atomic fun g' _ hinv => ⟨_, _, rfl, (hinv.delete idx).1, (hinv.delete idx).2, trivial⟩

/-- The vectors of the ids, as they are stored by the calls. -/
def Inserted (ix : HnswIndex V S Q δ) (calls : List (Call V)) (id : Id) (stored : S) : Prop :=
  ∃ vector level, Call.insert id vector level ∈ calls ∧ ix.distance.store vector = stored

/-- What the reply to a call is known to be. -/
def Replied (ix : HnswIndex V S Q δ) (calls : List (Call V)) (i : Nat) (reply : Reply δ) : Prop :=
  ∀ query k ef, calls[i]? = some (.search query k ef) → ∃ hits, reply = .hits hits ∧
    ix.Answers (Inserted ix calls) (ix.distance.prepare query) k hits

theorem kept_exec (ix : HnswIndex V S Q δ) (calls : List (Call V)) (order : List Nat) :
    (Run.exec System.advance (ix.system calls) order).Kept (ix.Inv (Inserted ix calls))
      fun i reply _ => Replied ix calls i reply := by
  refine System.Kept.exec (fun _ _ _ _ _ => id) ⟨inv_empty, fun i p hp => ?_⟩ order
  rw [HnswIndex.system, getElem?_map] at hp
  obtain ⟨call, hcall, rfl⟩ := map_eq_some_iff.mp hp
  unfold Replied
  rw [hcall]
  cases call with
  | insert id vector level =>
    refine .bind (keeps_insert vector level ⟨vector, level, mem_of_getElem? hcall, rfl⟩)
      fun _ _ _ _ => .pure nofun
  | delete id => exact .bind (keeps_delete id) fun _ _ _ _ => .pure nofun
  | search query k ef =>
    refine .bind (keeps_search query k ef) fun hits _ _ h => .pure ?_
    rintro _ _ _ ⟨⟩
    exact ⟨hits, rfl, h⟩

/-- However the calls interleave: the graph is as it should be at every moment, and none of them
panics. -/
theorem graph_inv (ix : HnswIndex V S Q δ) (calls : List (Call V)) (order : List Nat) :
    ix.Inv (Inserted ix calls) (Run.exec System.advance (ix.system calls) order).shared ∧
      ∀ p ∈ (Run.exec System.advance (ix.system calls) order).programs, p ≠ .panicked := by
  have hkept := kept_exec ix calls order
  refine ⟨hkept.shared, ?_⟩
  rintro _ hp rfl
  obtain ⟨i, hi⟩ := mem_iff_getElem?.mp hp
  exact hkept.programs i _ hi

/-- However the calls interleave: what a search returns are vectors that calls have inserted, at
their distances and the nearest first, and no id twice. -/
theorem search_answers (ix : HnswIndex V S Q δ) (calls : List (Call V)) (order : List Nat) {i : Nat}
    {query : V} {k ef : Nat} {reply : Reply δ} (hcall : calls[i]? = some (.search query k ef))
    (hret : (Run.exec System.advance (ix.system calls) order).programs[i]?.bind result =
      some reply) :
    ∃ hits, reply = .hits hits ∧
      ix.Answers (Inserted ix calls) (ix.distance.prepare query) k hits := by
  obtain ⟨p, hp, hresult⟩ := bind_eq_some_iff.mp hret
  have hkeeps := (kept_exec ix calls order).programs i p hp
  cases p with
  | ret a =>
    cases hresult
    exact hkeeps query k ef hcall
  | _ => cases hresult

end

/-- Points on a line. -/
def lineIndex : HnswIndex Nat Nat Nat Nat where
  config := ⟨2, 4, 8, .l2⟩
  mMax0_pos := by decide
  distance := ⟨id, fun a b => a - b + (b - a), id, id, 2 ^ 32⟩
  intoIter := id
  intoIter_perm _ := .refl _
  turns := 8

/-- The point of an id is replaced while another is inserted, and a search follows. -/
def lineCalls : List (Call Nat) :=
  [.insert 7 10 1, .insert 8 13 0, .insert 7 11 0, .search 12 2 4]

def lineOrder : List Nat := (List.range 80).map (· % 3) ++ List.replicate 20 3

theorem search_answers_line : ∃ hits, Reply.hits [(7, 1), (8, 1)] = .hits hits ∧
    lineIndex.Answers (Inserted lineIndex lineCalls) (lineIndex.distance.prepare 12) 2 hits :=
  search_answers lineIndex lineCalls lineOrder (i := 3) (k := 2) rfl (by decide +kernel)

end RhypeDb.Vectorizer.Hnsw
