import RhypeDb.Engine.Value

/-! The nodes of a quantized vector index: insertion, the snapshot that is saved of them, and what
a load makes of one. The graph's links decide where a search walks, and are left out. -/

namespace RhypeDb.Vectorizer

open Engine List

inductive Metric
  | cosine
  | l2
  | dotProduct
  deriving DecidableEq, Repr

structure HnswConfig where
  m : Nat
  mMax0 : Nat
  efConstruction : Nat
  metric : Metric
  deriving DecidableEq, Repr

structure TurboQuantConfig where
  dimensions : Nat
  bits : Nat
  deriving DecidableEq, Repr

/-- A quantizer. The rotation is random when it is built; the codebook depends on the
configuration alone. -/
structure TurboQuantizer (φ : Type) where
  config : TurboQuantConfig
  rotation : List φ
  deriving DecidableEq

/-- The floating-point part: the code of a vector, and which components are finite. -/
structure Compression (φ γ : Type) where
  compress : TurboQuantizer φ → List φ → γ
  isFinite : φ → Bool

structure Node (γ : Type) where
  id : Id
  stored : γ
  deleted : Bool
  deriving DecidableEq, Repr

structure QuantizedIndex (φ γ : Type) where
  metric : Metric
  quantizer : TurboQuantizer φ
  config : HnswConfig
  nodes : List (Node γ)
  idToIdx : Id → Option Nat

structure IndexSnapshot (φ γ : Type) where
  metric : Metric
  quantizer : TurboQuantizer φ
  config : HnswConfig
  nodes : List (Node γ)
  deriving DecidableEq

variable {φ γ : Type}

def Node.tombstone (n : Node γ) : Node γ := { n with deleted := true }

def liveCodes (nodes : List (Node γ)) (id : Id) : List γ :=
  (nodes.filter fun n => decide (n.id = id) && !n.deleted).map Node.stored

def idMap (nodes : List (Node γ)) : Id → Option Nat :=
  nodes.zipIdx.foldl (fun map p => Function.update map p.1.id (some p.2)) fun _ => none

namespace QuantizedIndex

def new (hnswConfig : HnswConfig) (quantConfig : TurboQuantConfig) (rotation : List φ) :
    QuantizedIndex φ γ where
  metric := hnswConfig.metric
  quantizer := ⟨quantConfig, rotation⟩
  config := hnswConfig
  nodes := []
  idToIdx := fun _ => none

/-- An insertion pushes a node and tombstones the one that the id had. A vector of another length
fails the compressor's assertion, before anything is pushed. -/
def insert (num : Compression φ γ) (ix : QuantizedIndex φ γ) (id : Id) (vector : List φ) :
    Option (QuantizedIndex φ γ) :=
  if vector.length = ix.quantizer.config.dimensions then
    let node : Node γ := ⟨id, num.compress ix.quantizer vector, false⟩
    let nodes := match ix.idToIdx id with
      | some prev => ix.nodes.modify prev Node.tombstone
      | none => ix.nodes
    some { ix with
      nodes := nodes ++ [node]
      idToIdx := Function.update ix.idToIdx id (some ix.nodes.length) }
  else none

def insertAll (num : Compression φ γ) (ix : QuantizedIndex φ γ) :
    List (Id × List φ) → Option (QuantizedIndex φ γ)
  | [] => some ix
  | row :: rows => (ix.insert num row.1 row.2).bind fun ix' => ix'.insertAll num rows

def containsId (ix : QuantizedIndex φ γ) (id : Id) : Bool := (ix.idToIdx id).isSome

def save (ix : QuantizedIndex φ γ) : IndexSnapshot φ γ :=
  ⟨ix.metric, ix.quantizer, ix.config, ix.nodes⟩

/-- A load refuses a layer-0 capacity out of its range. -/
def load (file : IndexSnapshot φ γ) : Option (QuantizedIndex φ γ) :=
  if file.config.mMax0 = 0 ∨ 2 ^ 16 < file.config.mMax0 then none
  else some ⟨file.metric, file.quantizer, file.config, file.nodes, idMap file.nodes⟩

end QuantizedIndex

section

variable {nodes : List (Node γ)}

structure LastLive (nodes : List (Node γ)) : Prop where
  earlier : nodes.Pairwise fun a b => a.id = b.id → a.deleted = true
  live : ∀ n ∈ nodes, ∃ n' ∈ nodes, n'.id = n.id ∧ n'.deleted = false

theorem LastLive.nil : LastLive ([] : List (Node γ)) := ⟨.nil, nofun⟩

theorem idMap_snoc (nodes : List (Node γ)) (n : Node γ) :
    idMap (nodes ++ [n]) = Function.update (idMap nodes) n.id (some nodes.length) := by
  unfold idMap
  rw [zipIdx_append, foldl_append]
  simp only [zipIdx_singleton, foldl_cons, foldl_nil, Nat.zero_add]

theorem idMap_congr {nodes' : List (Node γ)} (h : nodes.map Node.id = nodes'.map Node.id) :
    idMap nodes = idMap nodes' := by
  have hpairs : ∀ l : List (Node γ), idMap l = (l.map Node.id).zipIdx.foldl
      (fun (map : Id → Option Nat) p => Function.update map p.1 (some p.2)) fun _ => none := by
    intro l
    rw [zipIdx_map, foldl_map]
    rfl
  rw [hpairs, hpairs, h]

variable {id : Id}

theorem lookup_idMap_eq_some {i : Nat} (h : idMap nodes id = some i) :
    (∃ n, nodes[i]? = some n ∧ n.id = id) ∧
      ∀ j n, nodes[j]? = some n → n.id = id → j ≤ i := by
  induction nodes using List.reverseRecOn generalizing i with
  | nil => cases h
  | append_singleton nodes n ih =>
    rw [idMap_snoc, Function.update_apply] at h
    split_ifs at h with heq
    · cases h
      refine ⟨⟨n, getElem?_concat_length, heq.symm⟩, fun j n' hj _ => ?_⟩
      have hlt := (List.getElem?_eq_some_iff.mp hj).1
      rw [length_append] at hlt
      exact Nat.le_of_lt_succ hlt
    · obtain ⟨⟨n', hn', hid⟩, hlast⟩ := ih h
      have hlt := (List.getElem?_eq_some_iff.mp hn').1
      refine ⟨⟨n', ?_, hid⟩, fun j n'' hj hid'' => ?_⟩
      · rw [getElem?_append_left hlt]
        exact hn'
      · rcases Nat.lt_or_ge j nodes.length with hjlt | hjge
        · rw [getElem?_append_left hjlt] at hj
          exact hlast j n'' hj hid''
        · rw [getElem?_append_right hjge] at hj
          have hmem := mem_of_getElem? hj
          rw [mem_singleton] at hmem
          rw [hmem] at hid''
          exact absurd hid''.symm heq

theorem lookup_idMap_eq_none : idMap nodes id = none ↔ ∀ n ∈ nodes, n.id ≠ id := by
  induction nodes using List.reverseRecOn with
  | nil => exact ⟨fun _ => nofun, fun _ => rfl⟩
  | append_singleton nodes n ih =>
    rw [idMap_snoc, Function.update_apply]
    by_cases heq : id = n.id
    · rw [if_pos heq]
      refine ⟨nofun, fun h => ?_⟩
      exact absurd heq.symm (h n (mem_append_right _ mem_cons_self))
    · rw [if_neg heq, ih]
      constructor
      · intro h n' hn'
        rcases mem_append.mp hn' with hn' | hn'
        · exact h n' hn'
        · rw [mem_singleton.mp hn']
          exact fun hid => heq hid.symm
      · exact fun h n' hn' => h n' (mem_append_left _ hn')

theorem modify_tombstone (hlast : LastLive nodes) {i : Nat} (h : idMap nodes id = some i) :
    nodes.modify i Node.tombstone =
      nodes.map fun n => if n.id = id then n.tombstone else n := by
  obtain ⟨⟨n, hn, hid⟩, hle⟩ := lookup_idMap_eq_some h
  apply ext_getElem?
  intro j
  rw [getElem?_modify, getElem?_map]
  cases hj : nodes[j]? with
  | none => rfl
  | some n' =>
    change some (if i = j then n'.tombstone else n') = _
    rw [Option.map_some]
    by_cases hij : i = j
    · subst hij
      obtain rfl : n = n' := Option.some.inj (hn.symm.trans hj)
      rw [if_pos rfl, if_pos hid]
    · rw [if_neg hij]
      by_cases hid' : n'.id = id
      · -- an earlier node of the id is tombstoned already
        rw [if_pos hid']
        have hlt : j < i := lt_of_le_of_ne (hle j n' hj hid') (Ne.symm hij)
        obtain ⟨hjlen, rfl⟩ := List.getElem?_eq_some_iff.mp hj
        obtain ⟨hilen, rfl⟩ := List.getElem?_eq_some_iff.mp hn
        have hdeleted := pairwise_iff_getElem.mp hlast.earlier j i hjlen hilen hlt
          (hid'.trans hid.symm)
        unfold Node.tombstone
        rw [← hdeleted]
      · rw [if_neg hid']

def pushed (nodes : List (Node γ)) (id : Id) (code : γ) : List (Node γ) :=
  (nodes.map fun n => if n.id = id then n.tombstone else n) ++ [⟨id, code, false⟩]

theorem id_tombstoned (n : Node γ) (id : Id) :
    (if n.id = id then n.tombstone else n).id = n.id := by
  split_ifs <;> rfl

theorem LastLive.pushed (hlast : LastLive nodes) (id : Id) (code : γ) :
    LastLive (pushed nodes id code) := by
  refine ⟨?_, ?_⟩
  · unfold Vectorizer.pushed
    rw [pairwise_append]
    refine ⟨?_, pairwise_singleton _ _, ?_⟩
    · rw [pairwise_map]
      refine hlast.earlier.imp fun {a b} hab heq => ?_
      rw [id_tombstoned, id_tombstoned] at heq
      have hdeleted := hab heq
      split_ifs
      · rfl
      · exact hdeleted
    · intro a ha b hb heq
      obtain ⟨n, -, rfl⟩ := mem_map.mp ha
      rw [mem_singleton.mp hb, id_tombstoned] at heq
      rw [if_pos heq]
      rfl
  · intro n hn
    by_cases hid : n.id = id
    · exact ⟨⟨id, code, false⟩, mem_append_right _ mem_cons_self, hid.symm, rfl⟩
    · rcases mem_append.mp hn with hn | hn
      · obtain ⟨n₀, hn₀, rfl⟩ := mem_map.mp hn
        rw [id_tombstoned] at hid
        obtain ⟨n', hn', hid', hlive⟩ := hlast.live n₀ hn₀
        refine ⟨n', mem_append_left _ (mem_map.mpr ⟨n', hn', ?_⟩), ?_, hlive⟩
        · exact if_neg fun h => hid (hid'.symm.trans h)
        · rw [id_tombstoned]
          exact hid'
      · rw [mem_singleton.mp hn] at hid
        exact absurd rfl hid

theorem liveCodes_append (nodes nodes' : List (Node γ)) (id : Id) :
    liveCodes (nodes ++ nodes') id = liveCodes nodes id ++ liveCodes nodes' id := by
  unfold liveCodes
  rw [filter_append, map_append]

theorem liveCodes_singleton (n : Node γ) (id : Id) :
    liveCodes [n] id = if n.id = id ∧ n.deleted = false then [n.stored] else [] := by
  unfold liveCodes
  by_cases hid : n.id = id <;> by_cases hdeleted : n.deleted <;> simp [hid, hdeleted]

theorem liveCodes_tombstoned (nodes : List (Node γ)) (id id' : Id) :
    liveCodes (nodes.map fun n => if n.id = id then n.tombstone else n) id' =
      if id' = id then [] else liveCodes nodes id' := by
  induction nodes with
  | nil => split_ifs <;> rfl
  | cons n nodes ih =>
    rw [map_cons, ← singleton_append, liveCodes_append, ih,
      ← singleton_append (x := n), liveCodes_append, liveCodes_singleton,
      liveCodes_singleton, id_tombstoned]
    by_cases heq : id' = id
    · rw [if_pos heq, if_pos heq, append_nil, heq, if_neg]
      rintro ⟨hid, hlive⟩
      rw [if_pos hid] at hlive
      exact Bool.noConfusion hlive
    · rw [if_neg heq, if_neg heq]
      congr 1
      by_cases hid : n.id = id
      · have hne : n.id ≠ id' := fun h => heq (h.symm.trans hid)
        rw [if_neg fun h => hne h.1, if_neg fun h => hne h.1]
      · rw [if_neg hid]

theorem liveCodes_pushed (nodes : List (Node γ)) (id : Id) (code : γ) (id' : Id) :
    liveCodes (pushed nodes id code) id' = if id' = id then [code] else liveCodes nodes id' := by
  unfold pushed
  rw [liveCodes_append, liveCodes_tombstoned, liveCodes_singleton]
  by_cases heq : id' = id
  · rw [if_pos heq, if_pos heq, if_pos ⟨heq.symm, rfl⟩]
    rfl
  · rw [if_neg heq, if_neg heq, if_neg fun h => heq h.1.symm, append_nil]

theorem mem_liveCodes {code : γ} :
    code ∈ liveCodes nodes id ↔ ∃ n ∈ nodes, n.id = id ∧ n.deleted = false ∧ n.stored = code := by
  unfold liveCodes
  simp only [mem_map, mem_filter, Bool.and_eq_true, decide_eq_true_eq,
    Bool.not_eq_true', and_assoc]

theorem LastLive.liveCodes_eq (hlast : LastLive nodes) {n : Node γ} (hn : n ∈ nodes)
    (hid : n.id = id) : ∃ code, liveCodes nodes id = [code] := by
  obtain ⟨n', hn', hid', hlive⟩ := hlast.live n hn
  rw [hid] at hid'
  obtain ⟨front, back, rfl⟩ := append_of_mem hn'
  have hpairwise := hlast.earlier
  rw [pairwise_append, pairwise_cons] at hpairwise
  obtain ⟨-, ⟨hafter, -⟩, hbefore⟩ := hpairwise
  have hfront : liveCodes front id = [] := by
    refine eq_nil_iff_forall_not_mem.mpr fun code hcode => ?_
    obtain ⟨a, ha, haid, halive, -⟩ := mem_liveCodes.mp hcode
    have hdeleted := hbefore a ha n' mem_cons_self (haid.trans hid'.symm)
    rw [halive] at hdeleted
    exact Bool.false_ne_true hdeleted
  have hback : liveCodes back id = [] := by
    refine eq_nil_iff_forall_not_mem.mpr fun code hcode => ?_
    obtain ⟨b, hb, hbid, -, -⟩ := mem_liveCodes.mp hcode
    have hdeleted := hafter b hb (hid'.trans hbid.symm)
    rw [hlive] at hdeleted
    exact Bool.false_ne_true hdeleted
  refine ⟨n'.stored, ?_⟩
  have hsplit : front ++ n' :: back = front ++ ([n'] ++ back) := rfl
  rw [hsplit, liveCodes_append, liveCodes_append, hfront, hback]
  simp [liveCodes, hid', hlive]

theorem liveCodes_eq_nil (h : ∀ n ∈ nodes, n.id ≠ id) : liveCodes nodes id = [] := by
  refine eq_nil_iff_forall_not_mem.mpr fun code hcode => ?_
  obtain ⟨n, hn, hid, -, -⟩ := mem_liveCodes.mp hcode
  exact h n hn hid

end

namespace QuantizedIndex

variable {num : Compression φ γ} {ix ix' : QuantizedIndex φ γ}

structure Sound (ix : QuantizedIndex φ γ) : Prop where
  map : ix.idToIdx = idMap ix.nodes
  last : LastLive ix.nodes

theorem Sound.new (hnswConfig : HnswConfig) (quantConfig : TurboQuantConfig) (rotation : List φ) :
    (new (γ := γ) hnswConfig quantConfig rotation).Sound := ⟨rfl, .nil⟩

theorem Sound.containsId_iff (h : ix.Sound) {id : Id} :
    ix.containsId id = true ↔ ∃ n ∈ ix.nodes, n.id = id := by
  unfold containsId
  rw [h.map, Option.isSome_iff_ne_none, Ne, lookup_idMap_eq_none]
  push Not
  rfl

theorem insert_spec (h : ix.Sound) {id : Id} {vector : List φ}
    (hinsert : ix.insert num id vector = some ix') :
    ix'.nodes = pushed ix.nodes id (num.compress ix.quantizer vector) ∧
      ix'.quantizer = ix.quantizer ∧ ix'.Sound := by
  unfold insert at hinsert
  split_ifs at hinsert
  have hnodes : ix'.nodes = pushed ix.nodes id (num.compress ix.quantizer vector) := by
    cases hinsert
    dsimp only
    congr 1
    rw [h.map]
    cases hlookup : idMap ix.nodes id with
    | none =>
      have hfresh := lookup_idMap_eq_none.mp hlookup
      symm
      calc (ix.nodes.map fun n => if n.id = id then n.tombstone else n)
          = ix.nodes.map fun n => n :=
            map_congr_left fun n hn => if_neg (hfresh n hn)
        _ = ix.nodes := map_id' _
    | some i => exact modify_tombstone h.last hlookup
  refine ⟨hnodes, ?_, ?_, ?_⟩
  · cases hinsert
    rfl
  · have hids : (ix.nodes.map fun n => if n.id = id then n.tombstone else n).map Node.id =
        ix.nodes.map Node.id := by
      rw [map_map]
      exact map_congr_left fun n _ => id_tombstoned n id
    rw [hnodes]
    unfold pushed
    rw [idMap_snoc, idMap_congr hids, length_map, ← h.map]
    cases hinsert
    rfl
  · rw [hnodes]
    exact h.last.pushed _ _

theorem insertAll_spec (h : ix.Sound) {rows : List (Id × List φ)}
    (hinsert : ix.insertAll num rows = some ix') (hnodup : (rows.map Prod.fst).Nodup) :
    ix'.quantizer = ix.quantizer ∧ ix'.Sound ∧
      (∀ row ∈ rows, liveCodes ix'.nodes row.1 = [num.compress ix.quantizer row.2]) ∧
      ∀ id ∉ rows.map Prod.fst, liveCodes ix'.nodes id = liveCodes ix.nodes id := by
  induction rows generalizing ix with
  | nil =>
    cases hinsert
    exact ⟨rfl, h, nofun, fun _ _ => rfl⟩
  | cons row rows ih =>
    obtain ⟨ix₁, hfirst, hrest⟩ := Option.bind_eq_some_iff.mp hinsert
    obtain ⟨hnodes, hquantizer, hsound⟩ := insert_spec h hfirst
    rw [map_cons, nodup_cons] at hnodup
    obtain ⟨hquantizer', hsound', hin, hout⟩ := ih hsound hrest hnodup.2
    refine ⟨hquantizer'.trans hquantizer, hsound', ?_, ?_⟩
    · intro row' hrow'
      rcases mem_cons.mp hrow' with rfl | hrow'
      · rw [hout _ hnodup.1, hnodes, liveCodes_pushed, if_pos rfl]
      · rw [hin row' hrow', hquantizer]
    · intro id hid
      rw [map_cons, mem_cons, not_or] at hid
      rw [hout id hid.2, hnodes, liveCodes_pushed, if_neg hid.1]

theorem Sound.load {file : IndexSnapshot φ γ} (hlast : LastLive file.nodes)
    (h : load file = some ix) : ix.Sound ∧ ix.nodes = file.nodes ∧
      ix.quantizer = file.quantizer := by
  unfold QuantizedIndex.load at h
  split_ifs at h
  cases h
  exact ⟨⟨rfl, hlast⟩, rfl, rfl⟩

end QuantizedIndex

end RhypeDb.Vectorizer
