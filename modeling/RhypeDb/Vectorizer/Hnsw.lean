import RhypeDb.Basic.BestFirst
import RhypeDb.Basic.Interleave
import RhypeDb.Vectorizer.VectorIndex

/-! The graph of a vector index, and the programs that insert, delete and search. A step is what
is done under one lock, or one load or store of a flag; vectors do not change, and are read with
the step that comes to their node. Distances are ordered: there is no NaN among them. -/

namespace RhypeDb.Vectorizer.Hnsw

open Engine (Id)
open BestFirst Interleave Prog

structure DistanceProvider (V S Q δ : Type) where
  prepare : V → Q
  distance : Q → S → δ
  prepareStored : S → Q
  store : V → S
  /-- `f32::MAX`. -/
  far : δ

/-- The used part of a layer-0 list, whose capacity is `m_max0`, and the lists above it. -/
structure NodeLinks where
  layer0 : List Nat
  upper : List (List Nat)

namespace NodeLinks

def new (numLayers : Nat) : NodeLinks := ⟨[], List.replicate (numLayers - 1) []⟩

def numLayers (l : NodeLinks) : Nat := 1 + l.upper.length

def neighbors (l : NodeLinks) : Nat → List Nat
  | 0 => l.layer0
  | layer + 1 => l.upper.getD layer []

/-- A list over the capacity, or of a layer that there is not, is an index out of bounds. -/
def set (mMax0 : Nat) (l : NodeLinks) (layer : Nat) (list : List Nat) : Option NodeLinks :=
  match layer with
  | 0 => if list.length ≤ mMax0 then some { l with layer0 := list } else none
  | layer + 1 =>
    if layer < l.upper.length then some { l with upper := l.upper.set layer list } else none

def push (mMax0 : Nat) (l : NodeLinks) (layer n : Nat) : Option NodeLinks :=
  l.set mMax0 layer (l.neighbors layer ++ [n])

end NodeLinks

structure Node (S : Type) where
  id : Id
  stored : S
  links : NodeLinks
  deleted : Bool
  ready : Bool

structure EntryState where
  node : Nat
  maxLayer : Nat
  deriving DecidableEq

structure Graph (S : Type) where
  nodes : List (Node S)
  idToIdx : Id → Option Nat
  entry : Option EntryState

def Graph.empty (S : Type) : Graph S := ⟨[], fun _ => none, none⟩

def Graph.modifyNode {S : Type} (g : Graph S) (i : Nat) (f : Node S → Node S) : Graph S :=
  { g with nodes := g.nodes.modify i f }

/-- The guard of the map's lock is held until the previous node of the id is tombstoned. -/
def Graph.claim {S : Type} (g : Graph S) (id : Id) (idx : Nat) : Graph S :=
  let g' := match g.idToIdx id with
    | some prev => g.modifyNode prev fun n => { n with deleted := true }
    | none => g
  { g' with idToIdx := Function.update g.idToIdx id (some idx) }

/-- What `copy_neighbors` copies: nothing of a layer that the node is not on. -/
def Graph.neighbors {S : Type} (g : Graph S) (layer i : Nat) : List Nat :=
  match g.nodes[i]? with
  | some n => if layer < n.links.numLayers then n.links.neighbors layer else []
  | none => []

/-- An index: `with_distance` asserts the capacity. A heap is drained in some order, and a call
makes as many turns of a loop as it is given. -/
structure HnswIndex (V S Q δ : Type) where
  config : HnswConfig
  mMax0_pos : 1 ≤ config.mMax0
  distance : DistanceProvider V S Q δ
  intoIter : List (δ × Nat) → List (δ × Nat)
  intoIter_perm : ∀ l, (intoIter l).Perm l
  turns : Nat

variable {V S Q δ : Type} [LinearOrder δ]

namespace HnswIndex

variable (ix : HnswIndex V S Q δ)

def score (g : Graph S) (query : Q) (i : Nat) : Option δ :=
  g.nodes[i]?.map fun n => ix.distance.distance query n.stored

/-- A node that is not ready is no routing target yet. -/
def routable (g : Graph S) (query : Q) (i : Nat) : Option δ :=
  (g.nodes[i]?.filter Node.ready).map fun n => ix.distance.distance query n.stored

def copyNeighbors (layer i : Nat) : Prog (Graph S) (List Nat) := load fun g => g.neighbors layer i

/-- The neighbours are those of the node that the turn began at. -/
def closer (query : Q) : List Nat → Nat × δ × Bool → Prog (Graph S) (Nat × δ × Bool)
  | [], at_ => pure at_
  | nbr :: nbrs, (current, currentDist, changed) => do
    match ← load (ix.routable · query nbr) with
    | none => closer query nbrs (current, currentDist, changed)
    | some dist =>
      if dist < currentDist then closer query nbrs (nbr, dist, true)
      else closer query nbrs (current, currentDist, changed)

def greedyLoop (query : Q) (layer : Nat) : Nat → Nat → δ → Prog (Graph S) Nat
  | 0, _, _ => spent
  | turns + 1, current, currentDist => do
    let nbrs ← copyNeighbors layer current
    let (current, currentDist, changed) ← closer ix query nbrs (current, currentDist, false)
    if changed then greedyLoop query layer turns current currentDist else pure current

def greedyClosest (query : Q) (start layer : Nat) : Prog (Graph S) Nat := do
  match ← load (ix.score · query start) with
  | none => pure start
  | some dist => greedyLoop ix query layer ix.turns start dist

/-- The greedy searches of the given layers, one from where the one before has ended. -/
def descend (query : Q) : List Nat → Nat → Prog (Graph S) Nat
  | [], ep => pure ep
  | layer :: layers, ep => do descend query layers (← greedyClosest ix query ep layer)

def expand (query : Q) (ef : Nat) : List Nat → Beam Nat δ → Prog (Graph S) (Beam Nat δ)
  | [], b => pure b
  | nbr :: nbrs, b =>
    if nbr ∈ b.visited then expand query ef nbrs b
    else do
      let score ← load (ix.routable · query nbr)
      expand query ef nbrs (b.accept ef ix.distance.far nbr score)

def beamLoop (query : Q) (ef layer : Nat) : Nat → Beam Nat δ → Prog (Graph S) (Beam Nat δ)
  | 0, _ => spent
  | turns + 1, b =>
    match b.candidates with
    | [] => pure b
    | c :: rest =>
      if b.Stops ef ix.distance.far c then pure b
      else do
        let nbrs ← copyNeighbors layer c.2
        beamLoop query ef layer turns (← expand ix query ef nbrs { b with candidates := rest })

/-- The heap's items in its own order, and then sorted by distance. -/
def sorted (results : List (δ × Nat)) : List (δ × Nat) :=
  (ix.intoIter results).insertionSort fun a b => a.1 ≤ b.1

def searchLayer (query : Q) (entryPoint ef layer : Nat) : Prog (Graph S) (List (δ × Nat)) := do
  match ← load (ix.score · query entryPoint) with
  | none => pure []
  | some dist =>
    return ix.sorted (← beamLoop ix query ef layer ix.turns (.start entryPoint dist)).results

/-- `hi, hi - 1, .., lo`. -/
def layersDown (lo hi : Nat) : List Nat := (List.range' lo (hi + 1 - lo)).reverse

/-- The first `k` that are not deleted; what is behind them is not looked at. -/
def collect : Nat → List (δ × Nat) → Prog (Graph S) (List (Id × δ))
  | 0, _ => pure []
  | _, [] => pure []
  | k + 1, (dist, i) :: rest => do
    match ← load fun g : Graph S => (g.nodes[i]?.filter fun n => !n.deleted).map Node.id with
    | none => collect (k + 1) rest
    | some id => return (id, dist) :: (← collect k rest)

def search (query : V) (k ef : Nat) : Prog (Graph S) (List (Id × δ)) := do
  match ← load Graph.entry with
  | none => pure []
  | some st =>
    let prepared := ix.distance.prepare query
    let ep ← descend ix prepared (layersDown 1 st.maxLayer) st.node
    let candidates ← searchLayer ix prepared ep (max ef k) 0
    collect k candidates

def push (node : Node S) : Prog (Graph S) Nat :=
  atomic fun g => some (g.nodes.length, { g with nodes := g.nodes ++ [node] })

def claim (id : Id) (idx : Nat) : Prog (Graph S) Unit := write fun g => g.claim id idx

/-- `own_node` panics where the node is not there. -/
def ownNode (idx : Nat) (f : Graph S → Node S → Option (Node S)) : Prog (Graph S) Unit :=
  atomic fun g => do
    let n ← g.nodes[idx]?
    let n' ← f g n
    return ((), g.modifyNode idx fun _ => n')

/-- In an empty index the node becomes the entry point, ready as it is. -/
def enter (idx level : Nat) : Prog (Graph S) (Option EntryState) := atomic fun g =>
  match g.entry with
  | some st => some (some st, g)
  | none => g.nodes[idx]?.map fun _ =>
    (none, { g.modifyNode idx fun n => { n with ready := true } with entry := some ⟨idx, level⟩ })

/-- Raised only over a lower one, which it may have become in the meantime. -/
def raise (idx level : Nat) : Prog (Graph S) Unit := write fun g =>
  match g.entry with
  | some st => if level ≤ st.maxLayer then g else { g with entry := some ⟨idx, level⟩ }
  | none => { g with entry := some ⟨idx, level⟩ }

/-- The nodes of the candidates, without the new one, until there are as many as are wanted. -/
def selectNeighbors (idx maxNeighbors : Nat) : List Nat → List Nat → List Nat
  | neighbors, [] => neighbors
  | neighbors, u :: us =>
    if u = idx ∨ u ∈ neighbors then selectNeighbors idx maxNeighbors neighbors us
    else if maxNeighbors ≤ (neighbors ++ [u]).length then neighbors ++ [u]
    else selectNeighbors idx maxNeighbors (neighbors ++ [u]) us

/-- What a full list keeps of its members and a new one: the closest to the list's own node. -/
def pruned (g : Graph S) (query : Q) (members : List Nat) (idx : Nat) (own : S)
    (maxNeighbors : Nat) : List Nat :=
  let scored := members.map fun c => ((ix.score g query c).getD ix.distance.far, c)
  (((scored ++ [(ix.distance.distance query own, idx)]).insertionSort fun a b => a.1 ≤ b.1).take
    maxNeighbors).map Prod.snd

/-- The new node in the list of a neighbour, under the neighbour's lock. -/
def backEdge (idx layer maxNeighbors nbr : Nat) : Prog (Graph S) Unit := atomic fun g =>
  match g.nodes[nbr]? with
  | none => some ((), g)
  | some n => do
    let l := n.links
    if l.numLayers ≤ layer ∨ idx ∈ l.neighbors layer then return ((), g)
    let l' ← if (l.neighbors layer).length < maxNeighbors then l.push ix.config.mMax0 layer idx
      else do
        let own ← g.nodes[idx]?
        l.set ix.config.mMax0 layer (ix.pruned g (ix.distance.prepareStored n.stored)
          (l.neighbors layer) idx own.stored maxNeighbors)
    return ((), g.modifyNode nbr fun n => { n with links := l' })

def backEdges (idx layer maxNeighbors : Nat) : List Nat → Prog (Graph S) Unit
  | [] => pure ()
  | nbr :: nbrs => do
    backEdge ix idx layer maxNeighbors nbr
    backEdges idx layer maxNeighbors nbrs

def link (query : Q) (idx : Nat) : List Nat → Nat → Prog (Graph S) Unit
  | [], _ => pure ()
  | layer :: layers, ep => do
    let candidates ← searchLayer ix query ep ix.config.efConstruction layer
    let maxNeighbors := if layer = 0 then ix.config.mMax0 else ix.config.m
    let neighbors := selectNeighbors idx maxNeighbors [] (candidates.map Prod.snd)
    ownNode idx fun _ n => (n.links.set ix.config.mMax0 layer neighbors).map ({ n with links := · })
    backEdges ix idx layer maxNeighbors neighbors
    link query idx layers ((candidates.head?.map Prod.snd).getD ep)

/-- The level is drawn. An index of more than `u32::MAX` nodes fails the assertion, behind which
the casts of a node's index are exact. -/
def insert (id : Id) (vector : V) (level : Nat) : Prog (Graph S) Bool := do
  let numLayers := level + 1
  let idx ← push ⟨id, ix.distance.store vector, .new numLayers, false, false⟩
  if 2 ^ 32 ≤ idx then return false
  claim id idx
  match ← enter idx level with
  | none => return true
  | some st =>
    let prepared := ix.distance.prepare vector
    let ep ← descend ix prepared (layersDown numLayers st.maxLayer) st.node
    link ix prepared idx (List.range numLayers).reverse ep
    ownNode idx fun _ n => some { n with ready := true }
    if st.maxLayer < level then raise idx level
    return true

def delete (id : Id) : Prog (Graph S) Bool := do
  match ← load fun g : Graph S => g.idToIdx id with
  | none => return false
  | some idx =>
    atomic fun g =>
      some (g.nodes[idx]?.isSome, g.modifyNode idx fun n => { n with deleted := true })

end HnswIndex

inductive Call (V : Type)
  | insert (id : Id) (vector : V) (level : Nat)
  | delete (id : Id)
  | search (query : V) (k ef : Nat)

inductive Reply (δ : Type)
  | inserted (ok : Bool)
  | deleted (found : Bool)
  | hits (hits : List (Id × δ))
  deriving DecidableEq

def Call.program (ix : HnswIndex V S Q δ) : Call V → Prog (Graph S) (Reply δ)
  | insert id vector level => do return .inserted (← ix.insert id vector level)
  | delete id => do return .deleted (← HnswIndex.delete id)
  | search query k ef => do return .hits (← ix.search query k ef)

/-- The calls that are ever made to an index; one that has taken no step has not begun. -/
def HnswIndex.system (ix : HnswIndex V S Q δ) (calls : List (Call V)) :
    System (Graph S) (Reply δ) :=
  ⟨.empty S, calls.map (Call.program ix)⟩

end RhypeDb.Vectorizer.Hnsw
