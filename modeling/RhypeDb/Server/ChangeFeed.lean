import RhypeDb.Basic.SnapshotHistory
import RhypeDb.Engine.Changes
import RhypeDb.Server.Hub

/-! The change feed under concurrent operations. An operation commits, and then it publishes its
events one by one, with no lock held. -/

namespace RhypeDb.Server.ChangeFeed

open Authz (Json)
open Engine Run Storage

variable {F : Type}

structure Txn (F : Type) where
  request : Request
  origin : Option Nat
  writes : Writes Key Payload
  objects : List (Id × Id)
  report : Id × Id → Option (List (String × Json F))

inductive Phase (F : Type)
  | begun (snapshot : Nat)
  | staged (snapshot : Nat) (txn : Txn F)
  | publishing (index : Nat) (txn : Txn F) (pending : List (Id × Id))
  | failed

structure Client (F : Type) where
  request : Request
  origin : Option Nat
  phase : Phase F

/-- An event, with the object that it is of. -/
abbrev Item (F : Type) := (Id × Id) × ChangeEvent F

/-- The committed operations over the version before the run, the operations, and what has been
published. A sink is an unbounded channel: what it has received. -/
structure Feed (F : Type) where
  first : Nat
  history : SnapshotHistory Store (Txn F)
  counters : Counters
  clients : List (Client F)
  published : List (Item F)
  hub : Hub (List (Item F))

/-- The operations are begun, stage and commit; `publish` takes the pending event with this number,
which for a delete can be any, since it walks over a `HashMap`. -/
inductive Action
  | start (request : Request) (origin : Option Nat)
  | stage (i : Nat)
  | commit (i : Nat)
  | publish (i j : Nat)

def kindOf : Request → ChangeKind
  | .create _ _ => .create
  | .createBatch _ _ _ => .create
  | .update _ _ _ => .update
  | .delete _ _ => .delete

def typeNameOf (schema : Schema) (n : Id × Id) : Request → String
  | .create typeName _ => typeName
  | .createBatch typeName _ _ => typeName
  | .update typeName _ _ => typeName
  | .delete _ _ => ((schema.typeById n.1).map TypeDef.name).getD ""

def Txn.event (schema : Schema) (txn : Txn F) (version : Nat) (n : Id × Id) : ChangeEvent F where
  version
  kind := kindOf txn.request
  typeName := typeNameOf schema n txn.request
  objectId := n.2
  fields := txn.report n
  origin := txn.origin

def applyTxn (s : Store) (txn : Txn F) : Store := s.apply txn.writes

def keysOf (txn : Txn F) : List Key := txn.writes.map Prod.fst

def deliver (item : Item F) (sub : Subscription (List (Item F))) : Subscription (List (Item F)) :=
  if sub.filter.matches item.2 then { sub with sink := sub.sink ++ [item] } else sub

theorem deliver_id (item : Item F) (sub : Subscription (List (Item F))) :
    (deliver item sub).id = sub.id := by
  unfold deliver
  split_ifs
  · rfl
  · rfl

/-- `SubscriptionHub::publish`, to channels whose receivers are held. -/
def publishTo (hub : Hub (List (Item F))) (item : Item F) : Hub (List (Item F)) where
  subscriptions := hub.subscriptions.map (deliver item)
  nextId := hub.nextId
  fresh := by
    intro sub hsub
    obtain ⟨old, hold, rfl⟩ := List.mem_map.mp hsub
    rw [deliver_id]
    exact hub.fresh old hold
  nodup := by
    have hids : (hub.subscriptions.map (deliver item)).map Subscription.id =
        hub.subscriptions.map Subscription.id := by
      rw [List.map_map]
      exact List.map_congr_left fun sub _ => deliver_id item sub
    rw [hids]
    exact hub.nodup

namespace Feed

variable (st : Feed F)

def setPhase (i : Nat) (client : Client F) (phase : Phase F) : Feed F :=
  { st with clients := st.clients.set i { client with phase } }

def stageClient (schema : Schema)
    (payload : Request → Store → Id × Id → Option (List (String × Json F))) (i : Nat)
    (client : Client F) (snapshot : Nat) : Feed F :=
  let found := st.history.stateAt applyTxn snapshot
  match Database.stage schema found.view st.counters client.request.call with
  | (.error _, counters) => { st with counters }.setPhase i client .failed
  | (.ok writes, counters) =>
    { st with counters }.setPhase i client (.staged snapshot
      { request := client.request
        origin := client.origin
        writes
        objects := client.request.objects schema found.view st.counters
        report := payload client.request found })

/-- A commit without a write takes no version, and one that is refused publishes nothing. The
counters keep what the stage made of them; no key depends on it but an id that is never used. -/
def commitClient (i : Nat) (client : Client F) (snapshot : Nat) (txn : Txn F) : Feed F :=
  if txn.writes.isEmpty then
    st.setPhase i client (.publishing st.history.version txn txn.objects)
  else if st.history.Conflicts keysOf snapshot (keysOf txn) then st.setPhase i client .failed
  else
    { st with history := st.history.commit txn }.setPhase i client
      (.publishing st.history.version txn txn.objects)

def publishClient (schema : Schema) (i j : Nat) (client : Client F) (index : Nat) (txn : Txn F)
    (pending : List (Id × Id)) : Feed F :=
  match pending[j]? with
  | none => st
  | some n =>
    if j = 0 ∨ txn.request.isDelete = true then
      let item := (n, txn.event schema (st.first + index + 1) n)
      { st with
        published := st.published ++ [item]
        hub := publishTo st.hub item }.setPhase i client
          (.publishing index txn (pending.eraseIdx j))
    else st

end Feed

def step (schema : Schema)
    (payload : Request → Store → Id × Id → Option (List (String × Json F))) (st : Feed F) :
    Action → Feed F
  | .start request origin =>
    { st with clients := st.clients ++ [⟨request, origin, .begun st.history.version⟩] }
  | .stage i =>
    match st.clients[i]? with
    | none => st
    | some client =>
      match client.phase with
      | .begun snapshot => st.stageClient schema payload i client snapshot
      | _ => st
  | .commit i =>
    match st.clients[i]? with
    | none => st
    | some client =>
      match client.phase with
      | .staged snapshot txn => st.commitClient i client snapshot txn
      | _ => st
  | .publish i j =>
    match st.clients[i]? with
    | none => st
    | some client =>
      match client.phase with
      | .publishing index txn pending => st.publishClient schema i j client index txn pending
      | _ => st

/-- A committed operation creates, updates or deletes the object: it writes the object's row, and a
delete finds it there. -/
def Txn.Changes (txn : Txn F) (found : Store) (n : Id × Id) : Prop :=
  WritesRow txn.writes n ∧ (txn.request.isDelete = true → found.Has (.object n.1 n.2))

instance (txn : Txn F) (found : Store) (n : Id × Id) : Decidable (txn.Changes found n) :=
  inferInstanceAs (Decidable (_ ∧ (_ → _)))

/-- One event for each of these operations that changes the object. -/
def changesFrom (schema : Schema) (n : Id × Id) : Nat → Store → List (Txn F) → List (ChangeEvent F)
  | _, _, [] => []
  | version, s, txn :: txns =>
    (if txn.Changes s n then [txn.event schema version n] else []) ++
      changesFrom schema n (version + 1) (applyTxn s txn) txns

def Feed.changes (schema : Schema) (st : Feed F) (n : Id × Id) : List (ChangeEvent F) :=
  changesFrom schema n (st.first + 1) st.history.base st.history.commits

def about (n : Id × Id) (items : List (Item F)) : List (ChangeEvent F) :=
  (items.filter fun item => decide (item.1 = n)).map Prod.snd

def Phase.isOver : Phase F → Bool
  | .failed => true
  | .publishing _ _ pending => pending.isEmpty
  | _ => false

def Feed.Quiet (st : Feed F) : Prop := ∀ client ∈ st.clients, client.phase.isOver = true

/-- What a subscriber has received of an object are the changes that match its filter, in version
order and each once: the first ones while operations are under way, and all when none is. -/
structure Complete (schema : Schema) (st : Feed F) : Prop where
  received : ∀ sub ∈ st.hub.subscriptions, ∀ n,
    about n sub.sink <+: (st.changes schema n).filter fun e => sub.filter.matches e
  all : st.Quiet → ∀ sub ∈ st.hub.subscriptions, ∀ n,
    about n sub.sink = (st.changes schema n).filter fun e => sub.filter.matches e
  increasing : ∀ sub ∈ st.hub.subscriptions, ∀ n,
    (about n sub.sink).Pairwise fun e e' => e.version < e'.version

structure Started (st : Feed F) : Prop where
  commits : st.history.commits = []
  clients : st.clients = []
  published : st.published = []
  sinks : ∀ sub ∈ st.hub.subscriptions, sub.sink = []

/-- The operation with this number has committed, and has these events to publish. -/
def Publishes (st : Feed F) (i index : Nat) (txn : Txn F) (pending : List (Id × Id)) : Prop :=
  ∃ client, st.clients[i]? = some client ∧ client.phase = .publishing index txn pending

/-- No event of an object is published before those of its earlier changes, nor one of an object
that the delete did not find. -/
def Orderly (schema : Schema) (st : Feed F) : Action → Prop
  | .publish i j => ∀ index txn pending n, Publishes st i index txn pending →
    pending[j]? = some n → (j = 0 ∨ txn.request.isDelete = true) →
    txn.Changes (st.history.stateAt applyTxn index) n ∧
      ∀ e ∈ st.changes schema n, e.version < st.first + index + 1 → (n, e) ∈ st.published
  | _ => True

end RhypeDb.Server.ChangeFeed
