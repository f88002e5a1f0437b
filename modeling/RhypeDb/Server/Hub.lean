import RhypeDb.Authz.Rules
import RhypeDb.Engine.Value

/-! The subscription hub of `rhypedb-subscribe`: change events, filters, and the registered
subscriptions over sinks of any kind. -/

namespace RhypeDb.Server

open List

open Authz (Json)
open Engine (Id)

inductive ChangeKind
  | create
  | update
  | delete
  deriving DecidableEq, Repr

structure ChangeEvent (F : Type) where
  version : Nat
  kind : ChangeKind
  typeName : String
  objectId : Id
  fields : Option (List (String × Json F))
  origin : Option Nat

structure SubscriptionFilter where
  typeName : Option String
  objectId : Option Id
  kinds : List ChangeKind
  excludeOrigin : Option Nat
  deriving DecidableEq

def SubscriptionFilter.all : SubscriptionFilter :=
  { typeName := none, objectId := none, kinds := [], excludeOrigin := none }

def SubscriptionFilter.forType (typeName : String) : SubscriptionFilter :=
  { SubscriptionFilter.all with typeName := some typeName }

def SubscriptionFilter.matches {F : Type} (filter : SubscriptionFilter) (event : ChangeEvent F) :
    Bool :=
  if filter.typeName.any fun tn => tn ≠ event.typeName then false
  else if filter.objectId.any fun oid => oid ≠ event.objectId then false
  else if filter.kinds ≠ [] ∧ event.kind ∉ filter.kinds then false
  else if filter.excludeOrigin.any fun ex => event.origin = some ex then false
  else true

structure Subscription (S : Type) where
  id : Nat
  filter : SubscriptionFilter
  sink : S

/-- `SubscriptionHub`. Ids are drawn from `nextId`, so no two subscriptions share one. -/
structure Hub (S : Type) where
  subscriptions : List (Subscription S)
  nextId : Nat
  fresh : ∀ sub ∈ subscriptions, sub.id < nextId
  nodup : (subscriptions.map Subscription.id).Nodup

namespace Hub

variable {S : Type}

def new : Hub S :=
  { subscriptions := []
    nextId := 1
    fresh := nofun
    nodup := List.nodup_nil }

theorem subscribeSink_fresh (hub : Hub S) (filter : SubscriptionFilter) (sink : S) :
    ∀ sub ∈ hub.subscriptions ++ [{ id := hub.nextId, filter, sink }], sub.id < hub.nextId + 1 := by
  intro sub hsub
  rcases mem_append.mp hsub with hsub | hsub
  · have hlt := hub.fresh sub hsub
    exact Nat.lt_succ_of_lt hlt
  · rw [mem_singleton] at hsub
    rw [hsub]
    exact Nat.lt_succ_self _

theorem subscribeSink_nodup (hub : Hub S) (filter : SubscriptionFilter) (sink : S) :
    (List.map Subscription.id
      (hub.subscriptions ++ [{ id := hub.nextId, filter, sink }])).Nodup := by
  rw [map_append, map_singleton, nodup_append]
  refine ⟨hub.nodup, nodup_singleton _, fun id hid id' hid' heq => ?_⟩
  obtain ⟨sub, hsub, rfl⟩ := mem_map.mp hid
  have hlt := hub.fresh sub hsub
  rw [mem_singleton] at hid'
  rw [heq, hid'] at hlt
  exact absurd hlt (lt_irrefl _)

def subscribeSink (hub : Hub S) (filter : SubscriptionFilter) (sink : S) : Hub S :=
  { subscriptions := hub.subscriptions ++ [{ id := hub.nextId, filter, sink }]
    nextId := hub.nextId + 1
    fresh := hub.subscribeSink_fresh filter sink
    nodup := hub.subscribeSink_nodup filter sink }

def retain (hub : Hub S) (keep : Subscription S → Bool) : Hub S :=
  { subscriptions := hub.subscriptions.filter keep
    nextId := hub.nextId
    fresh := fun sub hsub => hub.fresh sub (List.mem_of_mem_filter hsub)
    nodup := hub.nodup.sublist (List.filter_sublist.map _) }

def unsubscribe (hub : Hub S) (id : Nat) : Hub S := hub.retain fun sub => sub.id ≠ id

/-- The subscriptions that `publish` walks over, in order. -/
def matching {F : Type} (hub : Hub S) (event : ChangeEvent F) : List (Subscription S) :=
  hub.subscriptions.filter fun sub => sub.filter.matches event

variable {sub : Subscription S} {hub : Hub S}

theorem mem_subscribeSink {filter : SubscriptionFilter} {sink : S} :
    sub ∈ (hub.subscribeSink filter sink).subscriptions ↔
      sub ∈ hub.subscriptions ∨ sub = { id := hub.nextId, filter, sink } := by
  unfold subscribeSink
  rw [mem_append, mem_singleton]

theorem mem_unsubscribe {id : Nat} :
    sub ∈ (hub.unsubscribe id).subscriptions ↔ sub ∈ hub.subscriptions ∧ sub.id ≠ id := by
  unfold unsubscribe retain
  rw [mem_filter, decide_eq_true_iff]

theorem mem_matching {F : Type} {event : ChangeEvent F} :
    sub ∈ hub.matching event ↔ sub ∈ hub.subscriptions ∧ sub.filter.matches event = true := by
  unfold matching
  rw [mem_filter]

theorem matching_nodup {F : Type} (hub : Hub S) (event : ChangeEvent F) :
    ((hub.matching event).map Subscription.id).Nodup :=
  hub.nodup.sublist (filter_sublist.map _)

theorem eq_of_id {sub sub' : Subscription S} (h : sub ∈ hub.subscriptions)
    (h' : sub' ∈ hub.subscriptions) (hid : sub.id = sub'.id) : sub = sub' :=
  inj_on_of_nodup_map hub.nodup h h' hid

end Hub

end RhypeDb.Server
