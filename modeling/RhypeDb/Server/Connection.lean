import RhypeDb.Authz.Token
import RhypeDb.Basic.Scan
import RhypeDb.Server.Hub
import RhypeDb.Wire.Frame

/-! One binary connection of `rhypedb-server`: the channel that its sinks feed, the arms of its
select loop, and the frames it serves. Publishers run beside the loop and hold the hub's read lock
from the first subscription to the last, so a frame that changes the hub waits for them. -/

namespace RhypeDb.Server

open Authz
open Engine (Id)
open Fallible
open Scan (isWhitespace)
open Wire (maxFramePayload)

def eventChannelCap : Nat := 256

def maxSubscriptionsPerConn : Nat := 64

def maxSubscriptionsTotal : Nat := 512

def maxPreparedPerConn : Nat := 1024

def maxPreparedBytes : Nat := 1024 * 1024

def trim (s : String) : String :=
  String.ofList ((s.toList.dropWhile isWhitespace).reverse.dropWhile isWhitespace).reverse

/-- A change event on the channel. The last two fields are not sent: the subscription whose sink
put it there, and the publish it comes from. -/
structure ServerPush (F : Type) where
  reqId : UInt32
  event : ChangeEvent F
  sub : Nat
  serial : Nat

/-- `ConnEventSink` with its handle, or a sink of anyone else. -/
inductive Sink
  | conn (reqId : UInt32)
  | other
  deriving DecidableEq, Repr

/-- Where a publisher is in `deliver`: about to send, the buffer found full, the lag flagged. -/
inductive Stage
  | sending
  | flagging (sub : Nat)
  | notifying (sub : Nat)
  deriving DecidableEq, Repr

/-- A `publish` under way: the subscriptions it has still to reach. -/
structure Publisher (F : Type) where
  event : ChangeEvent F
  serial : Nat
  rest : List (Subscription Sink)
  stage : Stage

inductive Response (F : Type)
  | pong
  | done
  | error (msg : String)
  | prepared (id : Nat)
  | result
  | subscribed
  | event (event : ChangeEvent F)
  | subLagged

inductive Frame
  | ping
  | auth (payload : Option String)
  | query (payload : Except String String)
  | prepare (payload : Except String String)
  | execute (payload : Except String Nat)
  | vectorBatch (ingested : Except String Unit)
  | subscribe (payload : Except String SubscriptionFilter)
  | unsubscribe (payload : Except String UInt32)
  | unknown (kind : String)

/-- The frames that a subscription connection refuses. -/
def Frame.isRequest : Frame → Bool
  | .query _ => true
  | .prepare _ => true
  | .execute _ => true
  | .vectorBatch _ => true
  | _ => false

inductive Task (F Q : Type)
  | idle
  | received (push : ServerPush F)
  | flushing (handles : List UInt32)
  | running (reqId : UInt32) (query : Q) (principal : Principal F)
  | closed

inductive Entry (F : Type)
  | subscribed (handle : UInt32) (filter : SubscriptionFilter)
  | published (serial : Nat) (event : ChangeEvent F)
  | offered (serial : Nat)
  | dropped (serial : Nat)
  | refused (serial : Nat)
  | event (serial : Nat) (event : ChangeEvent F)
  | subLagged

/-- A query that executed or an event that was pushed: as whom, on which token, and when. -/
structure Use (F : Type) where
  principal : Principal F
  bearer : Option String
  now : Nat

/-- The part of `AppState` that a connection consults. -/
structure AppState (F Q : Type) where
  rules : Option (RulesProgram F)
  principalSource : Option JwtSource
  crypto : Jose.Crypto F
  parse : String → Except String Q
  payloadLen : ChangeEvent F → Nat

structure Conn (F Q : Type) where
  hub : Hub Sink
  publishers : List (Publisher F)
  buffer : List (ServerPush F)
  lagged : Nat → Bool
  permit : Bool
  eventsDropped : Nat
  networkSubs : Nat
  subs : AList fun _ : UInt32 => Nat
  subscriptionMode : Bool
  prepared : List (Nat × Q)
  preparedBytes : Nat
  nextStmtId : Nat
  principal : Principal F
  task : Task F Q
  now : Nat
  written : List (UInt32 × Response F)
  /-- The token of the last auth frame. -/
  bearer : Option String
  nextSerial : Nat
  history : Nat → List (Entry F)
  uses : List (Use F)

section

variable {F Q : Type} [JsonNumber F] (server : AppState F Q)

/-- `AppState::principal`, at a time of the clock. -/
def AppState.principal (bearer : Option String) (now : Nat) : Principal F :=
  server.principalSource.elim .anonymous fun source =>
    source.principalAt server.crypto bearer now

def jsonSnapshot (fields : Option (List (String × Json F))) : ResourceAccessor F :=
  { resourceScalar := fun field => fields.bind fun fs => Json.get field (.object fs)
    resourceRelationOne := fun _ _ => none
    resourceRelationMany := fun _ _ => none
    requestField := fun _ => none }

def eventReadAllowed (rules : RulesProgram F) (principal : Principal F) (event : ChangeEvent F) :
    Bool :=
  rules.evaluate .read event.typeName principal (jsonSnapshot event.fields) = .allow

/-- The event arm's read check, where rules are on. -/
def AppState.permits (principal : Principal F) (event : ChangeEvent F) : Bool :=
  server.rules.all fun rules => eventReadAllowed rules principal event

def AppState.subscribeAllowed (principal : Principal F) (filter : SubscriptionFilter) : Bool :=
  server.rules.all fun rules =>
    filter.typeName.any fun t => rules.evaluate .subscribe t principal emptyResource = .allow

/-- The connection as `handle_connection_stream` starts it: no sink of the hub is its own. -/
def Conn.start (hub : Hub Sink) (networkSubs now : Nat) : Conn F Q :=
  { networkSubs, now
    hub := hub.retain fun sub => sub.sink = .other
    publishers := []
    buffer := []
    lagged := fun _ => false
    permit := false
    eventsDropped := 0
    subs := ∅
    subscriptionMode := false
    prepared := []
    preparedBytes := 0
    nextStmtId := 1
    principal := .anonymous
    task := .idle
    written := []
    bearer := none
    nextSerial := 0
    history := fun _ => []
    uses := [] }

namespace Conn

variable (c : Conn F Q)

def write (handle : UInt32) (response : Response F) : Conn F Q :=
  { c with written := c.written ++ [(handle, response)] }

def note (sub : Nat) (entries : List (Entry F)) : Conn F Q :=
  { c with history := Function.update c.history sub (c.history sub ++ entries) }

/-- `write_sublagged`, for the subscription that has the handle. -/
def writeSublagged (handle : UInt32) (sub : Nat) : Conn F Q :=
  (c.write handle .subLagged).note sub [.subLagged]

/-- `lagged.swap(false)`, with the notice where it was set. -/
def swapLagged (handle : UInt32) (sub : Nat) : Conn F Q :=
  if c.lagged sub then
    { c with lagged := Function.update c.lagged sub false }.writeSublagged handle sub
  else c

def used (principal : Principal F) : Conn F Q :=
  { c with uses := c.uses ++ [{ principal, bearer := c.bearer, now := c.now }] }

def writeEventPush (sub : Nat) (push : ServerPush F) : Conn F Q :=
  if maxFramePayload < server.payloadLen push.event then
    ({ c with eventsDropped := c.eventsDropped + 1 }.note sub [.dropped push.serial]).writeSublagged
      push.reqId sub
  else
    ((c.write push.reqId (.event push.event)).note sub [.event push.serial push.event]).used
      c.principal

/-- The event arm, once it has an event. -/
def pushArm (push : ServerPush F) : Conn F Q :=
  match c.subs.lookup push.reqId with
  | none => c
  | some sub =>
    if server.permits c.principal push.event then
      (c.swapLagged push.reqId sub).writeEventPush server sub push
    else (c.swapLagged push.reqId sub).note sub [.refused push.serial]

/-- The event arm will push this event. -/
def pushes (push : ServerPush F) : Bool :=
  (c.subs.lookup push.reqId).isSome && server.permits c.principal push.event &&
    !decide (maxFramePayload < server.payloadLen push.event)

def flushOne (handle : UInt32) : Conn F Q :=
  match c.subs.lookup handle with
  | none => c
  | some sub => c.swapLagged handle sub

def published (event : ChangeEvent F) : Nat → List (Entry F) := fun sub =>
  if (c.hub.matching event).any (fun s => s.id = sub ∧ s.sink ≠ .other) then
    c.history sub ++ [.published c.nextSerial event]
  else c.history sub

/-- `publish` takes the read lock. -/
def publish (event : ChangeEvent F) : Conn F Q :=
  { c with
    publishers := c.publishers ++
      [{ event, serial := c.nextSerial, rest := c.hub.matching event, stage := .sending }]
    nextSerial := c.nextSerial + 1
    history := c.published event }

/-- `try_send` into the channel, for the sink of a subscription. The receiver outlives the
connection's subscriptions, so a publisher does not find it closed. -/
def trySend (p : Publisher F) (sub : Subscription Sink) (rest : List (Subscription Sink)) :
    Conn F Q × Publisher F :=
  match sub.sink with
  | .other => (c, { p with rest })
  | .conn reqId =>
    if c.buffer.length < eventChannelCap then
      ({ c.note sub.id [.offered p.serial] with
          buffer := c.buffer ++ [{ reqId, event := p.event, sub := sub.id, serial := p.serial }] },
        { p with rest })
    else
      (c.note sub.id [.offered p.serial, .dropped p.serial],
        { p with rest, stage := .flagging sub.id })

def advance (p : Publisher F) : Conn F Q × Option (Publisher F) :=
  match p.stage with
  | .sending =>
    match p.rest with
    | [] => (c, none)
    | sub :: rest => ((c.trySend p sub rest).1, some (c.trySend p sub rest).2)
  | .flagging sub =>
    ({ c with
        lagged := Function.update c.lagged sub true
        eventsDropped := c.eventsDropped + 1 },
      some { p with stage := .notifying sub })
  | .notifying _ => ({ c with permit := true }, some { p with stage := .sending })

def deliver (i : Nat) : Conn F Q :=
  match c.publishers[i]? with
  | none => c
  | some p =>
    { (c.advance p).1 with
      publishers := c.publishers.take i ++ (c.advance p).2.toList ++ c.publishers.drop (i + 1) }

def auth (reqId : UInt32) (payload : Option String) : Conn F Q :=
  let token := (payload.map trim).filter fun t => t ≠ ""
  let principal := server.principal token c.now
  { c with principal, bearer := token }.write reqId
    (if principal.authenticated then .done else .error "authentication failed")

def run (reqId : UInt32) (query : Except String Q) : Conn F Q :=
  match query with
  | .ok query => { c with task := .running reqId query c.principal }
  | .error msg => c.write reqId (.error msg)

def parseQuery (payload : Except String String) : Except String Q := do
  let text ← payload.mapError ("decode: " ++ ·)
  (server.parse text).mapError ("parse error: " ++ ·)

def statement (payload : Except String Nat) : Except String Q := do
  let stmtId ← payload.mapError ("decode: " ++ ·)
  (c.prepared.lookup stmtId).elim
    (.error s!"unknown statement id {stmtId} — prepare it on this connection first") .ok

def prepareQuery (payload : Except String String) : Except String (String × Q) := do
  let text ← payload.mapError ("decode: " ++ ·)
  require (c.prepared.length < maxPreparedPerConn)
    s!"too many prepared statements on this connection (max {maxPreparedPerConn})"
  require (c.preparedBytes + text.utf8ByteSize ≤ maxPreparedBytes)
    s!"prepared-statement memory limit reached on this connection (max {maxPreparedBytes} bytes)"
  let query ← (server.parse text).mapError ("parse error: " ++ ·)
  pure (text, query)

def prepare (reqId : UInt32) (payload : Except String String) : Conn F Q :=
  match c.prepareQuery server payload with
  | .error msg => c.write reqId (.error msg)
  | .ok (text, query) =>
    { c with
      prepared := (c.nextStmtId, query) :: c.prepared
      preparedBytes := c.preparedBytes + text.utf8ByteSize
      nextStmtId := c.nextStmtId + 1 }.write reqId (.prepared c.nextStmtId)

def vectorBatch (reqId : UInt32) (ingested : Except String Unit) : Conn F Q :=
  if server.rules.isSome then
    c.write reqId (.error ("vector batch ingest is not permitted while security rules are active " ++
      "(use the trusted-backend path)"))
  else
    match ingested with
    | .ok () => c.write reqId .done
    | .error msg => c.write reqId (.error msg)

def subscribeFilter (handle : UInt32) (payload : Except String SubscriptionFilter) :
    Except String SubscriptionFilter := do
  let filter ← payload.mapError ("decode: " ++ ·)
  require (server.subscribeAllowed c.principal filter) "subscribe denied by security rules"
  require (c.subs.keys.length < maxSubscriptionsPerConn)
    s!"too many subscriptions on this connection (max {maxSubscriptionsPerConn})"
  require (handle ∉ c.subs) s!"subscription handle {handle} already in use on this connection"
  require (c.networkSubs < maxSubscriptionsTotal)
    s!"server subscription limit reached (max {maxSubscriptionsTotal})"
  pure filter

def register (handle : UInt32) (filter : SubscriptionFilter) : Conn F Q :=
  ({ c with
    hub := c.hub.subscribeSink filter (.conn handle)
    networkSubs := c.networkSubs + 1
    lagged := Function.update c.lagged c.hub.nextId false
    subs := c.subs.insert handle c.hub.nextId
    subscriptionMode := true }.note c.hub.nextId [.subscribed handle filter]).write handle .subscribed

def subscribe (handle : UInt32) (payload : Except String SubscriptionFilter) : Conn F Q :=
  match c.subscribeFilter server handle payload with
  | .error msg => c.write handle (.error msg)
  -- `subscribe_sink` takes the hub's write lock.
  | .ok filter => if c.publishers.isEmpty then c.register handle filter else c

/-- `ConnSubscriptions::remove`, of a handle that is in use. -/
def remove (handle : UInt32) (sub : Nat) : Conn F Q :=
  { c with
    hub := c.hub.unsubscribe sub
    networkSubs := c.networkSubs - 1
    subs := c.subs.erase handle }

def unsubscribe (reqId : UInt32) (payload : Except String UInt32) : Conn F Q :=
  match payload with
  | .error e => c.write reqId (.error ("decode: " ++ e))
  | .ok target =>
    match c.subs.lookup target with
    | none => c.write reqId (.error s!"no active subscription with handle {target}")
    -- `SubscriptionHub::unsubscribe` takes the hub's write lock.
    | some sub => if c.publishers.isEmpty then (c.remove target sub).write reqId .done else c

def subscriptionModeError : String :=
  "this connection has active subscriptions; open a separate connection for queries"

def serve (reqId : UInt32) : Frame → Conn F Q
  | .ping => c.write reqId .pong
  | .auth payload => c.auth server reqId payload
  | .query payload => c.run reqId (parseQuery server payload)
  | .prepare payload => c.prepare server reqId payload
  | .execute payload => c.run reqId (c.statement payload)
  | .vectorBatch ingested => c.vectorBatch server reqId ingested
  | .subscribe payload => c.subscribe server reqId payload
  | .unsubscribe payload => c.unsubscribe reqId payload
  | .unknown kind => c.write reqId (.error s!"unknown request type 0x{kind}")

def frameArm (reqId : UInt32) (frame : Frame) : Conn F Q :=
  if c.subscriptionMode ∧ frame.isRequest then c.write reqId (.error subscriptionModeError)
  else c.serve server reqId frame

/-- The shutdown arm's notices, and the drop of `ConnSubscriptions`. -/
def noticeAll : Conn F Q := c.subs.entries.foldl (fun c e => c.writeSublagged e.1 e.2) c

def drop : Conn F Q :=
  { c with
    hub := c.hub.retain fun sub => sub.sink = .other
    networkSubs := c.networkSubs - c.subs.keys.length
    subs := ∅
    task := .closed }

end Conn

/-- What can happen next: the clock, the rest of the server, the publishers, the loop's arms and
their continuations. -/
inductive Action (F : Type)
  | clock (now : Nat)
  | networkSubs (n : Nat)
  | subscribeOther (filter : SubscriptionFilter)
  | unsubscribeOther (id : Nat)
  | publish (event : ChangeEvent F)
  | deliver (i : Nat)
  | recv
  | push
  | wake (order : List UInt32)
  | flush
  | frame (reqId : UInt32) (frame : Frame)
  | execute
  | shutdown
  | close

def Conn.step (c : Conn F Q) : Action F → Conn F Q
  | .clock now => { c with now }
  | .networkSubs n => { c with networkSubs := n }
  | .subscribeOther filter =>
    if c.publishers.isEmpty then { c with hub := c.hub.subscribeSink filter .other } else c
  | .unsubscribeOther id =>
    if c.publishers.isEmpty then
      { c with hub := c.hub.retain fun sub => sub.id ≠ id ∨ sub.sink ≠ .other }
    else c
  | .publish event => c.publish event
  | .deliver i => c.deliver i
  | .recv =>
    match c.task, c.buffer with
    | .idle, push :: rest => { c with task := .received push, buffer := rest }
    | _, _ => c
  | .push =>
    match c.task with
    | .received push => { c with task := .idle }.pushArm server push
    | _ => c
  | .wake order =>
    match c.task with
    | .idle =>
      if c.permit ∧ order.Perm c.subs.keys then { c with permit := false, task := .flushing order }
      else c
    | _ => c
  | .flush =>
    match c.task with
    | .flushing [] => { c with task := .idle }
    | .flushing (handle :: handles) => { c with task := .flushing handles }.flushOne handle
    | _ => c
  | .frame reqId frame =>
    match c.task with
    | .idle => c.frameArm server reqId frame
    | _ => c
  | .execute =>
    match c.task with
    | .running reqId _ principal => ({ c with task := .idle }.used principal).write reqId .result
    | _ => c
  -- The drop of `ConnSubscriptions` takes the hub's write lock.
  | .shutdown =>
    match c.task with
    | .idle => if c.publishers.isEmpty then c.noticeAll.drop else c
    | _ => c
  | .close => if c.publishers.isEmpty then c.drop else c

end

end RhypeDb.Server
