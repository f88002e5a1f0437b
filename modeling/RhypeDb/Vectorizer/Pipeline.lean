import RhypeDb.Basic.Run
import RhypeDb.Vectorizer.Queue

/-! From a query's commits to the embeddings of what they wrote: the server enqueues jobs after the
commit, workers claim, embed and store, and an open looks for jobs that a stop has lost. -/

namespace RhypeDb.Vectorizer

open Engine
open SchemaCatalog (ObjectKey)

inductive VectorState
  | pending
  | indexed
  | failed
  deriving DecidableEq, Repr

inductive Output
  | objects
  | single (key : ObjectKey)
  | done
  | error
  deriving DecidableEq, Repr

inductive Mutation
  | create (key : ObjectKey) (row : FieldMap)
  | createBatch (rows : List (ObjectKey × FieldMap))
  | update (keys : List ObjectKey) (changes : FieldMap)
  | delete (rows : List (List ObjectKey))
  deriving DecidableEq

structure EnqueueTxn where
  firstId : Nat
  began : Nat
  attempt : Nat
  deriving DecidableEq, Repr

/-- A request at the server. `returned` is what the read rule and the governor will say of a
single object that it answers with. -/
inductive Request (schema : VectorSchema)
  | executing (mutation : Mutation) (updated : List ObjectKey) (returned : Bool)
  | replying (output : Output)
  | enqueuing (jobs : List (VectorizeJob schema)) (txn : Option EnqueueTxn)

/-- A worker at its batch: the model groups it has not read, the transactions that are to clear
states, the jobs that it has the text of, and when its open transaction began. -/
structure Worker (schema : VectorSchema) where
  groups : List (List (VectorizeJob schema))
  clearing : List (List Slot)
  retried : Bool
  texts : List (VectorizeJob schema × Bytes)
  began : Option Nat

inductive Phase
  | clearing
  | requeuing
  | running
  deriving DecidableEq, Repr

structure Server (schema : VectorSchema) (ν : Type) where
  objects : SortedMap ObjectKey FieldMap
  queue : SortedMap Nat (VectorizeJob schema)
  states : SortedMap Slot VectorState
  vectors : SortedMap Slot ν
  clock : Nat
  writtenAt : SortedMap Slot Nat
  phase : Phase
  nextJobId : Nat
  claimCursor : Nat
  inflight : List Nat
  requests : SortedMap Nat (Request schema)
  workers : SortedMap Nat (Worker schema)

def Server.empty (schema : VectorSchema) (ν : Type) : Server schema ν where
  objects := .empty
  queue := .empty
  states := .empty
  vectors := .empty
  clock := 0
  writtenAt := .empty
  phase := .running
  nextJobId := 1
  claimCursor := 0
  inflight := []
  requests := .empty
  workers := .empty

section

variable {schema : VectorSchema}

def textOf : Value → Option Bytes
  | .string s => some s
  | _ => none

def rowText (row : FieldMap) (job : VectorizeJob schema) : Option Bytes :=
  (row.lookup job.field.1.sourceField).bind textOf

def sourceText (objects : SortedMap ObjectKey FieldMap) (job : VectorizeJob schema) : Option Bytes :=
  (objects.lookup job.object).bind fun row => rowText row job

end

namespace Server

variable {schema : VectorSchema} {ν : Type} (st : Server schema ν)

def conflicts (began : Nat) (slots : List Slot) : Bool :=
  slots.any fun slot => (st.writtenAt.lookup slot).any fun time => decide (began < time)

def touch (slots : List Slot) : Server schema ν :=
  { st with
    clock := st.clock + 1
    writtenAt := st.writtenAt.insertAll (slots.map fun slot => (slot, st.clock + 1)) }

def setRequest (r : Nat) (request : Request schema) : Server schema ν :=
  { st with requests := st.requests.insert r request }

def endRequest (r : Nat) : Server schema ν := { st with requests := st.requests.erase r }

def singleOutput (key : ObjectKey) (returned : Bool) : Output :=
  if returned then .single key else .done

def updateOutput (updated : List ObjectKey) (returned : Bool) : Output :=
  match updated with
  | [key] => singleOutput key returned
  | _ => .objects

def nextUpdate (keys : List ObjectKey) (changes : FieldMap) (updated : List ObjectKey)
    (returned : Bool) : Request schema :=
  if keys = [] then .replying (updateOutput updated returned)
  else .executing (.update keys changes) updated returned

def updateRow (r : Nat) (key : ObjectKey) (keys : List ObjectKey) (changes : FieldMap)
    (updated : List ObjectKey) (returned : Bool) : Server schema ν :=
  match st.objects.lookup key with
  | none => st.setRequest r (.replying .error)
  | some row =>
    { st.setRequest r (nextUpdate keys changes (updated ++ [key]) returned) with
      objects := st.objects.insert key (row.merge changes) }

def commitRow (r : Nat) (mutation : Mutation) (updated : List ObjectKey) (returned : Bool) :
    Server schema ν :=
  match mutation with
  | .create key row =>
    { st.setRequest r (.replying (singleOutput key returned)) with
      objects := st.objects.insert key row }
  | .createBatch rows =>
    { st.setRequest r (.replying .objects) with
      objects := st.objects.insertAll rows }
  | .update [] _ => st.setRequest r (.replying (updateOutput updated returned))
  | .update (key :: keys) changes => st.updateRow r key keys changes updated returned
  | .delete [] => st.setRequest r (.replying .done)
  | .delete (row :: rows) =>
    { st.setRequest r (.executing (.delete rows) updated returned) with
      objects := st.objects.eraseAll row }

/-- `write_query_result`: only a single object has its jobs enqueued. -/
def reply (r : Nat) (output : Output) : Server schema ν :=
  match output with
  | .single key => st.setRequest r (.enqueuing (jobsOf schema key) none)
  | _ => st.endRequest r

/-- `enqueue_many` takes its job id, which holds claims back until it is done. -/
def enqueueBegin (r : Nat) (jobs : List (VectorizeJob schema)) : Server schema ν :=
  { st.setRequest r (.enqueuing jobs (some ⟨st.nextJobId, st.clock, 0⟩)) with
    nextJobId := st.nextJobId + 1
    inflight := st.nextJobId :: st.inflight }

def maxConflictRetries : Nat := 8

def enqueued (id : Nat) (job : VectorizeJob schema) : Server schema ν :=
  { st.touch [job.slot] with
    queue := st.queue.insert id job
    states := st.states.insert job.slot .pending }

def enqueueCommit (r : Nat) (job : VectorizeJob schema) (jobs : List (VectorizeJob schema))
    (txn : EnqueueTxn) : Server schema ν :=
  if st.conflicts txn.began [job.slot] then
    if txn.attempt < maxConflictRetries then
      st.setRequest r (.enqueuing (job :: jobs) (some ⟨txn.firstId, st.clock, txn.attempt + 1⟩))
    else { st.setRequest r (.enqueuing jobs none) with inflight := st.inflight.erase txn.firstId }
  else
    { (st.enqueued txn.firstId job).setRequest r (.enqueuing jobs none) with
      inflight := st.inflight.erase txn.firstId }

def stepRequest (r : Nat) : Request schema → Server schema ν
  | .executing mutation updated returned => st.commitRow r mutation updated returned
  | .replying output => st.reply r output
  | .enqueuing [] _ => st.endRequest r
  | .enqueuing (job :: jobs) none => st.enqueueBegin r (job :: jobs)
  | .enqueuing (job :: jobs) (some txn) => st.enqueueCommit r job jobs txn

/-- Execution may fail at any point: a rule, the governor, a conflict, a missing row. -/
def failRequest (r : Nat) : Request schema → Server schema ν
  | .executing _ _ _ => st.setRequest r (.replying .error)
  | _ => st

def setWorker (w : Nat) (worker : Worker schema) : Server schema ν :=
  { st with
    workers :=
      if worker.groups = [] ∧ worker.clearing = [] ∧ worker.texts = [] then st.workers.erase w
      else st.workers.insert w worker }

def claimBound : Nat := st.inflight.foldl min st.nextJobId

def groupByModel (jobs : List (VectorizeJob schema)) : List (List (VectorizeJob schema)) :=
  (jobs.map fun job => job.field.1.model).dedup.map fun model =>
    jobs.filter fun job => decide (job.field.1.model = model)

/-- `claim_batch`: the entries leave the queue with the claim. -/
def claim (batchSize : Nat) (w : Nat) : Server schema ν :=
  let claimed := claimJobs st.queue st.claimCursor st.claimBound batchSize
  { st.setWorker w ⟨groupByModel (claimed.1.map Prod.snd), [], false, [], none⟩ with
    queue := st.queue.eraseAll (claimed.1.map Prod.fst)
    claimCursor := claimed.2 }

/-- The texts of a model group, from one snapshot; jobs without a text are dropped, and their
states are to be cleared. -/
def readTexts (w : Nat) (worker : Worker schema) (i : Nat) : Server schema ν :=
  match worker.groups[i]? with
  | none => st
  | some group =>
    let textless := group.filter fun job => (sourceText st.objects job).isNone
    st.setWorker w
      { worker with
        groups := worker.groups.eraseIdx i
        clearing := if textless = [] then [] else [textless.map VectorizeJob.slot]
        retried := false
        texts := group.filterMap fun job => (sourceText st.objects job).map fun text => (job, text) }

/-- `clear_orphaned_states`: all keys at once, and on a conflict each on its own. -/
def clearCommit (w : Nat) (worker : Worker schema) (keys : List Slot) (rest : List (List Slot))
    (began : Nat) : Server schema ν :=
  if st.conflicts began keys then
    st.setWorker w
      { worker with
        clearing := if worker.retried then rest else keys.map fun key => [key]
        retried := true
        began := none }
  else
    { (st.touch keys).setWorker w { worker with clearing := rest, began := none } with
      states := st.states.eraseAll keys }

/-- `store_and_index`. A conflict ends the whole batch. -/
def storeCommit (embed : String → Bytes → ν) (w : Nat) (worker : Worker schema)
    (job : VectorizeJob schema) (text : Bytes) (rest : List (VectorizeJob schema × Bytes))
    (began : Nat) : Server schema ν :=
  if st.conflicts began [job.slot] then { st with workers := st.workers.erase w }
  else
    { (st.touch [job.slot]).setWorker w { worker with texts := rest, began := none } with
      vectors := st.vectors.insert job.slot (embed job.field.1.model text)
      states := st.states.insert job.slot .indexed }

/-- The next thing that a worker does; `i` is the group that it takes up next. -/
def stepWorker (embed : String → Bytes → ν) (w i : Nat) (worker : Worker schema) :
    Server schema ν :=
  match worker.clearing, worker.texts, worker.began with
  | _ :: _, _, none => st.setWorker w { worker with began := some st.clock }
  | keys :: rest, _, some began => st.clearCommit w worker keys rest began
  | [], _ :: _, none => st.setWorker w { worker with began := some st.clock }
  | [], (job, text) :: rest, some began => st.storeCommit embed w worker job text rest began
  | [], [], _ => st.readTexts w worker i

def stop : Server schema ν :=
  { st with
    phase := .clearing
    claimCursor := 0
    inflight := []
    requests := .empty
    workers := .empty }

/-- Slots marked pending whose field is a `@vectorize` field, with no entry in the queue. -/
def orphans : List (VectorizeJob schema) :=
  st.states.entries.filterMap fun e =>
    if e.2 = .pending then
      (jobAt schema e.1).bind fun job =>
        if job ∈ st.queue.entries.map Prod.snd then none else some job
    else none

/-- `reconcile_pending_jobs`, its first transaction: orphans without a text are cleared. -/
def clearStale : Server schema ν :=
  { st with
    phase := .requeuing
    states := st.states.eraseAll ((st.orphans.filter fun job =>
      (sourceText st.objects job).isNone).map VectorizeJob.slot) }

def recoveredJobId : Nat := (st.queue.entries.map Prod.fst).max?.getD 0 + 1

def requeue : Server schema ν :=
  let jobs := st.orphans.filter fun job => (sourceText st.objects job).isSome
  { st with
    phase := .running
    nextJobId := st.recoveredJobId + jobs.length
    queue := st.queue.insertAll ((jobs.zipIdx st.recoveredJobId).map Prod.swap)
    states := st.states.insertAll (jobs.map fun job => (job.slot, .pending)) }

end Server

/-- What may happen next: a query arrives, a request or a worker takes its next step, or fails, a
worker claims, the process stops, or its reopening goes on. -/
inductive Step
  | arrive (r : Nat) (mutation : Mutation) (returned : Bool)
  | request (r : Nat)
  | fail (r : Nat)
  | claim (w : Nat)
  | worker (w i : Nat)
  | stop
  | reopen

variable {schema : VectorSchema} {ν : Type}

def step (embed : String → Bytes → ν) (batchSize : Nat) (st : Server schema ν) :
    Step → Server schema ν
  | .arrive r mutation returned =>
    if st.phase = .running ∧ (st.requests.lookup r).isNone then
      st.setRequest r (.executing mutation [] returned)
    else st
  | .request r =>
    match st.requests.lookup r with
    | some request => st.stepRequest r request
    | none => st
  | .fail r =>
    match st.requests.lookup r with
    | some request => st.failRequest r request
    | none => st
  | .claim w =>
    if st.phase = .running ∧ (st.workers.lookup w).isNone then st.claim batchSize w else st
  | .worker w i =>
    match st.workers.lookup w with
    | some worker => st.stepWorker embed w i worker
    | none => st
  | .stop => st.stop
  | .reopen =>
    match st.phase with
    | .clearing => st.clearStale
    | .requeuing => st.requeue
    | .running => st

end RhypeDb.Vectorizer
