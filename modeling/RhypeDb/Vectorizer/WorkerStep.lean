import RhypeDb.Vectorizer.Claims
import RhypeDb.Vectorizer.Pipeline

/-! One worker step, `process_pending`, in its atomic parts, beside the enqueues and the writes of
the foreground. Every commit of the step may be refused for a later write, or fail. -/

namespace RhypeDb.Vectorizer.WorkerStep

open Engine
open SchemaCatalog (ObjectKey)

variable {schema : VectorSchema} {ν : Type}

inductive Stage (schema : VectorSchema) (ν : Type)
  | idle
  | scanned (began : Nat) (jobs : List (Nat × VectorizeJob schema))
  | grouped (groups : List (List (VectorizeJob schema)))
  | clearing (began : Option Nat) (attempts : List (List Slot)) (retried : Bool)
      (texts : List (VectorizeJob schema × Bytes)) (groups : List (List (VectorizeJob schema)))
  | embedding (texts : List (VectorizeJob schema × Bytes))
      (groups : List (List (VectorizeJob schema)))
  | marking (began : Option Nat) (jobs : List (VectorizeJob schema))
      (groups : List (List (VectorizeJob schema)))
  | storing (began : Option Nat) (pairs : List (VectorizeJob schema × ν))
      (groups : List (List (VectorizeJob schema)))
  | returned (ok : Bool)

/-- What is stored, the live nodes of the index, and the enqueues that have ids and have not
committed. `batch` has the jobs of the step's claim, `dropped` those it found no text for. -/
structure State (schema : VectorSchema) (ν : Type) where
  objects : SortedMap ObjectKey FieldMap
  queue : SortedMap Nat (VectorizeJob schema)
  states : SortedMap Slot VectorState
  vectors : SortedMap Slot ν
  index : SortedMap Slot ν
  written : SnapshotHistory Unit (List (QueueKey Slot))
  nextJobId : Nat
  inflight : List (Nat × List (VectorizeJob schema))
  claimCursor : Nat
  stage : Stage schema ν
  batch : List (VectorizeJob schema)
  dropped : List (VectorizeJob schema)

inductive Embedding (ν : Type)
  | loadFailed
  | embedFailed
  | vectors (embeddings : List ν)

/-- What happens next: the foreground registers an enqueue, one of them commits, an object is
written or deleted; or the step goes on. `fault` is an I/O error of the commit. -/
inductive Action (schema : VectorSchema) (ν : Type)
  | register (jobs : List (VectorizeJob schema))
  | land (i : Nat)
  | write (key : ObjectKey) (row : Option FieldMap)
  | scan
  | read (i : Nat)
  | begin
  | embed (outcome : Embedding ν)
  | commit (fault : Bool)

def entriesFrom (first : Nat) (jobs : List (VectorizeJob schema)) :
    List (Nat × VectorizeJob schema) := (jobs.zipIdx first).map Prod.swap

namespace State

variable (st : State schema ν)

def conflicts (began : Nat) (keys : List (QueueKey Slot)) : Bool :=
  decide (st.written.Conflicts id began keys)

/-- The commit does not go through. -/
def refuses (fault : Bool) (began : Nat) (keys : List (QueueKey Slot)) : Bool :=
  st.conflicts began keys || fault

def enqueued (first : Nat) (jobs : List (VectorizeJob schema)) : State schema ν :=
  { st with
    queue := st.queue.insertAll (entriesFrom first jobs)
    states := st.states.insertAll (jobs.map fun job => (job.slot, .pending))
    written := st.written.commit
      ((entriesFrom first jobs).map (fun e => .entry e.1) ++ jobs.map fun job => .state job.slot) }

def register (jobs : List (VectorizeJob schema)) : State schema ν :=
  { st with
    inflight := st.inflight ++ [(st.nextJobId, jobs)]
    nextJobId := st.nextJobId + jobs.length }

def land (i : Nat) : State schema ν :=
  match st.inflight[i]? with
  | none => st
  | some (first, jobs) => { st.enqueued first jobs with inflight := st.inflight.eraseIdx i }

def write (key : ObjectKey) (row : Option FieldMap) : State schema ν :=
  match row with
  | none => { st with objects := st.objects.erase key }
  | some row => { st with objects := st.objects.insert key row }

def claimBound : Nat := (st.inflight.map Prod.fst).foldl min st.nextJobId

/-- `claim_batch` up to its commit: the cursor is stored first. -/
def scan (batchSize : Nat) : State schema ν :=
  let claimed := claimJobs st.queue st.claimCursor st.claimBound batchSize
  { st with
    claimCursor := claimed.2
    stage := if claimed.1.isEmpty then .returned true else .scanned st.written.version claimed.1
    batch := claimed.1.map Prod.snd
    dropped := [] }

def nextGroup (groups : List (List (VectorizeJob schema))) : Stage schema ν :=
  if groups.isEmpty then .returned true else .grouped groups

/-- A group whose texts are read goes to the embedder, unless it has none. -/
def withTexts (texts : List (VectorizeJob schema × Bytes))
    (groups : List (List (VectorizeJob schema))) : Stage schema ν :=
  if texts.isEmpty then nextGroup groups else .embedding texts groups

def nextMark (jobs : List (VectorizeJob schema)) (groups : List (List (VectorizeJob schema))) :
    Stage schema ν :=
  if jobs.isEmpty then nextGroup groups else .marking none jobs groups

def nextStore (pairs : List (VectorizeJob schema × ν))
    (groups : List (List (VectorizeJob schema))) : Stage schema ν :=
  if pairs.isEmpty then nextGroup groups else .storing none pairs groups

def nextClear (attempts : List (List Slot)) (retried : Bool)
    (texts : List (VectorizeJob schema × Bytes)) (groups : List (List (VectorizeJob schema))) :
    Stage schema ν :=
  if attempts.isEmpty then withTexts texts groups
  else .clearing none attempts retried texts groups

def readGroup (groups : List (List (VectorizeJob schema))) (i : Nat) : State schema ν :=
  match groups[i]? with
  | none => st
  | some group =>
    let textless := group.filter fun job => (sourceText st.objects job).isNone
    let texts :=
      group.filterMap fun job => (sourceText st.objects job).map fun text => (job, text)
    { st with
      stage :=
        nextClear (if textless.isEmpty then [] else [textless.map VectorizeJob.slot]) false texts
          (groups.eraseIdx i)
      dropped := st.dropped ++ textless }

def beginTxn : State schema ν :=
  match st.stage with
  | .clearing none attempts retried texts groups =>
    { st with stage := .clearing (some st.written.version) attempts retried texts groups }
  | .marking none jobs groups =>
    { st with stage := .marking (some st.written.version) jobs groups }
  | .storing none ((job, vector) :: pairs) groups =>
    { st with
      index := st.index.insert job.slot vector
      stage := .storing (some st.written.version) ((job, vector) :: pairs) groups }
  | _ => st

/-- A model that does not load has its jobs enqueued again; the call's own retries are taken to
succeed. Any other failure marks them failed. -/
def embed (texts : List (VectorizeJob schema × Bytes))
    (groups : List (List (VectorizeJob schema))) : Embedding ν → State schema ν
  | .loadFailed =>
    { st.enqueued st.nextJobId (texts.map Prod.fst) with
      nextJobId := st.nextJobId + texts.length
      stage := nextGroup groups }
  | .embedFailed => { st with stage := nextMark (texts.map Prod.fst) groups }
  | .vectors embeddings =>
    if embeddings.length = texts.length then
      { st with stage := nextStore ((texts.map Prod.fst).zip embeddings) groups }
    else { st with stage := nextMark (texts.map Prod.fst) groups }

def commitClaim (fault : Bool) (began : Nat) (jobs : List (Nat × VectorizeJob schema)) :
    State schema ν :=
  let keys := jobs.map fun e => QueueKey.entry e.1
  if st.refuses fault began keys then { st with stage := .returned false }
  else
    { st with
      queue := st.queue.eraseAll (jobs.map Prod.fst)
      written := st.written.commit keys
      stage := nextGroup (Server.groupByModel (jobs.map Prod.snd)) }

/-- `clear_orphaned_states` ends in no error: a conflict of all keys at once is tried again key by
key, any other failure is left to the next open. -/
def commitClear (fault : Bool) (began : Nat) (slots : List Slot) (attempts : List (List Slot))
    (retried : Bool) (texts : List (VectorizeJob schema × Bytes))
    (groups : List (List (VectorizeJob schema))) : State schema ν :=
  let keys := slots.map QueueKey.state
  if st.conflicts began keys then
    { st with
      stage :=
        nextClear (if retried then attempts else slots.map fun slot => [slot]) true texts groups }
  else if fault then { st with stage := nextClear attempts retried texts groups }
  else
    { st with
      states := st.states.eraseAll slots
      written := st.written.commit keys
      stage := nextClear attempts retried texts groups }

def commitMark (fault : Bool) (began : Nat) (job : VectorizeJob schema)
    (jobs : List (VectorizeJob schema)) (groups : List (List (VectorizeJob schema))) :
    State schema ν :=
  if st.refuses fault began [.state job.slot] then { st with stage := .returned false }
  else
    { st with
      states := st.states.insert job.slot .failed
      written := st.written.commit [.state job.slot]
      stage := nextMark jobs groups }

def commitStore (fault : Bool) (began : Nat) (job : VectorizeJob schema) (vector : ν)
    (pairs : List (VectorizeJob schema × ν)) (groups : List (List (VectorizeJob schema))) :
    State schema ν :=
  if st.refuses fault began [.state job.slot] then { st with stage := .returned false }
  else
    { st with
      vectors := st.vectors.insert job.slot vector
      states := st.states.insert job.slot .indexed
      written := st.written.commit [.state job.slot]
      stage := nextStore pairs groups }

def commitTxn (fault : Bool) : State schema ν :=
  match st.stage with
  | .scanned began jobs => st.commitClaim fault began jobs
  | .clearing (some began) (slots :: attempts) retried texts groups =>
    st.commitClear fault began slots attempts retried texts groups
  | .marking (some began) (job :: jobs) groups => st.commitMark fault began job jobs groups
  | .storing (some began) ((job, vector) :: pairs) groups =>
    st.commitStore fault began job vector pairs groups
  | _ => st

def step (batchSize : Nat) (st : State schema ν) : Action schema ν → State schema ν
  | .register jobs => st.register jobs
  | .land i => st.land i
  | .write key row => st.write key row
  | .scan =>
    match st.stage with
    | .idle => st.scan batchSize
    | .returned _ => st.scan batchSize
    | _ => st
  | .read i =>
    match st.stage with
    | .grouped groups => st.readGroup groups i
    | _ => st
  | .begin => st.beginTxn
  | .embed outcome =>
    match st.stage with
    | .embedding texts groups => st.embed texts groups outcome
    | _ => st
  | .commit fault => st.commitTxn fault

def opened (objects : SortedMap ObjectKey FieldMap) (queue : SortedMap Nat (VectorizeJob schema))
    (states : SortedMap Slot VectorState) (vectors index : SortedMap Slot ν) : State schema ν where
  objects := objects
  queue := queue
  states := states
  vectors := vectors
  index := index
  written := ⟨(), []⟩
  nextJobId := (queue.entries.map Prod.fst).max?.getD 0 + 1
  inflight := []
  claimCursor := 0
  stage := .idle
  batch := []
  dropped := []

end State

def Stage.unreached : Stage schema ν → List (VectorizeJob schema)
  | .idle => []
  | .scanned _ jobs => jobs.map Prod.snd
  | .grouped groups => groups.flatten
  | .clearing _ _ _ texts groups => texts.map Prod.fst ++ groups.flatten
  | .embedding texts groups => texts.map Prod.fst ++ groups.flatten
  | .marking _ jobs groups => jobs ++ groups.flatten
  | .storing _ pairs groups => pairs.map Prod.fst ++ groups.flatten
  | .returned _ => []

def Stage.isReturned : Stage schema ν → Bool
  | .returned _ => true
  | _ => false

def State.Settled (st : State schema ν) (job : VectorizeJob schema) : Prop :=
  (∃ id, st.claimCursor ≤ id ∧ st.queue.lookup id = some job) ∨
    st.states.lookup job.slot = some .indexed ∨ st.states.lookup job.slot = some .failed

def State.AllSettled (st : State schema ν) (jobs : List (VectorizeJob schema)) : Prop :=
  ∀ job ∈ jobs, job ∉ st.dropped → (sourceText st.objects job).isSome → st.Settled job

/-- The commit is one of `claim_batch`, `mark_batch_failed` or `store_and_index`, and it fails. -/
def State.fails (st : State schema ν) : Action schema ν → Bool
  | .commit fault =>
    match st.stage with
    | .scanned began jobs => st.refuses fault began (jobs.map fun e => .entry e.1)
    | .marking (some began) (job :: _) _ => st.refuses fault began [.state job.slot]
    | .storing (some began) ((job, _) :: _) _ => st.refuses fault began [.state job.slot]
    | _ => false
  | _ => false

end RhypeDb.Vectorizer.WorkerStep
