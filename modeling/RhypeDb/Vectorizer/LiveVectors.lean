import RhypeDb.Basic.SnapshotHistory
import RhypeDb.Vectorizer.Pipeline
import RhypeDb.Vectorizer.VectorIndex

/-! The live indexes against the `v:` rows, under calls that insert into an index before the
transaction that may be refused. Index and rows part where a call's commit is late, or fails. -/

namespace RhypeDb.Vectorizer.LiveVectors

open Engine Run

variable {κ φ γ : Type}

section

/-- Where a `store_and_index` or an `ingest_vectors` is: rows that it has not inserted, its open
transaction, or its answer. -/
inductive Stage (φ : Type)
  | inserting (pending : List (Id × List φ))
  | begun (snapshot : Nat)
  | returned (ok : Bool)

/-- A call; `store_and_index` is one of a single row. -/
structure VectorWrite (κ φ : Type) where
  field : κ
  rows : List (Id × List φ)
  stage : Stage φ

/-- The indexes of the fields, the `v:` and the `s:` rows, the keys that were committed, and the
calls. `owner` is the call whose node of an id is the live one, where a call has inserted it. -/
structure Store (κ φ γ : Type) where
  indexes : κ → QuantizedIndex φ γ
  vectors : κ × Id → Option (List φ)
  states : κ × Id → Option VectorState
  written : SnapshotHistory Unit (List (κ × Id))
  calls : List (VectorWrite κ φ)
  owner : κ × Id → Option Nat

/-- A call starts, inserts one of its rows (an `insert_parallel` in any order), begins its
transaction, or commits, where `fault` is an I/O error; or the states of an `enqueue_many` are
committed. -/
inductive Action (κ φ : Type)
  | start (field : κ) (rows : List (Id × List φ))
  | insert (c i : Nat)
  | begin (c : Nat)
  | commit (c : Nat) (fault : Bool)
  | enqueue (slots : List (κ × Id))

def VectorWrite.slots (call : VectorWrite κ φ) : List (κ × Id) :=
  call.rows.map fun row => (call.field, row.1)

def setStage (st : Store κ φ γ) (c : Nat) (call : VectorWrite κ φ) (stage : Stage φ) :
    Store κ φ γ :=
  { st with calls := st.calls.set c { call with stage } }

variable [DecidableEq κ]

def VectorWrite.put (call : VectorWrite κ φ) (vectors : κ × Id → Option (List φ)) :
    κ × Id → Option (List φ) :=
  call.rows.foldl (fun vectors row => Function.update vectors (call.field, row.1) (some row.2))
    vectors

def assert (states : κ × Id → Option VectorState) (slots : List (κ × Id)) (state : VectorState) :
    κ × Id → Option VectorState :=
  slots.foldl (fun states slot => Function.update states slot (some state)) states

/-- An insertion claims the id. A vector of another length panics, and ends the call. -/
def insertRow (num : Compression φ γ) (st : Store κ φ γ) (c : Nat) (call : VectorWrite κ φ)
    (pending : List (Id × List φ)) (i : Nat) : Store κ φ γ :=
  match pending[i]? with
  | none => st
  | some (id, vector) =>
    match (st.indexes call.field).insert num id vector with
    | none => setStage st c call (.returned false)
    | some ix =>
      { setStage st c call (.inserting (pending.eraseIdx i)) with
        indexes := Function.update st.indexes call.field ix
        owner := Function.update st.owner (call.field, id) (some c) }

/-- A commit is refused if another one has written a state of its own since, and may fail. -/
def refuses (st : Store κ φ γ) (call : VectorWrite κ φ) (snapshot : Nat) (fault : Bool) : Bool :=
  decide (st.written.Conflicts id snapshot call.slots) || fault

def commitCall (st : Store κ φ γ) (c : Nat) (call : VectorWrite κ φ) (snapshot : Nat)
    (fault : Bool) : Store κ φ γ :=
  if refuses st call snapshot fault then setStage st c call (.returned false)
  else
    { setStage st c call (.returned true) with
      vectors := call.put st.vectors
      states := assert st.states call.slots .indexed
      written := st.written.commit call.slots }

def step (num : Compression φ γ) (st : Store κ φ γ) : Action κ φ → Store κ φ γ
  | .start field rows =>
    { st with
      calls := st.calls ++
        [⟨field, rows, if rows.isEmpty then .returned true else .inserting rows⟩] }
  | .insert c i =>
    match st.calls[c]? with
    | none => st
    | some call =>
      match call.stage with
      | .inserting pending => insertRow num st c call pending i
      | _ => st
  | .begin c =>
    match st.calls[c]? with
    | none => st
    | some call =>
      match call.stage with
      | .inserting [] => setStage st c call (.begun st.written.version)
      | _ => st
  | .commit c fault =>
    match st.calls[c]? with
    | none => st
    | some call =>
      match call.stage with
      | .begun snapshot => commitCall st c call snapshot fault
      | _ => st
  | .enqueue slots =>
    { st with
      states := assert st.states slots .pending
      written := st.written.commit slots }

end

def Stage.isReturned : Stage φ → Bool
  | .returned _ => true
  | _ => false

def AgreesAt (num : Compression φ γ) (indexes : κ → QuantizedIndex φ γ)
    (vectors : κ × Id → Option (List φ)) (slot : κ × Id) : Prop :=
  liveCodes (indexes slot.1).nodes slot.2 =
    (vectors slot).toList.map (num.compress (indexes slot.1).quantizer)

def Store.InFlight (st : Store κ φ γ) (c : Nat) : Prop :=
  ∃ call, st.calls[c]? = some call ∧ call.stage.isReturned = false

def Store.Settled (num : Compression φ γ) (st : Store κ φ γ) : Prop :=
  ∀ slot, (∃ c, st.owner slot = some c ∧ st.InFlight c) ∨
    AgreesAt num st.indexes st.vectors slot

def Store.Quiet (st : Store κ φ γ) : Prop := ∀ call ∈ st.calls, call.stage.isReturned = true

def HarmlessEnd (num : Compression φ γ) (st : Store κ φ γ) (c : Nat) : Prop :=
  ∀ slot, st.owner slot = some c → AgreesAt num st.indexes st.vectors slot

structure Store.Opened (num : Compression φ γ) (st : Store κ φ γ) : Prop where
  calls : st.calls = []
  owner : ∀ slot, st.owner slot = none
  sound : ∀ field, (st.indexes field).Sound
  agrees : ∀ slot, AgreesAt num st.indexes st.vectors slot

variable [DecidableEq κ]

/-- What a call puts are the vectors of the live nodes, unless a call under way has replaced
them. -/
def PutsLive (num : Compression φ γ) (st : Store κ φ γ) (c : Nat) (call : VectorWrite κ φ) : Prop :=
  ∀ slot ∈ call.slots, (∃ c', c' ≠ c ∧ st.owner slot = some c' ∧ st.InFlight c') ∨
    AgreesAt num st.indexes (call.put st.vectors) slot

/-- The order of the insertions is that of the commits, and what failed had been replaced. -/
structure Orderly (num : Compression φ γ) (st : Store κ φ γ) (a : Action κ φ) : Prop where
  panicked : ∀ c i call pending id vector, a = .insert c i → st.calls[c]? = some call →
    call.stage = .inserting pending → pending[i]? = some (id, vector) →
    (st.indexes call.field).insert num id vector = none → HarmlessEnd num st c
  failed : ∀ c fault call snapshot, a = .commit c fault → st.calls[c]? = some call →
    call.stage = .begun snapshot → refuses st call snapshot fault = true → HarmlessEnd num st c
  committed : ∀ c fault call snapshot, a = .commit c fault → st.calls[c]? = some call →
    call.stage = .begun snapshot → refuses st call snapshot fault = false → PutsLive num st c call

end RhypeDb.Vectorizer.LiveVectors
