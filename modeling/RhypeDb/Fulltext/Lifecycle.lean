import RhypeDb.Fulltext.Consistency

/-! One field's index over the opens of a database: the build marker, what an open makes of it and
of the schema's directive, and the background tasks that an open leaves to the builder. -/

namespace RhypeDb.Fulltext

open ByteOrder Engine Storage

inductive BuildState
  | building
  | built
  | dropping
  deriving DecidableEq

structure BuildMarker where
  state : BuildState
  generation : UInt32
  cursor : Id
  positions : Bool
  staleGenerations : Bool
  analyzer : String
  deriving DecidableEq

/-- A stored marker; a malformed one does not decode. -/
inductive MarkerRow
  | wellFormed (marker : BuildMarker)
  | malformed
  deriving DecidableEq

def readMarker : Option MarkerRow → Option BuildMarker
  | some (.wellFormed marker) => some marker
  | _ => none

def BuildMarker.matchesConfig (m : BuildMarker) (analyzer : String) (positions : Bool) : Bool :=
  decide (m.analyzer = analyzer) && decide (m.positions = positions)

inductive Analyzer
  | simple
  | english
  deriving DecidableEq

def Analyzer.fromName (name : String) : Option Analyzer :=
  if name = "simple" then some .simple else if name = "english" then some .english else none

def Analyzer.definition : Analyzer → String
  | .simple => "simple/2"
  | .english => "english/3"

/-- `@fulltext(analyzer, positions)`. -/
structure FulltextDirective where
  analyzer : String
  positions : Bool

/-- A marker of the same identity is resumed, unless it is being dropped. Another one starts the
next generation, and no marker starts generation 0. Tells whether it is a new marker. -/
def planMarker (prior : Option BuildMarker) (analyzer : String) (positions : Bool) :
    BuildMarker × Bool :=
  match prior with
  | some m =>
    if m.matchesConfig analyzer positions = true ∧ m.state ≠ .dropping then (m, false)
    else
      ({ state := .building, generation := m.generation + UInt32.ofNat 1, cursor := 0, positions,
         staleGenerations := true, analyzer }, true)
  | none =>
    ({ state := .building, generation := UInt32.ofNat 0, cursor := 0, positions,
       staleGenerations := false, analyzer }, true)

def planBuilt (plan : BuildMarker × Bool) (noKeys : Bool) : BuildMarker × Bool :=
  if plan.1.state = .building ∧ plan.1.cursor = 0 ∧ noKeys = true then
    ({ plan.1 with state := .built }, true)
  else plan

inductive BuildTask
  | pending
  | running (cursor : Id) (stale : Bool)

/-- A sweep goes through the `f:` rows, then the `l:` rows, then it finalizes the marker. -/
inductive SweepPhase
  | postings
  | docs
  | finalize
  deriving DecidableEq

def SweepPhase.holds (phase : SweepPhase) (k : RowKey) : Bool :=
  match phase, k with
  | .postings, .posting _ _ _ => true
  | .docs, .doc _ _ => true
  | _, _ => false

def SweepPhase.next : SweepPhase → SweepPhase
  | .postings => .docs
  | _ => .finalize

structure DropTask where
  keep : Option UInt32
  phase : SweepPhase

/-- An open database: what its schema says of the field, the field's entry in the write tables,
its progress, and the tasks. -/
structure Process where
  schema : Schema
  directive : Option FulltextDirective
  field : Option FulltextField
  progress : BuildState
  build : Option BuildTask
  drop : Option DropTask

structure Lifecycle where
  db : Database
  index : Index
  marker : Option MarkerRow
  process : Option Process

namespace Lifecycle

inductive Found
  | intact
  | malformed
  | missing

def Found.marker (stored : Option MarkerRow) : Found → Option MarkerRow
  | .intact => stored
  | .malformed => stored.map fun _ => .malformed
  | .missing => none

/-- The steps of builder tasks are given what their scans meet: the window of a sweep holds any
keys, and `more` tells whether its scan goes on. -/
inductive Event
  | openDatabase (schema : Schema) (directive : Option FulltextDirective) (found : Found)
      (raw : RawScan)
  | call (call : Database.Call)
  | build (size : Nat) (raw : RawScan)
  | drop (window : List RowKey) (more : Bool)
  | stop

def new : Lifecycle := { db := .new, index := ∅, marker := none, process := none }

section

variable (typeId : Id) (name : String)

def fieldOf (m : BuildMarker) : FulltextField where
  typeId := typeId
  name := name
  generation := m.generation
  analyzer := m.analyzer
  positions := m.positions

def planOrphan (found : Option MarkerRow) : Option MarkerRow × Option DropTask :=
  match readMarker found with
  | some m => (some (.wellFormed { m with state := .dropping }), some ⟨none, .postings⟩)
  | none => (none, none)

def markerWrites (found : Option MarkerRow) (plan : BuildMarker × Bool) : List (Option MarkerRow) :=
  (if plan.2 = true then [some (.wellFormed plan.1)] else []) ++
    if found = some .malformed then [none] else []

/-- `plan_fulltext_open`, for one field. An unknown analyzer fails the open. -/
def planFulltextOpen (s : Lifecycle) (schema : Schema) (directive : Option FulltextDirective)
    (found : Option MarkerRow) (raw : RawScan) : Lifecycle :=
  let db := { s.db with counters := openCounters schema s.db.store }
  match directive with
  | none =>
    let (marker, drop) := planOrphan found
    { s with
      db, marker
      process := some
        { schema, directive := none, field := none, progress := .built, build := none, drop } }
  | some d =>
    match Analyzer.fromName d.analyzer with
    | none => { s with marker := found, process := none }
    | some analyzer =>
      let noKeys := (objectIds s.db.store typeId).isEmpty && raw.dead.isEmpty
      let plan := planBuilt (planMarker (readMarker found) analyzer.definition d.positions) noKeys
      let field : FulltextField :=
        { typeId, name, generation := plan.1.generation, analyzer := analyzer.definition
          positions := d.positions }
      { s with
        db
        marker := ((markerWrites found plan).getLast?).getD found
        process := some
          { schema
            directive := some d
            field := some field
            progress := plan.1.state
            build := if plan.1.state = .building then some .pending else none
            drop := if plan.1.staleGenerations = true then
                some ⟨some plan.1.generation, .postings⟩ else none } }

variable (analyze : String → Bytes → List Token)

def callRows (s : Lifecycle) (p : Process) (call : Database.Call) : RowWrites :=
  match p.field with
  | none => []
  | some ff =>
    match (Database.stage p.schema s.db.store.view s.db.counters call).1 with
    | .ok writes => (stageIndexRows analyze ff p.schema s.db.store.view s.index call writes).1
    | .error _ => []

def runCall (s : Lifecycle) (p : Process) (call : Database.Call) : Lifecycle :=
  { s with
    db := s.db.step p.schema call
    index := s.index.apply (callRows analyze s p call) }

def startBuild (s : Lifecycle) (p : Process) : Lifecycle :=
  match readMarker s.marker with
  | some m =>
    if m.state = .built then { s with process := some { p with progress := .built, build := none } }
    else
      { s with process := some { p with build := some (.running m.cursor m.staleGenerations) } }
  | none => { s with process := some { p with build := some (.running 0 false) } }

def buildChunk (s : Lifecycle) (p : Process) (ff : FulltextField) (cursor : Id) (stale : Bool)
    (size : Nat) (raw : RawScan) : Lifecycle :=
  let chunk := scanChunk s.db.store ff.typeId raw cursor size
  let rows := (stageChanges analyze ff s.index (Indexer.unindexed ff s.index chunk.objects)).1
  let done := !chunk.more || chunk.nextCursor.isNone
  let next := chunk.nextCursor.getD (UInt64.ofNat (2 ^ 64 - 1))
  let marker : BuildMarker :=
    { state := if done then .built else .building, generation := ff.generation, cursor := next
      positions := ff.positions, staleGenerations := stale, analyzer := ff.analyzer }
  let process : Process :=
    { p with
      progress := if done then .built else p.progress
      build := if done then none else some (.running next stale) }
  { s with
    index := s.index.apply rows, marker := some (.wellFormed marker), process := some process }

def runBuild (s : Lifecycle) (p : Process) (size : Nat) (raw : RawScan) : Lifecycle :=
  match p.field, p.build with
  | some _, some .pending => startBuild s p
  | some ff, some (.running cursor stale) => buildChunk analyze s p ff cursor stale size raw
  | _, _ => s

def sweepDeletes (task : DropTask) (window : List RowKey) : List RowKey :=
  window.filter fun k => task.phase.holds k && decide (task.keep ≠ some k.generation)

def finalizeDrop (keep : Option UInt32) (marker : Option MarkerRow) : Option MarkerRow :=
  match keep with
  | some _ =>
    match marker with
    | some (.wellFormed m) => some (.wellFormed { m with staleGenerations := false })
    | _ => marker
  | none => none

def runDrop (s : Lifecycle) (p : Process) (window : List RowKey) (more : Bool) : Lifecycle :=
  match p.drop with
  | none => s
  | some task =>
    if task.phase = .finalize then
      { s with
        marker := finalizeDrop task.keep s.marker, process := some { p with drop := none } }
    else
      let phase := if more then task.phase else task.phase.next
      { s with
        index := s.index.apply ((sweepDeletes task window).map fun k => (k, none))
        process := some { p with drop := some { task with phase } } }

end

variable (analyze : String → Bytes → List Token) (typeId : Id) (name : String)

def step (s : Lifecycle) : Event → Lifecycle
  | .openDatabase schema directive found raw =>
    planFulltextOpen typeId name s schema directive (found.marker s.marker) raw
  | .call call =>
    match s.process with
    | some p => runCall analyze s p call
    | none => s
  | .build size raw =>
    match s.process with
    | some p => runBuild analyze s p size raw
    | none => s
  | .drop window more =>
    match s.process with
    | some p => runDrop s p window more
    | none => s
  | .stop => { s with process := none }

end Lifecycle

end RhypeDb.Fulltext
