import RhypeDb.Basic.Run
import RhypeDb.Vectorizer.Queue
import RhypeDb.Vectorizer.VectorIndex

/-! The vector indexes and their snapshot files: writes that change an index before their commit,
saves at any time, stops, and an open that puts an index together from its file and the rows. -/

namespace RhypeDb.Vectorizer

open Engine
open SchemaCatalog (ObjectKey)

inductive QuantizationType
  | turboQuant2Bit
  | turboQuant3Bit
  | turboQuant4Bit
  | none
  deriving DecidableEq, Repr

/-- An `@index` directive. -/
structure IndexDef where
  metric : Option Metric
  quantization : Option QuantizationType
  m : Option Nat
  efConstruction : Option Nat
  deriving DecidableEq, Repr

structure IndexKey where
  typeName : String
  fieldName : String
  deriving DecidableEq, Repr

/-- A `Vector` field. The validation of a schema refuses an `m` of zero. -/
structure VectorField where
  key : IndexKey
  dimensions : Nat
  index : Option IndexDef
  m_ne : ∀ i ∈ index, i.m ≠ some 0
  deriving DecidableEq

/-- The `Vector` fields of a schema, each under its own type and name. -/
structure VectorFields where
  fields : List VectorField
  nodup : (fields.map VectorField.key).Nodup

def legacyQuantBits : Nat := 4
def legacyHnswM : Nat := 16
def legacyHnswEfConstruction : Nat := 100
def legacyMetric : Metric := .cosine

def quantBits : Option QuantizationType → Nat
  | some .turboQuant2Bit => 2
  | some .turboQuant3Bit => 3
  | some .turboQuant4Bit => 4
  | some .none | none => legacyQuantBits

def resolveIndexConfig (field : VectorField) : HnswConfig × TurboQuantConfig :=
  let m := (field.index.bind IndexDef.m).getD legacyHnswM
  ({ m := m
     mMax0 := m * 2
     efConstruction := (field.index.bind IndexDef.efConstruction).getD legacyHnswEfConstruction
     metric := (field.index.bind IndexDef.metric).getD legacyMetric },
   ⟨field.dimensions, quantBits (field.index.bind IndexDef.quantization)⟩)

def snapshotPath (key : IndexKey) : String :=
  "hnsw_" ++ (key.typeName ++ "." ++ key.fieldName).map (fun c => if c = '.' then '_' else c) ++
    ".bin"

/-- The ids that the catalog gave the types and fields, and the threads of a parallel insertion. -/
structure Setup where
  schema : VectorFields
  typeIds : String → Option Nat
  fieldIds : IndexKey → Option Nat
  cores : Nat

def Setup.resolveIndexIds (setup : Setup) (key : IndexKey) : Option (Nat × Nat) :=
  (setup.typeIds key.typeName).bind fun t => (setup.fieldIds key).map fun f => (t, f)

variable {φ γ : Type}

/-- The `v:` rows, and the files of the data directory. -/
structure Disk (φ γ : Type) where
  vectors : SortedMap Slot (List φ)
  files : String → Option (IndexSnapshot φ γ)

def scanVectorsForField (setup : Setup) (vectors : SortedMap Slot (List φ)) (key : IndexKey) :
    List (Id × List φ) :=
  match setup.resolveIndexIds key with
  | none => []
  | some (typeId, fieldId) => vectors.entries.filterMap fun e =>
    if (ofLex e.1).1.typeId = typeId ∧ (ofLex e.1).2 = fieldId then
      some ((ofLex e.1).1.objectId, e.2)
    else none

def storedVector (setup : Setup) (vectors : SortedMap Slot (List φ)) (key : IndexKey) (id : Id) :
    Option (List φ) :=
  (setup.resolveIndexIds key).bind fun ids => vectors.lookup (toLex (⟨ids.1, id⟩, ids.2))

section

/-- What an open meets: the order of the map of indexes, the rotations that are drawn, the files
that can be read and written, and the order in which threads insert. -/
structure Opening (setup : Setup) (φ : Type) where
  keys : List IndexKey
  keys_perm : keys.Perm (setup.schema.fields.map VectorField.key)
  rotation : IndexKey → List φ
  readable : IndexKey → Bool
  writable : IndexKey → Bool
  order : IndexKey → (rows : List (Id × List φ)) → { l // List.Perm l rows }

abbrev Indexes (φ γ : Type) := IndexKey → Option (QuantizedIndex φ γ)

inductive Mismatch
  | quantBits (loaded target : Nat)
  | metric (loaded target : Metric)
  | hnswM (loaded target : Nat)
  | efConstruction (loaded target : Nat)
  deriving DecidableEq, Repr

def indexConfigMismatch (target loaded : QuantizedIndex φ γ) : Option Mismatch :=
  if loaded.quantizer.config.bits ≠ target.quantizer.config.bits then
    some (.quantBits loaded.quantizer.config.bits target.quantizer.config.bits)
  else if loaded.metric ≠ target.metric then some (.metric loaded.metric target.metric)
  else if loaded.config.m ≠ target.config.m then some (.hnswM loaded.config.m target.config.m)
  else if loaded.config.efConstruction ≠ target.config.efConstruction then
    some (.efConstruction loaded.config.efConstruction target.config.efConstruction)
  else none

def saveSingleSnapshot (writable : Bool) (disk : Disk φ γ) (key : IndexKey)
    (ix : QuantizedIndex φ γ) : Disk φ γ :=
  if ix.nodes = [] ∨ writable = false then disk
  else { disk with files := Function.update disk.files (snapshotPath key) (some ix.save) }

variable (num : Compression φ γ) {setup : Setup} (opening : Opening setup φ)

def freshIndex (field : VectorField) : QuantizedIndex φ γ :=
  .new (resolveIndexConfig field).1 (resolveIndexConfig field).2 (opening.rotation field.key)

def freshIndexes : Indexes φ γ := fun key =>
  (setup.schema.fields.find? fun field => decide (field.key = key)).map (freshIndex opening)

def loadSnapshot (disk : Disk φ γ) (key : IndexKey) : Option (QuantizedIndex φ γ) :=
  if opening.readable key then (disk.files (snapshotPath key)).bind QuantizedIndex.load else none

/-- The rows whose id a loaded index does not have. -/
def missingVectors (setup : Setup) (disk : Disk φ γ) (key : IndexKey) (ix : QuantizedIndex φ γ) :
    List (Id × List φ) :=
  (scanVectorsForField setup disk.vectors key).filter fun row => !ix.containsId row.1

def insertDeltaVectors (disk : Disk φ γ) (key : IndexKey) (ix : QuantizedIndex φ γ) :
    Option (QuantizedIndex φ γ) :=
  ix.insertAll num (opening.order key (missingVectors setup disk key ix)).1

def rebuildIndexFromLsm (disk : Disk φ γ) (key : IndexKey) (target : QuantizedIndex φ γ) :
    Option (Disk φ γ × QuantizedIndex φ γ) :=
  let vectors := scanVectorsForField setup disk.vectors key
  (target.insertAll num (opening.order key vectors).1).map fun ix =>
    (if vectors = [] then disk else saveSingleSnapshot (opening.writable key) disk key ix, ix)

def rebuildIndex (disk : Disk φ γ) (key : IndexKey) (target : QuantizedIndex φ γ) :
    Option (Disk φ γ × QuantizedIndex φ γ) :=
  match loadSnapshot opening disk key with
  | some loaded =>
    if indexConfigMismatch target loaded = none then
      (insertDeltaVectors num opening disk key loaded).map fun ix => (disk, ix)
    else rebuildIndexFromLsm num opening disk key target
  | none => rebuildIndexFromLsm num opening disk key target

def rebuildIndexes : List IndexKey → Disk φ γ → Indexes φ γ → Option (Disk φ γ × Indexes φ γ)
  | [], disk, indexes => some (disk, indexes)
  | key :: keys, disk, indexes =>
    (indexes key).bind fun target => (rebuildIndex num opening disk key target).bind fun r =>
      rebuildIndexes keys r.1 (Function.update indexes key (some r.2))

def withConfig (disk : Disk φ γ) : Option (Disk φ γ × Indexes φ γ) :=
  rebuildIndexes num opening opening.keys disk (freshIndexes opening)

/-- A batch on its way: what one thread has still to insert, what the threads beside it have, and
the rows that its transaction will store. -/
structure Writer (φ : Type) where
  key : IndexKey
  rows : List (Id × List φ)
  serial : List (Id × List φ)
  threads : List (List (Id × List φ))

inductive Ingest (φ : Type)
  | ingestVectors (rows : List (Id × List φ))
  | ingestVector (id : Id) (vector : List φ)
  | storeAndIndex (id : Id) (vector : List φ)

structure Process (φ γ : Type) where
  setup : Setup
  indexes : Indexes φ γ
  writers : SortedMap Nat (Writer φ)

def vectorFieldDim (setup : Setup) (key : IndexKey) : Option Nat :=
  (setup.schema.fields.find? fun field => decide (field.key = key)).map VectorField.dimensions

def validVector (expected : Nat) (vector : List φ) : Bool :=
  decide (vector.length = expected) && vector.all num.isFinite

def minParallel : Nat := 256

/-- A small batch is inserted by its own thread. A large one is cut into chunks, one a thread,
after a first insertion where the index is empty. -/
def insertParallel (cores : Nat) (ix : QuantizedIndex φ γ) (key : IndexKey)
    (rows : List (Id × List φ)) : Writer φ :=
  if cores ≤ 1 ∨ rows.length < minParallel then ⟨key, rows, rows, []⟩
  else
    let start := if ix.nodes = [] then 1 else 0
    let rest := rows.drop start
    let threads := min cores rest.length
    let chunk := (rest.length + threads - 1) / threads
    ⟨key, rows, rows.take start, rest.toChunks chunk⟩

def acceptWrite (p : Process φ γ) (key : IndexKey) : Ingest φ → Option (Writer φ)
  | .ingestVectors rows =>
    (vectorFieldDim p.setup key).bind fun expected => (p.indexes key).bind fun ix =>
      (p.setup.resolveIndexIds key).bind fun _ =>
        if rows ≠ [] ∧ rows.all fun row => validVector num expected row.2 then
          some (insertParallel p.setup.cores ix key rows)
        else none
  | .ingestVector id vector =>
    (vectorFieldDim p.setup key).bind fun expected => (p.indexes key).bind fun _ =>
      if validVector num expected vector then some ⟨key, [(id, vector)], [(id, vector)], []⟩
      else none
  | .storeAndIndex id vector =>
    (p.indexes key).map fun _ => ⟨key, [(id, vector)], [(id, vector)], []⟩

def Writer.next (writer : Writer φ) (thread : Nat) : Option ((Id × List φ) × Writer φ) :=
  match writer.serial with
  | row :: rest => some (row, { writer with serial := rest })
  | [] => match writer.threads[thread]? with
    | some (row :: rest) => some (row, { writer with threads := writer.threads.set thread rest })
    | _ => none

def Writer.inserted (writer : Writer φ) : Bool :=
  writer.serial.isEmpty && writer.threads.all List.isEmpty

end

structure State (φ γ : Type) where
  disk : Disk φ γ
  process : Option (Process φ γ)

def State.empty : State φ γ := ⟨⟨.empty, fun _ => none⟩, none⟩

/-- A step: an open, an open that ends after some of the indexes, a write, one of its insertions,
its commit with the store's answer, the save of one index, and the end of the process. -/
inductive SnapshotStep (φ : Type)
  | start (setup : Setup) (opening : Opening setup φ)
  | startStopped (setup : Setup) (opening : Opening setup φ) (rebuilt : Nat)
  | write (w : Nat) (key : IndexKey) (ingest : Ingest φ)
  | insert (w thread : Nat)
  | commit (w : Nat) (committed : Bool)
  | save (key : IndexKey) (writable : Bool)
  | stop

variable (num : Compression φ γ)

def Process.setWriter (p : Process φ γ) (w : Nat) (writer : Writer φ) : Process φ γ :=
  { p with writers := p.writers.insert w writer }

def Process.endWriter (p : Process φ γ) (w : Nat) : Process φ γ :=
  { p with writers := p.writers.erase w }

def Process.setIndex (p : Process φ γ) (key : IndexKey) (ix : QuantizedIndex φ γ) : Process φ γ :=
  { p with indexes := Function.update p.indexes key (some ix) }

/-- One insertion. A failed assertion ends the writer. -/
def Process.insertNext (p : Process φ γ) (w thread : Nat) : Option (Process φ γ) :=
  (p.writers.lookup w).bind fun writer => (writer.next thread).bind fun next =>
    (p.indexes writer.key).map fun ix => match ix.insert num next.1.1 next.1.2 with
      | some ix' => (p.setWriter w next.2).setIndex writer.key ix'
      | none => p.endWriter w

def storeRows (setup : Setup) (writer : Writer φ) (vectors : SortedMap Slot (List φ)) :
    SortedMap Slot (List φ) :=
  match setup.resolveIndexIds writer.key with
  | none => vectors
  | some (typeId, fieldId) =>
    vectors.insertAll (writer.rows.map fun row => (toLex (⟨typeId, row.1⟩, fieldId), row.2))

def commitWriter (s : State φ γ) (p : Process φ γ) (w : Nat) (committed : Bool) :
    Option (State φ γ) :=
  (p.writers.lookup w).bind fun writer =>
    if writer.inserted then
      let vectors := if committed then storeRows p.setup writer s.disk.vectors else s.disk.vectors
      some ⟨{ s.disk with vectors := vectors }, some (p.endWriter w)⟩
    else none

/-- A step that is taken; one that cannot be taken changes nothing. -/
def snapshotStep? (s : State φ γ) : SnapshotStep φ → Option (State φ γ)
  | .start setup opening => match s.process with
    | some _ => none
    | none => (withConfig num opening s.disk).map fun r => ⟨r.1, some ⟨setup, r.2, .empty⟩⟩
  | .startStopped _ opening rebuilt => match s.process with
    | some _ => none
    | none => (rebuildIndexes num opening (opening.keys.take rebuilt) s.disk
        (freshIndexes opening)).map fun r => ⟨r.1, none⟩
  | .write w key ingest => s.process.bind fun p =>
      if (p.writers.lookup w).isSome then none
      else (acceptWrite num p key ingest).map fun writer => ⟨s.disk, some (p.setWriter w writer)⟩
  | .insert w thread => s.process.bind fun p =>
      (p.insertNext num w thread).map fun p' => ⟨s.disk, some p'⟩
  | .commit w committed => s.process.bind fun p => commitWriter s p w committed
  | .save key writable => s.process.bind fun p => (p.indexes key).map fun ix =>
      ⟨saveSingleSnapshot writable s.disk key ix, s.process⟩
  | .stop => some ⟨s.disk, none⟩

def snapshotStep (s : State φ γ) (a : SnapshotStep φ) : State φ γ :=
  (snapshotStep? num s a).getD s

end RhypeDb.Vectorizer
