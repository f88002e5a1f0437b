import RhypeDb.Engine.DeleteOutcome
import RhypeDb.Query.WriteGate
import RhypeDb.Vectorizer.Pipeline
import RhypeDb.Vectorizer.Snapshots

/-! What a delete leaves of an object outside the engine: `v:` and `s:` rows and index nodes, each
with the object that it was written for and its birth. Every operation runs alone. -/

namespace RhypeDb.Vectorizer.Leftovers

open Engine List Option Run SortedMap
open SchemaCatalog (ObjectKey)

variable {fields : VectorSchema} {φ : Type}

/-- An object, and how often one has come to be under its id. -/
abbrev Birth := (Id × Id) × Nat

/-- The database, how often an object has come to be under each id, the rows and the live nodes
with the birth they are of, the indexes that have a node, the files by their names with their nodes
by the ids of objects, and the queue. -/
structure Data (fields : VectorSchema) (φ : Type) where
  db : Database
  births : Id × Id → Nat
  vectors : SortedMap Slot (List φ × Birth)
  states : SortedMap Slot (VectorState × Birth)
  nodes : Slot → Option (List φ × Birth)
  filled : Nat × Nat → Bool
  files : String → Option (Id → Option (List φ × Birth))
  queue : List (VectorizeJob fields)

inductive Outcome (φ : Type)
  | loadFailed
  | embedFailed
  | vectors (embedder : Bytes → List φ)

def owner (slot : Slot) : Id × Id :=
  (UInt64.ofNat (ofLex slot).1.typeId, (ofLex slot).1.objectId)

def fieldOf (slot : Slot) : Nat × Nat := ((ofLex slot).1.typeId, (ofLex slot).2)

/-- The indexes of the vector fields, under the ids of type and field, with their files. -/
def indexPaths (engine : Schema) : List ((Nat × Nat) × String) :=
  engine.types.flatMap fun t => t.fields.filterMap fun f =>
    match f.fieldType with
    | .vector _ => some ((t.typeId.toNat, f.fieldId.toNat), snapshotPath ⟨t.name, f.name⟩)
    | _ => none

def DistinctFiles (engine : Schema) : Prop := ((indexPaths engine).map Prod.snd).Nodup

def indexPath (engine : Schema) (field : Nat × Nat) : Option String :=
  (indexPaths engine).lookup field

namespace Data

def new (fields : VectorSchema) (φ : Type) : Data fields φ where
  db := .new
  births := fun _ => 0
  vectors := .empty
  states := .empty
  nodes := fun _ => none
  filled := fun _ => false
  files := fun _ => none
  queue := []

variable (d : Data fields φ)

def Alive (n : Id × Id) : Prop := d.db.store.Has (.object n.1 n.2)

instance (n : Id × Id) : Decidable (d.Alive n) := inferInstanceAs (Decidable (d.db.store.Has _))

def call (engine : Schema) (c : Database.Call) : Data fields φ :=
  let db := d.db.step engine c
  { d with
    db
    births := fun n =>
      if ¬ d.Alive n ∧ db.store.Has (.object n.1 n.2) then d.births n + 1 else d.births n }

def birth (slot : Slot) : Birth := (owner slot, d.births (owner slot))

def setState (slot : Slot) (state : VectorState) : Data fields φ :=
  { d with states := d.states.insert slot (state, d.birth slot) }

/-- `store_and_index`: the node, the row and the state. -/
def storeAndIndex (slot : Slot) (vector : List φ) : Data fields φ :=
  { d.setState slot .indexed with
    vectors := d.vectors.insert slot (vector, d.birth slot)
    nodes := Function.update d.nodes slot (some (vector, d.birth slot))
    filled := Function.update d.filled (fieldOf slot) true }

/-- `ingest_vectors`, past its checks of the dimensions. Nothing asks whether an object is there. -/
def ingest (typeId fieldId : Nat) (rows : List (Id × List φ)) : Data fields φ :=
  rows.foldl (fun d row => d.storeAndIndex (toLex (⟨typeId, row.1⟩, fieldId)) row.2) d

def enqueueJob (job : VectorizeJob fields) : Data fields φ :=
  { d.setState job.slot .pending with queue := d.queue ++ [job] }

def enqueue (key : ObjectKey) : Data fields φ :=
  if d.Alive (UInt64.ofNat key.typeId, key.objectId) then
    (jobsOf fields key).foldl enqueueJob d
  else d

def sourceText (job : VectorizeJob fields) : Option Bytes :=
  (d.db.store.lookup (.object (owner job.slot).1 (owner job.slot).2)).bind fun data =>
    (data.deserializeFields.lookup job.field.1.sourceField).bind textOf

def workJob (outcome : String → Outcome φ) (job : VectorizeJob fields) : Data fields φ :=
  match d.sourceText job with
  | none => { d with states := d.states.erase job.slot }
  | some text =>
    match outcome job.field.1.model with
    | .loadFailed => d.enqueueJob job
    | .embedFailed => d.setState job.slot .failed
    | .vectors embedder => d.storeAndIndex job.slot (embedder text)

def work (batchSize : Nat) (outcome : String → Outcome φ) : Data fields φ :=
  (d.queue.take batchSize).foldl (fun d job => d.workJob outcome job)
    { d with queue := d.queue.drop batchSize }

/-- `save_single_snapshot`: an index without a node is not written. -/
def save (engine : Schema) (typeId fieldId : Nat) : Data fields φ :=
  match indexPath engine (typeId, fieldId) with
  | none => d
  | some path =>
    if d.filled (typeId, fieldId) then
      { d with
        files := Function.update d.files path
          (some fun id => d.nodes (toLex (⟨typeId, id⟩, fieldId))) }
    else d

def file (engine : Schema) (field : Nat × Nat) : Option (Id → Option (List φ × Birth)) :=
  (indexPath engine field).bind d.files

/-- What the file of a field's index has for an object. -/
def fileNode (engine : Schema) (slot : Slot) : Option (List φ × Birth) :=
  (d.file engine (fieldOf slot)).bind fun file => file (ofLex slot).1.objectId

def orphans : List (VectorizeJob fields) :=
  d.states.entries.filterMap fun e =>
    if e.2.1 = .pending then
      (jobAt fields e.1).bind fun job => if job ∈ d.queue then none else some job
    else none

/-- `reconcile_pending_jobs`. -/
def reconcile : Data fields φ :=
  let stale := d.orphans.filter fun job => (d.sourceText job).isNone
  let lost := d.orphans.filter fun job => (d.sourceText job).isSome
  lost.foldl enqueueJob { d with states := d.states.eraseAll (stale.map VectorizeJob.slot) }

/-- A reopen: the id counter comes from the live objects, and each index from its file, if it is
accepted, and the rows that the file has no node for. -/
def reopen (engine : Schema) (accepted : Nat × Nat → Bool) : Data fields φ :=
  reconcile
    { d with
      db := { d.db with counters := openCounters engine d.db.store }
      nodes := fun slot =>
        if accepted (fieldOf slot) then (d.fileNode engine slot).or (d.vectors.lookup slot)
        else d.vectors.lookup slot
      filled := fun field => accepted field && (d.file engine field).isSome ||
        d.vectors.entries.any fun e => fieldOf e.1 = field }

end Data

inductive Step (φ : Type)
  | call (c : Database.Call)
  | enqueue (key : ObjectKey)
  | ingest (typeId fieldId : Nat) (rows : List (Id × List φ))
  | work (batchSize : Nat) (outcome : String → Outcome φ)
  | save (typeId fieldId : Nat)
  | reopen (accepted : Nat × Nat → Bool)

def step (engine : Schema) (d : Data fields φ) : Step φ → Data fields φ
  | .call c => d.call engine c
  | .enqueue key => d.enqueue key
  | .ingest typeId fieldId rows => d.ingest typeId fieldId rows
  | .work batchSize outcome => d.work batchSize outcome
  | .save typeId fieldId => d.save engine typeId fieldId
  | .reopen accepted => d.reopen engine accepted

def Named (d : Data fields φ) (slot : Slot) (birth : Birth) : Prop :=
  d.Alive (owner slot) ∧ d.birth slot = birth

structure Kept (d : Data fields φ) : Prop where
  vectors : ∀ slot vector birth, d.vectors.lookup slot = some (vector, birth) → Named d slot birth
  states : ∀ slot state birth, d.states.lookup slot = some (state, birth) → Named d slot birth
  nodes : ∀ slot vector birth, d.nodes slot = some (vector, birth) → Named d slot birth

def NoPlaceLost {F : Type} [Authz.JsonNumber F] (ctx : Query.ExecContext F) (d : Data fields φ) : Prop :=
  ∀ (typeName : String) (t : TypeDef) (fieldId : Nat) (hits : List (Id × Query.RowScore)) (k : Nat),
    ctx.schema.getType typeName = some t →
    (∀ hit ∈ hits, (d.nodes (toLex (⟨t.typeId.toNat, hit.1⟩, fieldId))).isSome) →
    (Query.rankedRows ctx d.db typeName (hits.take k)).length = min k hits.length

/-- The condition: what a delete removes has no row of a vector, and vectors are given for objects
that are there. -/
def Harmless (engine : Schema) (d : Data fields φ) : Step φ → Prop
  | .call c => ∀ slot, d.Alive (owner slot) → Removes engine d.db.store c (owner slot) →
    d.vectors.lookup slot = none ∧ d.states.lookup slot = none
  | .ingest typeId fieldId rows =>
    ∀ row ∈ rows, d.Alive (owner (toLex (⟨typeId, row.1⟩, fieldId)))
  | _ => True

section

variable {d d' : Data fields φ} {engine : Schema}

structure Inv (engine : Schema) (d : Data fields φ) : Prop where
  kept : Kept d
  files : ∀ slot vector birth, d.fileNode engine slot = some (vector, birth) → Named d slot birth
  nodes_stored : ∀ slot, (d.nodes slot).isSome → (d.vectors.lookup slot).isSome
  files_stored : ∀ slot, (d.fileNode engine slot).isSome → (d.vectors.lookup slot).isSome

theorem fileNode_new (slot : Slot) : (Data.new fields φ).fileNode engine slot = none := by
  unfold Data.fileNode Data.file
  cases indexPath engine (fieldOf slot) <;> rfl

theorem inv_new : Inv engine (Data.new fields φ) := by
  refine ⟨⟨?_, ?_, ?_⟩, ?_, ?_, ?_⟩
  · exact nofun
  · exact nofun
  · exact nofun
  · exact fun slot vector birth h => nomatch (fileNode_new slot).symm.trans h
  · exact nofun
  · exact fun slot h => Bool.noConfusion ((congrArg isSome (fileNode_new slot)).symm.trans h)

variable {slot : Slot} {s : Step φ} {c : Database.Call} {rows : List (Id × List φ)}
  {fieldId typeId : Nat} {job : VectorizeJob fields} {birth : Birth}

theorem named_congr (hdb : d'.db.store = d.db.store) (hbirths : d'.births = d.births) :
    Named d' slot birth ↔ Named d slot birth := by
  unfold Named Data.Alive Data.birth
  rw [hdb, hbirths]

theorem fileNode_congr (h : d'.files = d.files) :
    d'.fileNode engine slot = d.fileNode engine slot := by
  unfold Data.fileNode Data.file
  rw [h]

theorem Inv.of_states (h : Inv engine d) (hdb : d'.db.store = d.db.store)
    (hbirths : d'.births = d.births)
    (hvectors : d'.vectors = d.vectors) (hnodes : d'.nodes = d.nodes) (hfiles : d'.files = d.files)
    (hstates : ∀ slot state birth, d'.states.lookup slot = some (state, birth) →
      Named d slot birth) : Inv engine d' := by
  have hnamed : ∀ {slot birth}, Named d' slot birth ↔ Named d slot birth := named_congr hdb hbirths
  constructor
  · constructor
    · rw [hvectors]
      exact fun slot vector birth hrow => hnamed.mpr (h.kept.vectors slot vector birth hrow)
    · exact fun slot state birth hrow => hnamed.mpr (hstates slot state birth hrow)
    · rw [hnodes]
      exact fun slot vector birth hrow => hnamed.mpr (h.kept.nodes slot vector birth hrow)
  · intro slot vector birth hrow
    exact hnamed.mpr (h.files slot vector birth ((fileNode_congr hfiles).symm.trans hrow))
  · rw [hnodes, hvectors]
    exact h.nodes_stored
  · intro slot hrow
    rw [fileNode_congr hfiles] at hrow
    rw [hvectors]
    exact h.files_stored slot hrow

theorem Inv.setState (h : Inv engine d) (halive : d.Alive (owner slot)) (state : VectorState) :
    Inv engine (d.setState slot state) := by
  refine h.of_states rfl rfl rfl rfl rfl fun slot' state' birth hrow => ?_
  have hlookup := lookup_insert d.states slot (state, d.birth slot) slot'
  rw [show (d.setState slot state).states = d.states.insert slot (state, d.birth slot)
    from rfl, hlookup] at hrow
  split_ifs at hrow with hslot
  · cases hrow
    rw [hslot]
    exact ⟨halive, rfl⟩
  · exact h.kept.states slot' state' birth hrow

theorem Inv.erase (h : Inv engine d) (slots : List Slot) :
    Inv engine { d with states := d.states.eraseAll slots } := by
  refine h.of_states rfl rfl rfl rfl rfl fun slot state birth hrow => ?_
  rw [lookup_eraseAll] at hrow
  split_ifs at hrow
  exact h.kept.states slot state birth hrow

theorem Inv.enqueueJob (h : Inv engine d) (halive : d.Alive (owner job.slot)) :
    Inv engine (d.enqueueJob job) := by
  have hstate := h.setState halive .pending
  exact ⟨⟨hstate.kept.vectors, hstate.kept.states, hstate.kept.nodes⟩, hstate.files,
    hstate.nodes_stored, hstate.files_stored⟩

theorem Inv.storeAndIndex (h : Inv engine d) (halive : d.Alive (owner slot)) (vector : List φ) :
    Inv engine (d.storeAndIndex slot vector) := by
  have hstate := h.setState halive .indexed
  have hvectors := fun slot' : Slot =>
    lookup_insert d.vectors slot (vector, d.birth slot) slot'
  have hnodes := fun slot' : Slot =>
    Function.update_apply d.nodes slot (some (vector, d.birth slot)) slot'
  unfold Data.storeAndIndex
  constructor
  · constructor
    · intro slot' vector' birth hrow
      rw [hvectors] at hrow
      split_ifs at hrow with hslot
      · cases hrow
        rw [hslot]
        exact ⟨halive, rfl⟩
      · exact h.kept.vectors slot' vector' birth hrow
    · exact hstate.kept.states
    · intro slot' vector' birth hrow
      dsimp only at hrow
      rw [hnodes] at hrow
      split_ifs at hrow with hslot
      · cases hrow
        rw [hslot]
        exact ⟨halive, rfl⟩
      · exact h.kept.nodes slot' vector' birth hrow
  · exact h.files
  · intro slot' hrow
    dsimp only at hrow ⊢
    rw [hnodes] at hrow
    rw [hvectors]
    split_ifs at hrow ⊢
    · rfl
    · exact h.nodes_stored slot' hrow
  · intro slot' hrow
    rw [hvectors]
    split_ifs
    · rfl
    · exact h.files_stored slot' hrow

theorem alive_of_sourceText (h : (d.sourceText job).isSome) : d.Alive (owner job.slot) := by
  unfold Data.sourceText at h
  obtain ⟨text, htext⟩ := isSome_iff_exists.mp h
  obtain ⟨data, hdata, -⟩ := bind_eq_some_iff.mp htext
  unfold Data.Alive Store.Has
  rw [hdata]
  rfl

def SameObjects (d d' : Data fields φ) : Prop := d'.db = d.db ∧ d'.births = d.births

theorem SameObjects.alive_iff (h : SameObjects d d') (n : Id × Id) : d'.Alive n ↔ d.Alive n := by
  unfold Data.Alive
  rw [h.1]

theorem SameObjects.foldl {α : Type} {f : Data fields φ → α → Data fields φ}
    (hf : ∀ d a, SameObjects d (f d a)) (l : List α) (d : Data fields φ) :
    SameObjects d (l.foldl f d) := by
  induction l generalizing d with
  | nil => exact ⟨rfl, rfl⟩
  | cons a l ih =>
    obtain ⟨hdb, hbirths⟩ := hf d a
    obtain ⟨hdb', hbirths'⟩ := ih (f d a)
    exact ⟨hdb'.trans hdb, hbirths'.trans hbirths⟩

theorem Inv.foldl {α : Type} {f : Data fields φ → α → Data fields φ} {n : α → Id × Id}
    (hsame : ∀ d a, SameObjects d (f d a))
    (hf : ∀ d a, Inv engine d → d.Alive (n a) → Inv engine (f d a))
    (h : Inv engine d) {l : List α} (halive : ∀ a ∈ l, d.Alive (n a)) : Inv engine (l.foldl f d) := by
  induction l generalizing d with
  | nil => exact h
  | cons a l ih =>
    rw [forall_mem_cons] at halive
    refine ih (hf d a h halive.1) fun b hb => ?_
    exact ((hsame d a).alive_iff (n b)).mpr (halive.2 b hb)

theorem Inv.enqueueJobs (h : Inv engine d) {jobs : List (VectorizeJob fields)}
    (halive : ∀ job ∈ jobs, d.Alive (owner job.slot)) :
    Inv engine (jobs.foldl Data.enqueueJob d) := by
  refine Inv.foldl (n := fun job => owner job.slot) ?_ ?_ h halive
  · exact fun d job => ⟨rfl, rfl⟩
  · exact fun d job h halive => h.enqueueJob halive

theorem Inv.workJob (h : Inv engine d) (outcome : String → Outcome φ) (job : VectorizeJob fields) :
    Inv engine (d.workJob outcome job) := by
  unfold Data.workJob
  cases htext : d.sourceText job with
  | none =>
    have herase := h.erase [job.slot]
    exact herase
  | some text =>
    have halive : d.Alive (owner job.slot) := alive_of_sourceText (by rw [htext]; rfl)
    dsimp only
    split
    · exact h.enqueueJob halive
    · exact h.setState halive .failed
    · exact h.storeAndIndex halive _

theorem Inv.work (h : Inv engine d) (batchSize : Nat) (outcome : String → Outcome φ) :
    Inv engine (d.work batchSize outcome) := by
  have hclaimed : Inv engine { d with queue := d.queue.drop batchSize } :=
    ⟨⟨h.kept.vectors, h.kept.states, h.kept.nodes⟩, h.files, h.nodes_stored, h.files_stored⟩
  have hjobs : ∀ (jobs : List (VectorizeJob fields)) {d : Data fields φ}, Inv engine d →
      Inv engine (jobs.foldl (fun d job => d.workJob outcome job) d) := by
    intro jobs
    induction jobs with
    | nil => exact fun h => h
    | cons job jobs ih => exact fun h => ih (h.workJob outcome job)
  exact hjobs _ hclaimed

theorem Inv.enqueue (h : Inv engine d) (key : ObjectKey) : Inv engine (d.enqueue key) := by
  unfold Data.enqueue
  split_ifs with halive
  · refine h.enqueueJobs fun job hjob => ?_
    have hobject := object_of_mem_jobsOf hjob
    have howner : owner job.slot = (UInt64.ofNat key.typeId, key.objectId) := by
      unfold owner VectorizeJob.slot
      rw [hobject]
      rfl
    rw [howner]
    exact halive
  · exact h

theorem indexPath_inj (h : DistinctFiles engine) {f g : Nat × Nat} {path : String}
    (hf : indexPath engine f = some path) (hg : indexPath engine g = some path) : f = g := by
  have hmem : ∀ {f}, indexPath engine f = some path → (f, path) ∈ indexPaths engine := by
    intro f hf
    obtain ⟨before, behind, heq, -⟩ := List.lookup_eq_some_iff.mp hf
    rw [heq]
    exact mem_append_right _ mem_cons_self
  exact congrArg Prod.fst (List.inj_on_of_nodup_map h (hmem hf) (hmem hg) rfl)

theorem fileNode_save (hdistinct : DistinctFiles engine) (typeId fieldId : Nat) (slot : Slot) :
    (d.save engine typeId fieldId).fileNode engine slot = d.nodes slot ∨
      (d.save engine typeId fieldId).fileNode engine slot = d.fileNode engine slot := by
  unfold Data.save
  split
  · exact .inr rfl
  · next path hpath =>
    split_ifs with hfilled
    · unfold Data.fileNode Data.file
      cases hslot : indexPath engine (fieldOf slot) with
      | none => exact .inr rfl
      | some path' =>
        by_cases heq : path' = path
        · -- no other field has the file
          subst heq
          cases indexPath_inj hdistinct hpath hslot
          left
          exact congrArg (Option.bind · _) (Function.update_self path' _ d.files)
        · right
          exact congrArg (Option.bind · _) (Function.update_of_ne heq _ d.files)
    · exact .inr rfl

theorem Inv.save (hdistinct : DistinctFiles engine) (h : Inv engine d) (typeId fieldId : Nat) :
    Inv engine (d.save engine typeId fieldId) := by
  have hsame : (d.save engine typeId fieldId).db = d.db ∧
      (d.save engine typeId fieldId).births = d.births ∧
      (d.save engine typeId fieldId).vectors = d.vectors ∧
      (d.save engine typeId fieldId).states = d.states ∧
      (d.save engine typeId fieldId).nodes = d.nodes := by
    unfold Data.save
    split
    · exact ⟨rfl, rfl, rfl, rfl, rfl⟩
    · split_ifs <;> exact ⟨rfl, rfl, rfl, rfl, rfl⟩
  obtain ⟨hdb, hbirths, hvectors, hstates, hnodes⟩ := hsame
  have hnamed {slot : Slot} {birth : Birth} :
      Named (d.save engine typeId fieldId) slot birth ↔ Named d slot birth :=
    named_congr (congrArg Database.store hdb) hbirths
  refine ⟨⟨?_, ?_, ?_⟩, ?_, ?_, ?_⟩
  · rw [hvectors]
    exact fun slot vector birth hrow => hnamed.mpr (h.kept.vectors slot vector birth hrow)
  · rw [hstates]
    exact fun slot state birth hrow => hnamed.mpr (h.kept.states slot state birth hrow)
  · rw [hnodes]
    exact fun slot vector birth hrow => hnamed.mpr (h.kept.nodes slot vector birth hrow)
  · intro slot vector birth hrow
    rcases fileNode_save hdistinct typeId fieldId slot with heq | heq
    · exact hnamed.mpr (h.kept.nodes slot vector birth (heq.symm.trans hrow))
    · exact hnamed.mpr (h.files slot vector birth (heq.symm.trans hrow))
  · rw [hnodes, hvectors]
    exact h.nodes_stored
  · intro slot hrow
    rw [hvectors]
    rcases fileNode_save hdistinct typeId fieldId slot with heq | heq
    · exact h.nodes_stored slot (heq ▸ hrow)
    · exact h.files_stored slot (heq ▸ hrow)

theorem Inv.reconcile (h : Inv engine d) : Inv engine d.reconcile := by
  refine Inv.enqueueJobs (h.erase _) fun job hjob => ?_
  have htext := (mem_filter.mp hjob).2
  exact alive_of_sourceText htext

theorem Inv.reopen (h : Inv engine d) (accepted : Nat × Nat → Bool) :
    Inv engine (d.reopen engine accepted) := by
  refine Inv.reconcile ⟨⟨h.kept.vectors, h.kept.states, ?_⟩, h.files, ?_, h.files_stored⟩
  · intro slot vector birth hrow
    dsimp only at hrow
    split_ifs at hrow
    · rw [or_eq_some_iff] at hrow
      obtain hfile | ⟨-, hstored⟩ := hrow
      · exact h.files slot vector birth hfile
      · exact h.kept.vectors slot vector birth hstored
    · exact h.kept.vectors slot vector birth hrow
  · intro slot hrow
    dsimp only at hrow ⊢
    split_ifs at hrow
    · rw [isSome_or, Bool.or_eq_true] at hrow
      obtain hfile | hstored := hrow
      · exact h.files_stored slot hfile
      · exact hstored
    · exact hrow

theorem storeAndIndex_same (d : Data fields φ) (slot : Slot) (vector : List φ) :
    SameObjects d (d.storeAndIndex slot vector) := ⟨rfl, rfl⟩

theorem Inv.ingest (h : Inv engine d)
    (halive : ∀ row ∈ rows, d.Alive (owner (toLex (⟨typeId, row.1⟩, fieldId)))) :
    Inv engine (d.ingest typeId fieldId rows) := by
  refine Inv.foldl (n := fun row : Id × List φ => owner (toLex (⟨typeId, row.1⟩, fieldId)))
    ?_ ?_ h halive
  · exact fun d row => storeAndIndex_same d _ _
  · exact fun d row h halive => h.storeAndIndex halive row.2

theorem stored_of_ingest
    (h : (d.vectors.lookup slot).isSome ∨ ∃ row ∈ rows, slot = toLex (⟨typeId, row.1⟩, fieldId)) :
    ((d.ingest typeId fieldId rows).vectors.lookup slot).isSome := by
  induction rows generalizing d with
  | nil =>
    obtain hstored | ⟨row, hrow, -⟩ := h
    · exact hstored
    · exact absurd hrow not_mem_nil
  | cons row rows ih =>
    have hlookup := lookup_insert d.vectors (toLex (⟨typeId, row.1⟩, fieldId))
      (row.2, d.birth (toLex (⟨typeId, row.1⟩, fieldId))) slot
    refine ih ?_
    by_cases hslot : slot = toLex (⟨typeId, row.1⟩, fieldId)
    · left
      rw [if_pos hslot] at hlookup
      exact isSome_of_eq_some hlookup
    · rw [if_neg hslot] at hlookup
      obtain hstored | ⟨row', hrow', heq⟩ := h
      · left
        exact hlookup ▸ hstored
      · obtain rfl | hrow' := mem_cons.mp hrow'
        · exact absurd heq hslot
        · exact .inr ⟨row', hrow', heq⟩

theorem Named.call (h : Named d slot birth)
    (halive : (d.call engine c).Alive (owner slot)) : Named (d.call engine c) slot birth := by
  refine ⟨halive, ?_⟩
  have hbirths : (d.call engine c).births (owner slot) = d.births (owner slot) :=
    if_neg fun hborn => hborn.1 h.1
  exact (congrArg (Prod.mk (owner slot)) hbirths).trans h.2

theorem Inv.call (h : Inv engine d) (hharmless : Harmless engine d (.call c)) :
    Inv engine (d.call engine c) := by
  have hstored : ∀ slot, (d.vectors.lookup slot).isSome → d.Alive (owner slot) →
      (d.call engine c).Alive (owner slot) := by
    intro slot hrow halive
    by_contra hdead
    rw [(hharmless slot halive ((gone_iff halive).mp hdead)).1] at hrow
    exact Bool.noConfusion hrow
  constructor
  · constructor
    · intro slot vector birth hrow
      have hnamed := h.kept.vectors slot vector birth hrow
      exact hnamed.call (hstored slot (isSome_of_eq_some hrow) hnamed.1)
    · intro slot state birth hrow
      have hnamed := h.kept.states slot state birth hrow
      refine hnamed.call ?_
      by_contra hdead
      have hnone := (hharmless slot hnamed.1 ((gone_iff hnamed.1).mp hdead)).2
      cases hrow.symm.trans hnone
    · intro slot vector birth hrow
      have hnamed := h.kept.nodes slot vector birth hrow
      have hsome := h.nodes_stored slot (isSome_of_eq_some hrow)
      exact hnamed.call (hstored slot hsome hnamed.1)
  · intro slot vector birth hrow
    have hnamed := h.files slot vector birth hrow
    have hsome := h.files_stored slot (isSome_of_eq_some hrow)
    exact hnamed.call (hstored slot hsome hnamed.1)
  · exact h.nodes_stored
  · exact h.files_stored

theorem Inv.step (hdistinct : DistinctFiles engine) (h : Inv engine d)
    (hharmless : Harmless engine d s) : Inv engine (step engine d s) := by
  cases s with
  | call c => exact h.call hharmless
  | enqueue key => exact h.enqueue key
  | ingest typeId fieldId rows => exact h.ingest hharmless
  | work batchSize outcome => exact h.work batchSize outcome
  | save typeId fieldId => exact h.save hdistinct typeId fieldId
  | reopen accepted => exact h.reopen accepted

theorem harmless_of_kept (hkept : Kept (step engine d s)) : Harmless engine d s := by
  cases s with
  | call c =>
    intro slot halive hremoved
    have hdead := (gone_iff halive).mpr hremoved
    constructor
    · rw [eq_none_iff_forall_ne_some]
      intro row hrow
      exact hdead (hkept.vectors slot row.1 row.2 hrow).1
    · rw [eq_none_iff_forall_ne_some]
      intro row hrow
      exact hdead (hkept.states slot row.1 row.2 hrow).1
  | ingest typeId fieldId rows =>
    intro row hrow
    have hstored : ((d.ingest typeId fieldId rows).vectors.lookup
        (toLex (⟨typeId, row.1⟩, fieldId))).isSome := stored_of_ingest (.inr ⟨row, hrow, rfl⟩)
    obtain ⟨⟨vector, birth⟩, hlookup⟩ := isSome_iff_exists.mp hstored
    have halive := (hkept.vectors _ vector birth hlookup).1
    have hsame := SameObjects.foldl (f := fun (d : Data fields φ) (row : Id × List φ) =>
      d.storeAndIndex (toLex (⟨typeId, row.1⟩, fieldId)) row.2)
      (fun d row => storeAndIndex_same d _ _) rows d
    exact (hsame.alive_iff _).mp halive
  | _ => trivial

theorem Kept.noPlaceLost (h : Kept d) {F : Type} [Authz.JsonNumber F] (ctx : Query.ExecContext F) :
    NoPlaceLost ctx d := by
  intro typeName t fieldId hits k ht hhits
  have hloaded : ∀ hit ∈ hits.take k,
      ((Engine.get ctx.schema d.db.store typeName hit.1).toOption.map
        fun obj => (obj, hit.2)).isSome = true := by
    intro hit hhit
    have hnode := hhits hit (mem_of_mem_take hhit)
    obtain ⟨⟨vector, birth⟩, hnode⟩ := isSome_iff_exists.mp hnode
    have halive := (h.nodes _ vector birth hnode).1
    have howner : owner (toLex (⟨t.typeId.toNat, hit.1⟩, fieldId)) = (t.typeId, hit.1) := by
      exact congrArg (·, hit.1) UInt64.ofNat_toNat
    rw [howner] at halive
    obtain ⟨obj, hobj⟩ := Query.get_of_has ht halive
    rw [hobj]
    rfl
  have hall := filterMap_length_eq_length.mpr hloaded
  unfold Query.rankedRows
  rw [hall, length_take]

end

variable {engine : Schema}

theorem along_harmless_iff (hdistinct : DistinctFiles engine) {d : Data fields φ}
    (h : Inv engine d) {steps : List (Step φ)} :
    Along (step engine) (Harmless engine) d steps ↔
      ∀ pre, pre <+: steps → Kept (exec (step engine) d pre) := by
  induction steps generalizing d with
  | nil =>
    refine iff_of_true trivial fun pre hpre => ?_
    rw [prefix_nil.mp hpre]
    exact h.kept
  | cons s steps ih =>
    change Harmless engine d s ∧ Along (step engine) (Harmless engine) (step engine d s) steps ↔ _
    constructor
    · rintro ⟨hharmless, hrest⟩ pre hpre
      cases pre with
      | nil => exact h.kept
      | cons s' pre =>
        obtain ⟨rfl, htail⟩ := cons_prefix_cons.mp hpre
        exact (ih (h.step hdistinct hharmless)).mp hrest pre htail
    · intro hall
      have hfirst := hall [s] (cons_prefix_cons.mpr ⟨rfl, nil_prefix⟩)
      have hharmless := harmless_of_kept hfirst
      refine ⟨hharmless, (ih (h.step hdistinct hharmless)).mpr fun pre hpre => ?_⟩
      exact hall (s :: pre) (cons_prefix_cons.mpr ⟨rfl, hpre⟩)

/-- Where each index has a file of its own, the rows and the nodes are of live objects, and no place
is lost to a deleted one, just in the runs where no object with a vector is deleted and no vector is
given for an absent object. -/
theorem leftovers_none_iff (fields : VectorSchema) (φ : Type) (engine : Schema)
    (hdistinct : DistinctFiles engine) (steps : List (Step φ)) :
    (∀ pre, pre <+: steps → Kept (exec (step engine) (Data.new fields φ) pre) ∧
      ∀ (F : Type) [Authz.JsonNumber F] (ctx : Query.ExecContext F),
        NoPlaceLost ctx (exec (step engine) (Data.new fields φ) pre)) ↔
    Along (step engine) (Harmless engine) (Data.new fields φ) steps := by
  rw [along_harmless_iff hdistinct inv_new]
  constructor
  · exact fun h pre hpre => (h pre hpre).1
  · intro h pre hpre
    have hkept := h pre hpre
    exact ⟨hkept, fun F _ ctx => hkept.noPlaceLost ctx⟩

def noteTypes : Schema where
  types :=
    [{ name := "Note"
       typeId := 1
       fields :=
        [{ name := "body", fieldType := .scalar .string, directives := [], fieldId := 1
           relId := 0 },
         { name := "embedding", fieldType := .vector 1, directives := [], fieldId := 2
           relId := 0 }] }]

def noteFields : VectorSchema where
  fields := [⟨1, 2, "body", "mini"⟩]
  ids := by
    intro f hf g hg _ _
    rw [List.mem_singleton.mp hf, List.mem_singleton.mp hg]

def noteSlot : Slot := toLex (⟨1, 1⟩, 2)

def noteReopened : List (Step Nat) :=
  [.call (.create "Note" ∅), .ingest 1 2 [(1, [3])], .save 1 2, .reopen fun _ => true]

theorem leftovers_none_iff_reopened :
    Kept (exec (step noteTypes) (Data.new noteFields Nat) noteReopened) ∧
    (exec (step noteTypes) (Data.new noteFields Nat) noteReopened).nodes noteSlot =
      some ([3], ((1, 1), 1)) := by
  have hiff := leftovers_none_iff noteFields Nat noteTypes (nodup_singleton _) noteReopened
  have halong : Along (step noteTypes) (Harmless noteTypes) (Data.new noteFields Nat)
      noteReopened := by
    refine ⟨fun _ _ h => h.elim, ?_, trivial, trivial, trivial⟩
    rw [Harmless, forall_mem_singleton]
    decide +kernel
  exact ⟨(hiff.mpr halong noteReopened prefix_rfl).1, by decide +kernel⟩

def noteDeleted : List (Step Nat) :=
  [.call (.create "Note" ∅), .ingest 1 2 [(1, [3])], .call (.delete "Note" 1)]

def noteReused : List (Step Nat) :=
  noteDeleted ++ [.reopen fun _ => true, .call (.create "Note" ∅)]

/-- The row and the node outlive the note: a search loses a place to it, and then they pass for
those of the next note. -/
theorem deleted_note_left :
    ¬ Kept (exec (step noteTypes) (Data.new noteFields Nat) noteDeleted) ∧
    (∀ (F : Type) [Authz.JsonNumber F] (ctx : Query.ExecContext F), ctx.schema = noteTypes →
      ¬ NoPlaceLost ctx (exec (step noteTypes) (Data.new noteFields Nat) noteDeleted)) ∧
    (exec (step noteTypes) (Data.new noteFields Nat) noteReused).Alive (owner noteSlot) ∧
    ¬ Kept (exec (step noteTypes) (Data.new noteFields Nat) noteReused) := by
  have hrow : (exec (step noteTypes) (Data.new noteFields Nat) noteDeleted).vectors.lookup
      noteSlot = some ([3], ((1, 1), 1)) := by decide +kernel
  have hnode : ((exec (step noteTypes) (Data.new noteFields Nat) noteDeleted).nodes
      noteSlot).isSome := by decide +kernel
  have hdead : ¬ (exec (step noteTypes) (Data.new noteFields Nat) noteDeleted).Alive
      (owner noteSlot) := by decide +kernel
  have hreused : (exec (step noteTypes) (Data.new noteFields Nat) noteReused).vectors.lookup
      noteSlot = some ([3], ((1, 1), 1)) := by decide +kernel
  have hbirths : (exec (step noteTypes) (Data.new noteFields Nat) noteReused).births
      (owner noteSlot) = 2 := by decide +kernel
  refine ⟨fun h => hdead (h.vectors noteSlot _ _ hrow).1, ?_, by decide +kernel, fun h => ?_⟩
  · intro F _ ctx hschema h
    have htype : ctx.schema.getType "Note" = noteTypes.types.head? := by
      rw [hschema]
      rfl
    have hall := h "Note" _ 2 [(1, { score := 0, rerankScore := none })] 1 htype ?_
    · have hgone : (Engine.get ctx.schema
          (exec (step noteTypes) (Data.new noteFields Nat) noteDeleted).db.store "Note"
          1).toOption = none := by
        rw [hschema]
        rfl
      unfold Query.rankedRows at hall
      simp [hgone] at hall
    · intro hit hhit
      rw [mem_singleton.mp hhit]
      exact hnode
  · have hnamed := (h.vectors noteSlot _ _ hreused).2
    exact absurd ((congrArg Prod.snd hnamed).symm.trans hbirths) (by decide)

end RhypeDb.Vectorizer.Leftovers
