import RhypeDb.Basic.SnapshotHistory
import RhypeDb.Fulltext.Consistency

/-! The backfill against live writers with nothing but conflict detection: every chunk and every
write is a transaction of its own, which reads at its snapshot and is refused if a key it writes
was committed since. A change of an object that the snapshot shows unindexed writes the object's
`l:` row, and so does the chunk that indexes it. -/

namespace RhypeDb.Fulltext

open ByteOrder Engine List Option SnapshotHistory Storage

namespace Converge

structure Data where
  store : Store
  index : Index

structure Commit where
  writes : Writes Key Payload
  rows : RowWrites

def Data.apply (d : Data) (c : Commit) : Data where
  store := d.store.apply c.writes
  index := d.index.apply c.rows

def Commit.keys (c : Commit) : List (Key ⊕ RowKey) :=
  (c.writes.map fun w => .inl w.1) ++ c.rows.map fun w => .inr w.1

abbrev History := SnapshotHistory Data Commit

inductive Phase
  | idle
  | begun (snapshot : Nat)
  | staged (snapshot : Nat) (commit : Commit)
  | finished (ok : Bool)

def Phase.unstaged? : Phase → Option Nat
  | .begun snapshot => some snapshot
  | _ => none

inductive ChunkPhase
  | idle
  | begun (snapshot : Nat)
  | staged (snapshot : Nat) (commit : Commit) (next : Id) (done : Bool)

structure Sys where
  history : History
  nextObjectId : Id
  phase : Nat → Phase
  cursor : Id
  built : Bool
  size : Nat
  chunk : ChunkPhase

/-- The next step of one foreground write, or of the builder. The generations of objects are in
memory and move with aborts too; no index row depends on them, so a step is given them. -/
inductive Event
  | foreground (p : Nat) (versions : Versions)
  | backfill (raw : RawScan)

def fulltextBuildChunk : Nat := 512

def start (store : Store) (index : Index) (nextObjectId : Id) : Sys where
  history := { base := ⟨store, index⟩, commits := [] }
  nextObjectId := nextObjectId
  phase := fun _ => .idle
  cursor := 0
  built := false
  size := fulltextBuildChunk
  chunk := .idle

namespace Sys

variable (s : Sys)

def dataAt (snapshot : Nat) : Data := s.history.stateAt Data.apply snapshot

def data : Data := s.history.latest Data.apply

def Refused (snapshot : Nat) (c : Commit) : Prop :=
  s.history.Conflicts Commit.keys snapshot c.keys

instance (snapshot : Nat) (c : Commit) : Decidable (s.Refused snapshot c) :=
  inferInstanceAs (Decidable (s.history.Conflicts Commit.keys snapshot c.keys))

def setPhase (p : Nat) (phase : Phase) : Sys :=
  { s with phase := Function.update s.phase p phase }

end Sys

variable (analyze : String → Bytes → List Token) (ff : FulltextField) (schema : Schema)
  (calls : Nat → Database.Call)

/-- Begin, read and stage, commit; a refused write is over. -/
def foreground (s : Sys) (p : Nat) (versions : Versions) : Sys :=
  match s.phase p with
  | .idle => s.setPhase p (.begun s.history.version)
  | .begun n =>
    let view := (s.dataAt n).store.view
    match Database.stage schema view ⟨s.nextObjectId, versions⟩ (calls p) with
    | (.ok writes, c) =>
      let rows := (stageIndexRows analyze ff schema view (s.dataAt n).index (calls p) writes).1
      { s with nextObjectId := c.nextObjectId }.setPhase p (.staged n ⟨writes, rows⟩)
    | (.error _, c) => { s with nextObjectId := c.nextObjectId }.setPhase p (.finished false)
  | .staged n commit =>
    if s.Refused n commit then s.setPhase p (.finished false)
    else { s with history := s.history.commit commit }.setPhase p (.finished true)
  | .finished _ => s

/-- A refused chunk is scanned anew with half the size, behind a committed one the size is full
again. Nothing follows the chunk that writes Built. -/
def backfill (s : Sys) (raw : RawScan) : Sys :=
  match s.chunk with
  | .idle => if s.built then s else { s with chunk := .begun s.history.version }
  | .begun n =>
    let d := s.dataAt n
    let chunk := scanChunk d.store ff.typeId raw s.cursor s.size
    let rows := (stageChanges analyze ff d.index
      (Indexer.unindexed ff d.index chunk.objects)).1
    let next := chunk.nextCursor.getD (UInt64.ofNat (2 ^ 64 - 1))
    { s with chunk := .staged n ⟨[], rows⟩ next (!chunk.more || chunk.nextCursor.isNone) }
  | .staged n commit next done =>
    if s.Refused n commit then { s with size := max (s.size / 2) 1, chunk := .idle }
    else
      { s with
        history := s.history.commit commit
        cursor := next
        built := done
        size := fulltextBuildChunk
        chunk := .idle }

def step (s : Sys) : Event → Sys
  | .foreground p versions => foreground analyze ff schema calls s p versions
  | .backfill raw => backfill analyze ff s raw

def Sound (s : Sys) : Event → Prop
  | .foreground p _ => ∀ n ∈ (s.phase p).unstaged?,
    DrawsFresh schema (s.dataAt n).store s.nextObjectId (calls p)
  | .backfill _ => True

instance (s : Sys) : ∀ event, Decidable (Sound schema calls s event)
  | .foreground p _ => Option.decidableForallMem
    (p := fun n => DrawsFresh schema (s.dataAt n).store s.nextObjectId (calls p)) _
  | .backfill _ => .isTrue trivial

/-- The text and the `l:` row of an object. -/
def Data.text (d : Data) (id : Id) : Option Bytes := textAt ff d.store id

def Data.row (d : Data) (id : Id) : Option Row := d.index.lookup (.doc ff.generation id)

/-- What has become of the texts and the `l:` rows, when these are the keys written in between. -/
structure Evolves (a b : Data) (written : Key ⊕ RowKey → Prop) : Prop where
  text : ∀ id, ¬ written (.inl (.object ff.typeId id)) → b.text ff id = a.text ff id
  row : ∀ id, ¬ written (.inr (.doc ff.generation id)) → b.row ff id = a.row ff id
  indexed : ∀ id, ¬ written (.inl (.object ff.typeId id)) →
    b.row ff id = a.row ff id ∨ a.row ff id = none
  kept : ∀ id, ¬ written (.inr (.doc ff.generation id)) → (a.text ff id).isSome →
    a.row ff id = none → b.text ff id = a.text ff id
  unindexed : ∀ id, (b.text ff id).isSome → b.row ff id = none →
    b.text ff id = a.text ff id ∧ a.row ff id = none

section

variable {ff} {a b c : Data} {P Q : Key ⊕ RowKey → Prop}

theorem Evolves.refl (a : Data) : Evolves ff a a fun _ => False where
  text _ _ := rfl
  row _ _ := rfl
  indexed _ _ := .inl rfl
  kept _ _ _ _ := rfl
  unindexed _ _ hrow := ⟨rfl, hrow⟩

theorem Evolves.trans (h : Evolves ff a b P) (h' : Evolves ff b c Q) :
    Evolves ff a c fun k => P k ∨ Q k where
  text := by
    intro id hno
    rw [not_or] at hno
    exact (h'.text id hno.2).trans (h.text id hno.1)
  row := by
    intro id hno
    rw [not_or] at hno
    exact (h'.row id hno.2).trans (h.row id hno.1)
  indexed := by
    intro id hno
    rw [not_or] at hno
    rcases h.indexed id hno.1 with hsame | hnone
    · rw [← hsame]
      exact h'.indexed id hno.2
    · exact .inr hnone
  kept := by
    intro id hno htext hrow
    rw [not_or] at hno
    have htext' := h.kept id hno.1 htext hrow
    have hrow' := (h.row id hno.1).trans hrow
    rw [← htext'] at htext ⊢
    exact h'.kept id hno.2 htext hrow'
  unindexed := by
    intro id htext hrow
    obtain ⟨htext', hrow'⟩ := h'.unindexed id htext hrow
    rw [htext'] at htext ⊢
    exact h.unindexed id htext hrow'

end

def StagedCall (call : Database.Call) (a : Data) (commit : Commit) : Prop :=
  ∃ c c', Database.stage schema a.store.view c call = (.ok commit.writes, c') ∧
    DrawsFresh schema a.store c.nextObjectId call ∧
    commit.rows = (stageIndexRows analyze ff schema a.store.view a.index call commit.writes).1

def StagedChunk (a : Data) (commit : Commit) (cursor next : Id) (done : Bool) : Prop :=
  ∃ raw size, 1 ≤ size ∧ commit.writes = [] ∧
    commit.rows = (stageChanges analyze ff a.index (Indexer.unindexed ff a.index
      (scanChunk a.store ff.typeId raw cursor size).objects)).1 ∧
    next = (scanChunk a.store ff.typeId raw cursor size).nextCursor.getD
      (UInt64.ofNat (2 ^ 64 - 1)) ∧
    done = (!(scanChunk a.store ff.typeId raw cursor size).more ||
      (scanChunk a.store ff.typeId raw cursor size).nextCursor.isNone)

section

variable {analyze ff schema} {a d : Data} {commit : Commit} {written : Key ⊕ RowKey → Prop}
  {id : Id}

theorem mem_keys_inl {k : Key} : .inl k ∈ commit.keys ↔ k ∈ commit.writes.map Prod.fst := by
  unfold Commit.keys
  simp

theorem mem_keys_inr {k : RowKey} : .inr k ∈ commit.keys ↔ k ∈ commit.rows.map Prod.fst := by
  unfold Commit.keys
  simp

theorem row_apply_of_not_mem (h : .inr (.doc ff.generation id) ∉ commit.keys) :
    (d.apply commit).row ff id = d.row ff id := by
  rw [mem_keys_inr] at h
  unfold Data.row Data.apply
  rw [Index.lookup_apply, lastWrite_eq_none.mpr fun w hw heq => h (mem_map.mpr ⟨w, hw, heq⟩)]
  rfl

theorem text_apply_of_not_mem (h : .inl (.object ff.typeId id) ∉ commit.keys) :
    (d.apply commit).text ff id = d.text ff id := by
  rw [mem_keys_inl] at h
  apply textAt_apply_of_not_written
  rw [mem_writtenIds]
  rintro ⟨w, hw, heq⟩
  exact h (mem_map.mpr ⟨w, hw, heq⟩)

theorem text_apply_congr (h : .inl (.object ff.typeId id) ∈ commit.keys) :
    (d.apply commit).text ff id = (a.apply commit).text ff id := by
  rw [mem_keys_inl] at h
  obtain ⟨value, hlast⟩ := isSome_iff_exists.mp (isSome_lastWrite.mpr h)
  unfold Data.text Data.apply textAt
  rw [Store.lookup_apply, Store.lookup_apply, hlast]
  rfl

variable {call : Database.Call}

theorem StagedCall.changed (h : StagedCall analyze ff schema call a commit)
    (hevolves : Evolves ff a d written) (hno : ∀ k ∈ commit.keys, ¬ written k) :
    Changed (d.text ff) ((d.apply commit).text ff)
      (changes ff schema a.store.view call commit.writes) := by
  obtain ⟨c, c', hok, hfresh, -⟩ := h
  have hchanged := @changed_stage schema a.store c c' ff commit.writes call hfresh hok
  have hmem : ∀ ch ∈ changes ff schema a.store.view call commit.writes,
      .inl (.object ff.typeId ch.1) ∈ commit.keys :=
    fun ch hch => mem_keys_inl.mpr (object_mem_of_changes hok ch hch)
  refine ⟨hchanged.nodup, ?_, ?_, ?_⟩
  · intro ch hch
    rw [hevolves.text ch.1 (hno _ (hmem ch hch))]
    exact hchanged.old ch hch
  · intro ch hch
    rw [text_apply_congr (hmem ch hch)]
    exact hchanged.new ch hch
  · intro id hid
    by_cases hwritten : .inl (.object ff.typeId id) ∈ commit.keys
    · have hsame : (a.apply commit).text ff id = a.text ff id := hchanged.frame id hid
      rw [text_apply_congr hwritten, hsame, hevolves.text id (hno _ hwritten)]
    · exact text_apply_of_not_mem hwritten

theorem doc_mem_rows (h : StagedCall analyze ff schema call a commit) {ch : Id × Change}
    (hch : ch ∈ changes ff schema a.store.view call commit.writes) (hold : ch.2.old.isSome)
    (hrow : a.row ff ch.1 = none) : .inr (.doc ff.generation ch.1) ∈ commit.keys := by
  obtain ⟨c, c', hok, hfresh, hrows⟩ := h
  obtain ⟨w, hw, heq⟩ := mem_map.mp (@doc_mem_stageChange analyze ff _ _ _ hold hrow)
  rw [mem_keys_inr, hrows]
  exact mem_map.mpr ⟨w, mem_flatMap.mpr ⟨ch, hch, hw⟩, heq⟩

theorem StagedCall.agree (h : StagedCall analyze ff schema call a commit)
    (hevolves : Evolves ff a d written) (hno : ∀ k ∈ commit.keys, ¬ written k)
    (hsynced : Synced analyze ff (d.text ff) d.index) :
    ∀ ch ∈ changes ff schema a.store.view call commit.writes,
      a.row ff ch.1 = d.row ff ch.1 := by
  intro ch hch
  have hchanged := h.changed hevolves hno
  obtain ⟨c, c', hok, hfresh, hrows⟩ := id h
  have hobject := hno _ (mem_keys_inl.mpr (object_mem_of_changes hok ch hch))
  rcases hevolves.indexed ch.1 hobject with hsame | hnone
  · exact hsame.symm
  · cases hold : ch.2.old with
    | some text =>
      have hdoc := doc_mem_rows h hch (by rw [hold]; rfl) hnone
      exact (hevolves.row ch.1 (hno _ hdoc)).symm
    | none =>
      have hd := hsynced ch.1
      rw [hchanged.old ch hch, hold, indexedText_none] at hd
      rw [hnone]
      exact hd.length.symm

theorem StagedCall.commits (h : StagedCall analyze ff schema call a commit)
    (hevolves : Evolves ff a d written) (hno : ∀ k ∈ commit.keys, ¬ written k)
    (hsynced : Synced analyze ff (d.text ff) d.index) :
    Synced analyze ff ((d.apply commit).text ff) (d.apply commit).index ∧
      Evolves ff d (d.apply commit) fun k => k ∈ commit.keys := by
  have hchanged := h.changed hevolves hno
  have hagree := h.agree hevolves hno hsynced
  obtain ⟨hsynced', hindexed, -⟩ := hsynced.stageChanges hchanged hagree
  obtain ⟨c, c', hok, hfresh, hrows⟩ := id h
  have hindex : (d.apply commit).index = d.index.apply (stageChanges analyze ff a.index
      (changes ff schema a.store.view call commit.writes)).1 := by
    unfold Data.apply
    rw [hrows]
    rfl
  rw [← hindex] at hsynced' hindexed
  have hframe : ∀ id ∉ (changes ff schema a.store.view call commit.writes).map Prod.fst,
      (d.apply commit).row ff id = d.row ff id := by
    intro id hid
    unfold Data.row
    rw [hindex]
    exact lookup_stageChanges_doc hid
  refine ⟨hsynced', ⟨fun _ => text_apply_of_not_mem, fun _ => row_apply_of_not_mem, ?_, ?_, ?_⟩⟩
  · intro id hobject
    left
    apply hframe
    intro hid
    obtain ⟨ch, hch, rfl⟩ := mem_map.mp hid
    exact hobject (mem_keys_inl.mpr (object_mem_of_changes hok ch hch))
  · intro id hdoc htext hrow
    apply hchanged.frame
    intro hid
    obtain ⟨ch, hch, rfl⟩ := mem_map.mp hid
    refine hdoc (doc_mem_rows h hch ?_ ((hagree ch hch).trans hrow))
    rw [← hchanged.old ch hch]
    exact htext
  · intro id htext hrow
    have hid : id ∉ (changes ff schema a.store.view call commit.writes).map Prod.fst := by
      intro hid
      have hsome : ((d.apply commit).row ff id).isSome = _ := hindexed id hid
      rw [hrow] at hsome
      have htext : ((d.apply commit).text ff id).isSome = true := htext
      rw [htext] at hsome
      cases hsome
    exact ⟨hchanged.frame id hid, (hframe id hid).symm.trans hrow⟩

theorem StagedChunk.commits {cursor next : Id} {done : Bool}
    (h : StagedChunk analyze ff a commit cursor next done)
    (hevolves : Evolves ff a d written) (hno : ∀ k ∈ commit.keys, ¬ written k)
    (hsynced : Synced analyze ff (d.text ff) d.index)
    (hcovered : ∀ id, (d.text ff id).isSome → cursor ≠ 0 ∧ id ≤ cursor → (d.row ff id).isSome) :
    Synced analyze ff ((d.apply commit).text ff) (d.apply commit).index ∧
    Evolves ff d (d.apply commit) (fun k => k ∈ commit.keys) ∧
    ∀ id, ((d.apply commit).text ff id).isSome → done = true ∨ next ≠ 0 ∧ id ≤ next →
      ((d.apply commit).row ff id).isSome := by
  obtain ⟨raw, size, hsize, hwrites, hrows, hnext, hdone⟩ := h
  obtain ⟨hnodup, hlive⟩ := @scanChunk_objects a.store ff.typeId raw cursor size
  set chunk := scanChunk a.store ff.typeId raw cursor size with hchunk
  set changes := Indexer.unindexed ff a.index chunk.objects with hchanges
  have htext : ∀ id, (d.apply commit).text ff id = d.text ff id := by
    intro id
    apply text_apply_of_not_mem
    rw [mem_keys_inl, hwrites]
    exact not_mem_nil
  have hdoc : ∀ c ∈ changes, .inr (.doc ff.generation c.1) ∈ commit.keys := by
    intro c hc
    obtain ⟨data, text, -, -, -, hchange⟩ := mem_unindexed.mp hc
    rw [mem_keys_inr, hrows]
    refine mem_map.mpr ⟨(.doc ff.generation c.1,
      some (.docLen (tokenizeForIndex analyze ff text).docLen)), ?_, rfl⟩
    refine mem_flatMap.mpr ⟨c, hc, ?_⟩
    rw [hchange]
    exact mem_append_right _ (mem_singleton_self _)
  have hunindexed : ∀ c ∈ changes, a.index.lookup (.doc ff.generation c.1) = none ∧
      d.index.lookup (.doc ff.generation c.1) = none ∧ d.text ff c.1 = c.2.new ∧
      c.2.old = none := by
    intro c hc
    obtain ⟨data, text, ho, hstored, hrow, hchange⟩ := mem_unindexed.mp hc
    have hsince := hno _ (hdoc c hc)
    have hscanned : a.text ff c.1 = some text := by
      unfold Data.text textAt
      rw [hlive _ ho]
      exact hstored
    refine ⟨hrow, (hevolves.row c.1 hsince).trans hrow, ?_, by rw [hchange]; rfl⟩
    rw [hevolves.kept c.1 hsince (by rw [hscanned]; rfl) hrow, hscanned, hchange]
    rfl
  obtain ⟨hsynced', hindexed, -⟩ := hsynced.backfill (nodup_unindexed hnodup) hunindexed
  have hindex : (d.apply commit).index =
      d.index.apply (stageChanges analyze ff a.index changes).1 := by
    unfold Data.apply
    rw [hrows]
  rw [← hindex] at hsynced' hindexed
  have hframe : ∀ id ∉ changes.map Prod.fst, (d.apply commit).row ff id = d.row ff id := by
    intro id hid
    unfold Data.row
    rw [hindex]
    exact lookup_stageChanges_doc hid
  rw [← funext htext] at hsynced' hindexed
  have hindexed : ∀ id ∈ changes.map Prod.fst, ((d.apply commit).text ff id).isSome →
      (d.apply commit).row ff id ≠ none := by
    intro id hid hsome hrow
    have hrow' : ((d.apply commit).row ff id).isSome = _ := hindexed id hid
    rw [hrow, hsome] at hrow'
    cases hrow'
  have hunindexed' : ∀ id, ((d.apply commit).text ff id).isSome →
      (d.apply commit).row ff id = none →
      (d.apply commit).text ff id = d.text ff id ∧ d.row ff id = none := by
    intro id hsome hrow
    refine ⟨htext id, ?_⟩
    rw [← hframe id fun hid => hindexed id hid hsome hrow, hrow]
  refine ⟨hsynced', ⟨fun id _ => htext id, fun _ => row_apply_of_not_mem, ?_,
    fun id _ _ _ => htext id, hunindexed'⟩, ?_⟩
  · intro id _
    by_cases hid : id ∈ changes.map Prod.fst
    · obtain ⟨c, hc, rfl⟩ := mem_map.mp hid
      exact .inr (hunindexed c hc).2.1
    · exact .inl (hframe id hid)
  · intro id hsome hpassed
    by_contra hnone
    rw [not_isSome_iff_eq_none] at hnone
    -- an object that is not indexed has had its text since the scan, and no row then
    obtain ⟨hdtext, hdrow⟩ := hunindexed' id hsome hnone
    have hdsome : (d.text ff id).isSome := hdtext ▸ hsome
    obtain ⟨hatext, harow⟩ := hevolves.unindexed id hdsome hdrow
    by_cases hahead : cursor = 0 ∨ cursor < id
    · obtain ⟨text, hstored⟩ := isSome_iff_exists.mp (hatext ▸ hdsome)
      obtain ⟨data, hdata, -⟩ := bind_eq_some_iff.mp hstored
      rcases scanChunk_covers hsize hdata hahead with hvisited | ⟨hmore, n, hn, hlt⟩
      · refine hindexed id (mem_map.mpr ⟨(id, .created (some text)), ?_, rfl⟩) hsome hnone
        refine mem_unindexed.mpr ⟨data, text, hvisited, ?_, harow, rfl⟩
        rw [← hdata]
        exact hstored
      · rw [← hchunk] at hmore hn
        rw [hdone, hnext, hmore, mem_def.mp hn] at hpassed
        rcases hpassed with hend | ⟨-, hle⟩
        · cases hend
        · exact absurd hlt (UInt64.not_lt.mpr hle)
    · rw [not_or, UInt64.not_lt] at hahead
      have hrow := hcovered id hdsome hahead
      rw [hdrow] at hrow
      cases hrow

end

def PhaseOk (s : Sys) (call : Database.Call) : Phase → Prop
  | .begun n => n ≤ s.history.version
  | .staged n commit => n ≤ s.history.version ∧
    StagedCall analyze ff schema call (s.dataAt n) commit
  | _ => True

def ChunkOk (s : Sys) : ChunkPhase → Prop
  | .begun n => n ≤ s.history.version
  | .staged n commit next done => n ≤ s.history.version ∧
    StagedChunk analyze ff (s.dataAt n) commit s.cursor next done
  | .idle => True

/-- The index is synced in the last state, which every snapshot has evolved into; what the cursor
has passed is indexed. -/
structure Inv (s : Sys) : Prop where
  synced : Synced analyze ff (s.data.text ff) s.data.index
  evolves : ∀ n ≤ s.history.version,
    Evolves ff (s.dataAt n) s.data (s.history.WrittenSince Commit.keys n)
  covered : ∀ id, (s.data.text ff id).isSome → s.built = true ∨ s.cursor ≠ 0 ∧ id ≤ s.cursor →
    (s.data.row ff id).isSome
  size : 1 ≤ s.size
  writes : ∀ p, PhaseOk analyze ff schema s (calls p) (s.phase p)
  chunk : ChunkOk analyze ff s s.chunk

section

variable {analyze ff schema calls} {s : Sys}

variable {s' : Sys} {phase : Phase}

theorem snapshots_commit {commit : Commit} (hhistory : s'.history = s.history.commit commit) :
    s'.history.version = s.history.version + 1 ∧
      ∀ n ≤ s.history.version, s'.dataAt n = s.dataAt n := by
  unfold Sys.dataAt
  rw [hhistory]
  exact ⟨version_commit, fun n hn => stateAt_commit hn⟩

theorem PhaseOk.commit {commit : Commit} {call : Database.Call}
    (h : PhaseOk analyze ff schema s call phase) (hhistory : s'.history = s.history.commit commit) :
    PhaseOk analyze ff schema s' call phase := by
  obtain ⟨hversion, hdata⟩ := snapshots_commit hhistory
  cases phase with
  | idle => trivial
  | begun n =>
    have hn : n ≤ s.history.version := h
    show n ≤ s'.history.version
    omega
  | staged n commit =>
    obtain ⟨hn, hstaged⟩ := h
    refine ⟨by omega, ?_⟩
    rw [hdata n hn]
    exact hstaged
  | finished ok => trivial

theorem ChunkOk.commit {commit : Commit} {chunk : ChunkPhase} (h : ChunkOk analyze ff s chunk)
    (hhistory : s'.history = s.history.commit commit) (hcursor : s'.cursor = s.cursor) :
    ChunkOk analyze ff s' chunk := by
  obtain ⟨hversion, hdata⟩ := snapshots_commit hhistory
  cases chunk with
  | idle => trivial
  | begun n =>
    have hn : n ≤ s.history.version := h
    show n ≤ s'.history.version
    omega
  | staged n commit next done =>
    obtain ⟨hn, hstaged⟩ := h
    refine ⟨by omega, ?_⟩
    rw [hdata n hn, hcursor]
    exact hstaged

theorem Inv.evolves_commit (h : Inv analyze ff schema calls s) {commit : Commit}
    (hhistory : s'.history = s.history.commit commit)
    (hcommit : Evolves ff s.data (s.data.apply commit) fun k => k ∈ commit.keys) :
    ∀ n ≤ s'.history.version,
      Evolves ff (s'.dataAt n) s'.data (s'.history.WrittenSince Commit.keys n) := by
  unfold Sys.dataAt Sys.data
  rw [hhistory]
  exact SnapshotHistory.evolves_commit Evolves.refl Evolves.trans hcommit h.evolves

theorem data_commit {commit : Commit} (hhistory : s'.history = s.history.commit commit) :
    s'.data = s.data.apply commit := by
  unfold Sys.data
  rw [hhistory]
  exact latest_commit

theorem Inv.setPhase (h : Inv analyze ff schema calls s) {p : Nat} (next : Id)
    (hphase : PhaseOk analyze ff schema s (calls p) phase) :
    Inv analyze ff schema calls ({ s with nextObjectId := next }.setPhase p phase) where
  synced := h.synced
  evolves := h.evolves
  covered := h.covered
  size := h.size
  writes := by
    intro q
    by_cases hq : q = p
    · subst hq
      show PhaseOk analyze ff schema _ _ (Function.update s.phase q phase q)
      rw [Function.update_self]
      exact hphase
    · show PhaseOk analyze ff schema _ _ (Function.update s.phase p phase q)
      rw [Function.update_of_ne hq]
      exact h.writes q
  chunk := h.chunk

theorem Inv.foreground (h : Inv analyze ff schema calls s) {p : Nat} {versions : Versions}
    (hsound : Sound schema calls s (.foreground p versions)) :
    Inv analyze ff schema calls (foreground analyze ff schema calls s p versions) := by
  have hphase := h.writes p
  unfold Converge.foreground
  cases hp : s.phase p with
  | idle => exact h.setPhase s.nextObjectId (Nat.le_refl s.history.version)
  | begun n =>
    rw [hp] at hphase
    dsimp only
    have hfresh : DrawsFresh schema (s.dataAt n).store s.nextObjectId (calls p) :=
      hsound n (by rw [hp]; rfl)
    cases hstage : Database.stage schema (s.dataAt n).store.view ⟨s.nextObjectId, versions⟩
      (calls p) with
    | mk result c =>
      cases result with
      | error e => exact h.setPhase c.nextObjectId trivial
      | ok writes => exact h.setPhase c.nextObjectId ⟨hphase, _, _, hstage, hfresh, rfl⟩
  | staged n commit =>
    rw [hp] at hphase
    obtain ⟨hn, hstaged⟩ := hphase
    dsimp only
    by_cases hrefused : s.Refused n commit
    · rw [if_pos hrefused]
      exact h.setPhase s.nextObjectId trivial
    · rw [if_neg hrefused]
      have hno := fun k hk => not_writtenSince_of_not_conflicts hrefused (k := k) hk
      obtain ⟨hsynced, hevolves⟩ := hstaged.commits (h.evolves n hn) hno h.synced
      have hcommitted : Inv analyze ff schema calls
          { s with history := s.history.commit commit } := by
        have hdata : Sys.data { s with history := s.history.commit commit } =
            s.data.apply commit := data_commit rfl
        refine ⟨hdata ▸ hsynced, h.evolves_commit rfl hevolves, ?_, h.size,
          fun q => (h.writes q).commit rfl, h.chunk.commit rfl rfl⟩
        rw [hdata]
        intro id htext hpassed
        by_contra hnone
        rw [not_isSome_iff_eq_none] at hnone
        obtain ⟨hsame, hrow⟩ := hevolves.unindexed id htext hnone
        have hsome := h.covered id (hsame ▸ htext) hpassed
        rw [hrow] at hsome
        cases hsome
      exact hcommitted.setPhase s.nextObjectId trivial
  | finished ok => exact h

theorem Inv.backfill (h : Inv analyze ff schema calls s) (raw : RawScan) :
    Inv analyze ff schema calls (backfill analyze ff s raw) := by
  have hchunk := h.chunk
  unfold Converge.backfill
  cases hs : s.chunk with
  | idle =>
    dsimp only
    split_ifs
    · exact h
    · exact { h with chunk := Nat.le_refl s.history.version }
  | begun n =>
    rw [hs] at hchunk
    exact { h with chunk := ⟨hchunk, raw, s.size, h.size, rfl, rfl, rfl, rfl⟩ }
  | staged n commit next done =>
    rw [hs] at hchunk
    obtain ⟨hn, hstaged⟩ := hchunk
    dsimp only
    by_cases hrefused : s.Refused n commit
    · rw [if_pos hrefused]
      exact { h with size := Nat.le_max_right _ _, chunk := trivial }
    · rw [if_neg hrefused]
      have hno := fun k hk => not_writtenSince_of_not_conflicts hrefused (k := k) hk
      obtain ⟨hsynced, hevolves, hcovered⟩ := hstaged.commits (h.evolves n hn) hno h.synced
        fun id htext hpassed => h.covered id htext (.inr hpassed)
      set s' : Sys := { s with
        history := s.history.commit commit
        cursor := next
        built := done
        size := fulltextBuildChunk
        chunk := .idle } with hs'
      have hdata : s'.data = s.data.apply commit := data_commit rfl
      exact ⟨hdata ▸ hsynced, h.evolves_commit rfl hevolves, hdata ▸ hcovered,
        (by decide : 1 ≤ fulltextBuildChunk),
        fun q => (h.writes q).commit rfl, trivial⟩

theorem Inv.step (h : Inv analyze ff schema calls s) {event : Event}
    (hsound : Sound schema calls s event) :
    Inv analyze ff schema calls (step analyze ff schema calls s event) := by
  cases event with
  | foreground p versions => exact h.foreground hsound
  | backfill raw => exact h.backfill raw

theorem Inv.start {store : Store} {index : Index} {next : Id}
    (hnone : ∀ k ∈ index, k.generation ≠ ff.generation) :
    Inv analyze ff schema calls (start store index next) where
  synced := (@Indexer.Inv.start analyze ff ⟨store, ⟨next, fun _ _ => 0⟩⟩ index hnone).synced
  evolves := by
    intro n hn
    obtain rfl : n = 0 := Nat.le_zero.mp hn
    have hwritten : (Converge.start store index next).history.WrittenSince Commit.keys 0 =
        fun _ => False := funext fun k => eq_false not_writtenSince_version
    rw [hwritten]
    exact Evolves.refl _
  covered := by
    rintro id - (hbuilt | ⟨hcursor, -⟩)
    · cases hbuilt
    · exact absurd rfl hcursor
  size := (by decide : 1 ≤ fulltextBuildChunk)
  writes := fun _ => trivial
  chunk := trivial

end

def textRows (id : Id) (text : Option Bytes) : RowWrites :=
  (text.map fun t => stageDocPuts ff id (tokenizeForIndex analyze ff t)).getD []

/-- In every interleaving of foreground writes and the backfill, once Built is committed, the rows
of the generation are those of the texts: for every object, and so when all writes are over. -/
theorem backfill_converges (analyze : String → Bytes → List Token) (ff : FulltextField)
    (schema : Schema) (calls : Nat → Database.Call) (store : Store) (index : Index) (next : Id)
    (hnone : ∀ k ∈ index, k.generation ≠ ff.generation) (events : List Event)
    (hsound : Run.Along (step analyze ff schema calls) (Sound schema calls)
      (start store index next) events)
    (hbuilt : (Run.exec (step analyze ff schema calls) (start store index next) events).built) :
    ∀ id, RowsFrom ff
      (Run.exec (step analyze ff schema calls) (start store index next) events).data.index id
      (textRows analyze ff id (textAt ff
        (Run.exec (step analyze ff schema calls) (start store index next) events).data.store id)) := by
  have hinv := Run.exec_invariant (I := Inv analyze ff schema calls)
    (fun _ _ h hstep => h.step hstep) (Inv.start hnone) hsound
  intro id
  have hrows := hinv.synced id
  have hcovered := hinv.covered id
  unfold Data.text at hrows hcovered
  unfold Data.row at hcovered
  cases htext : textAt ff (Run.exec (step analyze ff schema calls) (Converge.start store index next)
      events).data.store id with
  | none =>
    rw [htext, indexedText_none] at hrows
    exact hrows.rowsFrom_nil
  | some text =>
    rw [htext] at hrows hcovered
    have hdoc := hcovered rfl (.inl hbuilt)
    unfold indexedText at hrows
    rw [if_pos hdoc] at hrows
    exact hrows.rowsFrom_puts

section

open Indexer

def fresh : Versions := fun _ _ => 0

def acrossChunk : Nat → Database.Call
  | 0 => .update "Note" 1 (note [99])
  | 1 => .delete "Note" 2
  | _ => .create "Note" (note [97])

/-- The chunk reads, the delete commits and refuses it; the next one refuses the update. -/
def refusedTwice : List Event :=
  [.backfill quiet, .backfill quiet, .foreground 1 fresh, .foreground 1 fresh, .foreground 1 fresh,
    .backfill quiet, .foreground 0 fresh, .foreground 0 fresh, .foreground 2 fresh,
    .foreground 2 fresh, .foreground 2 fresh, .backfill quiet, .backfill quiet, .backfill quiet,
    .foreground 0 fresh]

theorem backfill_converges_refusedTwice :
    (Run.exec (step chars bodyField notesSchema acrossChunk) (start oldNotes.store ∅ 4)
      refusedTwice).history.version = 3 ∧
    ∀ id, RowsFrom bodyField (Run.exec (step chars bodyField notesSchema acrossChunk)
        (start oldNotes.store ∅ 4) refusedTwice).data.index id
      (textRows chars bodyField id (textAt bodyField (Run.exec (step chars bodyField notesSchema
        acrossChunk) (start oldNotes.store ∅ 4) refusedTwice).data.store id)) :=
  ⟨by decide +kernel,
    backfill_converges chars bodyField notesSchema acrossChunk oldNotes.store ∅ 4 (by simp)
      refusedTwice (by decide +kernel) (by decide +kernel)⟩

def createTwice : Nat → Database.Call
  | 0 => .create "Note" (note [99])
  | _ => .create "Note" ∅

def overwrittenNote : List Event :=
  [.backfill quiet, .backfill quiet, .backfill quiet, .foreground 0 fresh, .foreground 0 fresh,
    .foreground 0 fresh, .foreground 1 fresh, .foreground 1 fresh, .foreground 1 fresh]

theorem overwritten_diverges : ¬ ∀ (analyze : String → Bytes → List Token) (ff : FulltextField)
    (schema : Schema) (calls : Nat → Database.Call) (store : Store) (index : Index) (next : Id)
    (events : List Event), (∀ k ∈ index, k.generation ≠ ff.generation) →
    (Run.exec (step analyze ff schema calls) (start store index next) events).built →
    ∀ id, RowsFrom ff
      (Run.exec (step analyze ff schema calls) (start store index next) events).data.index id
      (textRows analyze ff id (textAt ff
        (Run.exec (step analyze ff schema calls) (start store index next) events).data.store id)) := by
  intro hall
  have hrows := hall chars bodyField notesSchema createTwice restoredNotes.store ∅
    restoredNotes.counters.nextObjectId overwrittenNote (by simp) (by decide +kernel) 1
    (.doc (UInt32.ofNat 0) 1) rfl rfl
  have htext : textAt bodyField (Run.exec (step chars bodyField notesSchema createTwice)
      (start restoredNotes.store ∅ restoredNotes.counters.nextObjectId)
      overwrittenNote).data.store 1 = none := by decide +kernel
  have hstored : ((Run.exec (step chars bodyField notesSchema createTwice)
      (start restoredNotes.store ∅ restoredNotes.counters.nextObjectId)
      overwrittenNote).data.index.lookup (.doc (UInt32.ofNat 0) 1)).isSome := by decide +kernel
  rw [htext] at hrows
  rw [hrows] at hstored
  cases hstored

end

end Converge

end RhypeDb.Fulltext
