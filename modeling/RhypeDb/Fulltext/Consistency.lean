import RhypeDb.Fulltext.Backfill

/-! The index of a field over a run of calls and chunks: every step keeps the rows of the objects
it changes at their texts, the backfill indexes what lies behind its cursor, and the counters are
those of the `l:` rows. Calls that put an object over a live one break this. -/

namespace RhypeDb.Fulltext

open ByteOrder Engine List Option Storage

section

variable {analyze : String → Bytes → List Token} {ff : FulltextField} {index : Index}
  {objects : List (Id × Payload)} {c : Id × Change}

theorem unindexedChange_eq_some {o : Id × Payload} :
    Indexer.unindexedChange ff index o = some c ↔ c.1 = o.1 ∧
      index.lookup (.doc ff.generation o.1) = none ∧
      ∃ text, storedText ff (some o.2) = some text ∧ c.2 = .created (some text) := by
  unfold Indexer.unindexedChange
  constructor
  · intro h
    split at h
    next text htext =>
      split_ifs at h with hdoc
      cases h
      exact ⟨rfl, by simpa using hdoc, text, htext, rfl⟩
    · cases h
  · rintro ⟨hid, hdoc, text, htext, hchange⟩
    rw [htext, hdoc]
    show some (o.1, Change.created (some text)) = some c
    rw [← hid, ← hchange]

theorem mem_unindexed : c ∈ Indexer.unindexed ff index objects ↔
    ∃ data text, (c.1, data) ∈ objects ∧ storedText ff (some data) = some text ∧
      index.lookup (.doc ff.generation c.1) = none ∧ c.2 = .created (some text) := by
  unfold Indexer.unindexed
  simp only [mem_filterMap, unindexedChange_eq_some]
  constructor
  · rintro ⟨⟨id, data⟩, ho, hid, hdoc, text, htext, hchange⟩
    subst hid
    exact ⟨data, text, ho, htext, hdoc, hchange⟩
  · rintro ⟨data, text, ho, htext, hdoc, hchange⟩
    exact ⟨(c.1, data), ho, rfl, hdoc, text, htext, hchange⟩

theorem nodup_unindexed (hnodup : (objects.map Prod.fst).Nodup) :
    ((Indexer.unindexed ff index objects).map Prod.fst).Nodup := by
  unfold Indexer.unindexed
  rw [List.Nodup, pairwise_map] at hnodup ⊢
  rw [pairwise_filterMap]
  refine hnodup.imp ?_
  intro o o' hne c hc c' hc' heq
  have hid := (unindexedChange_eq_some.mp hc).1
  have hid' := (unindexedChange_eq_some.mp hc').1
  exact hne (hid.symm.trans (heq.trans hid'))

end

namespace Indexer

variable {analyze : String → Bytes → List Token} {ff : FulltextField} {schema : Schema}
  {s : Indexer}

def textAt (ff : FulltextField) (s : Indexer) : Id → Option Bytes := Fulltext.textAt ff s.db.store

structure Inv (analyze : String → Bytes → List Token) (ff : FulltextField) (s : Indexer) : Prop where
  synced : Synced analyze ff (s.textAt ff) s.index
  covered : ∀ id, (s.textAt ff id).isSome → s.built = true ∨ s.cursor ≠ 0 ∧ id ≤ s.cursor →
    (s.index.lookup (.doc ff.generation id)).isSome
  stats : totals ff s.index = ⟨s.stats.docCount, s.stats.totalTokens⟩

theorem totals_apply {index : Index} {stats : FulltextStats} {delta : StatsDelta}
    (h : totals ff index = (⟨stats.docCount, stats.totalTokens⟩ : StatsDelta).add delta) :
    totals ff index = ⟨(stats.apply delta).docCount, (stats.apply delta).totalTokens⟩ := by
  have hdocs : (totals ff index).docs = stats.docCount + delta.docs := congrArg StatsDelta.docs h
  have htokens : (totals ff index).tokens = stats.totalTokens + delta.tokens :=
    congrArg StatsDelta.tokens h
  have hdocs0 : 0 ≤ (totals ff index).docs := Int.natCast_nonneg _
  have htokens0 : 0 ≤ (totals ff index).tokens := Int.natCast_nonneg _
  apply StatsDelta.ext
  · show _ = ((stats.docCount + delta.docs).toNat : Int)
    rw [hdocs, Int.toNat_of_nonneg (hdocs ▸ hdocs0)]
  · show _ = ((stats.totalTokens + delta.tokens).toNat : Int)
    rw [htokens, Int.toNat_of_nonneg (htokens ▸ htokens0)]

theorem Inv.changes (hstats : totals ff s.index = ⟨s.stats.docCount, s.stats.totalTokens⟩)
    {changes : List (Id × Change)} {s' : Indexer}
    (hindex : s'.index = s.index.apply (stageChanges analyze ff s.index changes).1)
    (hcount : s'.stats = s.stats.apply (stageChanges analyze ff s.index changes).2)
    (hsynced : Synced analyze ff (s'.textAt ff) s'.index)
    (hindexed : ∀ id ∈ changes.map Prod.fst,
      (s'.index.lookup (.doc ff.generation id)).isSome = (s'.textAt ff id).isSome)
    (htotals : totals ff s'.index =
      (totals ff s.index).add (stageChanges analyze ff s.index changes).2)
    (hcovered : ∀ id ∉ changes.map Prod.fst, (s'.textAt ff id).isSome →
      s'.built = true ∨ s'.cursor ≠ 0 ∧ id ≤ s'.cursor →
      (s.index.lookup (.doc ff.generation id)).isSome) : Inv analyze ff s' := by
  refine ⟨hsynced, ?_, ?_⟩
  · intro id htext hpassed
    by_cases hid : id ∈ changes.map Prod.fst
    · rw [hindexed id hid]
      exact htext
    · rw [hindex, lookup_stageChanges_doc hid]
      exact hcovered id hid htext hpassed
  · rw [hcount]
    apply totals_apply
    rw [htotals, hstats]

theorem Inv.runCall (h : Inv analyze ff s) {call : Database.Call}
    (hfresh : DrawsFresh schema s.db.store s.db.counters.nextObjectId call) :
    Inv analyze ff (runCall analyze ff schema s call) := by
  unfold Indexer.runCall
  cases hstage : Database.stage schema s.db.store.view s.db.counters call with
  | mk result c =>
    cases result with
    | error e =>
      have hstore : (s.db.step schema call).store = s.db.store := by
        rw [Database.step, hstage]
      refine ⟨?_, ?_, h.stats⟩
      · show Synced analyze ff (Fulltext.textAt ff (s.db.step schema call).store) s.index
        rw [hstore]
        exact h.synced
      · intro id
        show (Fulltext.textAt ff (s.db.step schema call).store id).isSome → _
        rw [hstore]
        exact h.covered id
    | ok writes =>
      have hstore : (s.db.step schema call).store = s.db.store.apply writes := by
        rw [Database.step, hstage]
      have hchanged := @changed_stage schema s.db.store s.db.counters c ff writes call hfresh hstage
      rw [← hstore] at hchanged
      obtain ⟨hsynced, hindexed, htotals⟩ := h.synced.stageChanges hchanged fun _ _ => rfl
      refine Inv.changes h.stats rfl rfl hsynced hindexed htotals ?_
      intro id hid htext hpassed
      refine h.covered id ?_ hpassed
      have hsame : Fulltext.textAt ff (s.db.step schema call).store id = s.textAt ff id :=
        hchanged.frame id hid
      rw [← hsame]
      exact htext

theorem Inv.runBuild (h : Inv analyze ff s) {size : Nat} (hsize : 1 ≤ size) (raw : RawScan) :
    Inv analyze ff (runBuild analyze ff s size raw) := by
  unfold Indexer.runBuild
  by_cases hbuilt : s.built
  · rw [if_pos hbuilt]
    exact h
  rw [if_neg hbuilt]
  obtain ⟨hnodup, hlive⟩ := @scanChunk_objects s.db.store ff.typeId raw s.cursor size
  dsimp only
  set chunk := scanChunk s.db.store ff.typeId raw s.cursor size with hchunk
  set changes := unindexed ff s.index chunk.objects with hchanges
  have hunindexed : ∀ c ∈ changes, s.index.lookup (.doc ff.generation c.1) = none ∧
      s.index.lookup (.doc ff.generation c.1) = none ∧ s.textAt ff c.1 = c.2.new ∧
      c.2.old = none := by
    intro c hc
    obtain ⟨data, text, ho, htext, hdoc, hchange⟩ := mem_unindexed.mp hc
    refine ⟨hdoc, hdoc, ?_, by rw [hchange]; rfl⟩
    rw [textAt, Fulltext.textAt, hlive _ ho, htext, hchange]
    rfl
  obtain ⟨hsynced, hindexed, htotals⟩ := h.synced.backfill (nodup_unindexed hnodup) hunindexed
  refine Inv.changes h.stats rfl rfl hsynced hindexed htotals ?_
  intro id hid htext hpassed
  by_cases hahead : s.cursor = 0 ∨ s.cursor < id
  · obtain ⟨text, htext⟩ := isSome_iff_exists.mp htext
    obtain ⟨data, hdata, -⟩ := bind_eq_some_iff.mp htext
    rcases scanChunk_covers hsize hdata hahead with hvisited | ⟨hmore, next, hnext, hlt⟩
    · -- a visited string that is not staged has its row
      by_contra hnone
      rw [not_isSome_iff_eq_none] at hnone
      refine hid (mem_map.mpr ⟨(id, .created (some text)), ?_, rfl⟩)
      refine mem_unindexed.mpr ⟨data, text, hvisited, ?_, hnone, rfl⟩
      rw [← hdata]
      exact htext
    · rw [hmore, mem_def.mp hnext] at hpassed
      rcases hpassed with hdone | ⟨-, hle⟩
      · cases hdone
      · exact absurd hlt (UInt64.not_lt.mpr hle)
  · rw [not_or, UInt64.not_lt] at hahead
    exact h.covered id htext (.inr hahead)

theorem Inv.step (h : Inv analyze ff s) {event : Event} (hsound : Sound schema s event) :
    Inv analyze ff (step analyze ff schema s event) := by
  cases event with
  | call call => exact h.runCall hsound
  | chunk size raw => exact h.runBuild hsound raw

end Indexer

def RowKey.generation : RowKey → UInt32
  | .posting generation _ _ => generation
  | .doc generation _ => generation

def RowsFrom (ff : FulltextField) (index : Index) (id : Id) (writes : RowWrites) : Prop :=
  ∀ k : RowKey, k.generation = ff.generation → k.id = id →
    index.lookup k = (Index.apply ∅ writes).lookup k

section

variable {ff : FulltextField} {index index' : Index} {id : Id}

theorem RowsAre.lookup_eq {doc : Option IndexedDoc} (h : RowsAre ff index id doc)
    (h' : RowsAre ff index' id doc) {k : RowKey} (hgeneration : k.generation = ff.generation)
    (hid : k.id = id) : index.lookup k = index'.lookup k := by
  subst hid
  cases k with
  | posting generation t id =>
    cases hgeneration
    exact (h.posting t).trans (h'.posting t).symm
  | doc generation id =>
    cases hgeneration
    exact h.length.trans h'.length.symm

theorem RowsAre.empty : RowsAre ff ∅ id none := ⟨rfl, fun _ => rfl⟩

theorem RowsAre.rowsFrom_puts {doc : IndexedDoc} (h : RowsAre ff index id (some doc)) :
    RowsFrom ff index id (stageDocPuts ff id doc) :=
  fun _ hgeneration hid => h.lookup_eq (rowsAre_stageDocPuts RowsAre.empty doc) hgeneration hid

theorem RowsAre.rowsFrom_nil (h : RowsAre ff index id none) : RowsFrom ff index id [] :=
  fun _ hgeneration hid => h.lookup_eq RowsAre.empty hgeneration hid

end

namespace Indexer

variable {analyze : String → Bytes → List Token} {ff : FulltextField} {schema : Schema}
  {s : Indexer}

/-- Every `l:` row stands for the full rows of the current text, nothing is left of other objects,
a built index has every string, and the counters are those of the `l:` rows. -/
structure Consistent (analyze : String → Bytes → List Token) (ff : FulltextField) (s : Indexer) :
    Prop where
  indexed : ∀ id, (s.index.lookup (.doc ff.generation id)).isSome →
    ∃ text, s.textAt ff id = some text ∧
      RowsFrom ff s.index id (stageDocPuts ff id (tokenizeForIndex analyze ff text))
  absent : ∀ id, s.textAt ff id = none → RowsFrom ff s.index id []
  complete : s.built = true → ∀ id, (s.textAt ff id).isSome →
    (s.index.lookup (.doc ff.generation id)).isSome
  counted : s.stats.docCount = (docRows ff s.index).length ∧
    s.stats.totalTokens = ((docRows ff s.index).map fun r => r.2.toNat).sum

theorem Inv.consistent (h : Inv analyze ff s) : Consistent analyze ff s where
  indexed := by
    intro id hdoc
    have hrows := h.synced id
    unfold indexedText at hrows
    rw [if_pos hdoc] at hrows
    cases htext : s.textAt ff id with
    | none =>
      rw [htext] at hrows
      rw [hrows.doc_isSome] at hdoc
      cases hdoc
    | some text =>
      rw [htext] at hrows
      exact ⟨text, rfl, hrows.rowsFrom_puts⟩
  absent := by
    intro id htext
    have hrows := h.synced id
    rw [htext, indexedText_none] at hrows
    exact hrows.rowsFrom_nil
  complete := fun hbuilt id htext => h.covered id htext (.inl hbuilt)
  counted := by
    have hdocs := congrArg StatsDelta.docs h.stats
    have htokens := congrArg StatsDelta.tokens h.stats
    exact ⟨(Int.ofNat.inj hdocs).symm, (Int.ofNat.inj htokens).symm⟩

theorem Inv.start {db : Database} {index : Index}
    (hnone : ∀ k ∈ index, k.generation ≠ ff.generation) : Inv analyze ff (start db index) where
  synced := by
    have habsent : ∀ k : RowKey, k.generation = ff.generation → index.lookup k = none :=
      fun k hk => AList.lookup_eq_none.mpr fun hmem => hnone k hmem hk
    intro id
    unfold indexedText
    rw [Indexer.start, habsent (.doc ff.generation id) rfl]
    exact ⟨habsent _ rfl, fun t => habsent _ rfl⟩
  covered := by
    rintro id - (hbuilt | ⟨hcursor, -⟩)
    · cases hbuilt
    · exact absurd rfl hcursor
  stats := by
    have hrows : docRows ff index = [] := by
      rw [eq_nil_iff_forall_not_mem]
      intro r hr
      rw [mem_docRows] at hr
      exact hnone _ (AList.lookup_isSome.mp (by rw [hr]; rfl)) rfl
    unfold totals
    rw [Indexer.start, hrows]
    rfl

/-- In every run of calls and chunks whose calls draw free ids for new objects, started at any
objects and an index without rows of the generation, the index is consistent. -/
theorem fulltext_consistent (analyze : String → Bytes → List Token) (ff : FulltextField)
    (schema : Schema) (db : Database) (index : Index)
    (hnone : ∀ k ∈ index, k.generation ≠ ff.generation) (events : List Event)
    (hsound : Run.Along (Indexer.step analyze ff schema) (Sound schema) (Indexer.start db index)
      events) :
    Consistent analyze ff
      (Run.exec (Indexer.step analyze ff schema) (Indexer.start db index) events) := by
  have hinv := Run.exec_invariant (I := Inv analyze ff) (fun _ _ h hstep => h.step hstep)
    (Inv.start hnone) hsound
  exact hinv.consistent

def notesSchema : Schema where
  types :=
    [{ name := "Note", typeId := 1,
       fields := [{ name := "body", fieldType := .scalar .string, directives := [], fieldId := 1,
                    relId := 0 }] }]

def bodyField : FulltextField :=
  { typeId := 1, name := "body", generation := UInt32.ofNat 0, analyzer := "chars", positions := true }

def chars (_ : String) (text : Bytes) : List Token := text.mapIdx fun i b =>
  { term := String.singleton (Char.ofNat b.toNat), position := UInt32.ofNat i }

def note (body : Bytes) : FieldMap := AList.singleton "body" (.string body)

def oldNotes : Database :=
  Run.exec (Database.step notesSchema) .new
    [.create "Note" (note [97, 98]), .create "Note" (note [98]), .create "Note" ∅]

def writesBetween : List Event :=
  [.chunk 1 { dead := [], saturated := false }, .call (.update "Note" 1 (note [98, 98])),
    .call (.update "Note" 2 (AList.singleton "body" .null)), .call (.create "Note" (note [97])),
    .call (.update "Note" 3 (note [99])), .call (.delete "Note" 4),
    .chunk 2 { dead := [4], saturated := true }, .chunk 1 { dead := [4], saturated := false }]

theorem fulltext_consistent_writesBetween :
    (Run.exec (Indexer.step chars bodyField notesSchema) (Indexer.start oldNotes ∅)
      writesBetween).built = true ∧
    Consistent chars bodyField (Run.exec (Indexer.step chars bodyField notesSchema)
      (Indexer.start oldNotes ∅) writesBetween) :=
  ⟨by decide +kernel,
    fulltext_consistent chars bodyField notesSchema oldNotes ∅ (by simp) writesBetween
      (by decide +kernel)⟩

def restoredNotes : Database :=
  (Run.exec (Ledger.step notesSchema) .new
    [.restore "Note" [(1, note [97]), (UInt64.ofNat (2 ^ 64 - 1), note [98])] true, .reopen]).db

def overwritten : List Event :=
  [.chunk 512 { dead := [], saturated := false }, .call (.create "Note" (note [99])),
    .call (.create "Note" ∅)]

theorem overwritten_keeps_rows : ¬ ∀ (analyze : String → Bytes → List Token) (ff : FulltextField)
    (schema : Schema) (db : Database) (index : Index) (events : List Event),
    (∀ k ∈ index, k.generation ≠ ff.generation) →
    (∀ event ∈ events, ∀ size raw, event = .chunk size raw → 1 ≤ size) →
    Consistent analyze ff
      (Run.exec (Indexer.step analyze ff schema) (Indexer.start db index) events) := by
  intro hall
  have hsizes : ∀ event ∈ overwritten, ∀ size raw, event = Event.chunk size raw → 1 ≤ size := by
    simp [overwritten]
  have hconsistent := hall chars bodyField notesSchema restoredNotes ∅ overwritten (by simp) hsizes
  have habsent := hconsistent.absent 1 (by decide +kernel) (.doc (UInt32.ofNat 0) 1) rfl rfl
  have hstored : ((Run.exec (Indexer.step chars bodyField notesSchema)
      (Indexer.start restoredNotes ∅) overwritten).index.lookup
      (.doc (UInt32.ofNat 0) 1)).isSome := by decide +kernel
  rw [habsent] at hstored
  cases hstored

end Indexer

end RhypeDb.Fulltext
