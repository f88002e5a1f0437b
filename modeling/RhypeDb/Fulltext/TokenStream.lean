import RhypeDb.Fulltext.Lifecycle

/-! Every `f:` row of a field's generation is a row of its object's text under the field's own
analyzer and positions. Each step of an open database keeps this; an open that starts a generation
has to find it true of the rows that it finds there. -/

namespace RhypeDb.Fulltext

open ByteOrder Engine List Storage
open Option hiding forall_mem_map

section

variable (analyze : String → Bytes → List Token) (ff : FulltextField)

/-- The `f:` rows of an object are rows of its text, and its `l:` row is there with them. -/
def PostingsOf (index : Index) (id : Id) (text : Option Bytes) : Prop :=
  ∀ t row, index.lookup (.posting ff.generation t id) = some row →
    (index.lookup (.doc ff.generation id)).isSome ∧
      ∃ s, text = some s ∧ (tokenizeForIndex analyze ff s).posting ff t = some row

variable {analyze ff} {index index' : Index} {id : Id} {text : Option Bytes}

theorem PostingsOf.congr (h : PostingsOf analyze ff index id text)
    (hdoc : index'.lookup (.doc ff.generation id) = index.lookup (.doc ff.generation id))
    (hposting : ∀ t, index'.lookup (.posting ff.generation t id) =
      index.lookup (.posting ff.generation t id)) : PostingsOf analyze ff index' id text := by
  intro t row hrow
  rw [hposting] at hrow
  rw [hdoc]
  exact h t row hrow

theorem PostingsOf.none_of_not_indexed (h : PostingsOf analyze ff index id text)
    (hdoc : index.lookup (.doc ff.generation id) = none) (t : String) :
    index.lookup (.posting ff.generation t id) = none := by
  by_contra hrow
  obtain ⟨row, hrow⟩ := ne_none_iff_exists'.mp hrow
  have hsome := (h t row hrow).1
  rw [hdoc] at hsome
  cases hsome

theorem PostingsOf.none_of_no_text (h : PostingsOf analyze ff index id none) (t : String) :
    index.lookup (.posting ff.generation t id) = none := by
  by_contra hrow
  obtain ⟨row, hrow⟩ := ne_none_iff_exists'.mp hrow
  obtain ⟨-, s, hs, -⟩ := h t row hrow
  cases hs

theorem postingsOf_stageDocPuts (h : ∀ t, index.lookup (.posting ff.generation t id) = none)
    (s : Bytes) : PostingsOf analyze ff
      (index.apply (stageDocPuts ff id (tokenizeForIndex analyze ff s))) id (some s) := by
  intro t row hrow
  rw [Index.lookup_apply, lastWrite_stageDocPuts_posting, h] at hrow
  constructor
  · rw [Index.lookup_apply, lastWrite_stageDocPuts_doc]
    rfl
  · refine ⟨s, rfl, ?_⟩
    cases hposting : (tokenizeForIndex analyze ff s).posting ff t with
    | none =>
      rw [hposting] at hrow
      cases hrow
    | some row' =>
      rw [hposting] at hrow
      exact hrow

theorem postingsOf_updateRows {old new : Option Bytes} (h : PostingsOf analyze ff index id old)
    (oldHadString : Bool) : PostingsOf analyze ff (index.apply (updateRows ff id oldHadString
      ((indexedText ff index id old).map (tokenizeForIndex analyze ff))
      (new.map (tokenizeForIndex analyze ff)))) id new := by
  intro t row hrow
  -- a posting before is one of the indexed old text
  have hbefore : ∀ row, index.lookup (.posting ff.generation t id) = some row →
      (((indexedText ff index id old).map (tokenizeForIndex analyze ff)).bind
        fun d => d.posting ff t) = some row := by
    intro row hrow
    obtain ⟨hdoc, s, rfl, hposting⟩ := h t row hrow
    unfold indexedText
    rw [if_pos hdoc]
    exact hposting
  have hnew : ((new.map (tokenizeForIndex analyze ff)).bind fun d => d.posting ff t) =
      some row := by
    rcases lookup_updateRows index oldHadString
      ((indexedText ff index id old).map (tokenizeForIndex analyze ff))
      (new.map (tokenizeForIndex analyze ff)) t with hlookup | ⟨hkept, hsame⟩
    · exact hlookup.symm.trans hrow
    · rw [← hsame]
      exact hbefore row (hkept ▸ hrow)
  cases new with
  | none => cases hnew
  | some s =>
    refine ⟨?_, s, rfl, hnew⟩
    rw [Index.lookup_apply, lastWrite_updateRows_doc, map_some, map_some,
      lastWrite_docRowUpdate_some]
    split_ifs with hlen
    · -- the length is the old one's, which is indexed
      unfold indexedText at hlen
      split_ifs at hlen with hdoc
      · exact hdoc
      · cases hlen
    · rfl

theorem postingsOf_stageChange {c : Change} (h : PostingsOf analyze ff index id c.old) :
    PostingsOf analyze ff (index.apply (stageChange analyze ff index id c).1) id c.new := by
  cases c with
  | created new =>
    cases new with
    | none => exact h
    | some s => exact postingsOf_stageDocPuts h.none_of_no_text s
  | updated old new => exact postingsOf_updateRows h old.isSome
  | deleted old =>
    cases old with
    | none => exact h
    | some s =>
      show PostingsOf analyze ff (index.apply (stageDelete analyze ff index id (some s)).1) id none
      rw [stageDelete_eq_updateRows]
      exact @postingsOf_updateRows analyze ff index id (some s) none h true

end

section

variable (analyze : String → Bytes → List Token) (ff : FulltextField)

def OneStream (text : Id → Option Bytes) (index : Index) : Prop :=
  ∀ id, PostingsOf analyze ff index id (text id)

/-- A row on its own, if it is an `f:` row of the generation. -/
def RowFits (text : Id → Option Bytes) (index : Index) : RowKey × Row → Prop
  | (.posting generation t id, row) => generation = ff.generation →
    (index.lookup (.doc ff.generation id)).isSome ∧
      ∃ s ∈ text id, (tokenizeForIndex analyze ff s).posting ff t = some row
  | (.doc _ _, _) => True

instance (text : Id → Option Bytes) (index : Index) :
    ∀ e, Decidable (RowFits analyze ff text index e)
  | (.posting generation t id, row) =>
    have : Decidable (∃ s ∈ text id, (tokenizeForIndex analyze ff s).posting ff t = some row) :=
      Option.decidableExistsMem _
    inferInstanceAs (Decidable (generation = ff.generation → _ ∧ _))
  | (.doc _ _, _) => .isTrue trivial

variable {analyze ff} {text text' : Id → Option Bytes} {index : Index}

theorem oneStream_iff : OneStream analyze ff text index ↔
    ∀ e ∈ index.entries, RowFits analyze ff text index (e.1, e.2) := by
  constructor
  · rintro h ⟨k, row⟩ he
    cases k with
    | posting generation t id =>
      rintro rfl
      exact h id t row (AList.mem_lookup_iff.mpr he)
    | doc generation id => trivial
  · intro h id t row hrow
    exact h _ (AList.mem_lookup_iff.mp hrow) rfl

instance (text : Id → Option Bytes) (index : Index) : Decidable (OneStream analyze ff text index) :=
  decidable_of_iff _ oneStream_iff.symm

theorem OneStream.changes (h : OneStream analyze ff text index) {changes : List (Id × Change)}
    (hnodup : (changes.map Prod.fst).Nodup)
    (hold : ∀ c ∈ changes, PostingsOf analyze ff index c.1 c.2.old)
    (hnew : ∀ c ∈ changes, text' c.1 = c.2.new)
    (hframe : ∀ id ∉ changes.map Prod.fst, text' id = text id) :
    OneStream analyze ff text' (index.apply (stageChanges analyze ff index changes).1) := by
  intro id
  by_cases hid : id ∈ changes.map Prod.fst
  · obtain ⟨c, hc, rfl⟩ := mem_map.mp hid
    rw [hnew c hc]
    exact (postingsOf_stageChange (hold c hc)).congr (lookup_stageChanges_of_mem hnodup hc rfl)
      fun t => lookup_stageChanges_of_mem hnodup hc rfl
  · rw [hframe id hid]
    refine (h id).congr (lookup_stageChanges_doc hid) fun t =>
      lookup_stageChanges fun c hc => ⟨nofun, ?_⟩
    exact fun t' heq => hid ((RowKey.posting.inj heq).2.2 ▸ mem_map_of_mem hc)

theorem OneStream.changed (h : OneStream analyze ff text index) {changes : List (Id × Change)}
    (hchanged : Changed text text' changes) :
    OneStream analyze ff text' (index.apply (stageChanges analyze ff index changes).1) :=
  h.changes hchanged.nodup (fun c hc => hchanged.old c hc ▸ h c.1) hchanged.new hchanged.frame

theorem OneStream.backfill {store : Store} (h : OneStream analyze ff (textAt ff store) index)
    {objects : List (Id × Payload)} (hnodup : (objects.map Prod.fst).Nodup)
    (hlive : ∀ o ∈ objects, store.lookup (.object ff.typeId o.1) = some o.2) :
    OneStream analyze ff (textAt ff store) (index.apply
      (stageChanges analyze ff index (Indexer.unindexed ff index objects)).1) := by
  refine h.changes (nodup_unindexed hnodup) ?_ ?_ fun _ _ => rfl
  · intro c hc t row hrow
    obtain ⟨data, s, -, -, hdoc, -⟩ := mem_unindexed.mp hc
    rw [(h c.1).none_of_not_indexed hdoc t] at hrow
    cases hrow
  · intro c hc
    obtain ⟨data, s, ho, hs, -, hchange⟩ := mem_unindexed.mp hc
    rw [textAt, hlive _ ho, hs, hchange]
    rfl

theorem OneStream.sweep (h : OneStream analyze ff text index) {keys : List RowKey}
    (hkeys : ∀ k ∈ keys, k.generation ≠ ff.generation) :
    OneStream analyze ff text (index.apply (keys.map fun k => (k, none))) := by
  have hkept : ∀ k : RowKey, k.generation = ff.generation →
      (index.apply (keys.map fun k => (k, none))).lookup k = index.lookup k := by
    intro k hk
    rw [Index.lookup_apply, lastWrite_eq_none.mpr]
    · rfl
    · rw [forall_mem_map]
      rintro k' hk' rfl
      exact hkeys _ hk' hk
  exact fun id => (h id).congr (hkept _ rfl) fun t => hkept _ rfl

end

namespace Lifecycle

variable (analyze : String → Bytes → List Token) (typeId : Id) (name : String)

/-- New objects take ids that are free for their type. An open that starts a generation finds
under it, if any, only rows that its own analyzer and positions give for the stored texts. -/
def Sound (s : Lifecycle) : Event → Prop
  | .openDatabase _ directive found _ =>
    ∀ d ∈ directive, ∀ a ∈ Analyzer.fromName d.analyzer,
      let plan := planMarker (readMarker (found.marker s.marker)) a.definition d.positions
      plan.2 = true → OneStream analyze (fieldOf typeId name plan.1)
        (textAt (fieldOf typeId name plan.1) s.db.store) s.index
  | .call call => ∀ p ∈ s.process, p.field.isSome →
    DrawsFresh p.schema s.db.store s.db.counters.nextObjectId call
  | _ => True

instance (s : Lifecycle) : ∀ event, Decidable (Sound analyze typeId name s event)
  | .openDatabase _ directive found _ =>
    have (d : FulltextDirective) : Decidable (∀ a ∈ Analyzer.fromName d.analyzer,
        let plan := planMarker (readMarker (found.marker s.marker)) a.definition d.positions
        plan.2 = true → OneStream analyze (fieldOf typeId name plan.1)
          (textAt (fieldOf typeId name plan.1) s.db.store) s.index) :=
      Option.decidableForallMem _
    Option.decidableForallMem directive
  | .call call =>
    have (p : Process) : Decidable (p.field.isSome →
        DrawsFresh p.schema s.db.store s.db.counters.nextObjectId call) :=
      inferInstanceAs (Decidable (_ → _))
    Option.decidableForallMem s.process
  | .build _ _ => .isTrue trivial
  | .drop _ _ => .isTrue trivial
  | .stop => .isTrue trivial

def Marked (s : Lifecycle) : Prop :=
  ∀ m, readMarker s.marker = some m → m.state ≠ .dropping →
    OneStream analyze (fieldOf typeId name m) (textAt (fieldOf typeId name m) s.db.store) s.index

/-- The field is as the directive says, its rows are its own, the marker is of its identity, and
no sweep touches its generation. -/
structure FieldOk (s : Lifecycle) (p : Process) (ff : FulltextField) : Prop where
  typeId_eq : ff.typeId = typeId
  name_eq : ff.name = name
  directive : ∃ d a, p.directive = some d ∧ Analyzer.fromName d.analyzer = some a ∧
    ff.analyzer = a.definition ∧ ff.positions = d.positions
  stream : OneStream analyze ff (textAt ff s.db.store) s.index
  marker : ∀ m, readMarker s.marker = some m → fieldOf typeId name m = ff ∧ m.state ≠ .dropping
  drop : ∀ task, p.drop = some task → task.keep = some ff.generation

/-- Without a process or with the field in it; a marker of an open database without the directive
is being dropped. -/
structure Inv (s : Lifecycle) : Prop where
  marked : Marked analyze typeId name s
  field : ∀ p ff, s.process = some p → p.field = some ff → FieldOk analyze typeId name s p ff
  orphan : ∀ p, s.process = some p → p.field = none →
    ∀ m, readMarker s.marker = some m → m.state = .dropping

section

variable {analyze typeId name} {s : Lifecycle} {p : Process}

variable {ff : FulltextField} {s' : Lifecycle} {p' : Process}

theorem Inv.of_field (hp : s'.process = some p')
    (hff : p'.field = some ff) (h : FieldOk analyze typeId name s' p' ff) :
    Inv analyze typeId name s' where
  marked := by
    intro m hm _
    rw [(h.marker m hm).1]
    exact h.stream
  field := by
    intro q gg hq hgg
    rw [hp] at hq
    cases hq
    rw [hff] at hgg
    cases hgg
    exact h
  orphan := by
    intro q hq hnone
    rw [hp] at hq
    cases hq
    rw [hff] at hnone
    cases hnone

theorem Inv.of_orphan (hp : s'.process = some p') (hnone : p'.field = none)
    (h : ∀ m, readMarker s'.marker = some m → m.state = .dropping) : Inv analyze typeId name s' where
  marked := fun m hm hne => absurd (h m hm) hne
  field := by
    intro q gg hq hgg
    rw [hp] at hq
    cases hq
    rw [hnone] at hgg
    cases hgg
  orphan := fun _ _ _ => h

theorem Inv.of_closed (hp : s'.process = none)
    (h : Marked analyze typeId name s') : Inv analyze typeId name s' where
  marked := h
  field := by
    intro q gg hq
    rw [hp] at hq
    cases hq
  orphan := by
    intro q hq
    rw [hp] at hq
    cases hq

variable {m : BuildMarker} {call : Database.Call}

theorem readMarker_found (found : Found) (h : readMarker (found.marker s.marker) = some m) :
    readMarker s.marker = some m := by
  cases found with
  | intact => exact h
  | malformed =>
    cases hs : s.marker with
    | none =>
      rw [hs] at h
      cases h
    | some row =>
      rw [hs] at h
      cases h
  | missing => cases h

theorem planMarker_spec (prior : Option BuildMarker) (definition : String) (positions : Bool) :
    (planMarker prior definition positions).1.analyzer = definition ∧
    (planMarker prior definition positions).1.positions = positions ∧
    (planMarker prior definition positions).1.state ≠ .dropping ∧
    ((planMarker prior definition positions).2 = true ∨
      prior = some (planMarker prior definition positions).1) := by
  unfold planMarker
  cases prior with
  | none => exact ⟨rfl, rfl, BuildState.noConfusion, .inl rfl⟩
  | some m =>
    dsimp only
    split_ifs with hsame
    · obtain ⟨hconfig, hstate⟩ := hsame
      unfold BuildMarker.matchesConfig at hconfig
      rw [Bool.and_eq_true, decide_eq_true_iff, decide_eq_true_iff] at hconfig
      exact ⟨hconfig.1, hconfig.2, hstate, .inr rfl⟩
    · exact ⟨rfl, rfl, BuildState.noConfusion, .inl rfl⟩

theorem planBuilt_spec (plan : BuildMarker × Bool) (noKeys : Bool) :
    (planBuilt plan noKeys).1.generation = plan.1.generation ∧
    (planBuilt plan noKeys).1.analyzer = plan.1.analyzer ∧
    (planBuilt plan noKeys).1.positions = plan.1.positions ∧
    (plan.1.state ≠ .dropping → (planBuilt plan noKeys).1.state ≠ .dropping) ∧
    ((planBuilt plan noKeys).2 = false → plan.2 = false ∧ (planBuilt plan noKeys).1 = plan.1) := by
  unfold planBuilt
  split_ifs
  · exact ⟨rfl, rfl, rfl, fun _ => BuildState.noConfusion, fun h => by cases h⟩
  · exact ⟨rfl, rfl, rfl, id, fun h => ⟨h, rfl⟩⟩

theorem readMarker_markerWrites {found : Option MarkerRow} {plan : BuildMarker × Bool}
    (hkept : plan.2 = false → readMarker found = some plan.1)
    (hm : readMarker (((markerWrites found plan).getLast?).getD found) = some m) : m = plan.1 := by
  unfold markerWrites at hm
  by_cases hmalformed : found = some .malformed
  · rw [if_pos hmalformed, getLast?_concat] at hm
    cases hm
  · rw [if_neg hmalformed, append_nil] at hm
    cases hchanged : plan.2 with
    | false =>
      rw [if_neg (by rw [hchanged]; exact Bool.false_ne_true)] at hm
      exact Option.some.inj (hm.symm.trans (hkept hchanged))
    | true =>
      rw [if_pos hchanged] at hm
      exact (Option.some.inj hm).symm

theorem Inv.openDatabase (h : Inv analyze typeId name s) {schema : Schema}
    {directive : Option FulltextDirective} {found : Found} {raw : RawScan}
    (hsound : Sound analyze typeId name s (.openDatabase schema directive found raw)) :
    Inv analyze typeId name
      (planFulltextOpen typeId name s schema directive (found.marker s.marker) raw) := by
  unfold planFulltextOpen
  cases directive with
  | none =>
    refine Inv.of_orphan rfl rfl ?_
    intro m hm
    unfold planOrphan at hm
    cases hread : readMarker (found.marker s.marker) with
    | none =>
      rw [hread] at hm
      cases hm
    | some m' =>
      rw [hread] at hm
      cases hm
      rfl
  | some d =>
    dsimp only
    cases hname : Analyzer.fromName d.analyzer with
    | none => exact Inv.of_closed rfl fun m hm => h.marked m (readMarker_found found hm)
    | some a =>
      set noKeys := (objectIds s.db.store typeId).isEmpty && raw.dead.isEmpty
      set start := planMarker (readMarker (found.marker s.marker)) a.definition d.positions
        with hstart
      obtain ⟨hanalyzer, hpositions, hstate, hnew⟩ :=
        planMarker_spec (readMarker (found.marker s.marker)) a.definition d.positions
      obtain ⟨hgeneration, hanalyzer', hpositions', hstate', hkept⟩ := planBuilt_spec start noKeys
      have hstream : OneStream analyze (fieldOf typeId name start.1)
          (textAt (fieldOf typeId name start.1) s.db.store) s.index := by
        rcases hnew with hnew | hsame
        · exact hsound d rfl a hname hnew
        · exact h.marked start.1 (readMarker_found found hsame) hstate
      have hfield : fieldOf typeId name start.1 =
          { typeId, name, generation := (planBuilt start noKeys).1.generation
            analyzer := a.definition, positions := d.positions } := by
        unfold fieldOf
        rw [hgeneration, hanalyzer, hpositions]
      rw [hfield] at hstream
      refine Inv.of_field rfl rfl ⟨rfl, rfl, ⟨d, a, rfl, hname, rfl, rfl⟩, hstream, ?_, ?_⟩
      · intro m hm
        have hplan := readMarker_markerWrites (fun hfalse => by
          obtain ⟨hfalse, hsame⟩ := hkept hfalse
          rw [hsame]
          exact hnew.resolve_left (by rw [hfalse]; exact Bool.false_ne_true)) hm
        rw [hplan]
        refine ⟨?_, hstate' hstate⟩
        unfold fieldOf
        rw [hanalyzer', hpositions', hanalyzer, hpositions]
      · intro task htask
        dsimp only at htask
        split_ifs at htask
        cases htask
        rfl

theorem FieldOk.runCall (h : FieldOk analyze typeId name s p ff) (hff : p.field = some ff)
    (hfresh : DrawsFresh p.schema s.db.store s.db.counters.nextObjectId call) :
    FieldOk analyze typeId name (runCall analyze s p call) p ff := by
  refine ⟨h.typeId_eq, h.name_eq, h.directive, ?_, h.marker, h.drop⟩
  unfold Lifecycle.runCall callRows
  rw [hff]
  unfold Database.step
  cases hstage : Database.stage p.schema s.db.store.view s.db.counters call with
  | mk result c =>
    cases result with
    | error e => exact h.stream
    | ok writes =>
      exact h.stream.changed
        (@changed_stage p.schema s.db.store s.db.counters c ff writes call hfresh hstage)

theorem Inv.runCall (h : Inv analyze typeId name s) (hp : s.process = some p)
    (hsound : Sound analyze typeId name s (.call call)) :
    Inv analyze typeId name (runCall analyze s p call) := by
  have hp' : (Lifecycle.runCall analyze s p call).process = some p := hp
  cases hff : p.field with
  | none => exact Inv.of_orphan hp' hff (h.orphan p hp hff)
  | some ff =>
    have hfresh := hsound p hp (by rw [hff]; rfl)
    exact Inv.of_field hp' hff ((h.field p ff hp hff).runCall hff hfresh)

theorem FieldOk.buildChunk (h : FieldOk analyze typeId name s p ff) (hff : p.field = some ff)
    (cursor : Id) (stale : Bool) (size : Nat) (raw : RawScan) :
    Inv analyze typeId name (buildChunk analyze s p ff cursor stale size raw) := by
  obtain ⟨hnodup, hlive⟩ := @scanChunk_objects s.db.store ff.typeId raw cursor size
  refine Inv.of_field rfl hff ⟨h.typeId_eq, h.name_eq, h.directive,
    h.stream.backfill hnodup hlive, ?_, h.drop⟩
  intro m hm
  cases hm
  constructor
  · unfold fieldOf
    rw [← h.typeId_eq, ← h.name_eq]
  · split_ifs
    · exact BuildState.noConfusion
    · exact BuildState.noConfusion

theorem Inv.runBuild (h : Inv analyze typeId name s) (hp : s.process = some p) (size : Nat)
    (raw : RawScan) : Inv analyze typeId name (runBuild analyze s p size raw) := by
  unfold Lifecycle.runBuild
  cases hff : p.field with
  | none => exact h
  | some ff =>
    have hfield := h.field p ff hp hff
    cases p.build with
    | none => exact h
    | some task =>
      cases task with
      | pending =>
        have hkeep : ∀ progress build, Inv analyze typeId name
            { s with process := some { p with progress := progress, build := build } } :=
          fun progress build => Inv.of_field rfl hff ⟨hfield.typeId_eq, hfield.name_eq,
            hfield.directive, hfield.stream, hfield.marker, hfield.drop⟩
        dsimp only
        unfold startBuild
        split
        · split_ifs
          · exact hkeep _ _
          · exact hkeep _ _
        · exact hkeep _ _
      | running cursor stale => exact hfield.buildChunk hff cursor stale size raw

theorem readMarker_finalizeDrop {keep : Option UInt32} {marker : Option MarkerRow}
    (h : readMarker (finalizeDrop keep marker) = some m) :
    ∃ m', readMarker marker = some m' ∧ m = { m' with staleGenerations := m.staleGenerations } := by
  unfold finalizeDrop at h
  split at h
  · split at h
    next m' =>
      cases h
      exact ⟨m', rfl, rfl⟩
    · exact ⟨m, h, rfl⟩
  · cases h

theorem Inv.runDrop (h : Inv analyze typeId name s) (hp : s.process = some p)
    (window : List RowKey) (more : Bool) : Inv analyze typeId name (runDrop s p window more) := by
  unfold Lifecycle.runDrop
  cases hdrop : p.drop with
  | none => exact h
  | some task =>
    dsimp only
    by_cases hphase : task.phase = .finalize
    · rw [if_pos hphase]
      cases hff : p.field with
      | none =>
        refine Inv.of_orphan rfl rfl ?_
        intro m hm
        obtain ⟨m', hm', hsame⟩ := readMarker_finalizeDrop hm
        rw [hsame]
        exact h.orphan p hp hff m' hm'
      | some ff =>
        have hfield := h.field p ff hp hff
        refine Inv.of_field rfl rfl ⟨hfield.typeId_eq, hfield.name_eq, hfield.directive,
          hfield.stream, ?_, nofun⟩
        intro m hm
        obtain ⟨m', hm', hsame⟩ := readMarker_finalizeDrop hm
        rw [hsame]
        exact hfield.marker m' hm'
    · rw [if_neg hphase]
      cases hff : p.field with
      | none => exact Inv.of_orphan rfl rfl (h.orphan p hp hff)
      | some ff =>
        have hfield := h.field p ff hp hff
        have hkeep := hfield.drop task hdrop
        have hkeys : ∀ k ∈ sweepDeletes task window, k.generation ≠ ff.generation := by
          intro k hk heq
          have hgone := (mem_filter.mp hk).2
          rw [hkeep, heq] at hgone
          simp at hgone
        refine Inv.of_field rfl rfl ⟨hfield.typeId_eq, hfield.name_eq, hfield.directive,
          hfield.stream.sweep hkeys, hfield.marker, ?_⟩
        intro task' htask
        cases htask
        exact hkeep

theorem Inv.step (h : Inv analyze typeId name s) {event : Event}
    (hsound : Sound analyze typeId name s event) :
    Inv analyze typeId name (step analyze typeId name s event) := by
  unfold Lifecycle.step
  cases event with
  | openDatabase schema directive found raw => exact h.openDatabase hsound
  | call call =>
    cases hp : s.process with
    | none => exact h
    | some p => exact h.runCall hp hsound
  | build size raw =>
    cases hp : s.process with
    | none => exact h
    | some p => exact h.runBuild hp size raw
  | drop window more =>
    cases hp : s.process with
    | none => exact h
    | some p => exact h.runDrop hp window more
  | stop => exact Inv.of_closed rfl h.marked

theorem Inv.new : Inv analyze typeId name Lifecycle.new := Inv.of_closed rfl nofun

end

/-- In every run whose opens start no generation over rows of another token stream, every `f:` row
under the current generation is, in every open database, whether its index is Built or not, a row
of a live object's text under the analyzer and positions of the directive. -/
theorem one_token_stream (analyze : String → Bytes → List Token) (typeId : Id) (name : String)
    (events : List Event)
    (hsound : Run.Along (step analyze typeId name) (Sound analyze typeId name) new events)
    {p : Process} {ff : FulltextField}
    (hp : (Run.exec (step analyze typeId name) new events).process = some p)
    (hff : p.field = some ff) :
    (∃ d a, p.directive = some d ∧ Analyzer.fromName d.analyzer = some a ∧
      ff.analyzer = a.definition ∧ ff.positions = d.positions) ∧
    ∀ t id row, (Run.exec (step analyze typeId name) new events).index.lookup
        (.posting ff.generation t id) = some row →
      ∃ text, textAt ff (Run.exec (step analyze typeId name) new events).db.store id = some text ∧
        (.posting ff.generation t id, some row) ∈
          stageDocPuts ff id (tokenizeForIndex analyze ff text) := by
  have hinv := Run.exec_invariant (I := Inv analyze typeId name) (fun _ _ h hstep => h.step hstep)
    Inv.new hsound
  have hfield := hinv.field p ff hp hff
  refine ⟨hfield.directive, ?_⟩
  intro t id row hrow
  obtain ⟨-, text, htext, hposting⟩ := hfield.stream id t row hrow
  refine ⟨text, htext, lastWrite_mem ?_⟩
  rw [lastWrite_stageDocPuts_posting, hposting]
  rfl

section

open Indexer

def streams (definition : String) (text : Bytes) : List Token :=
  if definition = "simple/2" then chars definition text
  else [{ term := String.ofList (text.map fun b => Char.ofNat b.toNat), position := 0 }]

def simple : FulltextDirective := { analyzer := "simple", positions := true }

def english : FulltextDirective := { analyzer := "english", positions := true }

/-- A note from before the directive is indexed, the analyzer changes, the old rows are swept, and
then the marker is lost. -/
def reanalyzed : List Event :=
  [.openDatabase notesSchema none .intact quiet, .call (.create "Note" (note [97, 98])),
    .openDatabase notesSchema (some simple) .intact quiet, .build 512 quiet, .build 512 quiet,
    .call (.create "Note" (note [97])),
    .openDatabase notesSchema (some english) .intact quiet, .build 512 quiet, .build 1 quiet,
    .build 1 quiet,
    .drop [.posting (UInt32.ofNat 0) "a" 1, .posting (UInt32.ofNat 0) "b" 1,
      .posting (UInt32.ofNat 0) "a" 2] false,
    .drop [.doc (UInt32.ofNat 0) 1, .doc (UInt32.ofNat 0) 2] false, .drop [] false, .stop,
    .openDatabase notesSchema (some simple) .missing quiet, .build 512 quiet, .build 512 quiet]

theorem one_token_stream_reanalyzed : ∃ p ff,
    (Run.exec (step streams 1 "body") new reanalyzed).process = some p ∧ p.field = some ff ∧
    ∀ t id row, (Run.exec (step streams 1 "body") new reanalyzed).index.lookup
        (.posting ff.generation t id) = some row →
      ∃ text, textAt ff (Run.exec (step streams 1 "body") new reanalyzed).db.store id = some text ∧
        (.posting ff.generation t id, some row) ∈
          stageDocPuts ff id (tokenizeForIndex streams ff text) := by
  have hfield : ((Run.exec (step streams 1 "body") new reanalyzed).process.bind
      Process.field).isSome := by decide +kernel
  obtain ⟨ff, hff⟩ := isSome_iff_exists.mp hfield
  obtain ⟨p, hp, hff⟩ := bind_eq_some_iff.mp hff
  exact ⟨p, ff, hp, hff,
    (one_token_stream streams 1 "body" reanalyzed (by decide +kernel) hp hff).2⟩

def restarted : List Event :=
  [.openDatabase notesSchema (some simple) .intact quiet, .call (.create "Note" (note [97, 98])),
    .stop, .openDatabase notesSchema (some english) .malformed quiet, .build 512 quiet,
    .build 512 quiet]

/-- The new stream starts generation 0 over the rows of the old one, and the backfill skips the
note that has them. -/
theorem restart_mixes_streams : ¬ ∀ (analyze : String → Bytes → List Token) (typeId : Id)
    (name : String) (events : List Event) (p : Process) (ff : FulltextField),
    (Run.exec (step analyze typeId name) new events).process = some p → p.field = some ff →
    p.progress = .built →
    ∀ t id row, (Run.exec (step analyze typeId name) new events).index.lookup
        (.posting ff.generation t id) = some row →
      ∃ text, textAt ff (Run.exec (step analyze typeId name) new events).db.store id = some text ∧
        (.posting ff.generation t id, some row) ∈
          stageDocPuts ff id (tokenizeForIndex analyze ff text) := by
  intro hall
  set s := Run.exec (step streams 1 "body") new restarted with hs
  have hfield : (s.process.bind Process.field).isSome := by decide +kernel
  obtain ⟨ff, hff⟩ := isSome_iff_exists.mp hfield
  have hmixed : ∀ ff ∈ s.process.bind Process.field,
      (s.index.lookup (.posting ff.generation "a" 1)).isSome ∧
      textAt ff s.db.store 1 = some [97, 98] ∧
      ∀ w ∈ stageDocPuts ff 1 (tokenizeForIndex streams ff [97, 98]),
        w.1 ≠ .posting ff.generation "a" 1 := by decide +kernel
  have hprogress : ∀ p ∈ s.process, p.progress = .built := by decide +kernel
  obtain ⟨hrow, htext, hputs⟩ := hmixed ff hff
  obtain ⟨p, hp, hff⟩ := bind_eq_some_iff.mp hff
  obtain ⟨row, hrow⟩ := isSome_iff_exists.mp hrow
  obtain ⟨text, htext', hmem⟩ :=
    hall streams 1 "body" restarted p ff hp hff (hprogress p hp) "a" 1 row hrow
  obtain rfl : text = [97, 98] := Option.some.inj (htext'.symm.trans htext)
  exact hputs _ hmem rfl

end

end Lifecycle

end RhypeDb.Fulltext
