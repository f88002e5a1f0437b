import RhypeDb.Migration.Blobs

/-! What is in flight is what was staged at its snapshot: a transaction that is not refused acts on
the rows it writes as if it ran alone. -/

namespace RhypeDb.Migration

open Engine Storage Fallible List Option Function SnapshotHistory
open UInt64 hiding not_not

variable (field : String) (converter : Converter)

def workerStart (p : PinnedPlan) (idx : Nat) (pc : PartitionCursor) : Id :=
  UInt64.ofNat (max pc.cursor.toNat
    ((partitionRange p.parallelDegree p.idUpperBound idx).1 - 1) + 1)

def StagedBackfill (hist : History) (p : PinnedPlan) (idx : Nat) (pc : PartitionCursor)
    (snapshot : Nat) (commit : Commit) (after : PartitionCursor) (errors : Nat) : Prop :=
  snapshot ≤ hist.version ∧ ∃ layers high,
    (scanChunkRaw (hist.stateAt Data.apply snapshot).rows layers (workerStart p idx pc)
      p.chunk).highWater = some high ∧
    stageBackfill field p converter idx (partitionRange p.parallelDegree p.idUpperBound idx).2 pc
      (scanChunkRaw (hist.stateAt Data.apply snapshot).rows layers (workerStart p idx pc) p.chunk)
      high = .ok (commit, after, errors)

def passStart (p : MigrationPlan) : Id :=
  if p.cutoverCursor = 0 then 0 else p.cutoverCursor + UInt64.ofNat 1

/-- Since the rows `a` only the backfill touched any: it gave a shadow to what needed one. -/
def Touched (p : PinnedPlan) (a b : Rows) : Prop :=
  ∀ id, b.lookup id = a.lookup id ∨ ∃ blob w, a.lookup id = some blob ∧
    Convertible field p blob ∧ b.lookup id = some (withShadow field blob w p.converterVersion)

def StagesRows (q : PinnedPlan) (chunk : ChunkScan) (rows : Writes Id FieldMap) : PassKind → Prop
  | .cutover => stageCutover field q chunk = .ok rows
  | .rollback => rows = stageRollback field chunk

def StagedPass (hist : History) (pass : Pass) (snapshot : Nat) (commit : Commit)
    (after : MigrationPlan) (more : Bool) : Prop :=
  snapshot ≤ hist.version ∧ pass.plan.cutoverCursor.toNat ≠ 2 ^ 64 - 1 ∧
    Touched field pass.plan.toPinnedPlan (hist.stateAt Data.apply snapshot).rows
      (hist.latest Data.apply).rows ∧
    ∃ layers high rows,
      let chunk := scanChunkRaw (hist.stateAt Data.apply snapshot).rows layers
        (passStart pass.plan) pass.plan.chunk
      chunk.highWater = some high ∧ more = chunk.more ∧
      after = { pass.plan with cutoverCursor := high } ∧ commit = { rows, plan := some after } ∧
      StagesRows field pass.plan.toPinnedPlan chunk rows pass.kind

structure PassOk (hist : History) (p : MigrationPlan) (pass : Pass) : Prop where
  pinned : pass.plan.toPinnedPlan = p.toPinnedPlan
  phase : pass.plan.phase = p.phase
  cursor : pass.plan.cutoverCursor = p.cutoverCursor
  kind : pass.kind = .rollback ↔ p.phase = .rollingBack
  marked : pass.kind = .cutover → pass.phase ≠ .gate → pass.phase ≠ .mark →
    p.phase = .cuttingOver
  rollback : pass.kind = .rollback → pass.phase ≠ .gate ∧ pass.phase ≠ .mark
  staged : ∀ attempts snapshot commit after more,
    pass.phase = .staged attempts snapshot commit after more →
      StagedPass field hist pass snapshot commit after more

def DriverOk (hist : History) (p : MigrationPlan) : DriverPhase → Prop
  | .backfill b => b.plan.toPinnedPlan = p.toPinnedPlan ∧
      ∀ idx pc attempts snapshot commit after errors,
        b.workers idx = .staged pc attempts snapshot commit after errors →
          StagedBackfill field converter hist p.toPinnedPlan idx pc snapshot commit after errors
  | .backfilled plan _ => plan.toPinnedPlan = p.toPinnedPlan
  | .finalizeDryRun => p.dryRun = true
  | _ => True

def ResumePhase.pinned? : ResumePhase → Option PinnedPlan
  | .loaded plan => some plan.toPinnedPlan
  | .driving plan => some plan.toPinnedPlan
  | .armed => none

def WriterOk (hist : History) (h : Handle) (w : Writer) : Prop :=
  w.snapshot ≤ hist.version ∧
    stageWrite field h.type.t h.hook (hist.stateAt Data.apply w.snapshot).rows w.objectId w.op =
      .ok w.staged

def Handle.Unplanned (h : Handle) : Prop :=
  h.hook = none ∧ h.driver = none ∧ h.resumes = [] ∧ h.pass = none ∧ h.spawning = false ∧
    h.waiting = 0

structure HandleOk (hist : History) (h : Handle) : Prop where
  unplanned : (hist.latest Data.apply).plan = none → h.Unplanned
  writers : ∀ w ∈ h.writers, WriterOk field hist h w
  locked : h.pass.isSome → h.writers = []
  pass : ∀ p, (hist.latest Data.apply).plan = some p → ∀ pass, h.pass = some pass →
    PassOk field hist p pass
  driver : ∀ p, (hist.latest Data.apply).plan = some p → ∀ d, h.driver = some d →
    DriverOk field converter hist p d.phase
  resumes : ∀ p, (hist.latest Data.apply).plan = some p → ∀ r ∈ h.resumes,
    ∀ q ∈ r.phase.pinned?, q = p.toPinnedPlan

def WellStaged (s : Sys) : Prop :=
  ∀ h, s.handle = some h → HandleOk field converter s.history h

section

variable {field converter} {hist : History} {c : Commit} {h : Handle} {p : MigrationPlan}

variable {q : PinnedPlan} {snapshot : Nat}

theorem Touched.refl (rows : Rows) : Touched field q rows rows :=
  fun _ => .inl rfl

theorem Touched.trans {a b d : Rows} (h : Touched field q a b) (h' : Touched field q b d) :
    Touched field q a d := by
  intro id
  rcases h id with hsame | ⟨blob, w, hblob, hconvertible, hnew⟩
  · rw [← hsame]
    exact h' id
  · right
    rcases h' id with hsame | ⟨_, _, hnew', ⟨_, _, _, _, hcurrent⟩, -⟩
    · exact ⟨blob, w, hblob, hconvertible, hsame.trans hnew⟩
    · cases hnew.symm.trans hnew'
      exact absurd hasCurrentShadow_withShadow hcurrent

theorem stateAt_commit_of_le {n : Nat} (hn : n ≤ hist.version) :
    n ≤ (hist.commit c).version ∧
      (hist.commit c).stateAt Data.apply n = hist.stateAt Data.apply n :=
  ⟨Nat.le_trans hn (version_commit ▸ Nat.le_succ _),
    stateAt_commit hn⟩

theorem WriterOk.commit {w : Writer} (hw : WriterOk field hist h w) :
    WriterOk field (hist.commit c) h w := by
  obtain ⟨hn, hstate⟩ := stateAt_commit_of_le (c := c) hw.1
  refine ⟨hn, ?_⟩
  rw [hstate]
  exact hw.2

theorem StagedBackfill.commit {idx : Nat} {pc after : PartitionCursor} {errors : Nat}
    {commit : Commit}
    (hs : StagedBackfill field converter hist q idx pc snapshot commit after errors) :
    StagedBackfill field converter (hist.commit c) q idx pc snapshot commit after errors := by
  obtain ⟨hn, hstate⟩ := stateAt_commit_of_le (c := c) hs.1
  refine ⟨hn, ?_⟩
  rw [hstate]
  exact hs.2

theorem StagedPass.commit {pass : Pass} {commit : Commit} {after : MigrationPlan}
    {more : Bool} (hs : StagedPass field hist pass snapshot commit after more)
    (hrows : Touched field pass.plan.toPinnedPlan (hist.latest Data.apply).rows
      ((hist.latest Data.apply).apply c).rows) :
    StagedPass field (hist.commit c) pass snapshot commit after more := by
  obtain ⟨hn, hcursor, htouched, hrest⟩ := hs
  obtain ⟨hn', hstate⟩ := stateAt_commit_of_le (c := c) hn
  refine ⟨hn', hcursor, ?_, ?_⟩
  · rw [hstate, latest_commit]
    exact htouched.trans hrows
  · rw [hstate]
    exact hrest

theorem DriverOk.commit {phase : DriverPhase} {p' : MigrationPlan}
    (hd : DriverOk field converter hist p phase) (hpinned : p'.toPinnedPlan = p.toPinnedPlan) :
    DriverOk field converter (hist.commit c) p' phase := by
  cases phase with
  | backfill b =>
    refine ⟨hd.1.trans hpinned.symm, ?_⟩
    intro idx pc attempts snapshot commit after errors hw
    rw [hpinned]
    exact (hd.2 idx pc attempts snapshot commit after errors hw).commit
  | backfilled plan result => exact hd.trans hpinned.symm
  | finalizeDryRun =>
    have hdry := congrArg PinnedPlan.dryRun hpinned
    exact hdry.trans hd
  | _ => trivial

theorem HandleOk.commit (hok : HandleOk field converter hist h)
    (hplan : ∀ p', c.plan = some p' → ∃ p, (hist.latest Data.apply).plan = some p ∧
      p'.toPinnedPlan = p.toPinnedPlan ∧
      (h.pass.isSome → p'.phase = p.phase ∧ p'.cutoverCursor = p.cutoverCursor))
    (hrows : h.pass.isSome → ∀ p, (hist.latest Data.apply).plan = some p →
      Touched field p.toPinnedPlan (hist.latest Data.apply).rows
        ((hist.latest Data.apply).apply c).rows) : HandleOk field converter (hist.commit c) h := by
  have hbefore : ∀ p', ((hist.commit c).latest Data.apply).plan = some p' →
      ∃ p, (hist.latest Data.apply).plan = some p ∧ p'.toPinnedPlan = p.toPinnedPlan ∧
        (h.pass.isSome → p'.phase = p.phase ∧ p'.cutoverCursor = p.cutoverCursor) := by
    intro p' hp'
    rw [latest_commit] at hp'
    unfold Data.apply at hp'
    cases hc : c.plan with
    | none =>
      rw [hc] at hp'
      exact ⟨p', hp', rfl, fun _ => ⟨rfl, rfl⟩⟩
    | some q =>
      rw [hc] at hp'
      cases hp'
      exact hplan _ hc
  constructor
  · intro hnone
    rw [latest_commit] at hnone
    exact hok.unplanned (or_eq_none_iff.mp hnone).2
  · exact fun w hw => (hok.writers w hw).commit
  · exact hok.locked
  · intro p' hp' pass hpass
    obtain ⟨p, hp, hpinned, hsame⟩ := hbefore p' hp'
    have hsome : h.pass.isSome := by
      rw [hpass]
      rfl
    obtain ⟨hphase, hcursor⟩ := hsame hsome
    have hpok := hok.pass p hp pass hpass
    constructor
    · exact hpok.pinned.trans hpinned.symm
    · exact hpok.phase.trans hphase.symm
    · exact hpok.cursor.trans hcursor.symm
    · rw [hphase]
      exact hpok.kind
    · rw [hphase]
      exact hpok.marked
    · exact hpok.rollback
    · intro attempts snapshot commit after more hstaged
      apply (hpok.staged attempts snapshot commit after more hstaged).commit
      rw [hpok.pinned]
      exact hrows hsome p hp
  · intro p' hp' d hd
    obtain ⟨p, hp, hpinned, -⟩ := hbefore p' hp'
    exact (hok.driver p hp d hd).commit hpinned
  · intro p' hp' r hr q hq
    obtain ⟨p, hp, hpinned, -⟩ := hbefore p' hp'
    rw [hpinned]
    exact hok.resumes p hp r hr q hq

end

section

variable {field converter} {p : PinnedPlan} {chunk : ChunkScan} {high : Id}

/-- What a chunk does to its rows, by what `decide` says of each: it writes some and leaves the
others. -/
structure Visits (decide : Id → FieldMap → Option FieldMap → Prop) (live : List (Id × FieldMap))
    (rows : Writes Id FieldMap) : Prop where
  written : ∀ id v, (id, v) ∈ rows →
    ∃ old new, v = some new ∧ (id, old) ∈ live ∧ decide id old (some new)
  visited : ∀ id old, (id, old) ∈ live →
    decide id old none ∨ ∃ new, decide id old (some new) ∧ (id, some new) ∈ rows

theorem Visits.fate {decide : Id → FieldMap → Option FieldMap → Prop}
    {live : List (Id × FieldMap)} {writes : Writes Id FieldMap} (h : Visits decide live writes)
    {base rows : Rows} (hlive : ∀ id old, (id, old) ∈ live → base.lookup id = some old)
    (hsame : ∀ id ∈ writes.map Prod.fst, rows.lookup id = base.lookup id) (id : Id) :
    id ∉ writes.map Prod.fst ∧ (applyWrites rows writes).lookup id = rows.lookup id ∨
      ∃ old new, (id, old) ∈ live ∧ rows.lookup id = some old ∧ decide id old (some new) ∧
        (applyWrites rows writes).lookup id = some new := by
  by_cases hmem : id ∈ writes.map Prod.fst
  · obtain ⟨v, hv, hlookup⟩ := exists_write_of_mem (m := rows) hmem
    obtain ⟨old, new, rfl, hold, hdecide⟩ := h.written id v hv
    refine .inr ⟨old, new, hold, ?_, hdecide, hlookup⟩
    rw [hsame id hmem]
    exact hlive id old hold
  · exact .inl ⟨hmem, lookup_applyWrites_of_not_mem hmem⟩

theorem stageCutover_visits {rows : Writes Id FieldMap}
    (h : stageCutover field p chunk = .ok rows) :
    Visits (fun id old new => cutoverRow field p id old = .ok new) chunk.live rows := by
  obtain ⟨promoted, hpromoted, h⟩ := bind_eq_ok.mp h
  obtain rfl := pure_eq_ok.mp h
  constructor
  · intro id v hv
    obtain ⟨o, ho, hsome⟩ := mem_filterMap.mp hv
    obtain ⟨new, hnew, heq⟩ := map_eq_some_iff.mp hsome
    cases heq
    obtain ⟨row, hrow, hval⟩ := exists_of_mem_mapM hpromoted ho
    obtain ⟨a, ha, rfl⟩ := map_eq_ok.mp hval
    exact ⟨row.2, new, rfl, hrow, ha.trans (congrArg _ hnew)⟩
  · intro id old hold
    obtain ⟨o, ho, hval⟩ := exists_of_mem_of_mapM hpromoted hold
    obtain ⟨a, ha, rfl⟩ := map_eq_ok.mp hval
    cases a with
    | none => exact .inl ha
    | some new => exact .inr ⟨new, ha, mem_filterMap.mpr ⟨_, ho, rfl⟩⟩

theorem stageRollback_visits :
    Visits (fun _ old new => rollbackRow field old = new) chunk.live
      (stageRollback field chunk) := by
  constructor
  · intro id v hv
    obtain ⟨row, hrow, hsome⟩ := mem_filterMap.mp hv
    obtain ⟨new, hnew, heq⟩ := map_eq_some_iff.mp hsome
    cases heq
    exact ⟨row.2, new, rfl, hrow, hnew⟩
  · intro id old hold
    cases hnew : rollbackRow field old with
    | none => exact .inl rfl
    | some new =>
      refine .inr ⟨new, rfl, mem_filterMap.mpr ⟨(id, old), hold, ?_⟩⟩
      rw [hnew]
      rfl

structure BackfillChunk (field : String) (p : PinnedPlan) (converter : Converter) (idx hi : Nat)
    (pc : PartitionCursor) (chunk : ChunkScan) (high : Id) (commit : Commit)
    (after : PartitionCursor) : Prop where
  plan : commit.plan = none
  kind : commit.kind = none
  cursors : commit.cursors = [(idx, some after)]
  cursor : after.cursor = if high.toNat ≤ hi - 1 then high else UInt64.ofNat (hi - 1)
  done : after.done = (!chunk.more || decide (hi ≤ high.toNat))
  written : ∀ id v, (id, v) ∈ commit.rows → ∃ old new, v = some new ∧ (id, old) ∈ chunk.live ∧
    convertRowForBackfill field p converter id old = .ok (some new)
  quarantined : ∀ id v, (id, v) ∈ commit.quarantine → v = some ()
  visited : ∀ id old, (id, old) ∈ chunk.live → id.toNat < hi →
    (∃ new, convertRowForBackfill field p converter id old = .ok (some new) ∧
      (p.dryRun = false → (id, some new) ∈ commit.rows)) ∨
    convertRowForBackfill field p converter id old = .ok none ∨
    ∃ e, convertRowForBackfill field p converter id old = .error e ∧
      e.isPolicyGoverned = true ∧ p.errorPolicy ≠ .stop ∧
      (p.errorPolicy = .quarantine → p.dryRun = false → (id, some ()) ∈ commit.quarantine)

theorem backfillRow_eq_ok {row : Id × FieldMap} {o : RowOutcome}
    (h : backfillRow field p converter row = .ok o) :
    (∃ new, convertRowForBackfill field p converter row.1 row.2 = .ok new ∧
      o = { blob := if p.dryRun then none else new, quarantined := false, failed := false }) ∨
    ∃ e, convertRowForBackfill field p converter row.1 row.2 = .error e ∧
      e.isPolicyGoverned = true ∧ p.errorPolicy ≠ .stop ∧
      o = { blob := none, quarantined := decide (p.errorPolicy = .quarantine) && !p.dryRun,
            failed := true } := by
  unfold backfillRow at h
  split at h
  next new hnew =>
    cases h
    exact .inl ⟨new, hnew, rfl⟩
  next e he =>
    split_ifs at h with hhalt
    cases h
    rw [not_or, not_not] at hhalt
    exact .inr ⟨e, he, hhalt.2, hhalt.1, rfl⟩

variable {pc after : PartitionCursor} {hist : History} {idx errors : Nat} {commit : Commit}

theorem stageBackfill_spec {hi : Nat}
    (h : stageBackfill field p converter idx hi pc chunk high = .ok (commit, after, errors)) :
    BackfillChunk field p converter idx hi pc chunk high commit after := by
  obtain ⟨outcomes, houtcomes, h⟩ := bind_eq_ok.mp h
  obtain ⟨hcommit, hrest⟩ := Prod.mk.inj (pure_eq_ok.mp h)
  obtain ⟨hafter, -⟩ := Prod.mk.inj hrest
  subst hafter
  subst hcommit
  refine ⟨rfl, rfl, rfl, rfl, rfl, ?_, ?_, ?_⟩
  · intro id v hv
    obtain ⟨o, ho, hsome⟩ := mem_filterMap.mp hv
    obtain ⟨new, hnew, heq⟩ := map_eq_some_iff.mp hsome
    cases heq
    obtain ⟨row, hrow, hval⟩ := exists_of_mem_mapM houtcomes ho
    obtain ⟨a, ha, rfl⟩ := map_eq_ok.mp hval
    rcases backfillRow_eq_ok ha with ⟨new', hconvert, rfl⟩ | ⟨e, -, -, -, rfl⟩
    · split_ifs at hnew
      exact ⟨row.2, new, rfl, (mem_filter.mp hrow).1, hconvert.trans (congrArg _ hnew)⟩
    · cases hnew
  · intro id v hv
    obtain ⟨o, -, heq⟩ := mem_map.mp hv
    exact (Prod.mk.inj heq).2.symm
  · intro id old hold hlt
    have hrow : (id, old) ∈ chunk.live.filter fun row => decide (row.1.toNat < hi) :=
      mem_filter.mpr ⟨hold, decide_eq_true hlt⟩
    obtain ⟨o, ho, hval⟩ := exists_of_mem_of_mapM houtcomes hrow
    obtain ⟨a, ha, rfl⟩ := map_eq_ok.mp hval
    rcases backfillRow_eq_ok ha with ⟨new, hconvert, rfl⟩ | ⟨e, he, hgoverned, hpolicy, rfl⟩
    · cases new with
      | none => exact .inr (.inl hconvert)
      | some new =>
        refine .inl ⟨new, hconvert, fun hdry => mem_filterMap.mpr ⟨_, ho, ?_⟩⟩
        rw [hdry]
        rfl
    · refine .inr (.inr ⟨e, he, hgoverned, hpolicy, fun hquarantine hdry => ?_⟩)
      refine mem_map.mpr ⟨_, mem_filter.mpr ⟨ho, ?_⟩, rfl⟩
      rw [hquarantine, hdry]
      rfl

theorem lookup_eq_of_not_conflicts (id : Id) {n : Nat} {c : Commit}
    (hno : ¬ hist.Conflicts Commit.keys n c.keys) (hid : id ∈ c.rows.map Prod.fst) :
    (hist.latest Data.apply).rows.lookup id = (hist.stateAt Data.apply n).rows.lookup id :=
  lookup_of_not_writtenSince
    (not_writtenSince_of_not_conflicts hno (Commit.object_mem_keys.mpr hid))

theorem StagedBackfill.fate {snapshot : Nat}
    (h : StagedBackfill field converter hist p idx pc snapshot commit after errors)
    (hno : ¬ hist.Conflicts Commit.keys snapshot commit.keys) (id : Id) :
    (applyWrites (hist.latest Data.apply).rows commit.rows).lookup id =
        (hist.latest Data.apply).rows.lookup id ∨
      ∃ old new, (hist.latest Data.apply).rows.lookup id = some old ∧
        convertRowForBackfill field p converter id old = .ok (some new) ∧
        (applyWrites (hist.latest Data.apply).rows commit.rows).lookup id = some new := by
  obtain ⟨-, layers, high, -, hstaged⟩ := h
  have hspec := stageBackfill_spec hstaged
  by_cases hmem : id ∈ commit.rows.map Prod.fst
  · obtain ⟨v, hv, hlookup⟩ := exists_write_of_mem (m := (hist.latest Data.apply).rows) hmem
    obtain ⟨old, new, rfl, hold, hconvert⟩ := hspec.written id v hv
    refine .inr ⟨old, new, ?_, hconvert, hlookup⟩
    rw [lookup_eq_of_not_conflicts _ hno hmem]
    exact (scanChunkRaw_live _ _ _ _ hold).1
  · exact .inl (lookup_applyWrites_of_not_mem hmem)

theorem le_cursor_of_lt_workerStart {pc : PartitionCursor} {id : Id}
    (hlo : (partitionRange p.parallelDegree p.idUpperBound idx).1 ≤ id.toNat)
    (hlt : id < workerStart p idx pc) : id ≤ pc.cursor := by
  unfold workerStart at hlt
  rw [lt_iff_toNat_lt, toNat_ofNat'] at hlt
  rw [le_iff_toNat_le]
  have hmod := Nat.mod_le (max pc.cursor.toNat
    ((partitionRange p.parallelDegree p.idUpperBound idx).1 - 1) + 1) (2 ^ 64)
  omega

end

section

variable {field} {hist : History} {h : Handle} {id : Id}

inductive WriteFate (field : String) (h : Handle) (staged : StagedWrite) (id : Id)
    (old : Option FieldMap) (last : Option Value) : Option FieldMap → Option Value → Prop
  | kept : WriteFate field h staged id old last old last
  | created {scalars blob : FieldMap} :
      Unshadowed field scalars →
      (∀ kind, declaredKind field h.type = some kind → OfKind kind (scalars.lookup field)) →
      applyMigratingFieldHook field h.hook id scalars = .ok blob →
      (id, some blob) ∈ staged.rows → (id, scalars.lookup field) ∈ staged.written →
      WriteFate field h staged id old last (some blob) (scalars.lookup field)
  | updated {before merged blob : FieldMap} {update : Option Value} :
      old = some before →
      merged.lookup field = update.or (before.lookup field) →
      merged.lookup (shadowName field) = before.lookup (shadowName field) →
      merged.lookup (shadowCvName field) = before.lookup (shadowCvName field) →
      (∀ kind, declaredKind field h.type = some kind → OfKind kind update) →
      applyMigratingFieldHook field h.hook id merged = .ok blob →
      (id, some blob) ∈ staged.rows → (∀ v ∈ update, (id, some v) ∈ staged.written) →
      WriteFate field h staged id old last (some blob) (update.or last)
  | deleted : WriteFate field h staged id old last none none

theorem foldl_update_none (ids : List Id) (f : Id → Option Value) (id : Id) :
    (ids.map fun id => (id, (none : Option Value))).foldl
      (fun f e => Function.update f e.1 e.2) f id = if id ∈ ids then none else f id := by
  induction ids generalizing f with
  | nil => rfl
  | cons a ids ih =>
    rw [map_cons, foldl_cons, ih]
    by_cases hmem : id ∈ ids
    · rw [if_pos hmem, if_pos (mem_cons_of_mem a hmem)]
    · by_cases heq : id = a
      · subst heq
        rw [if_neg hmem, if_pos (mem_cons_self ..), update_self]
      · rw [if_neg hmem, if_neg fun h => (mem_cons.mp h).elim heq hmem,
          update_of_ne heq]

theorem WriterOk.fate {w : Writer} (hw : WriterOk field hist h w)
    (hno : ¬ hist.Conflicts Commit.keys w.snapshot { rows := w.staged.rows : Commit }.keys)
    (written : Id → Option Value) (id : Id) :
    WriteFate field h w.staged id ((hist.latest Data.apply).rows.lookup id) (written id)
      ((applyWrites (hist.latest Data.apply).rows w.staged.rows).lookup id)
      (w.staged.written.foldl (fun f e => Function.update f e.1 e.2) written id) := by
  obtain ⟨-, hstaged⟩ := hw
  have hsame := fun hid => lookup_eq_of_not_conflicts id hno hid
  generalize w.staged = staged at hstaged hsame
  cases hop : w.op with
  | create fields =>
    rw [hop] at hstaged
    obtain ⟨scalars, blob, hunshadowed, hkind, hhook, rfl⟩ := stageWrite_create hstaged
    by_cases hid : id = w.objectId
    · subst hid
      have hrow : (applyWrites (hist.latest Data.apply).rows [(w.objectId, some blob)]).lookup
          w.objectId = some blob := AList.lookup_insert _
      rw [hrow, foldl_cons, foldl_nil, update_self]
      exact .created hunshadowed hkind hhook (mem_singleton_self _) (mem_singleton_self _)
    · rw [lookup_applyWrites_of_not_mem (by simpa using hid), foldl_cons, foldl_nil,
        update_of_ne hid]
      exact .kept
  | update target updates =>
    rw [hop] at hstaged
    obtain ⟨old, merged, blob, hold, hfield, hshadow, hcv, hkind, hhook, rfl⟩ :=
      stageWrite_update hstaged
    by_cases hid : id = target
    · subst hid
      have hrow : (applyWrites (hist.latest Data.apply).rows [(id, some blob)]).lookup id =
          some blob := AList.lookup_insert _
      have hwritten : (((updates.lookup field).toList.map fun value => (id, some value)).foldl
          (fun f e => Function.update f e.1 e.2) written) id =
            (updates.lookup field).or (written id) := by
        cases updates.lookup field with
        | none => rfl
        | some value => exact update_self ..
      rw [hrow, hwritten]
      refine .updated ((hsame (by simp)).trans hold) hfield hshadow hcv hkind hhook
        (mem_singleton_self _) ?_
      intro v hv
      rw [mem_def.mp hv]
      exact mem_singleton_self _
    · have hwritten : (((updates.lookup field).toList.map fun value => (target, some value)).foldl
          (fun f e => Function.update f e.1 e.2) written) id = written id := by
        cases updates.lookup field with
        | none => rfl
        | some value => exact update_of_ne hid ..
      rw [lookup_applyWrites_of_not_mem (by simpa using hid), hwritten]
      exact .kept
  | delete target cascade =>
    rw [hop] at hstaged
    obtain rfl := stageWrite_delete hstaged
    rw [foldl_update_none]
    split_ifs with hmem
    · have hrow : (applyWrites (hist.latest Data.apply).rows
          ((target :: cascade).map fun id => (id, none))).lookup id = none := by
        have hkey : id ∈ ((target :: cascade).map fun id =>
            (id, (none : Option FieldMap))).map Prod.fst :=
          mem_map.mpr ⟨(id, none), mem_map.mpr ⟨id, hmem, rfl⟩, rfl⟩
        obtain ⟨v, hv, hlookup⟩ := exists_write_of_mem (m := (hist.latest Data.apply).rows) hkey
        obtain ⟨_, -, heq⟩ := mem_map.mp hv
        cases heq
        exact hlookup
      rw [hrow]
      exact .deleted
    · rw [lookup_applyWrites_of_not_mem (by simpa using hmem)]
      exact .kept

end

variable {field} {hist : History} {id : Id} {after : MigrationPlan} {commit : Commit}
  {snapshot : Nat} {pass : Pass} {more : Bool}

def Behind (cursor id : Id) : Prop := cursor ≠ 0 ∧ id ≤ cursor

instance (cursor id : Id) : Decidable (Behind cursor id) := inferInstanceAs (Decidable (_ ∧ _))

def passRow (field : String) (kind : PassKind) (p : PinnedPlan) (id : Id) (old : FieldMap)
    (new : Option FieldMap) : Prop :=
  match kind with
  | .cutover => cutoverRow field p id old = .ok new
  | .rollback => rollbackRow field old = new

/-- What a chunk of a pass over the scanned rows `base` makes of a live row. A row that it left alone
may have been given a shadow since. -/
inductive PassFate (field : String) (kind : PassKind) (p : PinnedPlan) (base : Rows)
    (id cursor high : Id) (more : Bool) (old : FieldMap) : FieldMap → Prop
  | behind : Behind cursor id → id ≤ high → PassFate field kind p base id cursor high more old old
  | ahead : more = true → high < id → cursor < id →
      PassFate field kind p base id cursor high more old old
  | left : id ≤ high → passRow field kind p id old none →
      PassFate field kind p base id cursor high more old old
  | shadowed {before : FieldMap} {w : Value} : id ≤ high → base.lookup id = some before →
      Convertible field p before → passRow field kind p id before none →
      old = withShadow field before w p.converterVersion →
      PassFate field kind p base id cursor high more old old
  | moved {new : FieldMap} : id ≤ high → passRow field kind p id old (some new) →
      PassFate field kind p base id cursor high more old new

theorem PinnedPlan.one_le_chunk {p : PinnedPlan} : 1 ≤ p.chunk := by
  unfold PinnedPlan.chunk defaultMigrationChunkSize
  split_ifs with hzero
  · decide
  · omega

theorem behind_or_passStart_le (id : Id) {p : MigrationPlan}
    (hmax : p.cutoverCursor.toNat ≠ 2 ^ 64 - 1) :
    Behind p.cutoverCursor id ∧ ¬ passStart p ≤ id ∨
      ¬ Behind p.cutoverCursor id ∧ passStart p ≤ id ∧ (p.cutoverCursor = 0 ∨ p.cutoverCursor < id) := by
  have hlt := p.cutoverCursor.toNat_lt
  unfold Behind passStart
  by_cases hzero : p.cutoverCursor = 0
  · right
    rw [if_pos hzero]
    exact ⟨fun h => h.1 hzero, le_iff_toNat_le.mpr (Nat.zero_le _), .inl hzero⟩
  · have hsucc : (p.cutoverCursor + UInt64.ofNat 1).toNat = p.cutoverCursor.toNat + 1 := by
      rw [UInt64.toNat_add, UInt64.toNat_ofNat']
      omega
    rw [if_neg hzero, le_iff_toNat_le, le_iff_toNat_le, lt_iff_toNat_lt, hsucc]
    by_cases hle : id.toNat ≤ p.cutoverCursor.toNat
    · exact .inl ⟨⟨hzero, hle⟩, by omega⟩
    · exact .inr ⟨fun h => hle h.2, by omega, .inr (by omega)⟩

theorem StagedPass.visits (h : StagedPass field hist pass snapshot commit after more) :
    ∃ layers high rows, commit = { rows, plan := some after } ∧
      after = { pass.plan with cutoverCursor := high } ∧
      (scanChunkRaw (hist.stateAt Data.apply snapshot).rows layers (passStart pass.plan)
        pass.plan.chunk).highWater = some high ∧
      more = (scanChunkRaw (hist.stateAt Data.apply snapshot).rows layers (passStart pass.plan)
        pass.plan.chunk).more ∧
      Visits (passRow field pass.kind pass.plan.toPinnedPlan)
        (scanChunkRaw (hist.stateAt Data.apply snapshot).rows layers (passStart pass.plan)
          pass.plan.chunk).live rows := by
  obtain ⟨-, -, -, layers, high, rows, hhigh, hmore, hafter, hcommit, hrows⟩ := h
  refine ⟨layers, high, rows, hcommit, hafter, hhigh, hmore, ?_⟩
  cases hkind : pass.kind with
  | cutover =>
    rw [hkind] at hrows
    exact stageCutover_visits hrows
  | rollback =>
    rw [hkind] at hrows
    subst hrows
    exact stageRollback_visits

theorem StagedPass.fate (h : StagedPass field hist pass snapshot commit after more)
    (hno : ¬ hist.Conflicts Commit.keys snapshot commit.keys) :
    (∀ id, (hist.latest Data.apply).rows.lookup id = none →
      (applyWrites (hist.latest Data.apply).rows commit.rows).lookup id = none) ∧
    ∀ id old, (hist.latest Data.apply).rows.lookup id = some old →
      ∃ new, (applyWrites (hist.latest Data.apply).rows commit.rows).lookup id = some new ∧
        PassFate field pass.kind pass.plan.toPinnedPlan (hist.stateAt Data.apply snapshot).rows id
          pass.plan.cutoverCursor after.cutoverCursor more old new := by
  obtain ⟨layers, high, rows, rfl, rfl, hhigh, rfl, hvisits⟩ := h.visits
  obtain ⟨-, hmax, htouched, -⟩ := h
  set rows' := (hist.stateAt Data.apply snapshot).rows with hrows'
  have hlive : ∀ id old,
      (id, old) ∈ (scanChunkRaw rows' layers (passStart pass.plan) pass.plan.chunk).live →
        rows'.lookup id = some old ∧ passStart pass.plan ≤ id :=
    fun _ _ => scanChunkRaw_live rows' layers _ _
  have hfate := hvisits.fate (fun id old hold => (hlive id old hold).1)
    fun id hid => lookup_eq_of_not_conflicts id hno hid
  constructor
  · intro id hnone
    rcases hfate id with ⟨-, hsame⟩ | ⟨old, new, -, hold, -, -⟩
    · exact hsame.trans hnone
    · cases hold.symm.trans hnone
  · intro id old hold
    rcases hfate id with ⟨hunwritten, hsame⟩ | ⟨old', new, hmem, hold', hdecide, hnew⟩
    · refine ⟨old, hsame.trans hold, ?_⟩
      rcases behind_or_passStart_le id hmax with ⟨hbehind, hnot⟩ | ⟨-, hstart, hahead⟩
      · have hstart := start_le_highWater hhigh
        have hle : id ≤ high := by
          rw [le_iff_toNat_le] at hstart hnot ⊢
          omega
        exact .behind hbehind hle
      · -- the row as it was scanned, and what the backfill has done to it since
        have hscanned : ∃ before,
            (hist.stateAt Data.apply snapshot).rows.lookup id = some before ∧
            (old = before ∨ Convertible field pass.plan.toPinnedPlan before ∧
              ∃ w, old = withShadow field before w pass.plan.converterVersion) := by
          rcases htouched id with heq | ⟨before, w, hbefore, hconvertible, hnew⟩
          · exact ⟨old, heq.symm.trans hold, .inl rfl⟩
          · exact ⟨before, hbefore, .inr ⟨hconvertible, w, Option.some.inj (hold.symm.trans hnew)⟩⟩
        obtain ⟨before, hbefore, hsince⟩ := hscanned
        rcases scanChunkRaw_covers layers PinnedPlan.one_le_chunk hbefore hstart with
          hmem | ⟨hmore, high', hhigh', hlt⟩
        · have hle := scanChunkRaw_le_highWater hmem hhigh
          rcases hvisits.visited id before hmem with hnone | ⟨new, -, hwritten⟩
          · rcases hsince with rfl | ⟨hconvertible, w, hw⟩
            · exact .left hle hnone
            · exact .shadowed hle hbefore hconvertible hnone hw
          · exact absurd (mem_map.mpr ⟨_, hwritten, rfl⟩) hunwritten
        · cases hhigh.symm.trans hhigh'
          refine .ahead hmore hlt (hahead.elim (fun hzero => ?_) fun hlt => hlt)
          rw [hzero, lt_iff_toNat_lt]
          exact Nat.lt_of_le_of_lt (Nat.zero_le _) hlt
    · cases hold.symm.trans hold'
      exact ⟨new, hnew, .moved (scanChunkRaw_le_highWater hmem hhigh) hdecide⟩

end RhypeDb.Migration
