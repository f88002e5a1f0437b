import RhypeDb.Basic.SnapshotHistory
import RhypeDb.Basic.SortDedup
import RhypeDb.Migration.Plan

/-! What is stored of a migrated type, and the writes of one commit: the object blobs, the plan
record, the partition cursors, the quarantine rows and the catalog's kind of the field. -/

namespace RhypeDb.Migration

open Engine Storage SortDedup List

section

variable {κ β : Type} [DecidableEq κ]

def applyWrites (m : AList fun _ : κ => β) (writes : Writes κ β) : AList fun _ : κ => β :=
  writes.foldl (fun m w =>
    match w.2 with
    | some value => m.insert w.1 value
    | none => m.erase w.1) m

def tombstones (m : AList fun _ : κ => β) : Writes κ β := m.keys.map fun k => (k, none)

variable {m : AList fun _ : κ => β} {writes : Writes κ β} {k : κ}

theorem lookup_applyWrites :
    (applyWrites m writes).lookup k = (lastWrite writes k).getD (m.lookup k) := by
  induction writes using List.reverseRecOn with
  | nil => rfl
  | append_singleton writes w ih =>
    rw [lastWrite_concat, applyWrites, foldl_append, foldl_cons, foldl_nil]
    obtain ⟨key, _ | value⟩ := w
    · by_cases hk : key = k
      · subst hk
        simp
      · rw [AList.lookup_erase_ne (Ne.symm hk), if_neg hk]
        exact ih
    · by_cases hk : key = k
      · subst hk
        simp
      · rw [AList.lookup_insert_ne (Ne.symm hk), if_neg hk]
        exact ih

theorem lookup_applyWrites_of_not_mem (h : k ∉ writes.map Prod.fst) :
    (applyWrites m writes).lookup k = m.lookup k := by
  rw [lookup_applyWrites, lastWrite_eq_none.mpr fun w hw heq => h (mem_map.mpr ⟨w, hw, heq⟩)]
  rfl

theorem exists_write_of_mem (h : k ∈ writes.map Prod.fst) :
    ∃ v, (k, v) ∈ writes ∧ (applyWrites m writes).lookup k = v := by
  obtain ⟨v, hv⟩ := Option.isSome_iff_exists.mp (isSome_lastWrite.mpr h)
  refine ⟨v, lastWrite_mem hv, ?_⟩
  rw [lookup_applyWrites, hv]
  rfl

end

abbrev Rows := AList fun _ : Id => FieldMap

structure Data where
  rows : Rows
  plan : Option MigrationPlan
  cursors : AList fun _ : Nat => PartitionCursor
  quarantine : AList fun _ : Id => Unit
  kind : ScalarType

structure Commit where
  rows : Writes Id FieldMap := []
  plan : Option MigrationPlan := none
  cursors : Writes Nat PartitionCursor := []
  quarantine : Writes Id Unit := []
  kind : Option ScalarType := none

inductive RecordKey
  | object (id : Id)
  | plan
  | cursor (idx : Nat)
  | quarantine (id : Id)
  | catalogField
  deriving DecidableEq

def Data.apply (d : Data) (c : Commit) : Data where
  rows := applyWrites d.rows c.rows
  plan := c.plan.or d.plan
  cursors := applyWrites d.cursors c.cursors
  quarantine := applyWrites d.quarantine c.quarantine
  kind := c.kind.getD d.kind

def Commit.keys (c : Commit) : List RecordKey :=
  (c.rows.map fun w => .object w.1) ++ (c.plan.toList.map fun _ => .plan) ++
    (c.cursors.map fun w => .cursor w.1) ++ (c.quarantine.map fun w => .quarantine w.1) ++
      c.kind.toList.map fun _ => .catalogField

abbrev History := SnapshotHistory Data Commit

variable {id : Id}

theorem Commit.object_mem_keys {c : Commit} : .object id ∈ c.keys ↔ id ∈ c.rows.map Prod.fst := by
  unfold Commit.keys
  simp

theorem Data.lookup_apply_of_not_mem {d : Data} {c : Commit}
    (h : .object id ∉ c.keys) : (d.apply c).rows.lookup id = d.rows.lookup id := by
  rw [Commit.object_mem_keys] at h
  exact lookup_applyWrites_of_not_mem h

theorem lookup_of_not_writtenSince {h : History} {n : Nat}
    (hno : ¬ h.WrittenSince Commit.keys n (.object id)) :
    (h.latest Data.apply).rows.lookup id = (h.stateAt Data.apply n).rows.lookup id := by
  unfold SnapshotHistory.latest SnapshotHistory.stateAt
  unfold SnapshotHistory.WrittenSince at hno
  rw [← take_append_drop n h.commits, foldl_append, take_append_drop]
  generalize h.commits.drop n = later at hno
  induction later using List.reverseRecOn with
  | nil => rfl
  | append_singleton later c ih =>
    have hlater : ¬ ∃ c ∈ later, RecordKey.object id ∈ c.keys := by
      rintro ⟨c', hc', hk⟩
      exact hno ⟨c', mem_append_left _ hc', hk⟩
    rw [foldl_append, foldl_cons, foldl_nil, Data.lookup_apply_of_not_mem]
    · exact ih hlater
    · exact fun hk => hno ⟨c, mem_append_right _ (mem_singleton_self c), hk⟩

section

/-- What the layers hold besides the live objects: the ids of dead ones, and whether a layer
filled the window of the scan. -/
structure Layers where
  dead : List Id
  saturated : Bool

structure ChunkScan where
  live : List (Id × FieldMap)
  highWater : Option Id
  more : Bool

/-- `scan_chunk_raw` from an id on. -/
def scanChunkRaw (rows : Rows) (layers : Layers) (start : Id) (maxDistinct : Nat) : ChunkScan :=
  let keys := sortDedupBy UInt64.toNat
    ((rows.keys ++ layers.dead).filter fun id => decide (start ≤ id))
  let visited := keys.take maxDistinct
  { live := visited.filterMap fun id => (rows.lookup id).map fun blob => (id, blob)
    highWater := visited.getLast?
    more := layers.saturated || decide (maxDistinct < keys.length) }

variable {rows : Rows} {layers : Layers} {start : Id} {maxDistinct : Nat} {blob : FieldMap}

theorem scanChunkRaw_live (rows : Rows) (layers : Layers) (start : Id) (maxDistinct : Nat)
    (h : (id, blob) ∈ (scanChunkRaw rows layers start maxDistinct).live) :
    rows.lookup id = some blob ∧ start ≤ id := by
  obtain ⟨id', hvisited, hlive⟩ := mem_filterMap.mp h
  obtain ⟨_, hlookup, heq⟩ := Option.map_eq_some_iff.mp hlive
  cases heq
  have hmem := mem_of_mem_sortDedupBy (mem_of_mem_take hvisited)
  exact ⟨hlookup, of_decide_eq_true (mem_filter.mp hmem).2⟩

theorem scanChunkRaw_covers (layers : Layers) (hsize : 1 ≤ maxDistinct)
    (hid : rows.lookup id = some blob)
    (hstart : start ≤ id) :
    (id, blob) ∈ (scanChunkRaw rows layers start maxDistinct).live ∨
      (scanChunkRaw rows layers start maxDistinct).more = true ∧
        ∃ high ∈ (scanChunkRaw rows layers start maxDistinct).highWater, high < id := by
  have hmem : id ∈ sortDedupBy UInt64.toNat
      ((rows.keys ++ layers.dead).filter fun id => decide (start ≤ id)) := by
    rw [mem_sortDedupBy fun a _ b _ h => UInt64.toNat_inj.mp h, mem_filter,
      mem_append]
    refine ⟨.inl ?_, decide_eq_true hstart⟩
    rw [← AList.mem_keys, ← AList.lookup_isSome, hid]
    rfl
  rcases mem_take_or_last_lt pairwise_sortDedupBy hsize hmem with hvisited | ⟨hlength, hlast⟩
  · left
    refine mem_filterMap.mpr ⟨id, hvisited, ?_⟩
    rw [hid]
    rfl
  · exact .inr ⟨Bool.or_eq_true_iff.mpr (.inr (decide_eq_true hlength)),
      hlast.imp fun _ h => h.imp_right UInt64.lt_iff_toNat_lt.mpr⟩

theorem scanChunkRaw_ascending :
    (scanChunkRaw rows layers start maxDistinct).live.Pairwise fun a b => a.1 < b.1 := by
  have hsorted : (sortDedupBy UInt64.toNat
      ((rows.keys ++ layers.dead).filter fun id => decide (start ≤ id))).Pairwise
      fun a b => a.toNat < b.toNat := pairwise_sortDedupBy
  refine (hsorted.sublist (take_sublist maxDistinct _)).filterMap _ fun a a' hlt b hb b' hb' => ?_
  obtain ⟨_, -, rfl⟩ := Option.map_eq_some_iff.mp hb
  obtain ⟨_, -, rfl⟩ := Option.map_eq_some_iff.mp hb'
  exact UInt64.lt_iff_toNat_lt.mpr hlt

theorem scanChunkRaw_le_highWater {high : Id}
    (h : (id, blob) ∈ (scanChunkRaw rows layers start maxDistinct).live)
    (hhigh : (scanChunkRaw rows layers start maxDistinct).highWater = some high) : id ≤ high := by
  obtain ⟨id', hvisited, hlive⟩ := mem_filterMap.mp h
  obtain ⟨_, -, heq⟩ := Option.map_eq_some_iff.mp hlive
  cases heq
  have hsorted : (sortDedupBy UInt64.toNat
      ((rows.keys ++ layers.dead).filter fun id => decide (start ≤ id))).Pairwise
      fun a b => a.toNat < b.toNat := pairwise_sortDedupBy
  have htake := hsorted.sublist (take_sublist maxDistinct _)
  obtain ⟨before, hsplit⟩ := getLast?_eq_some_iff.mp hhigh
  rw [hsplit] at hvisited htake
  rcases mem_append.mp hvisited with hbefore | hlast
  · have hlt := (pairwise_append.mp htake).2.2 _ hbefore _ (mem_singleton_self high)
    exact UInt64.le_iff_toNat_le.mpr hlt.le
  · rw [mem_singleton.mp hlast]
    exact UInt64.le_refl high

theorem scanChunkRaw_none (start : Id) (hsize : 1 ≤ maxDistinct) (hid : rows.lookup id = some blob)
    (hnone : (scanChunkRaw rows layers start maxDistinct).highWater = none) : id < start := by
  by_contra hstart
  have hle : start ≤ id := UInt64.le_iff_toNat_le.mpr (by
    rw [UInt64.lt_iff_toNat_lt] at hstart
    omega)
  rcases scanChunkRaw_covers layers hsize hid hle with hlive | ⟨-, high, hhigh, -⟩
  · obtain ⟨id', hvisited, -⟩ := mem_filterMap.mp hlive
    rw [getLast?_eq_none_iff.mp hnone] at hvisited
    cases hvisited
  · rw [hnone] at hhigh
    cases hhigh

theorem start_le_highWater {high : Id}
    (h : (scanChunkRaw rows layers start maxDistinct).highWater = some high) : start ≤ high := by
  have hmem := mem_of_mem_sortDedupBy (mem_of_mem_take (mem_of_getLast? h))
  exact of_decide_eq_true (mem_filter.mp hmem).2

variable (d : Data)

def planRecord (f : MigrationPlan → MigrationPlan) : Commit := { plan := d.plan.map f }

def parkMigrationFailedKeepCursors : Commit := planRecord d fun p => { p with status := .failed }

def parkMigrationFailedRewind : Commit :=
  { planRecord d fun p =>
      { p with status := .failed, phase := .converting, cutoverCursor := 0 } with
    cursors := tombstones d.cursors }

def setPlanPhaseRollingBack : Commit :=
  planRecord d fun p => { p with phase := .rollingBack, cutoverCursor := 0 }

def finalizeMigrationCancelled : Commit :=
  { planRecord d fun p => { p with status := .cancelled } with
    cursors := tombstones d.cursors
    quarantine := tombstones d.quarantine }

def finalizeDryRun : Commit :=
  { planRecord d fun p => { p with status := .dryRunCompleted } with
    cursors := tombstones d.cursors }

def finalizeMigrationCutover : Commit :=
  { planRecord d fun p => { p with status := .completed } with
    kind := d.plan.map fun p => p.targetKind }

def sumPartitionCounts (p : PinnedPlan) : Nat × Bool :=
  let partitions := (List.range (max p.parallelDegree 1)).filter fun idx =>
    decide ((partitionRange p.parallelDegree p.idUpperBound idx).1 <
      (partitionRange p.parallelDegree p.idUpperBound idx).2)
  ((partitions.map fun idx => ((d.cursors.lookup idx).map PartitionCursor.errors).getD 0).sum,
    partitions.all fun idx => ((d.cursors.lookup idx).map PartitionCursor.done).getD false)

variable (field : String)

def unresolvedQuarantine (p : PinnedPlan) : List Id :=
  d.quarantine.keys.filter fun id => (d.rows.lookup id).any (quarantineUnresolved field p)

def reapResolved (p : PinnedPlan) : Commit where
  quarantine := (d.quarantine.keys.filter fun id =>
    !(d.rows.lookup id).any (quarantineUnresolved field p)).map fun id => (id, none)

def clearQuarantine : Commit where
  quarantine := tombstones d.quarantine

def retryQuarantined (p : PinnedPlan) (newConverter : Converter) (objectId : Id) : Option Commit :=
  match d.rows.lookup objectId with
  | none => some { quarantine := [(objectId, none)] }
  | some blob =>
    match convertRowForBackfill field p newConverter objectId blob with
    | .ok (some new) => some { rows := [(objectId, some new)], quarantine := [(objectId, none)] }
    | .ok none => some { quarantine := [(objectId, none)] }
    | .error _ => none

end

variable (field : String) (p : PinnedPlan)

/-- What the backfill does to one row: its new blob, its quarantine row, and whether it failed. -/
structure RowOutcome where
  blob : Option FieldMap
  quarantined : Bool
  failed : Bool

/-- A failed conversion halts under Stop; otherwise the row keeps its source value. -/
def backfillRow (converter : Converter) (row : Id × FieldMap) : Except MigrationError RowOutcome :=
  match convertRowForBackfill field p converter row.1 row.2 with
  | .ok new =>
    .ok { blob := if p.dryRun then none else new, quarantined := false, failed := false }
  | .error e =>
    if p.errorPolicy = .stop ∨ ¬ e.isPolicyGoverned then .error e
    else .ok { blob := none, quarantined := decide (p.errorPolicy = .quarantine) && !p.dryRun,
               failed := true }

/-- The chunk of one partition: its commit, the cursor behind it, and its failed rows. -/
def stageBackfill (converter : Converter) (idx hi : Nat) (pc : PartitionCursor) (chunk : ChunkScan)
    (high : Id) : Except MigrationError (Commit × PartitionCursor × Nat) := do
  let rows := chunk.live.filter fun row => decide (row.1.toNat < hi)
  let outcomes ← rows.mapM fun row =>
    (backfillRow field p converter row).map fun outcome => (row.1, outcome)
  let errors := outcomes.countP fun o => o.2.failed
  let after : PartitionCursor :=
    { cursor := if high.toNat ≤ hi - 1 then high else UInt64.ofNat (hi - 1)
      errors := pc.errors + errors
      done := !chunk.more || decide (hi ≤ high.toNat) }
  return ({ rows := outcomes.filterMap fun o => o.2.blob.map fun new => (o.1, some new)
            quarantine := (outcomes.filter fun o => o.2.quarantined).map fun o => (o.1, some ())
            cursors := [(idx, some after)] }, after, errors)

def stageCutover (chunk : ChunkScan) : Except MigrationError (Writes Id FieldMap) := do
  let promoted ← chunk.live.mapM fun row =>
    (cutoverRow field p row.1 row.2).map fun new => (row.1, new)
  return promoted.filterMap fun o => o.2.map fun new => (o.1, some new)

def stageRollback (chunk : ChunkScan) : Writes Id FieldMap :=
  chunk.live.filterMap fun row => (rollbackRow field row.2).map fun new => (row.1, some new)

end RhypeDb.Migration
