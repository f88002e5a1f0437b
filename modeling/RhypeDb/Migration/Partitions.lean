import RhypeDb.Migration.Transactions

/-! `partition_range` with the sums of the machine, and the chunks of `run_migration_partition` over
one range. The store may change between any two of them, and the worker may stop there and go on
from its stored cursor. -/

namespace RhypeDb.Migration.Partitions

open Engine Fallible List Nat

/-- `partition_range` as the machine computes it. -/
def saturatingRange (n idUpperBound idx : Nat) : Nat × Nat :=
  let n := max n 1
  let width := idUpperBound - 1
  if width = 0 then (max idUpperBound 1, max idUpperBound 1)
  else
    let span := max ((width + n - 1) / n) 1
    (min (saturatingAdd (saturatingMul idx span) 1) idUpperBound,
      min (saturatingAdd (saturatingMul (saturatingAdd idx 1) span) 1) idUpperBound)

structure Partition where
  field : String
  plan : PinnedPlan
  converter : Converter
  idx : Nat

structure Worker where
  visited : List Id
  pc : PartitionCursor

structure Turn where
  rows : Rows
  layers : Layers
  accepted : Bool

namespace Partition

variable (e : Partition) (w : Worker) (t : Turn)

def range : Nat × Nat := partitionRange e.plan.parallelDegree e.plan.idUpperBound e.idx

def start : Id := workerStart e.plan e.idx w.pc

def chunk : ChunkScan := scanChunkRaw t.rows t.layers (e.start w) e.plan.chunk

def inRange : List Id :=
  ((e.chunk w t).live.filter fun row => decide (row.1.toNat < e.range.2)).map Prod.fst

def stage (high : Id) : Except MigrationError (Commit × PartitionCursor × Nat) :=
  stageBackfill e.field e.plan e.converter e.idx e.range.2 w.pc (e.chunk w t) high

/-- A turn of the loop. An attempt that fails or is refused leaves everything as it is. -/
def step : Worker :=
  if w.pc.done then w
  else if e.range.2 ≤ (e.start w).toNat then
    { w with pc := { w.pc with done := true } }
  else
    match (e.chunk w t).highWater with
    | none => { w with pc := { w.pc with done := true } }
    | some high =>
      match e.stage w t high with
      | .error _ => w
      | .ok (_, after, _) =>
        if t.accepted then
          { visited := w.visited ++ e.inRange w t, pc := after }
        else w

/-- The attempt is refused, or a row of it is not converted. -/
def Halts : Prop := t.accepted = false ∨ ∃ high error, e.stage w t high = .error error

end Partition

section

variable {n idx : Nat} {idUpperBound : Id}

theorem saturatingRange_eq (n : Nat) (idUpperBound : Id) (hidx : idx < 2 ^ 64 - 1) :
    saturatingRange n idUpperBound.toNat idx = partitionRange n idUpperBound idx := by
  have hbound := idUpperBound.toNat_lt
  have hnext : saturatingAdd idx 1 = idx + 1 := min_eq_left hidx
  unfold saturatingRange partitionRange
  rw [hnext]
  unfold saturatingAdd saturatingMul
  dsimp only
  generalize max ((idUpperBound.toNat - 1 + max n 1 - 1) / max n 1) 1 = span
  generalize idx * span = lo
  generalize (idx + 1) * span = hi
  split_ifs
  · rfl
  · exact congrArg₂ Prod.mk (by omega) (by omega)

theorem partitionRange_le (n : Nat) (idUpperBound : Id) (idx : Nat) :
    1 ≤ (partitionRange n idUpperBound idx).1 ∧ (partitionRange n idUpperBound idx).1 ≤
      (partitionRange n idUpperBound idx).2 ∧ (partitionRange n idUpperBound idx).2 < 2 ^ 64 := by
  have hbound := idUpperBound.toNat_lt
  unfold partitionRange
  dsimp only
  generalize max ((idUpperBound.toNat - 1 + max n 1 - 1) / max n 1) 1 = span
  rw [succ_mul]
  generalize idx * span = lo
  split_ifs with hempty
  · omega
  · omega

theorem partitionRange_cases (hn : 1 ≤ n) (idUpperBound : Id) :
    (idUpperBound.toNat ≤ 1 ∧ ∀ idx, partitionRange n idUpperBound idx = (1, 1)) ∨
      ∃ span, 1 ≤ span ∧ 2 ≤ idUpperBound.toNat ∧ idUpperBound.toNat - 1 ≤ span * n ∧
        ∀ idx, partitionRange n idUpperBound idx =
          (min (idx * span + 1) idUpperBound.toNat,
            min ((idx + 1) * span + 1) idUpperBound.toNat) := by
  unfold partitionRange
  rw [max_eq_left hn]
  by_cases hempty : idUpperBound.toNat - 1 = 0
  · refine .inl ⟨Nat.le_of_sub_eq_zero hempty, fun idx => ?_⟩
    rw [if_pos hempty, Nat.max_eq_right (Nat.le_of_sub_eq_zero hempty)]
  · refine .inr ⟨_, le_max_right ((idUpperBound.toNat - 1 + n - 1) / n) 1, by omega, ?_,
      fun idx => if_neg hempty⟩
    have hspan := div_add_mod (idUpperBound.toNat - 1 + n - 1) n
    have hmod := mod_lt (idUpperBound.toNat - 1 + n - 1) hn
    have hle := mul_le_mul_left n (le_max_left ((idUpperBound.toNat - 1 + n - 1) / n) 1)
    rw [mul_comm _ n]
    omega

theorem partitionRange_ascending {idx' : Nat} (hn : 1 ≤ n) (h : idx < idx') :
    (partitionRange n idUpperBound idx).2 ≤ (partitionRange n idUpperBound idx').1 := by
  rcases partitionRange_cases hn idUpperBound with ⟨-, hrange⟩ | ⟨span, -, -, -, hrange⟩
  · rw [hrange, hrange]
  · have hle : (idx + 1) * span ≤ idx' * span := mul_le_mul_right span h
    rw [hrange, hrange]
    omega

theorem mem_partitionRange_iff (hn : 1 ≤ n) (id : Nat) :
    (∃ idx < n, (partitionRange n idUpperBound idx).1 ≤ id ∧
      id < (partitionRange n idUpperBound idx).2) ↔ 1 ≤ id ∧ id < idUpperBound.toNat := by
  rcases partitionRange_cases hn idUpperBound with
    ⟨hempty, hrange⟩ | ⟨span, hspan, htwo, hwidth, hrange⟩
  · simp only [hrange]
    refine iff_of_false ?_ (by omega)
    rintro ⟨-, -, hlo, hhi⟩
    omega
  · simp only [hrange]
    constructor
    · rintro ⟨idx, -, hlo, hhi⟩
      omega
    · rintro ⟨hone, hlt⟩
      have hdiv := div_add_mod (id - 1) span
      have hmod := mod_lt (id - 1) hspan
      refine ⟨(id - 1) / span, Nat.div_lt_of_lt_mul (by omega), ?_⟩
      rw [succ_mul, mul_comm]
      omega

variable {e : Partition} {w : Worker} {t : Turn} {first : PartitionCursor} {id : Id}

theorem toNat_start (h : w.pc.cursor.toNat < e.range.2) :
    (e.start w).toNat = max w.pc.cursor.toNat (e.range.1 - 1) + 1 ∧
      saturatingAdd (max w.pc.cursor.toNat (e.range.1 - 1)) 1 = (e.start w).toNat := by
  obtain ⟨-, hle, hlt⟩ := partitionRange_le e.plan.parallelDegree e.plan.idUpperBound e.idx
  have hsum : max w.pc.cursor.toNat (e.range.1 - 1) + 1 < 2 ^ 64 := by
    rw [← Partition.range] at hle hlt
    omega
  have hstart : (e.start w).toNat = max w.pc.cursor.toNat (e.range.1 - 1) + 1 :=
    UInt64.toNat_ofNat_of_lt' hsum
  exact ⟨hstart, hstart ▸ min_eq_left (by omega)⟩

structure Turned (e : Partition) (w : Worker) (t : Turn) (ids : List Id) (w' : Worker) : Prop where
  visited : w'.visited = w.visited ++ ids
  ascending : ids.Pairwise (· < ·)
  inside : ∀ id ∈ ids, (e.start w).toNat ≤ id.toNat ∧
    id.toNat ≤ w'.pc.cursor.toNat
  advanced : w.pc.cursor.toNat ≤ w'.pc.cursor.toNat
  below : w'.pc.cursor.toNat < e.range.2
  covers : w.pc.done = false → ∀ id, (t.rows.lookup id).isSome →
    e.start w ≤ id → id.toNat < e.range.2 →
      id ∈ ids ∨ w'.pc.done = false ∧ w'.pc.cursor.toNat < id.toNat
  goes : ¬ e.Halts w t → w'.pc.done = true ∨ w.pc.cursor.toNat < w'.pc.cursor.toNat

theorem Turned.refl (h : w.pc.cursor.toNat < e.range.2) (hstays : w.pc.done = true ∨ e.Halts w t) :
    Turned e w t [] w where
  visited := (append_nil _).symm
  ascending := .nil
  inside := forall_mem_nil _
  advanced := le_rfl
  below := h
  covers := by
    intro hdone id _ hstart _
    rw [UInt64.le_iff_toNat_le, (toNat_start h).1] at hstart
    exact .inr ⟨hdone, by omega⟩
  goes := fun hgoes => .inl (hstays.resolve_right hgoes)

theorem Turned.ended (h : w.pc.cursor.toNat < e.range.2)
    (hend : e.range.2 ≤ (e.start w).toNat ∨ (e.chunk w t).highWater = none) :
    Turned e w t [] { w with pc := { w.pc with done := true } } where
  visited := (append_nil _).symm
  ascending := .nil
  inside := forall_mem_nil _
  advanced := le_rfl
  below := h
  covers := by
    intro _ id hlive hstart hhi
    obtain ⟨blob, hblob⟩ := Option.isSome_iff_exists.mp hlive
    rw [UInt64.le_iff_toNat_le] at hstart
    rcases hend with hcovered | hnone
    · omega
    · have hlt := scanChunkRaw_none _ PinnedPlan.one_le_chunk hblob hnone
      rw [UInt64.lt_iff_toNat_lt] at hlt
      omega
  goes := fun _ => .inl rfl

theorem Turned.committed (h : w.pc.cursor.toNat < e.range.2)
    (huncovered : ¬ e.range.2 ≤ (e.start w).toNat) {high : Id} {commit : Commit}
    {after : PartitionCursor} {errors : Nat} (hhigh : (e.chunk w t).highWater = some high)
    (hstage : e.stage w t high = .ok (commit, after, errors)) :
    Turned e w t (e.inRange w t) { visited := w.visited ++ e.inRange w t, pc := after } := by
  have hspec := stageBackfill_spec hstage
  have hstart := (toNat_start h).1
  have hfrom := UInt64.le_iff_toNat_le.mp (start_le_highWater hhigh)
  have hcursor : after.cursor.toNat = min high.toNat (e.range.2 - 1) := by
    rw [hspec.cursor]
    split_ifs with hle
    · exact (min_eq_left hle).symm
    · have hlt : e.range.2 - 1 < 2 ^ 64 := (Nat.lt_of_not_le hle).trans high.toNat_lt
      rw [UInt64.toNat_ofNat_of_lt' hlt]
      exact (Nat.min_eq_right (Nat.le_of_not_le hle)).symm
  refine ⟨rfl, pairwise_map.mpr (scanChunkRaw_ascending.filter _), fun id hid => ?_, ?_, ?_,
    fun _ id hlive hge hhi => ?_, fun _ => .inr ?_⟩
  · obtain ⟨⟨id', blob⟩, hrow, rfl⟩ := mem_map.mp hid
    obtain ⟨hscanned, hlt⟩ := mem_filter.mp hrow
    have hlow := UInt64.le_iff_toNat_le.mp (scanChunkRaw_live _ _ _ _ hscanned).2
    have hmark := UInt64.le_iff_toNat_le.mp (scanChunkRaw_le_highWater hscanned hhigh)
    have hhi := of_decide_eq_true hlt
    dsimp only at hhi ⊢
    omega
  · dsimp only
    omega
  · dsimp only
    omega
  · obtain ⟨blob, hblob⟩ := Option.isSome_iff_exists.mp hlive
    rcases scanChunkRaw_covers t.layers PinnedPlan.one_le_chunk hblob hge with
      hscanned | ⟨hmore, high', hhigh', hlt⟩
    · exact .inl (mem_map.mpr ⟨(id, blob), mem_filter.mpr ⟨hscanned, decide_eq_true hhi⟩, rfl⟩)
    · -- there is more to scan, and the mark lies before the id
      cases hhigh.symm.trans hhigh'
      rw [UInt64.lt_iff_toNat_lt] at hlt
      refine .inr ⟨?_, by dsimp only; omega⟩
      rw [hspec.done, Bool.or_eq_false_iff]
      exact ⟨congrArg not hmore, decide_eq_false (by omega)⟩
  · dsimp only
    omega

theorem exists_turned (t : Turn) (h : w.pc.cursor.toNat < e.range.2) :
    ∃ ids, Turned e w t ids (e.step w t) := by
  unfold Partition.step
  split
  next hdone => exact ⟨[], .refl h (.inl hdone)⟩
  next =>
    split
    next hcovered => exact ⟨[], .ended h (.inl hcovered)⟩
    next huncovered =>
      cases hhigh : (e.chunk w t).highWater with
      | none => exact ⟨[], .ended h (.inr hhigh)⟩
      | some high =>
        dsimp only
        cases hstage : e.stage w t high with
        | error error => exact ⟨[], .refl h (.inr (.inr ⟨high, error, hstage⟩))⟩
        | ok out =>
          split_ifs with haccepted
          · exact ⟨_, .committed h huncovered hhigh hstage⟩
          · exact ⟨[], .refl h (.inr (.inl (Bool.eq_false_iff.mpr haccepted)))⟩

structure Reached (e : Partition) (first : PartitionCursor) (w : Worker) : Prop where
  ascending : w.visited.Pairwise (· < ·)
  inside : ∀ id ∈ w.visited, e.range.1 ≤ id.toNat ∧ first.cursor.toNat < id.toNat ∧
    id.toNat ≤ w.pc.cursor.toNat
  advanced : first.cursor.toNat ≤ w.pc.cursor.toNat
  below : w.pc.cursor.toNat < e.range.2

theorem Reached.step (h : Reached e first w) (t : Turn) : Reached e first (e.step w t) := by
  obtain ⟨ids, hturned⟩ := exists_turned t h.below
  have hstart := (toNat_start h.below).1
  have hadvanced := h.advanced
  have hcursor := hturned.advanced
  refine ⟨?_, ?_, hadvanced.trans hcursor, hturned.below⟩
  · rw [hturned.visited]
    refine pairwise_append.mpr ⟨h.ascending, hturned.ascending, fun a ha b hb => ?_⟩
    have hbefore := h.inside a ha
    have hafter := hturned.inside b hb
    exact UInt64.lt_iff_toNat_lt.mpr (by omega)
  · rw [hturned.visited]
    refine forall_mem_append.mpr ⟨fun id hid => ?_, fun id hid => ?_⟩
    · have hbefore := h.inside id hid
      omega
    · have hafter := hturned.inside id hid
      omega

def Covered (id : Id) (w : Worker) : Prop :=
  id ∈ w.visited ∨ w.pc.done = false ∧ w.pc.cursor.toNat < id.toNat

theorem Covered.step (h : Covered id w) (hbelow : w.pc.cursor.toNat < e.range.2)
    (hlo : e.range.1 ≤ id.toNat) (hhi : id.toNat < e.range.2)
    (hlive : (t.rows.lookup id).isSome) : Covered id (e.step w t) := by
  obtain ⟨ids, hturned⟩ := exists_turned t hbelow
  rw [Covered, hturned.visited, mem_append]
  rcases h with hvisited | ⟨hdone, hcursor⟩
  · exact .inl (.inl hvisited)
  · have hstart : e.start w ≤ id := by
      rw [UInt64.le_iff_toNat_le, (toNat_start hbelow).1]
      omega
    exact (hturned.covers hdone id hlive hstart hhi).imp_left .inr

theorem exec_done (hdone : w.pc.done = true) (turns : List Turn) : Run.exec e.step w turns = w := by
  induction turns with
  | nil => rfl
  | cons t turns ih =>
    have hstep : e.step w t = w := if_pos hdone
    rw [Run.exec_cons, hstep, ih]

theorem done_or_lt (turns : List Turn) (hbelow : w.pc.cursor.toNat < e.range.2)
    (h : Run.Along e.step (fun w t => ¬ e.Halts w t) w turns) :
    (Run.exec e.step w turns).pc.done = true ∨ w.pc.cursor.toNat + turns.length < e.range.2 := by
  induction turns generalizing w with
  | nil => exact .inr hbelow
  | cons t turns ih =>
    obtain ⟨hgoes, hrest⟩ := h
    obtain ⟨ids, hturned⟩ := exists_turned t hbelow
    rw [Run.exec_cons, length_cons]
    rcases hturned.goes hgoes with hdone | hlt
    · rw [exec_done hdone]
      exact .inl hdone
    · exact (ih hturned.below hrest).imp_right fun hlen => by omega

end

/-- The ranges of the partitions tile the ids below the bound, and the machine computes them. A worker
visits, from any cursor below its range's end, ascending ids of the range only, and before it is done
all behind the cursor that each of its turns finds live. It is done after as many turns as go on, and
the sum that it goes on with does not saturate. -/
theorem partitions_tile_and_cover :
    (∀ n (idUpperBound : Id), 1 ≤ n →
      (∀ idx, 1 ≤ (partitionRange n idUpperBound idx).1 ∧ (partitionRange n idUpperBound idx).1 ≤
        (partitionRange n idUpperBound idx).2 ∧ (partitionRange n idUpperBound idx).2 < 2 ^ 64) ∧
      (∀ idx idx', idx < idx' →
        (partitionRange n idUpperBound idx).2 ≤ (partitionRange n idUpperBound idx').1) ∧
      (∀ id, (∃ idx < n, (partitionRange n idUpperBound idx).1 ≤ id ∧
        id < (partitionRange n idUpperBound idx).2) ↔ 1 ≤ id ∧ id < idUpperBound.toNat) ∧
      ∀ idx < 256, saturatingRange n idUpperBound.toNat idx = partitionRange n idUpperBound idx) ∧
    ∀ (e : Partition) (pc : PartitionCursor) turns,
      let last := Run.exec e.step { visited := [], pc } turns
      pc.done = false → pc.cursor.toNat < e.range.2 →
        last.visited.Pairwise (· < ·) ∧
        (∀ id ∈ last.visited, e.range.1 ≤ id.toNat ∧ id.toNat < e.range.2 ∧ pc.cursor < id) ∧
        (last.pc.done = true → ∀ id : Id, e.range.1 ≤ id.toNat → id.toNat < e.range.2 →
          pc.cursor < id → (∀ t ∈ turns, (t.rows.lookup id).isSome) → id ∈ last.visited) ∧
        (Run.Along e.step (fun w t => ¬ e.Halts w t) { visited := [], pc } turns →
          e.range.2 ≤ turns.length → last.pc.done = true) ∧
        last.pc.cursor.toNat < e.range.2 ∧
        (e.start last).toNat = max last.pc.cursor.toNat (e.range.1 - 1) + 1 ∧
        saturatingAdd (max last.pc.cursor.toNat (e.range.1 - 1)) 1 = (e.start last).toNat := by
  refine ⟨fun n idUpperBound hn => ⟨partitionRange_le n idUpperBound,
    fun _ _ => partitionRange_ascending hn, mem_partitionRange_iff hn,
    fun idx hidx => saturatingRange_eq n idUpperBound (hidx.trans (by decide))⟩, ?_⟩
  intro e pc turns last hdone hbelow
  have hinit : Reached e pc { visited := [], pc } := ⟨.nil, forall_mem_nil _, le_rfl, hbelow⟩
  have hreached : Reached e pc last :=
    Run.exec_invariant (C := fun _ _ => True) (fun _ t h _ => h.step t) hinit
      (Run.along_of_forall fun _ _ => trivial)
  refine ⟨hreached.ascending, fun id hid => ?_, fun hlast id hlo hhi hid hlive => ?_,
    fun halong hlen => ?_, hreached.below, toNat_start hreached.below⟩
  · obtain ⟨hlo, hafter, hle⟩ := hreached.inside id hid
    exact ⟨hlo, hle.trans_lt hreached.below, UInt64.lt_iff_toNat_lt.mpr hafter⟩
  · have hcovered := (Run.exec_invariant (I := fun w => Reached e pc w ∧ Covered id w)
      (C := fun _ (t : Turn) => (t.rows.lookup id).isSome)
      (fun _ t h hrow => ⟨h.1.step t, h.2.step h.1.below hlo hhi hrow⟩)
      ⟨hinit, .inr ⟨hdone, UInt64.lt_iff_toNat_lt.mp hid⟩⟩ (Run.along_of_forall hlive)).2
    rcases hcovered with hvisited | ⟨hundone, -⟩
    · exact hvisited
    · cases hundone.symm.trans hlast
  · exact (done_or_lt turns hbelow halong).resolve_right (by dsimp only; omega)

/-- The ids 5 to 8 of 8 rows, in chunks of two. -/
def upperHalf : Partition where
  field := "n"
  plan :=
    { srcKind := .u32, targetKind := .u64, chunkSize := 2, converterVersion := 0
      parallelDegree := 2, idUpperBound := 9, errorPolicy := .stop, dryRun := false
      quarantineCap := 0 }
  converter := fun _ _ => .ok (.u64 7)
  idx := 1

def liveTurn : Turn where
  rows := (range 8).foldl (fun rows n => rows.insert (.ofNat (n + 1))
    (AList.singleton "n" (.u32 7))) ∅
  layers := { dead := [], saturated := false }
  accepted := true

theorem partitions_tile_and_cover_upper :
    (7 : Id) ∈ (Run.exec upperHalf.step { visited := [], pc := .new }
      (replicate 3 liveTurn)).visited := by
  obtain ⟨-, -, hcovers, -⟩ := partitions_tile_and_cover.2 upperHalf .new (replicate 3 liveTurn)
    rfl (by decide)
  refine hcovers (by decide +kernel) 7 (by decide) (by decide) (by decide) fun t ht => ?_
  rw [eq_of_mem_replicate ht]
  decide +kernel

end RhypeDb.Migration.Partitions
