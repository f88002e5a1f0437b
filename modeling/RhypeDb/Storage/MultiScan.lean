import RhypeDb.Storage.MultiGet
import RhypeDb.Storage.Scan

/-! The batched prefix scan `multi_scan_prefix_at`. The prefixes are sorted and each layer
contributes its rows for each of them, older layers first. A v5 file is swept once for all
prefixes, so it has nothing left for a prefix that comes again. -/

namespace RhypeDb.Storage

open RhypeDb.Batch ByteOrder List
open Option hiding map_map

variable {V : Type}

def MemTable.multiScanPrefix (m : MemTable V) (prefixes : List Bytes) (version : UInt64) :
    List (List (Bytes × MemValue V)) := prefixes.map fun p => m.scanPrefix p version

namespace SstFile

/-- The loop of `multi_scan_prefix_versioned` for one prefix. -/
def sweepFrom (f : SstFile V) (pre : Bytes) (version : UInt64) :
    Nat → Option Bytes → Cursor → List (Bytes × MemValue V) × Cursor
  | 0, _, c => ([], c)
  | fuel + 1, lastUserKey, c =>
    match f.data[c.pos]? with
    | none => ([], c)
    | some e =>
      if e.1.userKey < pre then
        sweepFrom f pre version fuel lastUserKey (f.gallop pre ⟨c.pos + 1, c.blockIdx⟩)
      else if pre <+: e.1.userKey then
        let next := f.syncBlock ⟨c.pos + 1, c.blockIdx⟩
        if e.1.version ≤ version ∧ lastUserKey ≠ some e.1.userKey then
          let swept := sweepFrom f pre version fuel (some e.1.userKey) next
          ((e.1.userKey, e.2) :: swept.1, swept.2)
        else sweepFrom f pre version fuel lastUserKey next
      else ([], c)

def sweepPrefixes (f : SstFile V) (version : UInt64) :
    Option Cursor → List Bytes → List (List (Bytes × MemValue V))
  | _, [] => []
  | cursor, pre :: prefixes =>
    let swept := f.sweepFrom pre version (f.data.length + 1) none
      (cursor.getD (f.seedCursor pre 0))
    swept.1 :: sweepPrefixes f version (some swept.2) prefixes

def multiScanPrefixVersioned [ByteLen V] (f : SstFile V) (sortedPrefixes : List Bytes)
    (version : UInt64) : List (List (Bytes × MemValue V)) :=
  if sortedPrefixes.isEmpty ∨ f.index.isEmpty then sortedPrefixes.map fun _ => []
  else match f.version with
    | .compressed => sortedPrefixes.map fun p => f.scanPrefix p version
    | .uncompressed => f.sweepPrefixes version none sortedPrefixes

end SstFile

def SstReader.prefixRangeOverlapsSorted (sst : SstReader V) (sortedPrefixes : List Bytes) : Bool :=
  match sortedPrefixes.head?, sortedPrefixes.getLast?, sst.firstUserKey, sst.lastUserKey with
  | some smallest, some largest, some first, some last =>
    if last < smallest then false
    else if largest < first ∧ ¬ largest <+: first then false
    else true
  | _, _, _, _ => false

namespace LsmTree

def absorb (merged : List (SortedMap Bytes (MemValue V)))
    (layer : List (List (Bytes × MemValue V))) : List (SortedMap Bytes (MemValue V)) :=
  List.zipWith SortedMap.insertAll merged layer

def liveRows (m : SortedMap Bytes (MemValue V)) : List (Bytes × V) :=
  m.entries.filterMap fun row => row.2.map fun value => (row.1, value)

def multiScanPrefixAt [ByteLen V] (tree : LsmTree V) (version : UInt64) {prefixes : List Bytes}
    (batch : SortedBatch prefixes) : List (List (Bytes × V)) :=
  let sorted := batch.items.map Prod.snd
  let merged := List.replicate prefixes.length SortedMap.empty
  let merged := tree.sstFiles.foldl (fun merged sst =>
    if ¬ sst.prefixRangeOverlapsSorted sorted then merged
    else absorb merged (sst.file.multiScanPrefixVersioned sorted version)) merged
  let merged := tree.immutableMemtables.foldl (fun merged m =>
    absorb merged (m.multiScanPrefix sorted version)) merged
  let merged := absorb merged (tree.activeMemtable.multiScanPrefix sorted version)
  (batch.items.zip merged).foldl (fun out item => out.set item.1.1 (liveRows item.2))
    (List.replicate prefixes.length [])

end LsmTree

section

variable {lower pre : Bytes} {version : UInt64} {es : List (Entry V)}

theorem collect_skip {front : List (Entry V)} (h : ∀ e ∈ front, e.1.userKey < lower)
    (last : Option Bytes) :
    collect lower pre version last (front ++ es) = collect lower pre version last es := by
  induction front with
  | nil => rfl
  | cons e front ih =>
    rw [forall_mem_cons] at h
    rw [cons_append, collect, if_pos h.1, ih h.2]

theorem collect_of_outside (h : ∀ e ∈ es, ¬ pre <+: e.1.userKey)
    (last : Option Bytes) : collect lower pre version last es = [] := by
  induction es generalizing last with
  | nil => rfl
  | cons e es ih =>
    rw [forall_mem_cons] at h
    rw [collect]
    split_ifs with hlow hpre
    · exact ih h.2 last
    · exact absurd hpre h.1
    · exact absurd hpre h.1
    · exact absurd hpre h.1
    · rfl

end

namespace SstFile

variable {env : StorageEnv V} {f : SstFile V} {version : UInt64} {prefixes : List Bytes}

/-- The entries a sweep for `pre` moves past. -/
def Swept (pre : Bytes) (e : Entry V) : Prop := e.1.userKey < pre ∨ pre <+: e.1.userKey

structure SweptTo (f : SstFile V) (pre : Bytes) (version : UInt64) (last : Option Bytes) (c : Cursor)
    (swept : List (Bytes × MemValue V) × Cursor) : Prop where
  rows : swept.1 = collect pre pre version last (f.data.drop c.pos)
  synced : swept.2.Synced f
  passed : f.Between c.pos swept.2.pos (Swept pre)
  spent : ∀ last, collect pre pre version last (f.data.drop swept.2.pos) = []

theorem WellFormed.sweepFrom_spec (hf : f.WellFormed env) (pre : Bytes) (version : UInt64)
    {fuel : Nat} (last : Option Bytes) {c : Cursor} (hc : c.Synced f)
    (hfuel : f.data.length < c.pos + fuel) :
    SweptTo f pre version last c (f.sweepFrom pre version fuel last c) := by
  induction fuel generalizing last c with
  | zero => exact absurd hc.pos_le (by omega)
  | succ fuel ih =>
    have hstop : (∀ last, collect pre pre version last (f.data.drop c.pos) = []) →
        SweptTo f pre version last c ([], c) := fun h => ⟨(h last).symm, hc, between_rfl, h⟩
    rw [sweepFrom]
    cases he : f.data[c.pos]? with
    | none =>
      apply hstop
      intro last
      rw [drop_eq_nil_of_le (List.getElem?_eq_none_iff.mp he)]
      rfl
    | some e =>
      obtain ⟨hlt, heq⟩ := List.getElem?_eq_some_iff.mp he
      have hcons : f.data.drop c.pos = e :: f.data.drop (c.pos + 1) := by
        rw [drop_eq_getElem_cons hlt, heq]
      have hstep : 16 * c.blockIdx ≤ c.pos + 1 := hc.le.trans (Nat.le_succ _)
      have hsync := hf.syncBlock_spec (c := ⟨c.pos + 1, c.blockIdx⟩) hc.lt hstep hlt
      have hmore : f.data.length < (f.syncBlock ⟨c.pos + 1, c.blockIdx⟩).pos + fuel := by
        show f.data.length < c.pos + 1 + fuel
        omega
      dsimp only
      split_ifs with hsmall hpre hnew
      · obtain ⟨hsync, hle, hgal⟩ := hf.gallop_spec (c := ⟨c.pos + 1, c.blockIdx⟩) hc.lt hstep
          hc.next hlt pre
        have hrest := ih last hsync (by simp only at hle; omega)
        obtain ⟨mid, hmid, hmidlt⟩ := hgal
        have hbetween : f.Between c.pos (f.gallop pre ⟨c.pos + 1, c.blockIdx⟩).pos (Swept pre) :=
          (between_succ he (.inl hsmall)).trans ⟨mid, hmid, fun x hx => .inl (hmidlt x hx)⟩
        refine ⟨?_, hrest.synced, hbetween.trans hrest.passed, hrest.spent⟩
        rw [hrest.rows, hcons, collect, if_pos hsmall, hmid, collect_skip hmidlt]
      · have hrest := ih (some e.1.userKey) hsync hmore
        refine ⟨?_, hrest.synced, (between_succ he (.inr hpre)).trans hrest.passed, hrest.spent⟩
        rw [hcons, collect, if_neg hsmall, if_neg (not_not.mpr hpre),
          if_neg (UInt64.not_lt.mpr hnew.1), if_neg hnew.2]
        exact congrArg (List.cons _) hrest.rows
      · have hrest := ih last hsync hmore
        refine ⟨?_, hrest.synced, (between_succ he (.inr hpre)).trans hrest.passed, hrest.spent⟩
        rw [hcons, collect, if_neg hsmall, if_neg (not_not.mpr hpre)]
        by_cases hvis : e.1.version ≤ version
        · have hold : last = some e.1.userKey := not_not.mp fun h => hnew ⟨hvis, h⟩
          rw [if_neg (UInt64.not_lt.mpr hvis), if_pos hold]
          exact hrest.rows
        · rw [if_pos (UInt64.not_le.mp hvis)]
          exact hrest.rows
      · apply hstop
        intro last
        rw [hcons, collect, if_neg hsmall, if_pos hpre]

theorem lt_of_swept {l p : Bytes} (hlt : l < p) (hlen : l.length = p.length) {e : Entry V}
    (h : Swept l e) : e.1.userKey < p := by
  rcases h with h | ⟨y, hy⟩
  · exact h.trans hlt
  · have hp : ¬ l <+: p := fun hp => hlt.ne (hp.eq_of_length hlen)
    have := append_lt_append hlt hp y []
    rwa [hy, append_nil] at this

theorem WellFormed.scanPrefix_eq_collect [ByteLen V] (hf : f.WellFormed env) (hfit : f.Fits)
    (p : Bytes) (version : UInt64) : f.scanPrefix p version = collect p p version none f.data := by
  rw [scanPrefix, hf.iterFrom_eq hfit]
  conv_rhs => rw [← take_append_drop (16 * seekBlock f.index (.seek p)) f.data]
  rw [collect_skip]
  intro e he
  exact InternalKey.userKey_lt_of_lt_seek (hf.lt_of_mem_take_seek he)

/-- What the cursor owes the prefixes that follow `last`. -/
structure SweepReady (f : SstFile V) (version : UInt64) (last : Bytes) (c : Cursor) : Prop where
  synced : c.Synced f
  passed : f.Between 0 c.pos (Swept last)
  spent : ∀ l, collect last last version l (f.data.drop c.pos) = []

theorem WellFormed.sweepPrefixes_eq [ByteLen V] (hf : f.WellFormed env) (hfit : f.Fits)
    (hne : f.index ≠ []) {len : Nat} (hlen : ∀ p ∈ prefixes, p.length = len)
    (hsorted : prefixes.Pairwise (· ≤ ·)) {last : Option Bytes} {cursor : Option Cursor}
    (hstart : cursor = none ∧ last = none ∨ ∃ c l, cursor = some c ∧ last = some l ∧
      SweepReady f version l c ∧ l.length = len ∧ ∀ p ∈ prefixes, l ≤ p) :
    f.sweepPrefixes version cursor prefixes =
      (answers true (fun p => some (f.scanPrefix p version)) last prefixes).map (·.getD []) := by
  induction prefixes generalizing last cursor with
  | nil => rfl
  | cons p ps ih =>
    obtain ⟨hhead, htail⟩ := pairwise_cons.mp hsorted
    rw [forall_mem_cons] at hlen
    have hcursor : (cursor.getD (f.seedCursor p 0)).Synced f ∧
        f.Between 0 (cursor.getD (f.seedCursor p 0)).pos (Swept p) ∧
        ∀ rows, rows = collect p p version none
            (f.data.drop (cursor.getD (f.seedCursor p 0)).pos) →
          (last = some p → rows = []) ∧ (last ≠ some p → rows = f.scanPrefix p version) := by
      rcases hstart with ⟨rfl, rfl⟩ | ⟨c, l, rfl, rfl, hready, hl, hle⟩
      · obtain ⟨hsync, -, mid, hmid, hpass⟩ := hf.seedCursor_spec (length_pos_iff.mpr hne) p
        refine ⟨hsync, ⟨mid, hmid, fun e he => .inl (hpass e he)⟩, ?_⟩
        rintro rows rfl
        refine ⟨nofun, fun _ => ?_⟩
        rw [hf.scanPrefix_eq_collect hfit, getD_none]
        conv_rhs => rw [← drop_zero (l := f.data), show 0 = 16 * 0 from rfl, hmid]
        rw [collect_skip hpass]
      · have hle := hle p mem_cons_self
        rcases hle.eq_or_lt with rfl | hlt
        · refine ⟨hready.synced, hready.passed, ?_⟩
          rintro rows rfl
          exact ⟨fun _ => hready.spent none, fun h => absurd rfl h⟩
        · obtain ⟨mid, hmid, hpass⟩ := hready.passed
          have hbelow : ∀ e ∈ mid, e.1.userKey < p :=
            fun e he => lt_of_swept hlt (hl.trans hlen.1.symm) (hpass e he)
          refine ⟨hready.synced, ⟨mid, hmid, fun e he => .inl (hbelow e he)⟩, ?_⟩
          rintro rows rfl
          refine ⟨fun h => absurd (Option.some.inj h) hlt.ne, fun _ => ?_⟩
          rw [hf.scanPrefix_eq_collect hfit, getD_some]
          conv_rhs => rw [← drop_zero (l := f.data), hmid]
          rw [collect_skip hbelow]
    obtain ⟨hsync, hpassed, hrows⟩ := hcursor
    have hswept := hf.sweepFrom_spec p version none hsync
      (show f.data.length < (cursor.getD (f.seedCursor p 0)).pos + (f.data.length + 1) by omega)
    obtain ⟨hold, hnew⟩ := hrows _ hswept.rows
    rw [sweepPrefixes, answers_once_cons, map_cons]
    rw [ih hlen.2 htail (.inr ⟨_, p, rfl, rfl,
      ⟨hswept.synced, hpassed.trans hswept.passed, hswept.spent⟩, hlen.1, hhead⟩)]
    congr 1
    split_ifs with hrepeat
    · exact hold hrepeat
    · exact hnew hrepeat

theorem WellFormed.getElem?_multiScan [ByteLen V] (hf : f.WellFormed env) {len : Nat}
    (hlen : ∀ p ∈ prefixes, p.length = len)
    (hsorted : prefixes.Pairwise (· ≤ ·)) (version : UInt64) {i : Nat} {p : Bytes}
    (hi : prefixes[i]? = some p) :
    (f.multiScanPrefixVersioned prefixes version)[i]? =
      some (if f.version = .uncompressed ∧ p ∈ prefixes.take i then []
        else f.scanPrefix p version) := by
  unfold multiScanPrefixVersioned
  split_ifs with hempty hrepeat hrepeat
  · rw [getElem?_map, hi, map_some]
  · rcases hempty with hnone | hindex
    · rw [List.isEmpty_iff.mp hnone] at hi
      cases hi
    · have hdata : ∀ j, f.iterFrom j = [] := fun j =>
        prefix_nil.mp (by simpa [hf.index_isEmpty hindex] using hf.iterFrom_isPrefix j)
      rw [getElem?_map, hi, map_some, scanPrefix, hdata]
      rfl
  all_goals
    cases hv : f.version with
    | compressed => simp_all
    | uncompressed =>
      have hfit : f.Fits := fun h => by rw [hv] at h; cases h
      have hne : f.index ≠ [] := fun h => hempty (.inr (List.isEmpty_iff.mpr h))
      have hask := @getElem?_answers Bytes _ _ (fun p => some (f.scanPrefix p version)) true none
        prefixes hsorted (by exact nofun) i p hi
      show (f.sweepPrefixes version none prefixes)[i]? = _
      rw [hf.sweepPrefixes_eq hfit hne hlen hsorted (.inl ⟨rfl, rfl⟩), getElem?_map, hask]
      simp_all

end SstFile

/-- The last entry's user key is a proper prefix of the smallest prefix asked for: the range
check takes the file to end before it. -/
def SstReader.passedOver (sst : SstReader V) (prefixes : List Bytes) : Bool :=
  match prefixes.min?, sst.lastUserKey with
  | some smallest, some last => decide (last <+: smallest) && decide (last ≠ smallest)
  | _, _ => false

theorem SstFile.WellFormed.outside_of_not_overlaps [ByteLen V] {env : StorageEnv V} {f : SstFile V}
    (hf : f.WellFormed env) {id : Nat} {sst : SstReader V} (h : SstReader.open id f = .ok sst)
    {len : Nat} {prefixes : List Bytes} (hlen : ∀ p ∈ prefixes, p.length = len)
    (hsorted : prefixes.Pairwise (· ≤ ·)) (hno : ¬ sst.prefixRangeOverlapsSorted prefixes)
    (hpass : ¬ sst.passedOver prefixes) : ∀ p ∈ prefixes, ∀ e ∈ f.data, ¬ p <+: e.1.userKey := by
  intro p hp e he hpre
  obtain ⟨hfirst, hlast⟩ := hf.bounds_of_open h
  obtain ⟨smallest, rest, hcons⟩ := exists_cons_of_ne_nil (ne_nil_of_mem hp)
  obtain ⟨init, largest, hinit⟩ := eq_nil_or_concat' prefixes |>.resolve_left
    (ne_nil_of_mem hp)
  have hmin : ∀ q ∈ prefixes, smallest ≤ q := by
    rw [hcons, forall_mem_cons]
    rw [hcons] at hsorted
    exact ⟨le_rfl, (pairwise_cons.mp hsorted).1⟩
  have hmax : p ≤ largest := by
    rw [hinit] at hp hsorted
    rcases mem_append.mp hp with hin | heq
    · exact (pairwise_append.mp hsorted).2.2 _ hin _ (mem_singleton_self _)
    · exact (mem_singleton.mp heq).le
  have hmin? : prefixes.min? = some smallest := by
    rw [min?_eq_some_iff]
    exact ⟨hcons ▸ mem_cons_self, hmin⟩
  obtain ⟨a, as, ha⟩ := exists_cons_of_ne_nil (ne_nil_of_mem he)
  obtain ⟨bs, b, hb⟩ := eq_nil_or_concat' f.data |>.resolve_left (ne_nil_of_mem he)
  have hlow : a.1 ≤ e.1 := by
    have hs := hf.sorted
    rw [ha] at he hs
    rcases mem_cons.mp he with heq | hin
    · rw [heq]
    · exact ((pairwise_cons.mp hs).1 e hin).le
  have hhigh : e.1 ≤ b.1 := by
    have hs := hf.sorted
    rw [hb] at he hs
    rcases mem_append.mp he with hin | heq
    · exact ((pairwise_append.mp hs).2.2 e hin b (mem_singleton_self b)).le
    · rw [mem_singleton.mp heq]
  rw [ha, head?_cons, map_some] at hfirst
  rw [hb, getLast?_concat, map_some] at hlast
  have hhead : prefixes.head? = some smallest := by rw [hcons, head?_cons]
  have htail : prefixes.getLast? = some largest := by rw [hinit, getLast?_concat]
  apply hno
  unfold SstReader.prefixRangeOverlapsSorted
  simp only [hhead, htail, hfirst, hlast]
  split_ifs with hend hstart
  · -- the last user key diverges from the smallest prefix, and so does everything under `p`
    exfalso
    have hdiv : ¬ b.1.userKey <+: smallest := by
      intro hfront
      apply hpass
      simp [SstReader.passedOver, hmin?, hlast, hfront, hend.ne]
    refine not_lt.mpr hhigh ?_
    have hbelow := append_lt_append hend hdiv (be 8 (~~~b.1.version).toNat) []
    rw [append_nil] at hbelow
    refine (hbelow.trans_le (hmin p hp)).trans_le ((le_of_isPrefix hpre).trans ?_)
    exact le_append _ _
  · exfalso
    refine not_lt.mpr hlow ?_
    rw [InternalKey.lt_def, InternalKey.asBytes, InternalKey.asBytes]
    obtain ⟨y, hy⟩ := hpre
    rw [← hy, append_assoc]
    rcases hmax.eq_or_lt with rfl | hlt
    · exact append_lt_append hstart.1 hstart.2 _ _
    · have hdiv : ¬ p <+: largest := fun hfront => hlt.ne (hfront.eq_of_length
        ((hlen p hp).trans (hlen largest (mem_of_getLast? htail)).symm))
      have hbelow := append_lt_append hlt hdiv (y ++ be 8 (~~~e.1.version).toNat) []
      rw [append_nil] at hbelow
      exact (hbelow.trans hstart.1).trans_le (le_append _ _)
  · rfl

namespace LsmTree

variable [ByteLen V] {env : StorageEnv V} {version : UInt64} {c : SstCompression}
  {sst : SstReader V}

omit [ByteLen V] in
theorem getElem?_foldl {α : Type} {q : Nat} (rows : α → List (Bytes × MemValue V))
    (step : List (SortedMap Bytes (MemValue V)) → α → List (SortedMap Bytes (MemValue V)))
    (xs : List α) (hstep : ∀ x ∈ xs, ∀ merged m, merged[q]? = some m →
      (step merged x)[q]? = some (m.insertAll (rows x)))
    {merged : List (SortedMap Bytes (MemValue V))} {m : SortedMap Bytes (MemValue V)}
    (hm : merged[q]? = some m) :
    (xs.foldl step merged)[q]? = some ((xs.map rows).foldl SortedMap.insertAll m) := by
  induction xs generalizing merged m with
  | nil => exact hm
  | cons x xs ih =>
    rw [forall_mem_cons] at hstep
    exact ih hstep.2 (hstep.1 merged m hm)

omit [ByteLen V] in
theorem getElem?_absorb {merged : List (SortedMap Bytes (MemValue V))}
    {layer : List (List (Bytes × MemValue V))} {q : Nat} {m : SortedMap Bytes (MemValue V)}
    {rows : List (Bytes × MemValue V)} (hm : merged[q]? = some m) (hrows : layer[q]? = some rows) :
    (absorb merged layer)[q]? = some (m.insertAll rows) := by
  rw [absorb, getElem?_zipWith, hm, hrows]

/-- The tree a copy of a prefix is scanned in: without the files passed over and, for a
repetition, without the v5 files. -/
def scanned (tree : LsmTree V) (prefixes : List Bytes) (again : Bool) : LsmTree V :=
  { tree with
    sstFiles := tree.sstFiles.filter fun sst =>
      !sst.passedOver prefixes && (!again || decide (sst.file.version = .compressed)) }

omit [ByteLen V] in
theorem foldl_insertAll_filter {α : Type} {keep : α → Bool}
    {rows scan : α → List (Bytes × MemValue V)} {xs : List α}
    (h : ∀ x ∈ xs, rows x = if keep x = true then scan x else [])
    (m : SortedMap Bytes (MemValue V)) :
    (xs.map rows).foldl SortedMap.insertAll m =
      ((xs.filter keep).map scan).foldl SortedMap.insertAll m := by
  induction xs generalizing m with
  | nil => rfl
  | cons x xs ih =>
    rw [forall_mem_cons] at h
    rw [map_cons, foldl_cons, ih h.2, h.1, filter_cons]
    split_ifs with hkeep
    · rw [map_cons, foldl_cons]
    · rfl

omit [ByteLen V] in
theorem not_overlaps_of_passedOver {prefixes : List Bytes}
    (hsorted : prefixes.Pairwise (· ≤ ·)) (h : sst.passedOver prefixes) :
    ¬ sst.prefixRangeOverlapsSorted prefixes := by
  unfold SstReader.passedOver at h
  split at h
  · next smallest last hmin hlast =>
    simp only [Bool.and_eq_true, decide_eq_true_eq] at h
    have hlt : last < smallest := lt_of_le_of_ne (le_of_isPrefix h.1) h.2
    obtain ⟨hmem, hle⟩ := min?_eq_some_iff.mp hmin
    obtain ⟨p, ps, rfl⟩ := exists_cons_of_ne_nil (ne_nil_of_mem hmem)
    have hhead : p = smallest := by
      apply le_antisymm _ (hle p mem_cons_self)
      rcases mem_cons.mp hmem with heq | hin
      · exact heq.ge
      · exact (pairwise_cons.mp hsorted).1 _ hin
    unfold SstReader.prefixRangeOverlapsSorted
    rw [head?_cons, hhead, hlast]
    split
    · next heq =>
      cases heq
      simp_all
    · exact Bool.false_ne_true
  · cases h

theorem sstRows_eq {m : MemTable V}
    (hopen : SstReader.open sst.id (SstWriter.writeAll env c m.entries) = .ok sst) {len : Nat}
    {sorted : List Bytes} (hlen : ∀ p ∈ sorted, p.length = len) (hsorted : sorted.Pairwise (· ≤ ·))
    {k : Bytes} (hk : k ∈ sorted) (again : Bool) :
    (if ¬ sst.prefixRangeOverlapsSorted sorted then []
      else if sst.file.version = .uncompressed ∧ again = true then []
      else sst.file.scanPrefix k version) =
    if (!sst.passedOver sorted && (!again || decide (sst.file.version = .compressed))) = true then
      sst.file.scanPrefix k version else [] := by
  have hwf := SstWriter.wellFormed_writeAll env c m.sorted
  rw [← (SstReader.file_of_open hopen).1] at hwf hopen
  cases hpass : sst.passedOver sorted with
  | true => simp [not_overlaps_of_passedOver hsorted hpass]
  | false =>
    by_cases hover : sst.prefixRangeOverlapsSorted sorted = true
    · cases again <;> cases hv : sst.file.version <;> simp [hover]
    · have hrows : sst.file.scanPrefix k version = [] := by
        apply collect_of_outside
        intro e he
        exact hwf.outside_of_not_overlaps hopen hlen hsorted hover (by simp [hpass]) k hk e
          (mem_of_mem_drop ((hwf.iterFrom_isPrefix _).subset he))
      simp [hover, hrows]

omit [ByteLen V] in
theorem passedOver_perm {ps qs : List Bytes} (h : ps.Perm qs) :
    sst.passedOver ps = sst.passedOver qs := by
  have hmin : ps.min? = qs.min? := by
    apply Option.ext
    intro a
    rw [min?_eq_some_iff, min?_eq_some_iff, h.mem_iff]
    exact and_congr_right fun _ => ⟨fun hall b hb => hall b (h.mem_iff.mpr hb),
      fun hall b hb => hall b (h.mem_iff.mp hb)⟩
  rw [SstReader.passedOver, SstReader.passedOver, hmin]

theorem getElem?_sstStep {mt : MemTable V}
    (hopen : SstReader.open sst.id (SstWriter.writeAll env c mt.entries) = .ok sst) {len : Nat}
    {sorted : List Bytes} (hlen : ∀ p ∈ sorted, p.length = len) (hsorted : sorted.Pairwise (· ≤ ·))
    {q : Nat} {k : Bytes} (hk : sorted[q]? = some k)
    {merged : List (SortedMap Bytes (MemValue V))} {m : SortedMap Bytes (MemValue V)}
    (hm : merged[q]? = some m) :
    (if ¬ sst.prefixRangeOverlapsSorted sorted then merged
      else absorb merged (sst.file.multiScanPrefixVersioned sorted version))[q]? =
    some (m.insertAll (if ¬ sst.prefixRangeOverlapsSorted sorted then []
      else if sst.file.version = .uncompressed ∧ decide (k ∈ sorted.take q) = true then []
      else sst.file.scanPrefix k version)) := by
  have hwf := SstWriter.wellFormed_writeAll env c mt.sorted
  rw [← (SstReader.file_of_open hopen).1] at hwf
  have hrows := hwf.getElem?_multiScan hlen hsorted version hk
  split_ifs with hover hrepeat
  · apply getElem?_absorb hm
    rw [hrows, if_pos (by simpa using hrepeat)]
  · apply getElem?_absorb hm
    rw [hrows, if_neg (by simpa using hrepeat)]
  · exact hm

theorem getElem?_multiScanPrefixAt {tree : LsmTree V} (hopen : tree.Opened env) {len : Nat}
    {prefixes : List Bytes} (hlen : ∀ p ∈ prefixes, p.length = len) (batch : SortedBatch prefixes)
    {q i : Nat} {k : Bytes} (hq : batch.items[q]? = some (i, k)) :
    (tree.multiScanPrefixAt version batch)[i]? =
      some ((tree.scanned prefixes (decide (k ∈ (batch.items.map Prod.snd).take q))).scanPrefixAt
        version k) := by
  have hperm := batch.map_snd_perm
  have hlen' : ∀ p ∈ batch.items.map Prod.snd, p.length = len :=
    fun p hp => hlen p (hperm.mem_iff.mp hp)
  have hk : (batch.items.map Prod.snd)[q]? = some k := by rw [getElem?_map, hq]; rfl
  have hqn : q < prefixes.length := by
    rw [← hperm.length_eq]
    exact (List.getElem?_eq_some_iff.mp hk).1
  have hi : i < prefixes.length :=
    (List.getElem?_eq_some_iff.mp (SortedBatch.mem_items.mp (mem_of_getElem? hq))).1
  -- the accumulator of the item's position, layer by layer
  have hempty : (List.replicate prefixes.length
      (SortedMap.empty : SortedMap Bytes (MemValue V)))[q]? = some SortedMap.empty := by
    rw [getElem?_replicate, if_pos hqn]
  have hssts := getElem?_foldl (q := q) _ _ tree.sstFiles (fun sst hsst merged m hm => by
    obtain ⟨c, mt, hsstopen⟩ := hopen sst hsst
    exact @getElem?_sstStep V _ env version _ _ _ hsstopen _ _ hlen' batch.sorted _ _ hk _ _ hm) hempty
  rw [foldl_insertAll_filter (fun sst hsst => by
    obtain ⟨c, mt, hsstopen⟩ := hopen sst hsst
    exact sstRows_eq hsstopen hlen' batch.sorted (mem_of_getElem? hk) _)] at hssts
  have himm := getElem?_foldl (q := q) (fun m : MemTable V => m.scanPrefix k version)
    (fun merged m => absorb merged (m.multiScanPrefix (batch.items.map Prod.snd) version))
    tree.immutableMemtables (fun mt _ merged m hm => getElem?_absorb hm (by
      rw [MemTable.multiScanPrefix, getElem?_map, hk, map_some])) hssts
  have hactive := getElem?_absorb himm (show
    (tree.activeMemtable.multiScanPrefix (batch.items.map Prod.snd) version)[q]? =
      some (tree.activeMemtable.scanPrefix k version) by
    rw [MemTable.multiScanPrefix, getElem?_map, hk, map_some])
  unfold multiScanPrefixAt
  rw [foldl_set_eq_settle]
  have hlist : ∀ (merged : List (SortedMap Bytes (MemValue V))) m, merged[q]? = some m →
      (settle ((batch.items.zip merged).map fun p => (p.1, some (liveRows p.2)))
        (List.replicate prefixes.length [])).2[i]? = some (liveRows m) := by
    intro merged m hm
    have hmem : ((i, k), m) ∈ batch.items.zip merged := by
      apply mem_of_getElem? (i := q)
      rw [getElem?_zip_eq_some]
      exact ⟨hq, hm⟩
    have hnd : (((batch.items.zip merged).map fun p => (p.1, some (liveRows p.2))).map
        (·.1.1)).Nodup := by
      rw [map_map, show ((·.1.1) ∘ fun p : (Nat × Bytes) × SortedMap Bytes (MemValue V) =>
        (p.1, some (liveRows p.2))) = Prod.fst ∘ Prod.fst from rfl, ← map_map]
      exact (@SortedBatch.ordered _ batch _ prefixes rfl).nodup.sublist ((zip_fst_sublist _ _).map _)
    exact settle_answered hnd (mem_map.mpr ⟨_, hmem, rfl⟩) (by rwa [length_replicate])
  rw [hlist _ _ hactive, scanPrefixAt, mergeLayers, scanned, foldl_append, foldl_append]
  simp only [passedOver_perm hperm]
  rfl

/-- Every copy of a prefix is scanned as the plain scan does it: the files passed over, and for
a repeated prefix the v5 files, make no difference. -/
def CopiesScanned (tree : LsmTree V) (version : UInt64) (prefixes : List Bytes) : Prop :=
  ∀ p ∈ prefixes,
    (tree.scanned prefixes false).scanPrefixAt version p = tree.scanPrefixAt version p ∧
    (1 < prefixes.count p →
      (tree.scanned prefixes true).scanPrefixAt version p = tree.scanPrefixAt version p)

omit [ByteLen V] in
theorem exists_position {keys : List Bytes} (batch : SortedBatch keys) {k : Bytes} (hk : k ∈ keys)
    {again : Bool} (hagain : again = true → 1 < keys.count k) :
    ∃ q i, batch.items[q]? = some (i, k) ∧
      decide (k ∈ (batch.items.map Prod.snd).take q) = again := by
  have hperm := batch.map_snd_perm
  obtain ⟨q, hq, hdec⟩ : ∃ q : Nat, (batch.items.map Prod.snd)[q]? = some k ∧
      decide (k ∈ (batch.items.map Prod.snd).take q) = again := by
    cases again with
    | false =>
      obtain ⟨q, hq, hnot⟩ := exists_first (hperm.mem_iff.mpr hk)
      exact ⟨q, hq, by simpa using hnot⟩
    | true =>
      obtain ⟨q, hq, hin⟩ := exists_again (l := batch.items.map Prod.snd) (k := k) (by
        rw [hperm.count_eq]
        exact hagain rfl)
      exact ⟨q, hq, by simpa using hin⟩
  rw [getElem?_map, map_eq_some_iff] at hq
  obtain ⟨⟨i, k'⟩, hq, rfl⟩ := hq
  exact ⟨q, i, hq, hdec⟩

theorem length_multiScanPrefixAt (tree : LsmTree V) (version : UInt64) {prefixes : List Bytes}
    (batch : SortedBatch prefixes) :
    (tree.multiScanPrefixAt version batch).length = prefixes.length := by
  unfold multiScanPrefixAt
  rw [foldl_set_eq_settle, length_settle, length_replicate]

/-- Batched and plain prefix scans agree exactly when every copy is scanned in full. -/
theorem multiScanPrefixAt_eq_iff (env : StorageEnv V) (tree : LsmTree V) (hopen : tree.Opened env)
    (version : UInt64) (len : Nat) (prefixes : List Bytes)
    (hlen : ∀ p ∈ prefixes, p.length = len) (batch : SortedBatch prefixes) :
    tree.multiScanPrefixAt version batch = prefixes.map (tree.scanPrefixAt version) ↔
      tree.CopiesScanned version prefixes := by
  constructor
  · intro heq p hp
    have hcopy : ∀ again : Bool, (again = true → 1 < prefixes.count p) →
        (tree.scanned prefixes again).scanPrefixAt version p = tree.scanPrefixAt version p := by
      intro again hagain
      obtain ⟨q, i, hq, rfl⟩ := exists_position batch hp hagain
      have hrows := @getElem?_multiScanPrefixAt V _ env version tree hopen _ _ hlen batch _ _ _ hq
      rw [heq, getElem?_map, SortedBatch.mem_items.mp (mem_of_getElem? hq)] at hrows
      exact (Option.some.inj hrows).symm
    exact ⟨hcopy false (by simp), fun h => hcopy true fun _ => h⟩
  · intro h
    refine ext_getElem? fun i => ?_
    rw [getElem?_map]
    cases hp : prefixes[i]? with
    | none =>
      rw [map_none, List.getElem?_eq_none_iff, length_multiScanPrefixAt]
      exact List.getElem?_eq_none_iff.mp hp
    | some p =>
      obtain ⟨q, hq⟩ := mem_iff_getElem?.mp ((@SortedBatch.mem_items _ batch _ _).mpr hp)
      rw [getElem?_multiScanPrefixAt hopen hlen batch hq, map_some]
      obtain ⟨hfirst, hagain⟩ := h p (mem_of_getElem? hp)
      by_cases hin : p ∈ (batch.items.map Prod.snd).take q
      · have hcount := one_lt_count (by rw [getElem?_map, hq]; rfl) hin
        rw [batch.map_snd_perm.count_eq] at hcount
        rw [decide_eq_true hin, hagain hcount]
      · rw [decide_eq_false hin, hfirst]

end LsmTree

/-- The second copy of a prefix gets no rows. -/
theorem second_prefix_empty : ¬ ∀ (env : StorageEnv Bytes) (tree : LsmTree Bytes),
    tree.Opened env → ∀ (version : UInt64) (len keyLen : Nat) (prefixes : List Bytes),
    (∀ p ∈ prefixes, p.length = len) →
    (∀ p ∈ prefixes, ∀ k ∈ tree.storedKeys, p <+: k → k.length = keyLen) →
    ∀ batch : SortedBatch prefixes,
      tree.multiScanPrefixAt version batch = prefixes.map (tree.scanPrefixAt version) := by
  intro h
  have hkeys : ∀ k ∈ oneKeyTree.storedKeys, k.length = 1 := by
    rintro k ⟨layer, hlayer, e, he, rfl⟩
    have hall : ∀ layer ∈ oneKeyTree.layers, ∀ e ∈ layer, e.1.userKey.length = 1 := by
      decide +kernel
    exact hall layer hlayer e he
  have heq := h hashlessEnv oneKeyTree opened_oneKeyTree 1 1 1 [[1], [1]] (by decide)
    (fun _ _ k hk _ => hkeys k hk) sameKeyTwice
  have hbatch : oneKeyTree.multiScanPrefixAt 1 sameKeyTwice = [[([1], [7])], []] := by
    decide +kernel
  have hplain : [[1], [1]].map (oneKeyTree.scanPrefixAt 1) =
      [[([1], [7])], [([1], [7])]] := by decide +kernel
  rw [heq, hplain] at hbatch
  exact absurd hbatch (by decide)

theorem multiScanPrefixAt_presentAndAbsent :
    oneKeyTree.multiScanPrefixAt 1 presentAndAbsent =
      [[2], [1]].map (oneKeyTree.scanPrefixAt 1) :=
  (LsmTree.multiScanPrefixAt_eq_iff hashlessEnv oneKeyTree opened_oneKeyTree 1 1 [[2], [1]]
    (by decide) presentAndAbsent).mpr (by
      have hall : ∀ p ∈ ([[2], [1]] : List Bytes),
          (oneKeyTree.scanned [[2], [1]] false).scanPrefixAt 1 p = oneKeyTree.scanPrefixAt 1 p ∧
          ¬ 1 < List.count p [[2], [1]] := by decide +kernel
      intro p hp
      exact ⟨(hall p hp).1, fun h => absurd h (hall p hp).2⟩)

end RhypeDb.Storage
