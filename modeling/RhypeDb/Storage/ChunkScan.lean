import RhypeDb.Basic.MergeWindow
import RhypeDb.Storage.BoundedScan
import RhypeDb.Storage.SnapshotRead

/-! `LsmTree::scan_chunk_raw`, and a scan that goes on from chunk to chunk. Each chunk is the first
rows of what the layers hold from the cursor on, tombstones included, so that the chunks together
give the live range as the layers hold it. `scan_prefix_at` gives the same unless a memtable's
walk ends early, at a user key that the scanned prefix extends. -/

namespace RhypeDb.Storage

open ByteOrder Function InternalKey Layered MergeWindow SortedMap
open List hiding findSome?_eq_some_iff merge

variable {V : Type}

structure ChunkScan (V : Type) where
  live : List (Bytes × V)
  highWater : Option Bytes
  more : Bool
  visited : Nat

namespace LsmTree

variable [ByteLen V]

def scanChunkRaw (tree : LsmTree V) (version : UInt64) (pre start : Bytes) (maxDistinct : Nat) :
    ChunkScan V :=
  if maxDistinct = 0 then { live := [], highWater := none, more := false, visited := 0 }
  else
    let sources := tree.sstFiles.map (·.file.scanFromMax pre start version maxDistinct) ++
      tree.immutableMemtables.map (·.scanFromMax pre start version maxDistinct) ++
      [tree.activeMemtable.scanFromMax pre start version maxDistinct]
    let sourceSaturated := sources.any fun rows => decide (rows.length = maxDistinct)
    let merged := sources.foldl SortedMap.insertAll (SortedMap.empty : SortedMap Bytes (MemValue V))
    let taken := merged.entries.take maxDistinct
    { live := liveRows taken
      highWater := taken.getLast?.map Prod.fst
      more := sourceSaturated || decide (maxDistinct < merged.entries.length)
      visited := taken.length }

/-- The live rows of one chunk after the other, each from the key after the last one's high water.
`none` is a loop that has not ended yet. -/
def scanChunks (tree : LsmTree V) (version : UInt64) (pre : Bytes) (chunkSize : Nat) :
    Nat → Bytes → Option (List (Bytes × V))
  | 0, _ => none
  | fuel + 1, start =>
    let chunk := tree.scanChunkRaw version pre start chunkSize
    match chunk.highWater with
    | none => some chunk.live
    | some highWater =>
      if chunk.more then
        (tree.scanChunks version pre chunkSize fuel (highWater ++ [0])).map (chunk.live ++ ·)
      else some chunk.live

end LsmTree

namespace Layer

variable [ByteLen V]

def rowsFrom (pre start : Bytes) (version : UInt64) (layer : Layer V) :
    List (Bytes × MemValue V) := collect start pre version none (layer.walk start)

omit [ByteLen V] in
/-- A memtable's prefix scan meets a key that does not extend the prefix before it comes to the
newest visible entry of this one. -/
def endsBefore (pre : Bytes) (version : UInt64) (k : Bytes) : Layer V → Bool
  | memtable m => (newest m.entries k version).any fun e => m.entries.any fun b =>
      decide (InternalKey.seek pre ≤ b.1 ∧ b.1 < e.1 ∧ ¬ pre <+: b.1.userKey)
  | sst _ => false

omit [ByteLen V] in
def shown (pre : Bytes) (version : UInt64) (k : Bytes) (layer : Layer V) : Option (MemValue V) :=
  if layer.endsBefore pre version k then none else readNewest layer.entries k version

variable {env : StorageEnv V} {layer : Layer V} {pre start : Bytes} {version : UInt64} {k : Bytes}
  {value : MemValue V}

theorem row_walk (hread : layer.Readable env) (hstart : pre <+: start) :
    Row start pre version (layer.walk start) k value ↔
      pre <+: k ∧ ¬ k < start ∧ readNewest layer.entries k version = some value := by
  cases layer with
  | memtable m =>
    obtain ⟨front, hsplit, hfront, -⟩ := range_split m (.seek start)
    have hbelow : ∀ e ∈ front, e.1.userKey < start :=
      fun e he => userKey_lt_of_lt_seek (hfront e he)
    have hrow := @row_iff V pre k start version value m hstart
    rw [hsplit, row_append hbelow, ← hsplit] at hrow
    exact hrow
  | sst f =>
    have hbelow : ∀ e ∈ f.data.take (16 * SstFile.seekBlock f.index (.seek start)),
        e.1.userKey < start :=
      fun e he => userKey_lt_of_lt_seek (hread.1.lt_of_mem_take_seek he)
    have hrow := @row_iff V pre k start version value ⟨f.data, hread.1.sorted⟩ hstart
    have heq : (Layer.sst f).walk start =
        f.data.drop (16 * SstFile.seekBlock f.index (.seek start)) := hread.1.iterFrom_eq hread.2 _
    rw [heq, ← row_append hbelow, take_append_drop]
    exact hrow

theorem mem_rowsFrom (hread : layer.Readable env) (horder : KeyOrdered pre layer.entries)
    (hstart : pre <+: start) :
    (k, value) ∈ layer.rowsFrom pre start version ↔
      pre <+: k ∧ ¬ k < start ∧ readNewest layer.entries k version = some value := by
  have hempty : ∀ l ∈ (none : Option Bytes), ∀ e ∈ layer.walk start, pre <+: e.1.userKey →
      ¬ e.1.userKey < l := nofun
  have hwalk := walk_sublist hread.wellFormed start
  have hcollect : (k, value) ∈ layer.rowsFrom pre start version ↔
      none ≠ some k ∧ Row start pre version (layer.walk start) k value :=
    mem_collect (sorted_walk hread.wellFormed start) (horder.mono fun e he => hwalk.subset he) hempty
  rw [hcollect, row_walk hread hstart]
  exact and_iff_right nofun

theorem ascending_rowsFrom (hread : layer.Readable env) (horder : KeyOrdered pre layer.entries) :
    Ascending (layer.rowsFrom pre start version) :=
  sorted_collect (sorted_walk hread.wellFormed start)
    (horder.mono fun _ he => (walk_sublist hread.wellFormed start).subset he) none

theorem lastWrite_rowsFrom (hread : layer.Readable env) (horder : KeyOrdered pre layer.entries)
    (hstart : pre <+: start) (hk : pre <+: k) (hfrom : ¬ k < start) :
    lastWrite (layer.rowsFrom pre start version) k = readNewest layer.entries k version := by
  ext value
  rw [lastWrite_eq_some (ascending_rowsFrom hread horder), mem_rowsFrom hread horder hstart]
  exact ⟨fun h => h.2.2, fun h => ⟨hk, hfrom, h⟩⟩

omit [ByteLen V] in
theorem endsBefore_memtable {m : MemTable V} : (memtable m).endsBefore pre version k = true ↔
    ∃ e, newest m.entries k version = some e ∧
      ∃ b ∈ m.entries, InternalKey.seek pre ≤ b.1 ∧ b.1 < e.1 ∧ ¬ pre <+: b.1.userKey := by
  unfold endsBefore
  rw [Option.any_eq_true]
  simp only [any_eq_true, decide_eq_true_eq]

theorem shows_iff_shown (hread : layer.Readable env) :
    layer.Shows pre version k value ↔ pre <+: k ∧ layer.shown pre version k = some value := by
  cases layer with
  | memtable m =>
    obtain ⟨front, hsplit, hfront, hrange⟩ := range_split m (.seek pre)
    change Row [] pre version (m.range (.seek pre)) k value ↔ _
    refine and_congr_right fun hk => ?_
    have hnew : ∀ e, IsNewest m.entries k version e ↔
        IsNewest (m.range (.seek pre)) k version e := by
      intro e
      rw [hsplit]
      apply isNewest_append_right
      intro x hx hxk _
      exact absurd (hfront x hx) (not_lt.mpr (seek_le_of_extends (hxk ▸ hk)))
    have hreach : ∀ e, newest m.entries k version = some e →
        (Reached [] pre (m.range (.seek pre)) e ↔
          ¬ (Layer.memtable m).endsBefore pre version k = true) := by
      intro e he
      rw [endsBefore_memtable]
      constructor
      · rintro hreached ⟨e', he', b, hb, hseek, hlt, hnot⟩
        cases he.symm.trans he'
        rw [hsplit] at hb
        obtain hb | hb := mem_append.mp hb
        · exact absurd (hfront b hb) (not_lt.mpr hseek)
        · exact hnot (hreached b hb hlt (not_lt_nil _))
      · intro hnone b hb hlt _
        by_contra hnot
        exact hnone ⟨e, he, b, hsplit ▸ mem_append_right front hb, hrange b hb, hlt, hnot⟩
    unfold shown
    constructor
    · rintro ⟨-, e, he, hv, hreached⟩
      have hsome := newest_eq_some.mpr ((hnew e).mpr he)
      rw [if_neg ((hreach e hsome).mp hreached)]
      change (newest m.entries k version).map Prod.snd = some value
      rw [hsome, Option.map_some, hv]
    · intro hshown
      split_ifs at hshown with hends
      obtain ⟨e, he, hv⟩ := Option.map_eq_some_iff.mp hshown
      exact ⟨not_lt_nil k, e, (hnew e).mp (newest_eq_some.mp he), hv, (hreach e he).mpr hends⟩
  | sst f =>
    change Row pre pre version ((Layer.sst f).walk pre) k value ↔ _
    refine (row_walk hread prefix_rfl).trans (and_congr_right fun hk => ?_)
    exact and_iff_right (not_lt.mpr (le_of_isPrefix hk))

omit [ByteLen V] in
theorem shown_eq {layer : Layer V} (hk : pre <+: k)
    (hfree : ∀ e ∈ layer.entries, e.1.userKey <+: pre → e.1.userKey = pre) :
    layer.shown pre version k = readNewest layer.entries k version := by
  refine if_neg fun hends => ?_
  cases layer with
  | sst f => cases hends
  | memtable m =>
    obtain ⟨e, he, b, hb, hseek, hlt, hnot⟩ := endsBefore_memtable.mp hends
    obtain ⟨-, hek, -⟩ := mem_visible.mp (argmax_mem he)
    obtain hbelow | rfl | habove := lt_trichotomy b.1.userKey pre
    · by_cases hbp : b.1.userKey <+: pre
      · exact hnot (hfree b hb hbp ▸ prefix_rfl)
      · exact not_le.mpr (lt_of_diverge hbelow hbp b.1.version (~~~0)) hseek
    · exact hnot prefix_rfl
    · obtain ⟨rest, hrest⟩ := hk
      refine lt_asymm hlt ?_
      rw [lt_def, InternalKey.asBytes, InternalKey.asBytes, hek, ← hrest,
        append_assoc]
      exact append_lt_append habove hnot _ _

end Layer

section

variable [ByteLen V] {env : StorageEnv V} {tree : LsmTree V} {pre start : Bytes} {version : UInt64}
  {n : Nat} {k : Bytes}

def LsmTree.held (tree : LsmTree V) (version : UInt64) (pre start : Bytes) :
    SortedMap Bytes (MemValue V) :=
  merge (tree.allLayers.map (Layer.rowsFrom pre start version)).reverse

structure Scannable (env : StorageEnv V) (tree : LsmTree V) (pre : Bytes) : Prop where
  readable : ∀ layer ∈ tree.allLayers, layer.Readable env
  ordered : ∀ layer ∈ tree.allLayers, KeyOrdered pre layer.entries

theorem Scannable.of_written (hw : tree.Written env)
    (hfits : ∀ sst ∈ tree.sstFiles, sst.file.Fits) {len : Nat}
    (hlen : ∀ layer ∈ tree.layers, ∀ e ∈ layer, pre <+: e.1.userKey → e.1.userKey.length = len) :
    Scannable env tree pre where
  readable := fun layer hlayer => LsmTree.readable_allLayers (fun sst hsst => by
    obtain ⟨c, m, hfile⟩ := hw sst hsst
    refine ⟨?_, hfits sst hsst⟩
    rw [hfile]
    exact SstWriter.wellFormed_writeAll env c m.sorted) hlayer
  ordered := fun layer hlayer => (tree.oneLength_allLayers hlen layer hlayer).keyOrdered

theorem Scannable.ascending (h : Scannable env tree pre) :
    ∀ rows ∈ (tree.allLayers.map (Layer.rowsFrom pre start version)).reverse, Ascending rows := by
  intro rows hrows
  obtain ⟨layer, hlayer, rfl⟩ := mem_map.mp (mem_reverse.mp hrows)
  exact Layer.ascending_rowsFrom (h.readable layer hlayer) (h.ordered layer hlayer)

theorem Scannable.mem_held (h : Scannable env tree pre) (hstart : pre <+: start)
    {value : MemValue V} :
    (k, value) ∈ (tree.held version pre start).entries ↔
      pre <+: k ∧ ¬ k < start ∧
        tree.layers.findSome? (fun layer => readNewest layer k version) = some value := by
  rw [← lookup_eq_some]
  change (List.foldl _ _ _ : SortedMap Bytes (MemValue V)).lookup k = some value ↔ _
  rw [lookup_foldl_insertAll, reverse_reverse, topRow, findSome?_map,
    ← tree.entries_allLayers, findSome?_map]
  by_cases hk : pre <+: k ∧ ¬ k < start
  · have heq : ∀ layer ∈ tree.allLayers, lastWrite (layer.rowsFrom pre start version) k =
        readNewest layer.entries k version := fun layer hlayer =>
      Layer.lastWrite_rowsFrom (h.readable layer hlayer) (h.ordered layer hlayer) hstart hk.1 hk.2
    rw [and_iff_right hk.1, and_iff_right hk.2, findSome?_eq_some_iff, findSome?_eq_some_iff]
    apply firstHit_congr
    · intro layer hlayer
      rw [comp_apply, heq layer hlayer, comp_apply]
    · intro layer hlayer
      rw [comp_apply, heq layer hlayer, comp_apply]
  · refine iff_of_false (fun hsome => ?_) fun hall => hk ⟨hall.1, hall.2.1⟩
    obtain ⟨layer, hlayer, hlast⟩ := exists_of_findSome?_eq_some hsome
    have hrow := (lastWrite_eq_some (Layer.ascending_rowsFrom (h.readable layer hlayer)
      (h.ordered layer hlayer))).mp hlast
    obtain ⟨hpre, hfrom, -⟩ :=
      (Layer.mem_rowsFrom (h.readable layer hlayer) (h.ordered layer hlayer) hstart).mp hrow
    exact hk ⟨hpre, hfrom⟩

theorem LsmTree.sources_eq (hstart : pre <+: start) :
    tree.sstFiles.map (·.file.scanFromMax pre start version n) ++
        tree.immutableMemtables.map (·.scanFromMax pre start version n) ++
        [tree.activeMemtable.scanFromMax pre start version n] =
      (tree.allLayers.map (Layer.rowsFrom pre start version)).reverse.map (List.take n) := by
  have hlayer : Layer.scanFromMax pre start version n =
      List.take n ∘ Layer.rowsFrom (V := V) pre start version := by
    funext layer
    exact Layer.scanFromMax_eq hstart version n layer
  rw [map_reverse, map_map, ← hlayer, LsmTree.map_allLayers]
  simp [Layer.scanFromMax]

theorem Scannable.scanChunkRaw (h : Scannable env tree pre) (hstart : pre <+: start) (hn : 1 ≤ n) :
    (tree.scanChunkRaw version pre start n).live =
        liveRows ((tree.held version pre start).entries.take n) ∧
      (tree.scanChunkRaw version pre start n).highWater =
        ((tree.held version pre start).entries.take n).getLast?.map Prod.fst ∧
      ((tree.scanChunkRaw version pre start n).more = false →
        (tree.held version pre start).entries.length ≤ n) := by
  have hrows : ∀ rows ∈ (tree.allLayers.map (Layer.rowsFrom pre start version)).reverse,
      Ascending rows := h.ascending
  have htake := take_merge_take (n := n) hrows
  unfold LsmTree.scanChunkRaw
  rw [if_neg (Nat.ne_of_gt hn), LsmTree.sources_eq hstart]
  change liveRows ((merge _).entries.take n) = liveRows ((merge _).entries.take n) ∧ _
  refine ⟨congrArg liveRows htake, congrArg (fun rows => rows.getLast?.map Prod.fst) htake, ?_⟩
  intro hmore
  obtain ⟨hshort, hle⟩ := Bool.or_eq_false_iff.mp hmore
  have hwindows := map_take_of_short (n := n) fun rows hrows hfull => by
    have hany := any_eq_false.mp hshort (rows.take n) (mem_map_of_mem hrows)
    exact hany (decide_eq_true hfull)
  have hlength := of_decide_eq_false hle
  rw [hwindows] at hlength
  exact Nat.le_of_not_lt hlength

omit [ByteLen V] in
theorem lt_cursor_iff {highWater : Bytes} : ¬ k < highWater ++ [0] ↔ highWater < k := by
  constructor
  · intro hnot
    refine lt_of_le_of_ne (not_lt.mp fun hlt => hnot (hlt.trans_le (le_append _ _))) ?_
    rintro rfl
    have hlt : highWater ++ [] < highWater ++ [0] := append_lt_append_iff.mpr (nil_lt_cons _ _)
    rw [append_nil] at hlt
    exact hnot hlt
  · intro hlt
    rw [not_lt]
    by_cases hpre : highWater <+: k
    · obtain ⟨rest, rfl⟩ := hpre
      cases rest with
      | nil =>
        rw [append_nil] at hlt
        exact absurd hlt (lt_irrefl _)
      | cons b rest =>
        rw [append_le_append_iff]
        exact replicate_le (n := 1) (fun d => Fin.zero_le d) (Nat.le_add_left 1 _)
    · have hdiverge := append_lt_append hlt hpre [0] []
      rw [append_nil] at hdiverge
      exact hdiverge.le

theorem Scannable.held_cursor (h : Scannable env tree pre) (hstart : pre <+: start)
    {last : Bytes × MemValue V}
    (hlast : ((tree.held version pre start).entries.take n).getLast? = some last) :
    pre <+: last.1 ∧ (tree.held version pre (last.1 ++ [0])).entries =
      (tree.held version pre start).entries.drop n := by
  have hmem : last ∈ (tree.held version pre start).entries.take n := mem_of_getLast? hlast
  obtain ⟨hpre, hfrom, -⟩ := (h.mem_held hstart).mp (mem_of_mem_take hmem)
  have hcursor : pre <+: last.1 ++ [0] := hpre.trans (prefix_append _ _)
  have hsorted := (tree.held version pre start).sorted
  have hsplit := take_append_drop n (tree.held version pre start).entries
  rw [← hsplit, pairwise_append] at hsorted
  refine ⟨hpre, entries_eq_of_mem_iff (SortedMap.sorted _) hsorted.2.1 ?_⟩
  rintro ⟨k, value⟩
  rw [h.mem_held hcursor, lt_cursor_iff]
  constructor
  · rintro ⟨hk, hlt, hvalue⟩
    have hheld : (k, value) ∈ (tree.held version pre start).entries :=
      (h.mem_held hstart).mpr ⟨hk, fun hbelow => hfrom (hlt.trans hbelow), hvalue⟩
    rw [← hsplit] at hheld
    obtain htaken | hdropped := mem_append.mp hheld
    · -- no row of the window stands behind its last one
      obtain ⟨front, hfront⟩ := getLast?_eq_some_iff.mp hlast
      rw [hfront] at htaken hsorted
      obtain hbefore | hsame := mem_append.mp htaken
      · have hbelow := (pairwise_append.mp hsorted.1).2.2 _ hbefore last
          (mem_singleton_self last)
        exact absurd hlt (lt_asymm hbelow)
      · rw [mem_singleton] at hsame
        rw [← hsame] at hlt
        exact absurd hlt (lt_irrefl k)
    · exact hdropped
  · intro hdropped
    have hheld := mem_of_mem_drop hdropped
    obtain ⟨hk, -, hvalue⟩ := (h.mem_held hstart).mp hheld
    exact ⟨hk, hsorted.2.2 last hmem _ hdropped, hvalue⟩

omit [ByteLen V] in
theorem liveRows_append (rows rows' : List (Bytes × MemValue V)) :
    liveRows (rows ++ rows') = liveRows rows ++ liveRows rows' := filterMap_append

theorem Scannable.scanChunks (h : Scannable env tree pre) (hstart : pre <+: start) (hn : 1 ≤ n)
    {fuel : Nat} (hfuel : (tree.held version pre start).entries.length < fuel) :
    tree.scanChunks version pre n fuel start =
      some (liveRows (tree.held version pre start).entries) := by
  induction fuel generalizing start with
  | zero => exact absurd hfuel (Nat.not_lt_zero _)
  | succ fuel ih =>
    have hchunk := @Scannable.scanChunkRaw V _ env tree pre start version n h hstart hn
    obtain ⟨hlive, hhigh, hmore⟩ := hchunk
    rw [LsmTree.scanChunks, hhigh, hlive]
    cases hlast : ((tree.held version pre start).entries.take n).getLast? with
    | none =>
      have hnil := getLast?_eq_none_iff.mp hlast
      have hempty : (tree.held version pre start).entries = [] :=
        (take_eq_nil_iff.mp hnil).resolve_left (Nat.ne_of_gt hn)
      rw [hempty, take_nil]
      rfl
    | some last =>
      obtain ⟨hpre, hrest⟩ := h.held_cursor hstart hlast
      dsimp only [Option.map_some]
      split_ifs with hgoes
      · have hcursor : pre <+: last.1 ++ [0] := hpre.trans (prefix_append _ _)
        have hsome : 0 < (tree.held version pre start).entries.length :=
          length_pos_of_mem (mem_of_mem_take (mem_of_getLast? hlast))
        have hless : (tree.held version pre (last.1 ++ [0])).entries.length < fuel := by
          rw [hrest, length_drop]
          omega
        rw [ih hcursor hless, hrest, Option.map_some, ← liveRows_append, take_append_drop]
      · rw [take_of_length_le (hmore (eq_false_of_ne_true hgoes))]

/-- What `scan_prefix_at` shows of a key: the newest layer decides of those whose prefix scan
comes to it. -/
def LsmTree.shownAt (tree : LsmTree V) (version : UInt64) (pre k : Bytes) : Option V :=
  (tree.allLayers.findSome? (Layer.shown pre version k)).join

theorem Scannable.mem_scanPrefixAt (hw : tree.Written env) (h : Scannable env tree pre)
    {value : V} :
    (k, value) ∈ tree.scanPrefixAt version pre ↔
      pre <+: k ∧ tree.shownAt version pre k = some value := by
  rw [LsmTree.mem_scanPrefixAt_iff hw h.ordered]
  by_cases hk : pre <+: k
  · rw [and_iff_right hk, LsmTree.shownAt, Option.join_eq_some_iff, findSome?_eq_some_iff]
    have hshows : ∀ layer ∈ tree.allLayers, ∀ v, layer.Shows pre version k v ↔
        layer.shown pre version k = some v := fun layer hlayer v =>
      (Layer.shows_iff_shown (h.readable layer hlayer)).trans (and_iff_right hk)
    apply firstHit_congr
    · intro layer hlayer
      rw [Option.eq_none_iff_forall_ne_some]
      exact forall_congr' fun v => not_congr (hshows layer hlayer v)
    · exact fun layer hlayer => hshows layer hlayer (some value)
  · refine iff_of_false (fun hhit => ?_) fun hall => hk hall.1
    obtain ⟨layer, hlayer, hshow⟩ := hhit.exists_mem
    exact hk hshow.1

/-- The chunks come to an end with the rows of the prefix scan exactly when, for every key under
the prefix, what the layers show of it is what they hold. -/
theorem scan_chunks_iff (env : StorageEnv V) (tree : LsmTree V) (hw : tree.Written env)
    (hfits : ∀ sst ∈ tree.sstFiles, sst.file.Fits) (version : UInt64) (pre : Bytes) (n len : Nat)
    (hlen : ∀ layer ∈ tree.layers, ∀ e ∈ layer, pre <+: e.1.userKey → e.1.userKey.length = len)
    (hn : 1 ≤ n) :
    (∃ enough, ∀ fuel, enough ≤ fuel →
        tree.scanChunks version pre n fuel pre = some (tree.scanPrefixAt version pre)) ↔
      ∀ k, pre <+: k → tree.shownAt version pre k = readLayers tree.layers k version := by
  have hscan : Scannable env tree pre := .of_written hw hfits hlen
  have hchunks : ∀ fuel, (tree.held version pre pre).entries.length < fuel →
      tree.scanChunks version pre n fuel pre =
        some (liveRows (tree.held version pre pre).entries) :=
    fun fuel hfuel => hscan.scanChunks prefix_rfl hn hfuel
  have hheld : ∀ k value, (k, value) ∈ liveRows (tree.held version pre pre).entries ↔
      pre <+: k ∧ readLayers tree.layers k version = some value := by
    intro k value
    rw [mem_liveRows, hscan.mem_held prefix_rfl, readLayers, Option.join_eq_some_iff]
    refine and_congr_right fun hk => ?_
    exact and_iff_right (not_lt.mpr (le_of_isPrefix hk))
  constructor
  · rintro ⟨enough, henough⟩ k hk
    have hrows := (henough _ (le_max_left enough _)).symm.trans
      (hchunks _ (lt_of_lt_of_le (Nat.lt_succ_self _) (le_max_right enough _)))
    refine Option.ext fun value => ?_
    have hshown : (k, value) ∈ tree.scanPrefixAt version pre ↔
        pre <+: k ∧ tree.shownAt version pre k = some value := hscan.mem_scanPrefixAt hw
    rw [Option.some_inj.mp hrows, hheld, and_iff_right hk, and_iff_right hk] at hshown
    exact hshown.symm
  · intro hall
    have hrows : liveRows (tree.held version pre pre).entries = tree.scanPrefixAt version pre := by
      apply entries_eq_of_mem_iff (sorted_liveRows _) (sorted_mergeLayers _)
      rintro ⟨k, value⟩
      refine (hheld k value).trans ((and_congr_right fun hk => ?_).trans
        (hscan.mem_scanPrefixAt hw).symm)
      rw [hall k hk]
    rw [← hrows]
    exact ⟨_, fun fuel hfuel => hchunks fuel (Nat.lt_of_succ_le hfuel)⟩

omit [ByteLen V] in
theorem LsmTree.shownAt_eq (hk : pre <+: k)
    (hfree : ∀ layer ∈ tree.layers, ∀ e ∈ layer, e.1.userKey <+: pre → e.1.userKey = pre) :
    tree.shownAt version pre k = readLayers tree.layers k version := by
  unfold LsmTree.shownAt readLayers
  rw [← tree.entries_allLayers] at hfree ⊢
  have heach : tree.allLayers.map (Layer.shown pre version k) =
      tree.allLayers.map fun layer => readNewest layer.entries k version :=
    map_congr_left fun layer hlayer =>
      Layer.shown_eq hk (hfree _ (mem_map_of_mem hlayer))
  have hfirst := congrArg (List.findSome? id) heach
  rw [findSome?_map, findSome?_map] at hfirst
  rw [findSome?_map]
  exact congrArg Option.join hfirst

end

/-- One key a chunk, where the older layer's rows are deleted by the newer one's. -/
theorem scan_chunks_cutTree : ∃ enough, ∀ fuel, enough ≤ fuel →
    cutTree.scanChunks 2 [] 1 fuel [] = some (cutTree.scanPrefixAt 2 []) := by
  refine (scan_chunks_iff ⟨fun _ _ => 0, none⟩ cutTree nofun nofun 2 [] 1 1 (by decide) le_rfl).mpr ?_
  exact fun k hk => LsmTree.shownAt_eq hk fun _ _ _ _ hpre => prefix_nil.mp hpre

/-- The scanned prefix extends the key `a`, whose entry sorts before that of the key under it. -/
def shadowedTree : LsmTree Bytes :=
  { LsmTree.new .none with
    activeMemtable :=
      (MemTable.new.put [97] 1 [1]).put [97, 255, 255, 255, 255, 255, 255, 255, 255] 1 [2] }

theorem chunks_go_further : ¬ ∀ (env : StorageEnv Bytes) (tree : LsmTree Bytes) (version : UInt64)
    (pre : Bytes) (n len : Nat), tree.Written env →
    (∀ layer ∈ tree.layers, ∀ e ∈ layer, pre <+: e.1.userKey → e.1.userKey.length = len) → 1 ≤ n →
    ∃ enough, ∀ fuel, enough ≤ fuel →
      tree.scanChunks version pre n fuel pre = some (tree.scanPrefixAt version pre) := by
  intro h
  have hwithin : ∀ layer ∈ shadowedTree.layers, ∀ e ∈ layer, ([97, 255] : Bytes) <+: e.1.userKey →
      e.1.userKey.length = 9 := by decide
  obtain ⟨enough, henough⟩ :=
    h ⟨fun _ _ => 0, none⟩ shadowedTree 1 [97, 255] 1 9 nofun hwithin le_rfl
  have hchunks : shadowedTree.scanChunks 1 [97, 255] 1 (enough + 2) [97, 255] =
      some [([97, 255, 255, 255, 255, 255, 255, 255, 255], [2])] := by
    have hread : Scannable ⟨fun _ _ => 0, none⟩ shadowedTree [97, 255] :=
      .of_written nofun nofun hwithin
    have hheld : (shadowedTree.held 1 [97, 255] [97, 255]).entries.length ≤ 1 := by decide
    rw [hread.scanChunks prefix_rfl le_rfl (by omega)]
    decide
  have hsame := (henough (enough + 2) (Nat.le_add_right _ _)).symm.trans hchunks
  cases hsame

end RhypeDb.Storage
