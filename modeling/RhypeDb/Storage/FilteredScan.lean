import RhypeDb.Storage.Scan

/-! Prefix scans with a pushed-down predicate. Blocks whose zone bounds rule the predicate out
are skipped, and a skip forgets which key was emitted last. Between two skips the walk keeps the
newest visible entry of each key, as the plain scan does over the whole file. -/

namespace RhypeDb.Storage

open ByteOrder Layered Option
open List hiding findSome?_eq_some_iff

variable {V : Type}

namespace SstFile

variable [ByteLen V]

/-- One block of the filtered walk: the rows it adds, and the key emitted last unless the walk
has left the prefix. -/
def filterBlock (pre : Bytes) (version : UInt64) :
    Option Bytes → List (Entry V) → List (Bytes × MemValue V) × Option (Option Bytes)
  | last, [] => ([], some last)
  | last, e :: es =>
    if e.1.userKey < pre then filterBlock pre version last es
    else if ¬ pre <+: e.1.userKey then ([], none)
    else if version < e.1.version then filterBlock pre version last es
    else if last = some e.1.userKey then filterBlock pre version last es
    else
      let (rows, last) := filterBlock pre version (some e.1.userKey) es
      ((e.1.userKey, e.2) :: rows, last)

def blockIdxForOffset (f : SstFile V) (offset : Nat) : Nat :=
  match f.index.findIdx? fun entry => decide (offset < entry.offset) with
  | some i => i - 1
  | none => f.index.length - 1

def prefixStartOffset (f : SstFile V) (pre : Bytes) : Nat :=
  ((f.index[seekBlock f.index (.seek pre)]?).map IndexEntry.offset).getD 0

/-- The block loop of `scan_prefix_filtered_v6`. -/
def filterBlocks (f : SstFile V) (pre : Bytes) (version : UInt64) (p : FieldPredicate) :
    Option Bytes → List Nat → List (Bytes × MemValue V)
  | _, [] => []
  | last, bi :: bis =>
    if ¬ f.zoneMap.blockCouldMatch bi p then filterBlocks f pre version p none bis
    else
      match f.block bi with
      | .error _ => []
      | .ok blk =>
        match filterBlock pre version last blk with
        | (rows, none) => rows
        | (rows, some last) => rows ++ filterBlocks f pre version p last bis

def scanPrefixFilteredV6 (f : SstFile V) (pre : Bytes) (version : UInt64) (p : FieldPredicate) :
    List (Bytes × MemValue V) :=
  filterBlocks f pre version p none
    (f.blocksFrom (f.blockIdxForOffset (f.prefixStartOffset pre)))

/-- Step to the block that holds `pos`. -/
def advanceBlock (f : SstFile V) (pos : Nat) : Nat → Nat → Nat
  | 0, blockIdx => blockIdx
  | fuel + 1, blockIdx =>
    match f.index[blockIdx + 1]? with
    | some entry => if entry.offset ≤ pos then advanceBlock f pos fuel (blockIdx + 1) else blockIdx
    | none => blockIdx

/-- The entry loop of the v5 walk. Every turn moves `pos` forward. -/
def filterEntries (f : SstFile V) (pre : Bytes) (version : UInt64) (p : FieldPredicate) :
    Nat → Nat → Nat → Option Nat → Option Bytes → List (Bytes × MemValue V)
  | 0, _, _, _, _ => []
  | fuel + 1, pos, blockIdx, passed, last =>
    match f.data[pos]? with
    | none => []
    | some e =>
      if passed ≠ some blockIdx ∧ ¬ f.zoneMap.blockCouldMatch blockIdx p then
        filterEntries f pre version p fuel (f.blockEndOffset blockIdx) (blockIdx + 1) passed none
      else
        let next := filterEntries f pre version p fuel (pos + 1)
          (f.advanceBlock (pos + 1) f.index.length blockIdx) (some blockIdx)
        if e.1.userKey < pre then next last
        else if ¬ pre <+: e.1.userKey then []
        else if version < e.1.version then next last
        else if last = some e.1.userKey then next last
        else (e.1.userKey, e.2) :: next (some e.1.userKey)

def scanPrefixFiltered (f : SstFile V) (pre : Bytes) (version : UInt64) (p : FieldPredicate) :
    List (Bytes × MemValue V) :=
  match f.version with
  | .compressed => f.scanPrefixFilteredV6 pre version p
  | .uncompressed =>
    let start := f.prefixStartOffset pre
    filterEntries f pre version p f.data.length start (f.blockIdxForOffset start) none none

end SstFile

def LsmTree.scanPrefixFilteredAt [ByteLen V] (tree : LsmTree V) (version : UInt64) (pre : Bytes)
    (p : FieldPredicate) : List (Bytes × V) :=
  mergeLayers (tree.sstFiles.map (·.file.scanPrefixFiltered pre version p) ++
    tree.immutableMemtables.map (·.scanPrefix pre version) ++
    [tree.activeMemtable.scanPrefix pre version])

section

variable {pre : Bytes} {version : UInt64}

theorem collect_eq_nil {lower : Bytes} {es : List (Entry V)}
    (h : ∀ e ∈ es, ¬ pre <+: e.1.userKey) (last : Option Bytes) :
    collect lower pre version last es = [] := by
  induction es with
  | nil => rfl
  | cons e es ih =>
    rw [forall_mem_cons] at h
    rw [collect, if_pos h.1, ih h.2, ite_self]

namespace SstFile

variable {rows : List (Bytes × MemValue V)}

theorem filterBlock_stop {blk : List (Entry V)} {last : Option Bytes}
    (h : filterBlock pre version last blk = (rows, none)) :
    (∀ es, collect pre pre version last (blk ++ es) = rows) ∧
      ∃ b ∈ blk, ¬ b.1.userKey < pre ∧ ¬ pre <+: b.1.userKey := by
  induction blk generalizing last rows with
  | nil => cases h
  | cons e blk ih =>
    rw [filterBlock] at h
    simp only [cons_append, collect]
    have hlater : (∃ b ∈ blk, ¬ b.1.userKey < pre ∧ ¬ pre <+: b.1.userKey) →
        ∃ b ∈ e :: blk, ¬ b.1.userKey < pre ∧ ¬ pre <+: b.1.userKey := by
      rintro ⟨b, hb, hstop⟩
      exact ⟨b, mem_cons_of_mem e hb, hstop⟩
    split_ifs at h ⊢ with hlow hpre hvis hsame
    · exact (ih h).imp_right hlater
    · exact (ih h).imp_right hlater
    · exact (ih h).imp_right hlater
    · cases hb : filterBlock pre version (some e.1.userKey) blk with
      | mk rows' out =>
        rw [hb] at h
        cases h
        obtain ⟨hrows, b, hb, hstop⟩ := ih hb
        exact ⟨fun es => congrArg _ (hrows es), b, mem_cons_of_mem e hb, hstop⟩
    · cases h
      exact ⟨fun _ => rfl, e, mem_cons_self, hlow, hpre⟩

theorem filterBlock_next {blk : List (Entry V)} {last last' : Option Bytes}
    (h : filterBlock pre version last blk = (rows, some last')) (es : List (Entry V)) :
    collect pre pre version last (blk ++ es) = rows ++ collect pre pre version last' es := by
  induction blk generalizing last rows with
  | nil =>
    cases h
    rfl
  | cons e blk ih =>
    rw [filterBlock] at h
    rw [cons_append, collect]
    split_ifs at h ⊢ with hlow hpre hvis hsame
    · exact ih h
    · exact ih h
    · exact ih h
    · cases hb : filterBlock pre version (some e.1.userKey) blk with
      | mk rows' out =>
        rw [hb] at h
        cases h
        rw [ih hb]
        rfl
    · cases h

section

variable [ByteLen V]

def runs (f : SstFile V) (p : FieldPredicate) : List Nat → List (List (Entry V))
  | [] => [[]]
  | bi :: bis =>
    if ¬ f.zoneMap.blockCouldMatch bi p then [] :: runs f p bis
    else
      match f.block bi with
      | .error _ => [[]]
      | .ok blk => (blk ++ (runs f p bis).headD []) :: (runs f p bis).tail

theorem headD_cons_tail_runs (f : SstFile V) (p : FieldPredicate) (bis : List Nat) :
    (f.runs p bis).headD [] :: (f.runs p bis).tail = f.runs p bis := by
  cases bis with
  | nil => rfl
  | cons bi bis =>
    rw [runs]
    split_ifs
    · cases f.block bi <;> rfl
    · rfl

theorem filterBlocks_eq {f : SstFile V} {p : FieldPredicate} {bis : List Nat}
    (hs : (f.runs p bis).flatten.Pairwise fun a b => a.1 < b.1) (last : Option Bytes) :
    f.filterBlocks pre version p last bis =
      collect pre pre version last ((f.runs p bis).headD []) ++
        (f.runs p bis).tail.flatMap (collect pre pre version none) := by
  induction bis generalizing last with
  | nil => rfl
  | cons bi bis ih =>
    rw [runs] at hs ⊢
    rw [filterBlocks]
    split_ifs at hs ⊢ with hskip
    · cases hblk : f.block bi with
      | error e => rfl
      | ok blk =>
        simp only [hblk, flatten_cons, append_assoc] at hs
        have hrest : (f.runs p bis).flatten = (f.runs p bis).headD [] ++ (f.runs p bis).tail.flatten := by
          rw [← flatten_cons, headD_cons_tail_runs]
        rw [← hrest, pairwise_append] at hs
        dsimp only [headD_cons, tail_cons]
        cases hb : filterBlock pre version last blk with
        | mk rows out =>
          cases out with
          | some last' => rw [filterBlock_next hb, append_assoc, ← ih hs.2.1 last']
          | none =>
            obtain ⟨hrows, b, hmem, hlow, hpre⟩ := filterBlock_stop hb
            -- everything after the stop is past the prefix
            have hpast : ∀ run ∈ (f.runs p bis).tail, collect pre pre version none run = [] := by
              intro run hrun
              apply collect_eq_nil
              intro e he hp
              have hin : e ∈ (f.runs p bis).flatten := by
                rw [hrest]
                exact mem_append_right _ (mem_flatten.mpr ⟨run, hrun, he⟩)
              have hreach : Reached pre pre [b] e := reached_of_prefix prefix_rfl hp
              exact hpre (hreach b (mem_singleton_self b) (hs.2.2 b hmem e hin) hlow)
            rw [hrows, flatMap_eq_nil_iff.mpr hpast, append_nil]
    · have h := ih (by simpa using hs) none
      rw [h, ← flatMap_cons, headD_cons_tail_runs]
      rfl

variable {env : StorageEnv V} {f : SstFile V}

theorem WellFormed.runs_sublist (hf : f.WellFormed env) (p : FieldPredicate) (i : Nat) :
    (f.runs p (f.blocksFrom i)).flatten.Sublist (f.data.drop (16 * i)) := by
  refine block_induction (f := f)
    (P := fun i => (f.runs p (f.blocksFrom i)).flatten.Sublist (f.data.drop (16 * i))) ?_ ?_ i
  · intro i hi
    rw [blocksFrom_of_le hi]
    exact nil_sublist _
  · intro i hi ih
    rw [blocksFrom_of_lt hi, runs, drop_eq_rawBlock_append]
    split_ifs with hskip
    · rw [hf.block_eq hi]
      split_ifs
      · exact nil_sublist _
      · rw [flatten_cons, append_assoc, ← flatten_cons, headD_cons_tail_runs]
        exact ih.append_left _
    · exact ih.trans (sublist_append_right _ _)

theorem WellFormed.sorted_runs (hf : f.WellFormed env) (p : FieldPredicate) (i : Nat) :
    (f.runs p (f.blocksFrom i)).flatten.Pairwise fun a b => a.1 < b.1 :=
  (hf.sorted.sublist (drop_sublist _ _)).sublist (hf.runs_sublist p i)

theorem WellFormed.filterBlocks_blocksFrom (hf : f.WellFormed env) (p : FieldPredicate) (i : Nat) :
    f.filterBlocks pre version p none (f.blocksFrom i) =
      (f.runs p (f.blocksFrom i)).flatMap (collect pre pre version none) := by
  rw [filterBlocks_eq (hf.sorted_runs p i), ← flatMap_cons, headD_cons_tail_runs]

omit [ByteLen V] in
theorem WellFormed.blockIdxForOffset_eq (hf : f.WellFormed env) {i : Nat}
    (hi : i < f.index.length) : f.blockIdxForOffset (16 * i) = i := by
  have hoff : ∀ j (hj : j < f.index.length), f.index[j].offset = 16 * j :=
    fun j hj => (hf.index_get j _ (getElem?_eq_getElem hj)).1
  unfold blockIdxForOffset
  cases hfind : f.index.findIdx? fun entry => decide (16 * i < entry.offset) with
  | none =>
    have hall := findIdx?_eq_none_iff.mp hfind
    have hlast := hall _ (getElem_mem (show f.index.length - 1 < f.index.length by omega))
    rw [hoff] at hlast
    simp only [decide_eq_false_iff_not] at hlast
    dsimp only
    omega
  | some j =>
    obtain ⟨hj, hlt, hmin⟩ := findIdx?_eq_some_iff_getElem.mp hfind
    rw [hoff j hj] at hlt
    simp only [decide_eq_true_eq] at hlt
    dsimp only
    by_contra hne
    have hk : j - 1 < f.index.length := by omega
    have hprev := hmin (j - 1) (by omega)
    rw [hoff _ hk] at hprev
    simp only [decide_eq_true_eq] at hprev
    omega

omit [ByteLen V] in
theorem seekBlock_lt {index : List IndexEntry} (hne : index ≠ []) (target : InternalKey) :
    seekBlock index target < index.length := by
  have hpos : 0 < index.length := length_pos_iff.mpr hne
  have hle : (index.takeWhile fun e => decide (e.key < target)).length ≤ index.length :=
    ( takeWhile_prefix _).length_le
  unfold seekBlock
  cases hb : binarySearch index target with
  | ok i =>
    simp only [binarySearch] at hb
    split_ifs at hb with h
    cases hb
    obtain ⟨e, he, -⟩ := map_eq_some_iff.mp h
    exact (List.getElem?_eq_some_iff.mp he).1
  | error i =>
    simp only [binarySearch] at hb
    split_ifs at hb with h
    have hi := Except.error.inj hb
    cases i with
    | zero => exact hpos
    | succ i => dsimp only; omega

omit [ByteLen V] in
theorem WellFormed.prefixStartOffset_eq (hf : f.WellFormed env) (hne : f.index ≠ []) :
    f.prefixStartOffset pre = 16 * seekBlock f.index (.seek pre) := by
  have hlt := seekBlock_lt hne (.seek pre)
  rw [prefixStartOffset, getElem?_eq_getElem hlt]
  exact (hf.index_get _ _ (getElem?_eq_getElem hlt)).1

omit [ByteLen V] in
theorem WellFormed.blocksFrom_start (hf : f.WellFormed env) :
    f.blocksFrom (f.blockIdxForOffset (f.prefixStartOffset pre)) =
      f.blocksFrom (seekBlock f.index (.seek pre)) := by
  by_cases hne : f.index = []
  · simp [blocksFrom, hne]
  · rw [hf.prefixStartOffset_eq hne, hf.blockIdxForOffset_eq (seekBlock_lt hne _)]

omit [ByteLen V] in
theorem WellFormed.advanceBlock_eq (hf : f.WellFormed env) {i pos : Nat} (hi : i < f.index.length)
    (hpos : pos ≤ 16 * (i + 1)) :
    f.advanceBlock pos f.index.length i =
      if pos = 16 * (i + 1) ∧ i + 1 < f.index.length then i + 1 else i := by
  obtain ⟨n, hn⟩ : ∃ n, f.index.length = n + 1 := ⟨f.index.length - 1, by omega⟩
  rw [hn, advanceBlock]
  cases hnext : f.index[i + 1]? with
  | none =>
    have := List.getElem?_eq_none_iff.mp hnext
    rw [if_neg (by omega)]
  | some entry =>
    have hlt : i + 1 < f.index.length := (List.getElem?_eq_some_iff.mp hnext).1
    have hoff := (hf.index_get _ _ hnext).1
    obtain ⟨m, rfl⟩ : ∃ m, n = m + 1 := ⟨n - 1, by omega⟩
    dsimp only
    by_cases hreach : pos = 16 * (i + 1)
    · rw [if_pos (by omega), if_pos ⟨hreach, by omega⟩, advanceBlock]
      cases hnext' : f.index[i + 1 + 1]? with
      | none => rfl
      | some entry' =>
        have hoff' := (hf.index_get _ _ hnext').1
        dsimp only
        rw [if_neg (by omega)]
    · rw [if_neg (by omega), if_neg fun h => hreach h.1]

def afterBlock (f : SstFile V) (pre : Bytes) (version : UInt64) (p : FieldPredicate)
    (bis : List Nat) : List (Bytes × MemValue V) × Option (Option Bytes) → List (Bytes × MemValue V)
  | (rows, none) => rows
  | (rows, some last) => rows ++ f.filterBlocks pre version p last bis

theorem WellFormed.filterEntries_within (hf : f.WellFormed env) {p : FieldPredicate} {i : Nat}
    (hi : i < f.index.length)
    (hnext : ∀ fuel last, f.data.length - 16 * (i + 1) ≤ fuel →
      f.filterEntries pre version p fuel (16 * (i + 1)) (i + 1) (some i) last =
        f.filterBlocks pre version p last (f.blocksFrom (i + 1)))
    {es front : List (Entry V)} (hblk : f.rawBlock i = front ++ es) {fuel : Nat}
    (hfuel : f.data.length - (16 * i + front.length) ≤ fuel) (last : Option Bytes) :
    f.filterEntries pre version p fuel (16 * i + front.length)
        (f.advanceBlock (16 * i + front.length) f.index.length i) (some i) last =
      f.afterBlock pre version p (f.blocksFrom (i + 1)) (filterBlock pre version last es) := by
  have hcount := hf.index_length
  have hlen : front.length + es.length = min 16 (f.data.length - 16 * i) := by
    rw [← length_append, ← hblk, rawBlock, length_take, length_drop]
  induction es generalizing front fuel last with
  | nil =>
    rw [length_nil] at hlen
    rw [hf.advanceBlock_eq hi (by omega), filterBlock, afterBlock, nil_append]
    by_cases hlt : i + 1 < f.index.length
    · have hpos : 16 * i + front.length = 16 * (i + 1) := by omega
      rw [if_pos ⟨hpos, hlt⟩, hpos]
      exact hnext fuel last (by omega)
    · rw [if_neg fun h => hlt h.2, blocksFrom_of_le (by omega), filterBlocks]
      have hend : f.data[16 * i + front.length]? = none :=
        List.getElem?_eq_none_iff.mpr (by omega)
      cases fuel with
      | zero => rfl
      | succ fuel => simp only [filterEntries, hend]
  | cons e es ih =>
    rw [length_cons] at hlen
    have hget : f.data[16 * i + front.length]? = some e := by
      have h : (f.rawBlock i)[front.length]? = some e := by
        rw [hblk, getElem?_append_right le_rfl, Nat.sub_self, getElem?_cons_zero]
      rwa [rawBlock, getElem?_take_of_lt (by omega), getElem?_drop] at h
    obtain ⟨fuel, rfl⟩ : ∃ n, fuel = n + 1 := ⟨fuel - 1, by omega⟩
    have hstep := fun last => @ih (front ++ [e]) (by simp [hblk]) fuel
      (by rw [length_append, length_singleton]; omega) last
      (by rw [length_append, length_singleton]; omega)
    simp only [length_append, length_singleton, ← Nat.add_assoc] at hstep
    rw [hf.advanceBlock_eq hi (by omega), if_neg (by omega)]
    simp only [filterEntries, hget, ne_eq, not_true_eq_false, false_and, if_false, hstep,
      filterBlock]
    split_ifs
    · rfl
    · rfl
    · rfl
    · cases hb : filterBlock pre version (some e.1.userKey) es with
      | mk rows out => cases out <;> rfl
    · rfl

theorem WellFormed.filterEntries_eq (hf : f.WellFormed env) (hv : f.version = .uncompressed)
    (p : FieldPredicate) (i : Nat) : ∀ fuel passed last, f.data.length - 16 * i ≤ fuel →
      (∀ j ∈ passed, j < i) →
      f.filterEntries pre version p fuel (16 * i) i passed last =
        f.filterBlocks pre version p last (f.blocksFrom i) := by
  have hcount := hf.index_length
  refine block_induction (f := f) (P := fun i => ∀ fuel passed last,
    f.data.length - 16 * i ≤ fuel → (∀ j ∈ passed, j < i) →
      f.filterEntries pre version p fuel (16 * i) i passed last =
        f.filterBlocks pre version p last (f.blocksFrom i)) ?_ ?_ i
  · intro i hi fuel passed last _ _
    have hend : f.data[16 * i]? = none := List.getElem?_eq_none_iff.mpr (by omega)
    rw [blocksFrom_of_le hi, filterBlocks]
    cases fuel with
    | zero => rfl
    | succ fuel => simp only [filterEntries, hend]
  · intro i hi ih fuel passed last hfuel hpassed
    have hlt : 16 * i < f.data.length := by omega
    obtain ⟨fuel, rfl⟩ : ∃ n, fuel = n + 1 := ⟨fuel - 1, by omega⟩
    have hblock : f.block i = .ok (f.rawBlock i) := by
      rw [hf.block_eq hi, if_neg fun h => by rw [hv] at h; cases h.1]
    rw [blocksFrom_of_lt hi, filterBlocks]
    by_cases hmatch : f.zoneMap.blockCouldMatch i p = true
    · rw [if_neg (not_not.mpr hmatch), hblock]
      -- entering the block is one turn of the loop inside it
      have hwithin := @filterEntries_within V pre version _ env f hf p i hi
        (fun fuel last hfuel => ih fuel (some i) last hfuel (by rintro _ ⟨⟩; omega))
        (f.rawBlock i) [] (nil_append _) (fuel + 1) (by simpa using hfuel) last
      simp only [length_nil, Nat.add_zero] at hwithin
      rw [hf.advanceBlock_eq hi (by omega), if_neg (by omega)] at hwithin
      have henter : f.filterEntries pre version p (fuel + 1) (16 * i) i passed last =
          f.filterEntries pre version p (fuel + 1) (16 * i) i (some i) last := by
        simp only [filterEntries, hmatch, not_true_eq_false, and_false, if_false]
      rw [henter, hwithin]
      dsimp only
      cases filterBlock pre version last (f.rawBlock i) with
      | mk rows out => cases out <;> rfl
    · have hne : passed ≠ some i := fun h => lt_irrefl i (hpassed i h)
      rw [if_pos hmatch, filterEntries, getElem?_eq_getElem hlt]
      dsimp only
      rw [if_pos ⟨hne, hmatch⟩]
      cases hnext : f.index[i + 1]? with
      | some entry =>
        have hend : f.blockEndOffset i = 16 * (i + 1) := by
          rw [blockEndOffset, hnext]
          exact (hf.index_get _ _ hnext).1
        rw [hend]
        exact ih fuel passed none (by omega) fun j hj => Nat.lt_succ_of_lt (hpassed j hj)
      | none =>
        have hend : f.blockEndOffset i = f.data.length := by
          rw [blockEndOffset, hnext]
          rfl
        rw [hend, blocksFrom_of_le (List.getElem?_eq_none_iff.mp hnext), filterBlocks]
        cases fuel with
        | zero => rfl
        | succ fuel => simp only [filterEntries, List.getElem?_eq_none_iff.mpr le_rfl]

theorem WellFormed.scanPrefixFiltered_eq (hf : f.WellFormed env) (p : FieldPredicate) :
    f.scanPrefixFiltered pre version p =
      (f.runs p (f.blocksFrom (seekBlock f.index (.seek pre)))).flatMap
        (collect pre pre version none) := by
  rw [← hf.filterBlocks_blocksFrom]
  unfold scanPrefixFiltered
  cases hv : f.version with
  | compressed =>
    rw [scanPrefixFilteredV6, hf.blocksFrom_start]
  | uncompressed =>
    dsimp only
    by_cases hne : f.index = []
    · have hdata : f.data = [] := by
        have := hf.index_length
        rw [hne, length_nil] at this
        exact length_eq_zero_iff.mp (by omega)
      rw [blocksFrom_of_le (by simp [hne]), hdata]
      rfl
    · rw [hf.prefixStartOffset_eq hne, hf.blockIdxForOffset_eq (seekBlock_lt hne _)]
      exact hf.filterEntries_eq hv p _ _ none none (by omega) nofun

end

end SstFile

end

section

variable [ByteLen V] {env : StorageEnv V} {pre : Bytes} {version : UInt64} {p : FieldPredicate}

namespace Layer

def scanPrefixFiltered (pre : Bytes) (version : UInt64) (p : FieldPredicate) :
    Layer V → List (Bytes × MemValue V)
  | memtable m => m.scanPrefix pre version
  | sst f => f.scanPrefixFiltered pre version p

def keptRuns (pre : Bytes) (p : FieldPredicate) : Layer V → List (List (Entry V))
  | memtable m => [(memtable m).walk pre]
  | sst f => f.runs p (f.blocksFrom (SstFile.seekBlock f.index (.seek pre)))

/-- What the filtered scan keeps of a key: the newest visible entry of the last run that has
one. -/
def Keeps (pre : Bytes) (version : UInt64) (p : FieldPredicate) (k : Bytes) (value : MemValue V)
    (layer : Layer V) : Prop :=
  FirstHit (fun run => ∀ u, ¬ Row (layer.lower pre) pre version run k u)
    (fun run => Row (layer.lower pre) pre version run k value) (layer.keptRuns pre p).reverse

def Misses (pre : Bytes) (version : UInt64) (p : FieldPredicate) (k : Bytes) (layer : Layer V) :
    Prop :=
  ∀ run ∈ layer.keptRuns pre p, ∀ u, ¬ Row (layer.lower pre) pre version run k u

variable {layer : Layer V}

theorem scanPrefixFiltered_eq (hwf : layer.WellFormed env) :
    layer.scanPrefixFiltered pre version p =
      (layer.keptRuns pre p).flatMap (collect (layer.lower pre) pre version none) := by
  cases layer with
  | memtable m => simp [scanPrefixFiltered, keptRuns, lower, walk, MemTable.scanPrefix]
  | sst f => exact hwf.scanPrefixFiltered_eq p

theorem sublist_of_mem_keptRuns (hwf : layer.WellFormed env) {run : List (Entry V)}
    (hrun : run ∈ layer.keptRuns pre p) : run.Sublist layer.entries := by
  cases layer with
  | memtable m =>
    rw [keptRuns, mem_singleton] at hrun
    rw [hrun]
    exact walk_sublist hwf pre
  | sst f =>
    have hsub := (hwf.runs_sublist p (SstFile.seekBlock f.index (.seek pre))).trans
      (drop_sublist _ _)
    exact (sublist_flatten_of_mem hrun).trans hsub

omit [ByteLen V] in
theorem sorted_entries (hwf : layer.WellFormed env) :
    layer.entries.Pairwise fun a b => a.1 < b.1 := by
  cases layer with
  | memtable m => exact m.sorted
  | sst f => exact hwf.sorted

theorem lastWrite_collect_run (hwf : layer.WellFormed env) (hlen : KeyOrdered pre layer.entries)
    {run : List (Entry V)} (hrun : run ∈ layer.keptRuns pre p) {k : Bytes} {value : MemValue V} :
    lastWrite (collect (layer.lower pre) pre version none run) k = some value ↔
      Row (layer.lower pre) pre version run k value := by
  have hsub := sublist_of_mem_keptRuns hwf hrun
  have hs := (sorted_entries hwf).sublist hsub
  have hlen' := hlen.mono fun e he => hsub.subset he
  have hempty : ∀ l ∈ (none : Option Bytes), ∀ e ∈ run, pre <+: e.1.userKey →
      ¬ e.1.userKey < l := nofun
  rw [lastWrite_eq_some (sorted_collect hs hlen' none), mem_collect hs hlen' hempty]
  exact and_iff_right nofun

theorem lastWrite_filtered_eq_some (hwf : layer.WellFormed env)
    (hlen : KeyOrdered pre layer.entries) {k : Bytes} {value : MemValue V} :
    lastWrite (layer.scanPrefixFiltered pre version p) k = some value ↔
      layer.Keeps pre version p k value := by
  rw [scanPrefixFiltered_eq hwf, lastWrite_flatMap, findSome?_eq_some_iff]
  apply firstHit_congr
  · intro run hrun
    rw [eq_none_iff_forall_not_mem]
    exact forall_congr' fun u =>
      not_congr (lastWrite_collect_run hwf hlen (mem_reverse.mp hrun))
  · intro run hrun
    exact lastWrite_collect_run hwf hlen (mem_reverse.mp hrun)

theorem lastWrite_filtered_eq_none (hwf : layer.WellFormed env)
    (hlen : KeyOrdered pre layer.entries) {k : Bytes} :
    lastWrite (layer.scanPrefixFiltered pre version p) k = none ↔
      layer.Misses pre version p k := by
  rw [scanPrefixFiltered_eq hwf, lastWrite_flatMap, findSome?_eq_none_iff]
  simp only [mem_reverse]
  refine forall_congr' fun run => imp_congr_right fun hrun => ?_
  rw [eq_none_iff_forall_not_mem]
  exact forall_congr' fun u => not_congr (lastWrite_collect_run hwf hlen hrun)

end Layer

namespace LsmTree

variable {tree : LsmTree V}

theorem mem_scanPrefixFilteredAt {k : Bytes} {value : V} :
    (k, value) ∈ tree.scanPrefixFilteredAt version pre p ↔
      topRow (tree.allLayers.map (Layer.scanPrefixFiltered pre version p)) k =
        some (some value) := by
  rw [scanPrefixFilteredAt, mem_mergeLayers, map_allLayers]
  simp [Layer.scanPrefixFiltered]

theorem topRow_filtered_iff (hw : tree.Written env)
    (hlen : ∀ layer ∈ tree.allLayers, KeyOrdered pre layer.entries) {k : Bytes}
    {value : MemValue V} :
    topRow (tree.allLayers.map (Layer.scanPrefixFiltered pre version p)) k = some value ↔
      FirstHit (Layer.Misses pre version p k) (Layer.Keeps pre version p k value)
        tree.allLayers := by
  rw [topRow, findSome?_map, findSome?_eq_some_iff]
  apply firstHit_congr
  · exact fun layer hl => Layer.lastWrite_filtered_eq_none (wellFormed_allLayers hw hl) (hlen layer hl)
  · exact fun layer hl => Layer.lastWrite_filtered_eq_some (wellFormed_allLayers hw hl) (hlen layer hl)

end LsmTree

end

section

variable [ByteLen V]

def matchesRow (extract : Bytes → V → List (UInt32 × UInt64)) (p : FieldPredicate)
    (row : Bytes × V) : Bool :=
  (extract row.1 row.2).any fun field =>
    field.1 == p.fieldId && p.op.holds field.2 p.target

def MatchesVersion (extract : Bytes → V → List (UInt32 × UInt64)) (p : FieldPredicate) (k : Bytes)
    (u : MemValue V) : Prop := ∃ value, u = some value ∧ matchesRow extract p (k, value) = true

/-- Skipped blocks hide nothing that matters: the version the filtered walk keeps of a key and
the key's newest visible version agree when either satisfies the predicate, and the plain scan
reaches the key as well. -/
structure PruningSafe (extract : Bytes → V → List (UInt32 × UInt64)) (pre : Bytes)
    (version : UInt64) (p : FieldPredicate) (layers : List (Layer V)) : Prop where
  agree : ∀ k u w, FirstHit (Layer.Misses pre version p k) (Layer.Keeps pre version p k u) layers →
    FirstHit (Layer.Silent pre version k) (Layer.Shows pre version k w) layers →
    MatchesVersion extract p k u ∨ MatchesVersion extract p k w → u = w
  reached : ∀ k u, FirstHit (Layer.Misses pre version p k) (Layer.Keeps pre version p k u) layers →
    MatchesVersion extract p k u →
    ∃ w, FirstHit (Layer.Silent pre version k) (Layer.Shows pre version k w) layers

/-- The same of any test, and of what `look` takes from a value. -/
structure HidesNothing {β : Type} (look : V → β) (test : Bytes → β → Bool) (pre : Bytes)
    (version : UInt64) (p : FieldPredicate) (layers : List (Layer V)) : Prop where
  agree : ∀ k (u w : MemValue V),
    FirstHit (Layer.Misses pre version p k) (Layer.Keeps pre version p k u) layers →
    FirstHit (Layer.Silent pre version k) (Layer.Shows pre version k w) layers →
    (u.map look).any (test k) = true ∨ (w.map look).any (test k) = true → u.map look = w.map look
  reached : ∀ k (u : MemValue V),
    FirstHit (Layer.Misses pre version p k) (Layer.Keeps pre version p k u) layers →
    (u.map look).any (test k) = true →
    ∃ w, FirstHit (Layer.Silent pre version k) (Layer.Shows pre version k w) layers

omit [ByteLen V] in
theorem matchesVersion_iff {extract : Bytes → V → List (UInt32 × UInt64)} {p : FieldPredicate}
    {k : Bytes} {u : MemValue V} : MatchesVersion extract p k u ↔
      (u.map id).any (fun value => matchesRow extract p (k, value)) = true := by
  rw [Option.map_id, id, Option.any_eq_true]
  rfl

theorem pruningSafe_iff {extract : Bytes → V → List (UInt32 × UInt64)} {pre : Bytes}
    {version : UInt64} {p : FieldPredicate} {layers : List (Layer V)} :
    PruningSafe extract pre version p layers ↔
      HidesNothing id (fun k value => matchesRow extract p (k, value)) pre version p layers := by
  constructor
  · intro h
    refine ⟨fun k u w hu hw hm => ?_, fun k u hu hm => h.reached k u hu (matchesVersion_iff.mpr hm)⟩
    rw [h.agree k u w hu hw (hm.imp matchesVersion_iff.mpr matchesVersion_iff.mpr)]
  · intro h
    refine ⟨fun k u w hu hw hm => ?_, fun k u hu hm => h.reached k u hu (matchesVersion_iff.mp hm)⟩
    have heq := h.agree k u w hu hw (hm.imp matchesVersion_iff.mp matchesVersion_iff.mp)
    rwa [Option.map_id] at heq

variable {env : StorageEnv V} {extract : Bytes → V → List (UInt32 × UInt64)} {p : FieldPredicate}
  {pre : Bytes} {version : UInt64}

variable {f : SstFile V} {e : Entry V}

omit [ByteLen V] in
theorem SstFile.exists_getElem?_of_mem_rawBlock {i : Nat} (he : e ∈ f.rawBlock i) :
    ∃ j, f.data[j]? = some e ∧ j / 16 = i := by
  obtain ⟨m, hm⟩ := mem_iff_getElem?.mp he
  have hlt : m < 16 := by
    have hlt := (List.getElem?_eq_some_iff.mp hm).1
    rw [SstFile.rawBlock, length_take] at hlt
    omega
  rw [SstFile.rawBlock, getElem?_take_of_lt hlt, getElem?_drop] at hm
  exact ⟨16 * i + m, hm, by omega⟩

omit [ByteLen V] in
theorem SstFile.WellFormed.blockCouldMatch_of_mem (hf : f.WellFormed env)
    (henv : env.zoneExtractor = some fun ik => extract ik.userKey) {value : V}
    (hvalue : e.2 = some value) (hmatch : matchesRow extract p (e.1.userKey, value) = true)
    {i : Nat} (he : e ∈ f.rawBlock i) : f.zoneMap.blockCouldMatch i p = true := by
  obtain ⟨j, hj, hji⟩ := exists_getElem?_of_mem_rawBlock he
  obtain ⟨field, hfield, hop⟩ := any_eq_true.mp hmatch
  rw [Bool.and_eq_true, beq_iff_eq] at hop
  have hcovers := hf.zone _ henv j e value hj hvalue field hfield
  rw [hji] at hcovers
  have hcovers' : f.zoneMap.Covers i (p.fieldId, field.2) := by rwa [← hop.1]
  exact ZoneMap.blockCouldMatch_of_covers hcovers' hop.2

theorem SstFile.WellFormed.mem_runs (hf : f.WellFormed env)
    (henv : env.zoneExtractor = some fun ik => extract ik.userKey) {value : V}
    (hvalue : e.2 = some value) (hmatch : matchesRow extract p (e.1.userKey, value) = true)
    (i : Nat) : e ∈ f.iterFrom i → e ∈ (f.runs p (f.blocksFrom i)).flatten := by
  refine block_induction (f := f)
    (P := fun i => e ∈ f.iterFrom i → e ∈ (f.runs p (f.blocksFrom i)).flatten) ?_ ?_ i
  · intro i hi he
    rw [iterFrom, blocksFrom_of_le hi] at he
    cases he
  · intro i hi ih he
    rw [iterFrom, blocksFrom_of_lt hi, iterBlocks, hf.block_eq hi] at he
    rw [blocksFrom_of_lt hi, runs, hf.block_eq hi]
    by_cases hbig : f.version = .compressed ∧ maxBlockUncompLen < blockLen (f.rawBlock i)
    · rw [if_pos hbig] at he
      cases he
    · rw [if_neg hbig] at he ⊢
      by_cases hpass : f.zoneMap.blockCouldMatch i p = true
      · rw [if_neg (not_not.mpr hpass), flatten_cons, append_assoc, ← flatten_cons,
          headD_cons_tail_runs, mem_append]
        exact (mem_append.mp he).imp_right ih
      · rw [if_pos hpass, flatten_cons, nil_append]
        rcases mem_append.mp he with he | he
        · exact absurd (hf.blockCouldMatch_of_mem henv hvalue hmatch he) hpass
        · exact ih he

theorem Layer.not_misses {layer : Layer V} (hwf : layer.WellFormed env)
    (henv : env.zoneExtractor = some fun ik => extract ik.userKey) {k : Bytes} {value : V}
    (hmatch : matchesRow extract p (k, value) = true)
    (hshows : layer.Shows pre version k (some value)) : ¬ layer.Misses pre version p k := by
  intro hmiss
  cases layer with
  | memtable m => exact hmiss _ (mem_singleton_self _) _ hshows
  | sst f =>
    obtain ⟨hpre, hlow, e, he, hvalue, -⟩ := hshows
    have hmem := hwf.mem_runs henv hvalue (he.userKey_eq ▸ hmatch) _ he.mem
    obtain ⟨run, hrun, hin⟩ := mem_flatten.mp hmem
    have hs := (sorted_entries hwf).sublist (sublist_of_mem_keptRuns hwf hrun)
    cases hnew : newest run k version with
    | none => exact newest_eq_none.mp hnew e hin he.userKey_eq he.version_le
    | some x =>
      refine hmiss run hrun x.2 ((@row_iff V pre k pre version x.2 ⟨run, hs⟩ prefix_rfl).mpr
        ⟨hpre, hlow, ?_⟩)
      rw [readNewest, hnew]
      rfl

theorem hidesNothing_iff {β : Type} {look : V → β} {test : Bytes → β → Bool}
    (henv : env.zoneExtractor = some fun ik => extract ik.userKey) {tree : LsmTree V}
    (hw : tree.Written env) {len : Nat}
    (hlen : ∀ layer ∈ tree.layers, ∀ e ∈ layer, pre <+: e.1.userKey → e.1.userKey.length = len)
    (htest : ∀ k value, pre <+: k → test k (look value) = true →
      matchesRow extract p (k, value) = true) :
    (∀ k b, test k b = true →
      ((∃ value, (k, value) ∈ tree.scanPrefixFilteredAt version pre p ∧ look value = b) ↔
        ∃ value, (k, value) ∈ tree.scanPrefixAt version pre ∧ look value = b)) ↔
      HidesNothing look test pre version p tree.allLayers := by
  have hone := fun layer h => (tree.oneLength_allLayers hlen layer h).keyOrdered
  have hkept := fun {k u} => @LsmTree.topRow_filtered_iff V _ env pre version p tree hw hone k u
  have hshown := fun {k u} => @LsmTree.topRow_scanPrefix_iff V pre k _ version tree env hw hone u
  simp only [LsmTree.mem_scanPrefixFilteredAt, LsmTree.mem_scanPrefixAt]
  constructor
  · intro h
    constructor
    · intro k u w hu hw' hm
      rcases hm with hm | hm
      · obtain ⟨b, hb, hm⟩ := (Option.any_eq_true _ _).mp hm
        obtain ⟨value, rfl, rfl⟩ := Option.map_eq_some_iff.mp hb
        obtain ⟨value', hshow, heq⟩ := (h k _ hm).mp ⟨value, hkept.mpr hu, rfl⟩
        rw [hshown.mpr hw'] at hshow
        rw [Option.some.inj hshow, Option.map_some, Option.map_some, heq]
      · obtain ⟨b, hb, hm⟩ := (Option.any_eq_true _ _).mp hm
        obtain ⟨value, rfl, rfl⟩ := Option.map_eq_some_iff.mp hb
        obtain ⟨value', hkeep, heq⟩ := (h k _ hm).mpr ⟨value, hshown.mpr hw', rfl⟩
        rw [hkept.mpr hu] at hkeep
        rw [Option.some.inj hkeep, Option.map_some, Option.map_some, heq]
    · intro k u hu hm
      obtain ⟨b, hb, hm⟩ := (Option.any_eq_true _ _).mp hm
      obtain ⟨value, rfl, rfl⟩ := Option.map_eq_some_iff.mp hb
      obtain ⟨value', hshow, -⟩ := (h k _ hm).mp ⟨value, hkept.mpr hu, rfl⟩
      exact ⟨some value', hshown.mp hshow⟩
  · rintro hsafe k b hm
    constructor
    · rintro ⟨value, hk, rfl⟩
      obtain ⟨w, hw'⟩ := hsafe.reached k _ (hkept.mp hk) hm
      obtain ⟨value', rfl, heq⟩ :=
        Option.map_eq_some_iff.mp (hsafe.agree k _ w (hkept.mp hk) hw' (.inl hm)).symm
      exact ⟨value', hshown.mpr hw', heq⟩
    · rintro ⟨value, hs, rfl⟩
      -- the matching newest version is in a run, so something is kept
      obtain ⟨u, hu⟩ : ∃ u, topRow (tree.allLayers.map
          (Layer.scanPrefixFiltered pre version p)) k = some u := by
        obtain ⟨layer, hlayer, hshows⟩ := (hshown.mp hs).exists_mem
        have hwf := LsmTree.wellFormed_allLayers hw hlayer
        refine ne_none_iff_exists'.mp fun hnone => ?_
        rw [topRow, findSome?_map, findSome?_eq_none_iff] at hnone
        exact Layer.not_misses hwf henv (htest k value hshows.1 hm) hshows
          ((Layer.lastWrite_filtered_eq_none hwf (hone layer hlayer)).mp (hnone layer hlayer))
      obtain ⟨value', rfl, heq⟩ := Option.map_eq_some_iff.mp
        (hsafe.agree k u _ (hkept.mp hu) (hshown.mp hs) (.inr hm))
      exact ⟨value', hu, heq⟩

/-- Keeping from the filtered scan the rows that satisfy the predicate gives the rows of the
plain scan that satisfy it exactly when the skipped blocks hide nothing that matters. -/
theorem filtered_scan_exact_iff (env : StorageEnv V) (extract : Bytes → V → List (UInt32 × UInt64))
    (henv : env.zoneExtractor = some fun ik => extract ik.userKey) (tree : LsmTree V)
    (hw : tree.Written env) (version : UInt64) (pre : Bytes) (p : FieldPredicate) (len : Nat)
    (hlen : ∀ layer ∈ tree.layers, ∀ e ∈ layer, pre <+: e.1.userKey → e.1.userKey.length = len) :
    (tree.scanPrefixFilteredAt version pre p).filter (matchesRow extract p) =
        (tree.scanPrefixAt version pre).filter (matchesRow extract p) ↔
      PruningSafe extract pre version p tree.allLayers := by
  rw [pruningSafe_iff, ← hidesNothing_iff henv hw hlen fun _ _ _ => id]
  simp only [id, exists_eq_right]
  constructor
  · intro heq k value hm
    have hmem : (k, value) ∈ (tree.scanPrefixFilteredAt version pre p).filter (matchesRow extract p) ↔
        (k, value) ∈ (tree.scanPrefixAt version pre).filter (matchesRow extract p) := by rw [heq]
    simpa only [mem_filter, hm, and_true] using hmem
  · intro h
    apply SortedMap.entries_eq_of_mem_iff
    · exact (sorted_mergeLayers _).filter _
    · exact (sorted_mergeLayers _).filter _
    · rintro ⟨k, value⟩
      rw [mem_filter, mem_filter]
      exact and_congr_left fun hm => h k value hm

end

def firstByte (_ : Bytes) (value : Bytes) : List (UInt32 × UInt64) :=
  value.head?.toList.map fun b => (7, UInt64.ofNat b)

def firstByteEnv : StorageEnv Bytes := ⟨fun _ _ => 0, some fun ik => firstByte ik.userKey⟩

def sstOf (id : Nat) (m : MemTable Bytes) : SstReader Bytes :=
  { id, file := SstWriter.writeAll firstByteEnv .none m.entries, firstUserKey := none,
    lastUserKey := none }

def overwrittenTree : LsmTree Bytes :=
  { LsmTree.new .none with
    sstFiles := [sstOf 1 (MemTable.new.put [97] 1 [10]), sstOf 2 (MemTable.new.put [97] 2 [20])] }

theorem written_overwrittenTree : overwrittenTree.Written firstByteEnv := by
  intro sst hsst
  simp only [overwrittenTree, mem_cons, not_mem_nil, or_false] at hsst
  rcases hsst with rfl | rfl
  · exact ⟨.none, _, rfl⟩
  · exact ⟨.none, _, rfl⟩

theorem length_overwrittenTree : ∀ layer ∈ overwrittenTree.layers, ∀ e ∈ layer,
    ([] : Bytes) <+: e.1.userKey → e.1.userKey.length = 1 := by decide

theorem pruned_overwrite_surfaces : ¬ ∀ (extract : Bytes → Bytes → List (UInt32 × UInt64))
    (env : StorageEnv Bytes), (env.zoneExtractor = some fun ik => extract ik.userKey) →
    ∀ (tree : LsmTree Bytes), tree.Written env →
    ∀ (version : UInt64) (pre : Bytes) (p : FieldPredicate) (len : Nat),
    (∀ layer ∈ tree.layers, ∀ e ∈ layer, pre <+: e.1.userKey → e.1.userKey.length = len) →
    (tree.scanPrefixFilteredAt version pre p).filter (matchesRow extract p) =
      (tree.scanPrefixAt version pre).filter (matchesRow extract p) := by
  intro h
  have heq := h firstByte firstByteEnv rfl overwrittenTree written_overwrittenTree 2 []
    ⟨7, .eq, 10⟩ 1 length_overwrittenTree
  exact absurd heq (by decide)

theorem filtered_scan_exact_overwrittenTree :
    (overwrittenTree.scanPrefixFilteredAt 2 [] ⟨7, .gt, 5⟩).filter
    (matchesRow firstByte ⟨7, .gt, 5⟩) =
        (overwrittenTree.scanPrefixAt 2 []).filter (matchesRow firstByte ⟨7, .gt, 5⟩) ↔
      PruningSafe firstByte [] 2 ⟨7, .gt, 5⟩ overwrittenTree.allLayers :=
  filtered_scan_exact_iff firstByteEnv firstByte rfl overwrittenTree written_overwrittenTree 2 []
    ⟨7, .gt, 5⟩ 1 length_overwrittenTree

end RhypeDb.Storage
