import RhypeDb.Storage.LsmHistory

/-! What the prefix scans return. Under a prefix whose keys have one length the entries are
ordered by user key and then newest first, so keeping the first visible entry of each run of
one key gives every key's newest visible entry, in key order. -/

namespace RhypeDb.Storage

open ByteOrder Layered
open List hiding findSome?_eq_some_iff

variable {V : Type} {pre : Bytes}

def OneLength (pre : Bytes) (es : List (Entry V)) : Prop :=
  ∀ a ∈ es, ∀ b ∈ es, pre <+: a.1.userKey → pre <+: b.1.userKey →
    a.1.userKey.length = b.1.userKey.length

def KeyOrdered (pre : Bytes) (es : List (Entry V)) : Prop :=
  ∀ a ∈ es, ∀ b ∈ es, pre <+: a.1.userKey → pre <+: b.1.userKey → a.1 < b.1 →
    ¬ b.1.userKey < a.1.userKey

/-- Nothing before `e` stops a scan: what is not skipped extends the prefix. -/
def Reached (lower pre : Bytes) (es : List (Entry V)) (e : Entry V) : Prop :=
  ∀ b ∈ es, b.1 < e.1 → ¬ b.1.userKey < lower → pre <+: b.1.userKey

theorem KeyOrdered.mono {es es' : List (Entry V)} (h : KeyOrdered pre es)
    (hsub : ∀ e ∈ es', e ∈ es) : KeyOrdered pre es' :=
  fun a ha b hb => h a (hsub a ha) b (hsub b hb)

variable {es : List (Entry V)} {k : Bytes} {x : Entry V} {e : Entry V}

theorem KeyOrdered.cons (h : KeyOrdered pre (e :: es)) : KeyOrdered pre es :=
  h.mono fun _ => mem_cons_of_mem e

theorem not_userKey_lt {a b : InternalKey} (hlt : a < b)
    (hlen : a.userKey.length = b.userKey.length) : ¬ b.userKey < a.userKey := by
  intro h
  have hp : ¬ b.userKey <+: a.userKey := fun hp => ne_of_lt h (hp.eq_of_length hlen.symm)
  exact lt_asymm hlt (InternalKey.lt_of_diverge h hp b.version a.version)

theorem OneLength.keyOrdered (h : OneLength pre es) : KeyOrdered pre es :=
  fun a ha b hb hpa hpb hlt => not_userKey_lt hlt (h a ha b hb hpa hpb)

theorem keyOrdered_of_prefixFree (h : PrefixFree (userKeys es)) (pre : Bytes) : KeyOrdered pre es :=
  fun a ha b hb _ _ hlt hk => lt_asymm hlt (orderedByUserKey_of_prefixFree h b hb a ha hk)

theorem isNewest_cons {s : UInt64}
    (h : e.1.userKey ≠ k ∨ ¬ e.1.version ≤ s) : IsNewest (e :: es) k s x ↔ IsNewest es k s x := by
  have hnot : ¬ (e.1.userKey = k ∧ e.1.version ≤ s) := not_and_or.mpr h
  constructor
  · rintro ⟨hmem, hk, hv, hmax⟩
    refine ⟨?_, hk, hv, fun y hy => hmax y (mem_cons_of_mem e hy)⟩
    rcases mem_cons.mp hmem with rfl | hmem
    · exact absurd ⟨hk, hv⟩ hnot
    · exact hmem
  · rintro ⟨hmem, hk, hv, hmax⟩
    refine ⟨mem_cons_of_mem e hmem, hk, hv, ?_⟩
    rw [forall_mem_cons]
    exact ⟨fun hk' hv' => absurd ⟨hk', hv'⟩ hnot, hmax⟩

theorem isNewest_head {s : UInt64} (hs : (e :: es).Pairwise fun a b => a.1 < b.1)
    (hv : e.1.version ≤ s) : IsNewest (e :: es) e.1.userKey s e := by
  refine ⟨mem_cons_self, rfl, hv, ?_⟩
  rw [forall_mem_cons]
  refine ⟨fun _ _ => UInt64.le_refl _, fun y hy hk _ => ?_⟩
  exact UInt64.le_of_lt (lt_version_of_lt hk.symm ((pairwise_cons.mp hs).1 y hy))

theorem reached_cons {lower : Bytes} (h : e.1.userKey < lower ∨ pre <+: e.1.userKey) :
    Reached lower pre (e :: es) x ↔ Reached lower pre es x := by
  unfold Reached
  rw [forall_mem_cons]
  exact ⟨And.right, fun hes => ⟨fun _ hlow => h.elim (fun h => absurd h hlow) id, hes⟩⟩

section

variable {lower : Bytes} {version : UInt64} {value : MemValue V}

/-- A scan's row is a key's newest visible entry, unless the scan stops before it. -/
def Row (lower pre : Bytes) (version : UInt64) (es : List (Entry V)) (k : Bytes)
    (value : MemValue V) : Prop :=
  pre <+: k ∧ ¬ k < lower ∧
    ∃ e, IsNewest es k version e ∧ e.2 = value ∧ Reached lower pre es e

theorem row_cons (hskip : e.1.userKey < lower ∨ pre <+: e.1.userKey)
    (h : e.1.userKey < lower ∨ e.1.userKey ≠ k ∨ ¬ e.1.version ≤ version) :
    Row lower pre version (e :: es) k value ↔ Row lower pre version es k value := by
  have hne : ¬ k < lower → e.1.userKey ≠ k ∨ ¬ e.1.version ≤ version :=
    fun hk => h.elim (fun hlt => .inl fun heq => hk (heq ▸ hlt)) id
  refine and_congr_right fun _ => and_congr_right fun hk => exists_congr fun x => ?_
  rw [isNewest_cons (hne hk), reached_cons hskip]

theorem mem_collect (hs : es.Pairwise fun a b => a.1 < b.1)
    (horder : KeyOrdered pre es) {last : Option Bytes}
    (hlast : ∀ l ∈ last, ∀ e ∈ es, pre <+: e.1.userKey → ¬ e.1.userKey < l) :
    (k, value) ∈ collect lower pre version last es ↔
      last ≠ some k ∧ Row lower pre version es k value := by
  induction es generalizing last with
  | nil =>
    exact ⟨nofun, fun ⟨_, _, _, e, he, _⟩ => nomatch he.mem⟩
  | cons e es ih =>
    obtain ⟨hhead, htail⟩ := pairwise_cons.mp hs
    have hih := fun {last : Option Bytes} => @ih htail horder.cons last
    have hlast' : ∀ l ∈ last, ∀ x ∈ es, pre <+: x.1.userKey → ¬ x.1.userKey < l :=
      fun l hl x hx => hlast l hl x (mem_cons_of_mem e hx)
    rw [collect]
    split_ifs with hlow hpre hvis hsame
    · rw [hih hlast', row_cons (.inl hlow) (.inl hlow)]
    · rw [hih hlast', row_cons (.inr hpre) (.inr (.inr (UInt64.not_le.mpr hvis)))]
    · rw [hih hlast']
      refine and_congr_right fun hne => ?_
      rw [row_cons (.inr hpre) (.inr (.inl ?_))]
      rintro rfl
      exact hne hsame
    · have hvis := UInt64.not_lt.mp hvis
      have hafter : ∀ x ∈ es, pre <+: x.1.userKey → ¬ x.1.userKey < e.1.userKey :=
        fun x hx hp =>
          horder e mem_cons_self x (mem_cons_of_mem e hx) hpre hp (hhead x hx)
      rw [mem_cons, @hih (some e.1.userKey) (by rintro _ ⟨⟩; exact hafter)]
      by_cases hk : e.1.userKey = k
      · subst hk
        have hnew := isNewest_head hs hvis
        constructor
        · rintro (heq | ⟨hne, -⟩)
          · cases heq
            refine ⟨hsame, hpre, hlow, e, hnew, rfl, ?_⟩
            rw [Reached, forall_mem_cons]
            exact ⟨fun hlt => absurd hlt (lt_irrefl _), fun b hb hlt => absurd hlt (lt_asymm (hhead b hb))⟩
          · exact absurd rfl hne
        · rintro ⟨-, -, -, x, hx, rfl, -⟩
          have hex : e = x := by
            rw [← Option.some_inj, ← (newest_eq_some (m := ⟨e :: es, hs⟩)).mpr hnew,
              ← (newest_eq_some (m := ⟨e :: es, hs⟩)).mpr hx]
          exact .inl (hex ▸ rfl)
      · rw [row_cons (.inr hpre) (.inr (.inl hk))]
        constructor
        · rintro (heq | ⟨-, hrow⟩)
          · cases heq
            exact absurd rfl hk
          · refine ⟨?_, hrow⟩
            rintro rfl
            -- `k` would lie before the head it follows
            obtain ⟨hp, -, x, hx, -⟩ := hrow
            have hlt : ¬ x.1.userKey < e.1.userKey := hafter x hx.mem (hx.userKey_eq ▸ hp)
            have hle := hlast k rfl e mem_cons_self hpre
            rw [hx.userKey_eq] at hlt
            exact hk (le_antisymm (not_lt.mp hlt) (not_lt.mp hle))
        · rintro ⟨-, hrow⟩
          exact .inr ⟨fun h => hk (Option.some.inj h), hrow⟩
    · -- the scan stops here: later rows are not reached
      constructor
      · exact nofun
      · rintro ⟨-, hk, -, x, hx, -, hreach⟩
        rcases mem_cons.mp hx.mem with rfl | hmem
        · exact (hpre (hx.userKey_eq ▸ hk)).elim
        · exact (hpre (hreach e mem_cons_self (hhead x hmem) hlow)).elim

theorem sorted_collect (hs : es.Pairwise fun a b => a.1 < b.1)
    (horder : KeyOrdered pre es) (last : Option Bytes) :
    (collect lower pre version last es).Pairwise fun a b => a.1 < b.1 := by
  induction es generalizing last with
  | nil => exact List.Pairwise.nil
  | cons e es ih =>
    obtain ⟨hhead, htail⟩ := pairwise_cons.mp hs
    have hih := ih htail horder.cons
    rw [collect]
    split_ifs with hlow hpre hvis hsame
    · exact hih last
    · exact hih last
    · exact hih last
    · refine pairwise_cons.mpr ⟨?_, hih _⟩
      have hafter : ∀ x ∈ es, pre <+: x.1.userKey → ¬ x.1.userKey < e.1.userKey :=
        fun x hx hp =>
          horder e mem_cons_self x (mem_cons_of_mem e hx) hpre hp (hhead x hx)
      rintro ⟨k, value⟩ hrow
      obtain ⟨hne, hp, -, x, hx, -⟩ :=
        (mem_collect htail horder.cons (by rintro _ ⟨⟩; exact hafter)).mp hrow
      have hle := hafter x hx.mem (hx.userKey_eq ▸ hp)
      rw [hx.userKey_eq] at hle
      exact lt_of_le_of_ne (not_lt.mp hle) fun heq => hne (congrArg some heq)
    · exact List.Pairwise.nil

theorem row_append {front : List (Entry V)} (hfront : ∀ e ∈ front, e.1.userKey < lower) :
    Row lower pre version (front ++ es) k value ↔ Row lower pre version es k value := by
  induction front with
  | nil => rfl
  | cons e front ih =>
    rw [forall_mem_cons] at hfront
    rw [cons_append, row_cons (.inl hfront.1) (.inl hfront.1), ih hfront.2]

theorem reached_of_prefix (hlower : pre <+: lower)
    (he : pre <+: e.1.userKey) : Reached lower pre es e := by
  intro b _ hlt hlow
  by_contra hp
  have hle : ¬ b.1.userKey < pre := fun h => hlow (lt_of_lt_of_le h (le_of_isPrefix hlower))
  have hne : pre ≠ b.1.userKey := fun h => hp (h ▸ prefix_rfl)
  obtain ⟨y, hy⟩ := he
  refine lt_asymm hlt ?_
  rw [InternalKey.lt_def, InternalKey.asBytes, InternalKey.asBytes, ← hy, append_assoc]
  exact append_lt_append (lt_of_le_of_ne (not_lt.mp hle) hne) hp _ _

theorem row_iff {m : MemTable V} (hlower : pre <+: lower) :
    Row lower pre version m.entries k value ↔
      pre <+: k ∧ ¬ k < lower ∧ readNewest m.entries k version = some value := by
  refine and_congr_right fun hk => and_congr_right fun _ => ?_
  rw [readNewest, Option.map_eq_some_iff]
  refine exists_congr fun e => ?_
  rw [newest_eq_some]
  constructor
  · rintro ⟨he, hv, -⟩
    exact ⟨he, hv⟩
  · rintro ⟨he, hv⟩
    exact ⟨he, hv, reached_of_prefix hlower (he.userKey_eq ▸ hk)⟩

end

theorem lookup_insertAll (m : SortedMap Bytes (MemValue V)) (rows : List (Bytes × MemValue V))
    (k : Bytes) : (m.insertAll rows).lookup k = (lastWrite rows k).or (m.lookup k) := by
  induction rows using List.reverseRecOn with
  | nil => rfl
  | append_singleton rows row ih =>
    rw [SortedMap.insertAll, foldl_append, foldl_cons, foldl_nil,
      SortedMap.lookup_insert, lastWrite_concat]
    by_cases h : row.1 = k
    · rw [if_pos h, if_pos h.symm, Option.some_or]
    · rw [if_neg h, if_neg (Ne.symm h)]
      exact ih

def topRow (layers : List (List (Bytes × MemValue V))) (k : Bytes) : Option (MemValue V) :=
  layers.findSome? fun rows => lastWrite rows k

theorem lookup_foldl_insertAll (layers : List (List (Bytes × MemValue V))) (k : Bytes) :
    (layers.foldl SortedMap.insertAll (SortedMap.empty : SortedMap Bytes (MemValue V))).lookup k =
      topRow layers.reverse k := by
  induction layers using List.reverseRecOn with
  | nil => rfl
  | append_singleton layers rows ih =>
    rw [foldl_append, foldl_cons, foldl_nil, lookup_insertAll, ih,
      reverse_append, topRow, topRow, reverse_singleton, singleton_append,
      findSome?_cons]
    cases lastWrite rows k <;> rfl

def liveRows (rows : List (Bytes × MemValue V)) : List (Bytes × V) :=
  rows.filterMap fun row => row.2.map fun value => (row.1, value)

theorem mem_liveRows {m : SortedMap Bytes (MemValue V)} {value : V} :
    (k, value) ∈ liveRows m.entries ↔ (k, some value) ∈ m.entries := by
  unfold liveRows
  rw [mem_filterMap]
  constructor
  · rintro ⟨⟨k', _ | value'⟩, hmem, hrow⟩
    · cases hrow
    · cases hrow
      exact hmem
  · intro hmem
    exact ⟨(k, some value), hmem, rfl⟩

theorem sorted_liveRows (m : SortedMap Bytes (MemValue V)) :
    (liveRows m.entries).Pairwise fun a b => a.1 < b.1 := by
  refine pairwise_filterMap.mpr (m.sorted.imp ?_)
  rintro ⟨k, _ | value⟩ ⟨k', _ | value'⟩ hlt
  · nofun
  · nofun
  · nofun
  · rintro _ ⟨⟩ _ ⟨⟩
    exact hlt

theorem mem_mergeLayers {layers : List (List (Bytes × MemValue V))} {value : V} :
    (k, value) ∈ LsmTree.mergeLayers layers ↔ topRow layers.reverse k = some (some value) := by
  rw [← lookup_foldl_insertAll, SortedMap.lookup_eq_some]
  exact mem_liveRows

theorem sorted_mergeLayers (layers : List (List (Bytes × MemValue V))) :
    (LsmTree.mergeLayers layers).Pairwise fun a b => a.1 < b.1 := sorted_liveRows _

theorem lastWrite_eq_some {rows : List (Bytes × MemValue V)}
    (hs : rows.Pairwise fun a b => a.1 < b.1) {value : MemValue V} :
    lastWrite rows k = some value ↔ (k, value) ∈ rows := by
  induction rows using List.reverseRecOn with
  | nil => simp
  | append_singleton rows row ih =>
    obtain ⟨hrows, -, hlast⟩ := pairwise_append.mp hs
    rw [lastWrite_concat, mem_append, mem_singleton]
    by_cases h : row.1 = k
    · subst h
      rw [if_pos rfl, Option.some_inj]
      constructor
      · rintro rfl
        exact .inr rfl
      · rintro (hmem | heq)
        · exact absurd (hlast _ hmem row (mem_singleton_self row)) (lt_irrefl _)
        · rw [← heq]
    · rw [if_neg h, ih hrows]
      exact ⟨.inl, fun h' => h'.elim id fun heq => absurd (congrArg Prod.fst heq).symm h⟩

inductive Layer (V : Type)
  | memtable (m : MemTable V)
  | sst (f : SstFile V)

namespace LsmTree

def allLayers (tree : LsmTree V) : List (Layer V) :=
  .memtable tree.activeMemtable :: (tree.immutableMemtables.reverse.map .memtable ++
    tree.sstFiles.reverse.map fun sst => .sst sst.file)

def Written (env : StorageEnv V) (tree : LsmTree V) : Prop :=
  ∀ sst ∈ tree.sstFiles, ∃ c, ∃ m : MemTable V, sst.file = SstWriter.writeAll env c m.entries

end LsmTree

namespace Layer

variable [ByteLen V] {env : StorageEnv V} {layer : Layer V}

def scanPrefix (pre : Bytes) (version : UInt64) : Layer V → List (Bytes × MemValue V)
  | memtable m => m.scanPrefix pre version
  | sst f => f.scanPrefix pre version

def scanPrefixMax (pre : Bytes) (version : UInt64) (maxDistinct : Nat) :
    Layer V → List (Bytes × MemValue V)
  | memtable m => m.scanPrefixMax pre version maxDistinct
  | sst f => f.scanPrefixMax pre version maxDistinct

def scanFromMax (pre start : Bytes) (version : UInt64) (maxDistinct : Nat) :
    Layer V → List (Bytes × MemValue V)
  | memtable m => m.scanFromMax pre start version maxDistinct
  | sst f => f.scanFromMax pre start version maxDistinct

/-- The entries a scan of the layer walks from a user key on. An SST block over the reader's
cap ends the walk. -/
def walk (start : Bytes) : Layer V → List (Entry V)
  | memtable m => m.range (.seek start)
  | sst f => f.iterFrom (SstFile.seekBlock f.index (.seek start))

def lower (pre : Bytes) : Layer V → Bytes
  | memtable _ => []
  | sst _ => pre

def entries : Layer V → List (Entry V)
  | memtable m => m.entries
  | sst f => f.data

def WellFormed (env : StorageEnv V) : Layer V → Prop
  | memtable _ => True
  | sst f => f.WellFormed env

theorem scanPrefix_eq (pre : Bytes) (version : UInt64) (layer : Layer V) :
    layer.scanPrefix pre version = collect (layer.lower pre) pre version none (layer.walk pre) := by
  cases layer <;> rfl

theorem scanPrefixMax_eq (pre : Bytes) (version : UInt64) (n : Nat) (layer : Layer V) :
    layer.scanPrefixMax pre version n = (layer.scanPrefix pre version).take n := by
  cases layer <;> rfl

theorem scanFromMax_eq {pre start : Bytes} (hstart : pre <+: start) (version : UInt64) (n : Nat)
    (layer : Layer V) : layer.scanFromMax pre start version n =
      (collect start pre version none (layer.walk start)).take n := by
  cases layer with
  | memtable m => rw [scanFromMax, MemTable.scanFromMax, if_neg (not_not.mpr hstart)]; rfl
  | sst f => rw [scanFromMax, SstFile.scanFromMax, if_neg (not_not.mpr hstart)]; rfl

theorem walk_sublist (hwf : layer.WellFormed env)
    (start : Bytes) : (layer.walk start).Sublist layer.entries := by
  cases layer with
  | memtable m => exact dropWhile_sublist _
  | sst f => exact (hwf.iterFrom_isPrefix _).sublist.trans (drop_sublist _ _)

theorem sorted_walk (hwf : layer.WellFormed env)
    (start : Bytes) : (layer.walk start).Pairwise fun a b => a.1 < b.1 := by
  refine List.Pairwise.sublist (walk_sublist hwf start) ?_
  cases layer with
  | memtable m => exact m.sorted
  | sst f => exact hwf.sorted

def Shows (pre : Bytes) (version : UInt64) (k : Bytes) (value : MemValue V) (layer : Layer V) :
    Prop := Row (layer.lower pre) pre version (layer.walk pre) k value

def Silent (pre : Bytes) (version : UInt64) (k : Bytes) (layer : Layer V) : Prop :=
  ∀ value, ¬ layer.Shows pre version k value

section

theorem sorted_scanPrefix (hwf : layer.WellFormed env) (horder : KeyOrdered pre layer.entries)
    (version : UInt64) : (layer.scanPrefix pre version).Pairwise fun a b => a.1 < b.1 := by
  rw [scanPrefix_eq]
  exact sorted_collect (sorted_walk hwf pre) (horder.mono fun e he => (walk_sublist hwf pre).subset he) none

variable {version : UInt64} {value : MemValue V}

theorem mem_scanPrefix (hwf : layer.WellFormed env) (horder : KeyOrdered pre layer.entries) :
    (k, value) ∈ layer.scanPrefix pre version ↔ layer.Shows pre version k value := by
  have hempty : ∀ l ∈ (none : Option Bytes), ∀ e ∈ layer.walk pre, pre <+: e.1.userKey →
      ¬ e.1.userKey < l := nofun
  rw [scanPrefix_eq, mem_collect (sorted_walk hwf pre)
    (horder.mono fun e he => (walk_sublist hwf pre).subset he) hempty]
  exact and_iff_right nofun

theorem lastWrite_scanPrefix_eq_some (hwf : layer.WellFormed env)
    (horder : KeyOrdered pre layer.entries) :
    lastWrite (layer.scanPrefix pre version) k = some value ↔ layer.Shows pre version k value := by
  rw [lastWrite_eq_some (sorted_scanPrefix hwf horder version), mem_scanPrefix hwf horder]

theorem lastWrite_scanPrefix_eq_none (hwf : layer.WellFormed env)
    (horder : KeyOrdered pre layer.entries) :
    lastWrite (layer.scanPrefix pre version) k = none ↔ layer.Silent pre version k := by
  rw [Option.eq_none_iff_forall_not_mem]
  exact forall_congr' fun value => not_congr (lastWrite_scanPrefix_eq_some hwf horder)

end

end Layer

namespace LsmTree

variable [ByteLen V] {layer : Layer V}

omit [ByteLen V] in
theorem map_allLayers {β : Type*} (tree : LsmTree V) (f : Layer V → β) :
    tree.allLayers.map f = f (.memtable tree.activeMemtable) ::
      (tree.immutableMemtables.reverse.map (fun m => f (.memtable m)) ++
        tree.sstFiles.reverse.map fun sst => f (.sst sst.file)) := by
  simp [allLayers, Function.comp_def]

omit [ByteLen V] in
theorem entries_allLayers (tree : LsmTree V) : tree.allLayers.map Layer.entries = tree.layers :=
  tree.map_allLayers Layer.entries

omit [ByteLen V] in
theorem entries_mem_layers (tree : LsmTree V) (hlayer : layer ∈ tree.allLayers) :
    layer.entries ∈ tree.layers := by
  rw [← tree.entries_allLayers]
  exact mem_map_of_mem hlayer

omit [ByteLen V] in
theorem oneLength_allLayers (tree : LsmTree V) {len : Nat}
    (hlen : ∀ layer ∈ tree.layers, ∀ e ∈ layer, pre <+: e.1.userKey → e.1.userKey.length = len)
    (layer : Layer V) (hlayer : layer ∈ tree.allLayers) : OneLength pre layer.entries := by
  have hmem := tree.entries_mem_layers hlayer
  intro a ha b hb hpa hpb
  rw [hlen _ hmem a ha hpa, hlen _ hmem b hb hpb]

variable {version : UInt64} {tree : LsmTree V}

theorem mem_scanPrefixAt {value : V} :
    (k, value) ∈ tree.scanPrefixAt version pre ↔
      topRow (tree.allLayers.map (Layer.scanPrefix pre version)) k = some (some value) := by
  rw [scanPrefixAt, mem_mergeLayers, map_allLayers]
  simp [Layer.scanPrefix]

variable {env : StorageEnv V}

omit [ByteLen V] in
theorem wellFormed_allLayers (hw : tree.Written env)
    (hlayer : layer ∈ tree.allLayers) : layer.WellFormed env := by
  simp only [allLayers, mem_cons, mem_append, mem_map, mem_reverse] at hlayer
  rcases hlayer with rfl | ⟨m, -, rfl⟩ | ⟨sst, hsst, rfl⟩
  · trivial
  · trivial
  · obtain ⟨c, m, hfile⟩ := hw sst hsst
    rw [hfile]
    exact SstWriter.wellFormed_writeAll env c m.sorted

theorem topRow_scanPrefix_iff (hw : tree.Written env)
    (horder : ∀ layer ∈ tree.allLayers, KeyOrdered pre layer.entries)
    {value : MemValue V} :
    topRow (tree.allLayers.map (Layer.scanPrefix pre version)) k = some value ↔
      FirstHit (Layer.Silent pre version k) (Layer.Shows pre version k value) tree.allLayers := by
  rw [topRow, findSome?_map, findSome?_eq_some_iff]
  apply firstHit_congr
  · exact fun layer hl => Layer.lastWrite_scanPrefix_eq_none (wellFormed_allLayers hw hl) (horder layer hl)
  · exact fun layer hl => Layer.lastWrite_scanPrefix_eq_some (wellFormed_allLayers hw hl) (horder layer hl)

theorem mem_scanPrefixAt_iff (hw : tree.Written env)
    (horder : ∀ layer ∈ tree.allLayers, KeyOrdered pre layer.entries) {value : V} :
    (k, value) ∈ tree.scanPrefixAt version pre ↔
      FirstHit (Layer.Silent pre version k) (Layer.Shows pre version k (some value))
        tree.allLayers := by
  rw [mem_scanPrefixAt, topRow_scanPrefix_iff hw horder]

theorem scanPrefixAtLimited_eq (tree : LsmTree V) (version : UInt64) (pre : Bytes) (n : Nat) :
    tree.scanPrefixAtLimited version pre n =
      (mergeLayers (tree.allLayers.map (Layer.scanPrefixMax pre version n)).reverse).take n := by
  rw [scanPrefixAtLimited, map_allLayers]
  simp [Layer.scanPrefixMax]

theorem scanFromAtLimited_eq (tree : LsmTree V) (version : UInt64) (pre start : Bytes) (n : Nat) :
    tree.scanFromAtLimited version pre start n =
      (mergeLayers (tree.allLayers.map (Layer.scanFromMax pre start version n)).reverse).take n := by
  rw [scanFromAtLimited, map_allLayers]
  simp [Layer.scanFromMax]

end LsmTree

end RhypeDb.Storage
