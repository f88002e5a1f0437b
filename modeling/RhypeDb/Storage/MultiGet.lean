import RhypeDb.Basic.Batch
import RhypeDb.Basic.Fallible
import RhypeDb.Storage.LsmHistory
import RhypeDb.Storage.SstCursor

/-! The batched point lookup `multi_get_at`. The keys are sorted and put to one layer after the
other. A v5 file answers them with one forward walk, which is past a key's entries once it has
answered the key; a v6 file looks each key up on its own. -/

namespace RhypeDb.Storage

open List RhypeDb.Batch

variable {V : Type}

def MemTable.multiGet (m : MemTable V) (userKeys : List Bytes) (version : UInt64) :
    List (Option (MemValue V)) := userKeys.map fun k => m.get k version

namespace SstFile

def skipSame (f : SstFile V) (needle : Bytes) (pos : Nat) : Nat :=
  pos + ((f.data.drop pos).takeWhile fun e => decide (e.1.userKey = needle)).length

/-- The loop of `multi_get_versioned` for one needle. Every round moves the cursor forward, so
as many rounds as there are entries are enough. -/
def lookupFrom (f : SstFile V) (needle : Bytes) (version : UInt64) :
    Nat → Cursor → Option (MemValue V) × Cursor
  | 0, c => (none, c)
  | fuel + 1, c =>
    match f.data[c.pos]? with
    | none => (none, c)
    | some e =>
      if e.1.userKey < needle then
        lookupFrom f needle version fuel (f.gallop needle ⟨c.pos + 1, c.blockIdx⟩)
      else if e.1.userKey = needle then
        if e.1.version ≤ version then
          (some e.2, f.syncBlock ⟨f.skipSame needle (c.pos + 1), c.blockIdx⟩)
        else lookupFrom f needle version fuel (f.syncBlock ⟨c.pos + 1, c.blockIdx⟩)
      else (none, c)

def lookupNeedles (env : StorageEnv V) (f : SstFile V) (version : UInt64) :
    Option Cursor → List Bytes → List (Option (MemValue V))
  | _, [] => []
  | cursor, needle :: needles =>
    if ¬ f.mightContain env needle then none :: lookupNeedles env f version cursor needles
    else
      let found := f.lookupFrom needle version (f.data.length + 1)
        (cursor.getD (f.seedCursor needle 0))
      found.1 :: lookupNeedles env f version (some found.2) needles

def multiGetVersioned [ByteLen V] (env : StorageEnv V) (f : SstFile V)
    (sortedUserKeys : List Bytes) (version : UInt64) : Except Error (List (Option (MemValue V))) :=
  if sortedUserKeys.isEmpty ∨ f.index.isEmpty then .ok (sortedUserKeys.map fun _ => none)
  else match f.version with
    | .compressed => sortedUserKeys.mapM fun k => f.getVersioned env k version
    | .uncompressed => .ok (f.lookupNeedles env version none sortedUserKeys)

end SstFile

def SstReader.rangeOverlapsSorted (sst : SstReader V) (sortedUserKeys : List Bytes) : Bool :=
  match sortedUserKeys.head?, sortedUserKeys.getLast?, sst.firstUserKey, sst.lastUserKey with
  | some smallest, some largest, some first, some last =>
    !decide (last < smallest) && !decide (largest < first)
  | _, _, _, _ => false

/-- A batch with its positions, sorted by bytes in whatever order the unstable sort leaves equal
ones. -/
structure SortedBatch (userKeys : List Bytes) where
  items : List (Nat × Bytes)
  perm : items.Perm (userKeys.zipIdx.map Prod.swap)
  sorted : (items.map Prod.snd).Pairwise (· ≤ ·)

namespace LsmTree

def probeMemtables (version : UInt64) :
    List (MemTable V) → List (Nat × Bytes) × List (Option V) → List (Nat × Bytes) × List (Option V)
  | [], s => s
  | m :: ms, s =>
    if s.1.isEmpty then s
    else probeMemtables version ms
      (settle (s.1.zip (m.multiGet (s.1.map Prod.snd) version)) s.2)

def probeSsts [ByteLen V] (env : StorageEnv V) (version : UInt64) :
    List (SstReader V) → List (Nat × Bytes) × List (Option V) →
      Except Error (List (Nat × Bytes) × List (Option V))
  | [], s => .ok s
  | sst :: ssts, s =>
    if s.1.isEmpty then .ok s
    else if ¬ sst.rangeOverlapsSorted (s.1.map Prod.snd) then probeSsts env version ssts s
    else do
      let vals ← sst.file.multiGetVersioned env (s.1.map Prod.snd) version
      probeSsts env version ssts (settle (s.1.zip vals) s.2)

def multiGetAt [ByteLen V] (env : StorageEnv V) (tree : LsmTree V) (version : UInt64)
    {userKeys : List Bytes} (batch : SortedBatch userKeys) : Except Error (List (Option V)) := do
  let out := List.replicate userKeys.length none
  let active := settle
    (batch.items.zip (tree.activeMemtable.multiGet (batch.items.map Prod.snd) version)) out
  let resolved ← probeSsts env version tree.sstFiles.reverse
    (probeMemtables version tree.immutableMemtables.reverse active)
  return resolved.2

end LsmTree

namespace SstFile

variable {env : StorageEnv V} {f : SstFile V} {needle : Bytes} {version : UInt64}

theorem probe_between {a b : Nat} (h : f.Between a b (Passes needle version)) :
    probe needle version (f.data.drop a) = probe needle version (f.data.drop b) := by
  obtain ⟨mid, hmid, hpass⟩ := h
  rw [hmid, probe_append, probe_of_passes hpass]

structure Looked (f : SstFile V) (needle : Bytes) (version : UInt64) (c : Cursor)
    (found : Option (MemValue V) × Cursor) : Prop where
  value : found.1 = (probe needle version (f.data.drop c.pos)).toRead
  synced : found.2.Synced f
  passed : f.Between c.pos found.2.pos fun e => e.1.userKey ≤ needle
  spent : (probe needle version (f.data.drop found.2.pos)).toRead = none

theorem Looked.of_between {c c' : Cursor} {found : Option (MemValue V) × Cursor}
    (h : Looked f needle version c' found) (hb : f.Between c.pos c'.pos (Passes needle version)) :
    Looked f needle version c found where
  value := by rw [h.value, probe_between hb]
  synced := h.synced
  passed := by
    refine (hb.mono ?_).trans h.passed
    rintro e (hlt | ⟨heq, -⟩)
    · exact hlt.le
    · exact heq.le
  spent := h.spent

theorem userKey_le_of_sorted (hs : f.data.Pairwise fun a b => a.1 < b.1)
    (hord : OrderedByUserKey f.data) : f.data.Pairwise fun a b => a.1.userKey ≤ b.1.userKey := by
  apply hs.imp_of_mem
  intro a b ha hb hlt
  exact not_lt.mp fun hk => lt_asymm hlt (hord b hb a ha hk)

theorem lt_of_mem_dropWhile {es : List (Entry V)}
    (hs : es.Pairwise fun a b => a.1.userKey ≤ b.1.userKey) (hge : ∀ e ∈ es, needle ≤ e.1.userKey)
    {x : Entry V} (hx : x ∈ es.dropWhile fun e => decide (e.1.userKey = needle)) :
    needle < x.1.userKey := by
  induction es with
  | nil => cases hx
  | cons e es ih =>
    obtain ⟨hhead, htail⟩ := pairwise_cons.mp hs
    rw [forall_mem_cons] at hge
    by_cases hk : e.1.userKey = needle
    · rw [dropWhile_cons_of_pos (by simpa using hk)] at hx
      exact ih htail hge.2 hx
    · have hlt : needle < e.1.userKey := lt_of_le_of_ne hge.1 (Ne.symm hk)
      rw [dropWhile_cons_of_neg (by simpa using hk)] at hx
      rcases mem_cons.mp hx with rfl | hx
      · exact hlt
      · exact hlt.trans_le (hhead x hx)

theorem skipSame_spec (hs : f.data.Pairwise fun a b => a.1 < b.1) (hord : OrderedByUserKey f.data)
    {pos : Nat} {e : Entry V} (he : f.data[pos]? = some e) (hk : e.1.userKey = needle) :
    f.Between (pos + 1) (f.skipSame needle (pos + 1)) (fun x => x.1.userKey = needle) ∧
      ∀ x ∈ f.data.drop (f.skipSame needle (pos + 1)), needle < x.1.userKey := by
  have hsplit := takeWhile_append_dropWhile (p := fun x : Entry V => decide (x.1.userKey = needle))
    (l := f.data.drop (pos + 1))
  have hrest : f.data.drop (f.skipSame needle (pos + 1)) =
      (f.data.drop (pos + 1)).dropWhile fun x => decide (x.1.userKey = needle) := by
    rw [skipSame, ← drop_drop]
    nth_rewrite 2 [← hsplit]
    exact drop_left
  obtain ⟨hlt, rfl⟩ := List.getElem?_eq_some_iff.mp he
  have hsorted := (userKey_le_of_sorted hs hord).sublist (drop_sublist pos f.data)
  rw [drop_eq_getElem_cons hlt, pairwise_cons] at hsorted
  refine ⟨⟨_, by rw [hrest, hsplit], fun x hx => by simpa using mem_takeWhile_imp hx⟩, ?_⟩
  rw [hrest]
  intro x hx
  exact lt_of_mem_dropWhile hsorted.2 (hk ▸ hsorted.1) hx

theorem WellFormed.lookupFrom_spec (hf : f.WellFormed env) (hord : OrderedByUserKey f.data)
    (needle : Bytes) (version : UInt64) {fuel : Nat} {c : Cursor} (hc : c.Synced f)
    (hfuel : f.data.length < c.pos + fuel) :
    Looked f needle version c (f.lookupFrom needle version fuel c) := by
  induction fuel generalizing c with
  | zero => exact absurd hc.pos_le (by omega)
  | succ fuel ih =>
    have hstop : (probe needle version (f.data.drop c.pos)).toRead = none →
        Looked f needle version c (none, c) := fun h => ⟨h.symm, hc, between_rfl, h⟩
    rw [lookupFrom]
    cases he : f.data[c.pos]? with
    | none =>
      apply hstop
      rw [drop_eq_nil_of_le (List.getElem?_eq_none_iff.mp he)]
      rfl
    | some e =>
      obtain ⟨hlt, heq⟩ := List.getElem?_eq_some_iff.mp he
      have hcons : f.data.drop c.pos = e :: f.data.drop (c.pos + 1) := by
        rw [drop_eq_getElem_cons hlt, heq]
      have hstep : 16 * c.blockIdx ≤ c.pos + 1 := hc.le.trans (Nat.le_succ _)
      dsimp only
      split_ifs with hsmall hsame hvis
      · obtain ⟨hsync, hle, hgal⟩ := hf.gallop_spec (c := ⟨c.pos + 1, c.blockIdx⟩) hc.lt hstep
          hc.next hlt needle
        apply (ih hsync (by simp only at hle; omega)).of_between
        exact (between_succ he (.inl hsmall)).trans (hgal.mono fun _ h => .inl h)
      · obtain ⟨hskip, hrest⟩ := skipSame_spec hf.sorted hord he hsame
        have hbetween : f.Between c.pos (f.skipSame needle (c.pos + 1))
            fun x => x.1.userKey ≤ needle :=
          (between_succ he hsame.le).trans (hskip.mono fun _ h => h.le)
        have hlen : f.skipSame needle (c.pos + 1) ≤ f.data.length := by
          have htake := (takeWhile_sublist (l := f.data.drop (c.pos + 1))
            fun x : Entry V => decide (x.1.userKey = needle)).length_le
          rw [length_drop] at htake
          unfold skipSame
          omega
        refine ⟨?_, hf.syncBlock_spec hc.lt ?_ hlen, hbetween, ?_⟩
        · rw [hcons, probe, if_pos hsame, if_pos hvis]
          rfl
        · exact hstep.trans (Nat.le_add_right _ _)
        · exact toRead_probe_of_absent fun x hx hk => absurd (hk ▸ hrest x hx) (lt_irrefl _)
      · have hsync := hf.syncBlock_spec (c := ⟨c.pos + 1, c.blockIdx⟩) hc.lt hstep hlt
        apply (ih hsync (by show _ < c.pos + 1 + fuel; omega)).of_between
        exact between_succ he (.inr ⟨hsame, hvis⟩)
      · apply hstop
        have hgt : needle < e.1.userKey := lt_of_le_of_ne (not_lt.mp hsmall) (Ne.symm hsame)
        rw [hcons, probe, if_neg hsame, if_pos hgt]
        rfl

/-- What the cursor owes the needles that follow `last`. -/
structure Ready (f : SstFile V) (version : UInt64) (last : Bytes) (c : Cursor) : Prop where
  synced : c.Synced f
  passed : f.Between 0 c.pos fun e => e.1.userKey ≤ last
  spent : (probe last version (f.data.drop c.pos)).toRead = none

theorem WellFormed.lookupNeedles_eq (hf : f.WellFormed env) (hne : f.index ≠ [])
    (hord : OrderedByUserKey f.data) {needles : List Bytes} (hsorted : needles.Pairwise (· ≤ ·))
    {last : Option Bytes} (hlast : ∀ l ∈ last, ∀ k ∈ needles, l ≤ k) {cursor : Option Cursor}
    (hcursor : ∀ c ∈ cursor, ∃ l ∈ last, Ready f version l c)
    (hseen : cursor = none → ∀ l ∈ last, (probe l version f.data).toRead = none) :
    f.lookupNeedles env version cursor needles =
      answers true (fun k => (probe k version f.data).toRead) last needles := by
  induction needles generalizing last cursor with
  | nil => rfl
  | cons k ks ih =>
    obtain ⟨hhead, htail⟩ := pairwise_cons.mp hsorted
    have hnext : ∀ l ∈ some k, ∀ k' ∈ ks, l ≤ k' := by
      rintro l ⟨⟩ k' hk'
      exact hhead k' hk'
    -- a needle's loop starts at the cursor, or at its own block when nothing was looked up yet
    have hstart : (cursor.getD (f.seedCursor k 0)).Synced f ∧
        f.Between 0 (cursor.getD (f.seedCursor k 0)).pos (fun e => e.1.userKey ≤ k) ∧
        ∀ found, found = (probe k version (f.data.drop
          (cursor.getD (f.seedCursor k 0)).pos)).toRead →
          (last = some k → found = none) ∧
            (last ≠ some k → found = (probe k version f.data).toRead) := by
      cases cursor with
      | none =>
        obtain ⟨hsync, -, hpass⟩ := hf.seedCursor_spec (length_pos_iff.mpr hne) k
        have hwhole := probe_between (hpass.mono fun e he => (.inl he : Passes k version e))
        refine ⟨hsync, hpass.mono fun e he => he.le, ?_⟩
        rintro found hfound
        rw [Option.getD_none, ← hwhole] at hfound
        exact ⟨fun hrepeat => hfound.trans (hseen rfl k hrepeat), fun _ => hfound⟩
      | some c =>
        obtain ⟨l, hl, hready⟩ := hcursor c rfl
        have hle : l ≤ k := hlast l hl k mem_cons_self
        refine ⟨hready.synced, hready.passed.mono fun e he => he.trans hle, ?_⟩
        rintro found rfl
        refine ⟨fun hrepeat => ?_, fun hrepeat => ?_⟩
        · obtain rfl : l = k := Option.some.inj (hl.symm.trans hrepeat)
          exact hready.spent
        · have hlk : l < k := lt_of_le_of_ne hle fun h => hrepeat (h ▸ hl)
          have hpass := hready.passed.mono fun e he =>
            (.inl (lt_of_le_of_lt he hlk) : Passes k version e)
          rw [Option.getD_some, ← probe_between hpass, drop_zero]
    obtain ⟨hsync, hpassed, hread⟩ := hstart
    rw [lookupNeedles, answers_once_cons]
    by_cases hbloom : f.mightContain env k = true
    · have hlooked := hf.lookupFrom_spec hord k version hsync
        (show f.data.length < (cursor.getD (f.seedCursor k 0)).pos + (f.data.length + 1) by omega)
      obtain ⟨hold, hnew⟩ := hread _ hlooked.value
      rw [if_neg (not_not.mpr hbloom)]
      dsimp only
      rw [@ih htail (some k) hnext (some _) _ (by exact nofun)]
      · congr 1
        split_ifs with hrepeat
        · exact hold hrepeat
        · exact hnew hrepeat
      · rintro c ⟨⟩
        exact ⟨k, rfl, hlooked.synced, hpassed.trans hlooked.passed, hlooked.spent⟩
    · have hnone : (probe k version f.data).toRead = none := by
        apply toRead_probe_of_absent
        rintro e he rfl
        exact absurd (hf.bloom e he) hbloom
      obtain ⟨hold, hnew⟩ := hread _ rfl
      rw [hnone, ite_self, if_pos hbloom, ih htail hnext]
      · intro c hc
        obtain rfl : cursor = some c := hc
        refine ⟨k, rfl, hsync, hpassed, ?_⟩
        by_cases hrepeat : last = some k
        · exact hold hrepeat
        · exact (hnew hrepeat).trans hnone
      · rintro - l ⟨⟩
        exact hnone

theorem WellFormed.getLast?_rawBlock (hf : f.WellFormed env) (hne : f.index ≠ []) :
    (f.rawBlock (f.index.length - 1)).getLast? = f.data.getLast? := by
  have hlen := hf.index_length
  have hpos := length_pos_iff.mpr hne
  rw [rawBlock, take_of_length_le (by rw [length_drop]; omega), getLast?_drop,
    if_neg (by omega)]

section

variable [ByteLen V] {sst : SstReader V}

theorem WellFormed.bounds_of_open (hf : f.WellFormed env) {id : Nat}
    (h : SstReader.open id f = .ok sst) :
    sst.firstUserKey = f.data.head?.map (·.1.userKey) ∧
      sst.lastUserKey = f.data.getLast?.map (·.1.userKey) := by
  unfold SstReader.open computeLastUserKey at h
  by_cases hempty : f.index = []
  · have hdata := hf.index_isEmpty (List.isEmpty_iff.mpr hempty)
    rw [if_pos (List.isEmpty_iff.mpr hempty)] at h
    cases h
    rw [hempty, hdata]
    exact ⟨rfl, rfl⟩
  · have hpos := length_pos_iff.mpr hempty
    rw [if_neg (by simpa using hempty), hf.block_eq (by omega)] at h
    split_ifs at h with hbig
    · cases h
    · cases h
      refine ⟨?_, ?_⟩
      · have hfirst := (hf.index_get 0 _ (getElem?_eq_getElem hpos)).2
        rw [head?_eq_getElem?, getElem?_eq_getElem hpos, head?_eq_getElem?]
        obtain ⟨e, he, hkey⟩ := Option.map_eq_some_iff.mp hfirst
        rw [he, Option.map_some, Option.map_some, ← hkey]
      · rw [hf.getLast?_rawBlock hempty]

theorem WellFormed.absent_of_not_overlaps (hf : f.WellFormed env) (hord : OrderedByUserKey f.data)
    {id : Nat} (h : SstReader.open id f = .ok sst) {keys : List Bytes}
    (hsorted : keys.Pairwise (· ≤ ·)) (hno : ¬ sst.rangeOverlapsSorted keys) :
    ∀ k ∈ keys, ∀ e ∈ f.data, e.1.userKey ≠ k := by
  rintro k hk e he rfl
  obtain ⟨hfirst, hlast⟩ := hf.bounds_of_open h
  obtain ⟨smallest, rest, rfl⟩ := exists_cons_of_ne_nil (ne_nil_of_mem hk)
  obtain ⟨init, largest, hinit⟩ := eq_nil_or_concat' (smallest :: rest) |>.resolve_left nofun
  have huk := userKey_le_of_sorted hf.sorted hord
  have hle : smallest ≤ e.1.userKey := by
    rcases mem_cons.mp hk with heq | hin
    · exact heq.ge
    · exact (pairwise_cons.mp hsorted).1 _ hin
  have hge : e.1.userKey ≤ largest := by
    rw [hinit] at hk hsorted
    rcases mem_append.mp hk with hin | heq
    · exact (pairwise_append.mp hsorted).2.2 _ hin _ (mem_singleton_self _)
    · exact (mem_singleton.mp heq).le
  obtain ⟨a, as, ha⟩ := exists_cons_of_ne_nil (ne_nil_of_mem he)
  obtain ⟨bs, b, hb⟩ := eq_nil_or_concat' f.data |>.resolve_left (ne_nil_of_mem he)
  have hlow : a.1.userKey ≤ e.1.userKey := by
    rw [ha] at he huk
    rcases mem_cons.mp he with heq | hin
    · rw [heq]
    · exact (pairwise_cons.mp huk).1 e hin
  have hhigh : e.1.userKey ≤ b.1.userKey := by
    rw [hb] at he huk
    rcases mem_append.mp he with hin | heq
    · exact (pairwise_append.mp huk).2.2 e hin b (mem_singleton_self b)
    · rw [mem_singleton.mp heq]
  rw [ha, head?_cons, Option.map_some] at hfirst
  rw [hb, getLast?_concat, Option.map_some] at hlast
  apply hno
  unfold SstReader.rangeOverlapsSorted
  rw [hfirst, hlast, head?_cons, hinit, getLast?_concat]
  simp [not_lt.mpr (hle.trans hhigh), not_lt.mpr (hlow.trans hge)]

end

def hit [ByteLen V] (env : StorageEnv V) (f : SstFile V) (version : UInt64) (k : Bytes) :
    Option (MemValue V) := (f.getVersioned env k version).toOption.join

theorem WellFormed.hit_of_absent [ByteLen V] (hf : f.WellFormed env) {k : Bytes}
    (habsent : ∀ e ∈ f.data, e.1.userKey ≠ k) : f.hit env version k = none := by
  have hwalk : ∀ i, (f.probeBlocks k version (f.blocksFrom i)).toOption.join = none := by
    intro i
    refine block_induction (f := f)
      (P := fun i => (f.probeBlocks k version (f.blocksFrom i)).toOption.join = none) ?_ ?_ i
    · intro i hi
      rw [blocksFrom_of_le hi]
      rfl
    · intro i hi ih
      have hblock := hf.block_eq hi
      rw [blocksFrom_of_lt hi]
      split_ifs at hblock
      · rw [probeBlocks_error hblock]
        rfl
      · have hnone := @toRead_probe_of_absent V (f.rawBlock i) version k (by
          intro e he hk
          exact absurd hk (habsent e (mem_of_mem_drop (mem_of_mem_take he))))
        rw [probeBlocks_ok hblock]
        cases hp : probe k version (f.rawBlock i) with
        | found value =>
          rw [hp] at hnone
          cases hnone
        | past => rfl
        | next => exact ih
  unfold hit getVersioned
  split_ifs
  · rfl
  · exact hwalk _
  · rfl

theorem WellFormed.multiGetVersioned_eq [ByteLen V] (hf : f.WellFormed env)
    (hord : OrderedByUserKey f.data) {keys : List Bytes} (hsorted : keys.Pairwise (· ≤ ·))
    (hread : ∀ k ∈ keys, ∃ value, f.getVersioned env k version = .ok value) :
    f.multiGetVersioned env keys version =
      .ok (answers (decide (f.version = .uncompressed)) (f.hit env version) none keys) := by
  unfold multiGetVersioned
  split_ifs with hempty
  · rw [answers_of_silent]
    intro k hk
    rcases hempty with hkeys | hindex
    · rw [List.isEmpty_iff.mp hkeys] at hk
      cases hk
    · rw [hit, getVersioned, if_pos hindex]
      rfl
  · cases hv : f.version with
    | compressed =>
      have hmap : keys.mapM (fun k => f.getVersioned env k version) =
          .ok (keys.map (f.hit env version)) := by
        apply Fallible.mapM_eq_ok
        intro k hk
        obtain ⟨value, hvalue⟩ := hread k hk
        rw [hit, hvalue]
        rfl
      simp only [hmap, reduceCtorEq, decide_false, answers_always]
    | uncompressed =>
      have hfit : f.Fits := fun h => by rw [hv] at h; cases h
      have hhit : f.hit env version = fun k => (probe k version f.data).toRead := by
        funext k
        rw [hit, hf.getVersioned_eq hfit]
        rfl
      have hne : f.index ≠ [] := fun h => hempty (.inr (List.isEmpty_iff.mpr h))
      rw [hhit]
      exact congrArg Except.ok (hf.lookupNeedles_eq hne hord hsorted (by exact nofun) (by exact nofun)
        (by exact nofun))

end SstFile

namespace SortedBatch

variable {keys : List Bytes} (batch : SortedBatch keys)

theorem mem_items {batch : SortedBatch keys} {i : Nat} {k : Bytes} :
    (i, k) ∈ batch.items ↔ keys[i]? = some k := by
  rw [batch.perm.mem_iff, mem_map]
  constructor
  · rintro ⟨⟨k', i'⟩, hmem, heq⟩
    cases heq
    exact mem_zipIdx_iff_getElem?.mp hmem
  · intro h
    exact ⟨(k, i), mem_zipIdx_iff_getElem?.mpr h, rfl⟩

theorem mem_keys {item : Nat × Bytes} (h : item ∈ batch.items) : item.2 ∈ keys :=
  mem_of_getElem? (mem_items.mp h)

theorem map_snd_perm : (batch.items.map Prod.snd).Perm keys := by
  have h := batch.perm.map Prod.snd
  rw [map_map] at h
  exact h.trans (by rw [show Prod.snd ∘ Prod.swap = (Prod.fst : Bytes × Nat → Bytes) from rfl,
    zipIdx_map_fst])

theorem length_copies (k : Bytes) : (copies k batch.items).length = keys.count k := by
  rw [copies, length_map, ← countP_eq_length_filter, batch.perm.countP_eq,
    countP_map, count_eq_countP]
  conv_rhs => rw [← zipIdx_map_fst 0 keys, countP_map]
  apply countP_congr
  intro item _
  simp

theorem ordered {β : Type} {out : List β} (h : out.length = keys.length) :
    Ordered batch.items out where
  sorted := batch.sorted
  nodup := by
    rw [(batch.perm.map Prod.fst).nodup_iff, map_map]
    show (keys.zipIdx.map Prod.snd).Nodup
    rw [zipIdx_map_snd]
    exact nodup_range'
  lt := by
    rintro ⟨i, k⟩ hitem
    rw [h]
    exact (List.getElem?_eq_some_iff.mp (mem_items.mp hitem)).1

end SortedBatch

namespace LsmTree

variable [ByteLen V] {env : StorageEnv V} {version : UInt64} {keys : List Bytes} {tree : LsmTree V}

def Opened (env : StorageEnv V) (tree : LsmTree V) : Prop :=
  ∀ sst ∈ tree.sstFiles, ∃ c, ∃ m : MemTable V,
    SstReader.open sst.id (SstWriter.writeAll env c m.entries) = .ok sst

omit [ByteLen V] in
def storedKeys (tree : LsmTree V) : Set Bytes := {k | ∃ layer ∈ tree.layers, k ∈ userKeys layer}

def memtableLayers (tree : LsmTree V) (version : UInt64) :
    List (Bool × (Bytes → Option (MemValue V))) :=
  (tree.activeMemtable :: tree.immutableMemtables.reverse).map fun m => (false, fun k => m.get k version)

def sstLayers (env : StorageEnv V) (tree : LsmTree V) (version : UInt64) :
    List (Bool × (Bytes → Option (MemValue V))) :=
  tree.sstFiles.reverse.map fun sst =>
    (decide (sst.file.version = .uncompressed), sst.file.hit env version)

omit [ByteLen V] in
theorem probeMemtables_eq (ms : List (MemTable V)) (s : List (Nat × Bytes) × List (Option V)) :
    probeMemtables version ms s =
      probeAll (ms.map fun m => (false, fun k => m.get k version)) s.1 s.2 := by
  induction ms generalizing s with
  | nil => rfl
  | cons m ms ih =>
    rw [probeMemtables]
    split_ifs with hempty
    · obtain ⟨remaining, out⟩ := s
      obtain rfl : remaining = [] := List.isEmpty_iff.mp hempty
      rw [probeAll_nil]
    · rw [ih, MemTable.multiGet, ← answers_always (fun k => m.get k version) none]
      rfl

theorem probeSsts_eq {ssts : List (SstReader V)}
    (hopen : ∀ sst ∈ ssts, ∃ c, ∃ m : MemTable V,
      SstReader.open sst.id (SstWriter.writeAll env c m.entries) = .ok sst)
    (hord : ∀ sst ∈ ssts, OrderedByUserKey sst.file.data)
    {s : List (Nat × Bytes) × List (Option V)} (hs : Ordered s.1 s.2)
    (hread : ∀ sst ∈ ssts, ∀ item ∈ s.1,
      ∃ value, sst.file.getVersioned env item.2 version = .ok value) :
    probeSsts env version ssts s = .ok (probeAll (ssts.map fun sst =>
      (decide (sst.file.version = .uncompressed), sst.file.hit env version)) s.1 s.2) := by
  induction ssts generalizing s with
  | nil => rfl
  | cons sst ssts ih =>
    rw [forall_mem_cons] at hopen hord hread
    obtain ⟨⟨c, m, hsst⟩, hopen⟩ := hopen
    have hwf := SstWriter.wellFormed_writeAll env c m.sorted
    rw [← (SstReader.file_of_open hsst).1] at hwf hsst
    rw [probeSsts, map_cons]
    split_ifs with hempty hrange
    · obtain ⟨remaining, out⟩ := s
      obtain rfl : remaining = [] := List.isEmpty_iff.mp hempty
      rw [probeAll_nil]
    · have hvals := @SstFile.WellFormed.multiGetVersioned_eq V env sst.file version _ hwf hord.1 _ hs.sorted (by
        rw [forall_mem_map]
        exact hread.1)
      rw [hvals]
      exact ih hopen hord.2 hs.probe fun sst hsst item hitem =>
        hread.2 sst hsst item (probe_fst_sublist.subset hitem)
    · have hskip : ∀ item ∈ s.1, sst.file.hit env version item.2 = none := by
        intro item hitem
        exact hwf.hit_of_absent (hwf.absent_of_not_overlaps hord.1 hsst hs.sorted hrange item.2
          (mem_map_of_mem hitem))
      show _ = Except.ok (probeAll _ (Batch.probe _ _ s.1 s.2).1 (Batch.probe _ _ s.1 s.2).2)
      rw [probe_of_silent hskip]
      exact ih hopen hord.2 hs hread.2

theorem getAt_eq_findSome? {k : Bytes}
    (hread : ∀ sst ∈ tree.sstFiles, ∃ value, sst.file.getVersioned env k version = .ok value) :
    tree.getAt env version k = .ok (copyRead
      (tree.memtableLayers version ++ tree.sstLayers env version) 0 k).join := by
  have hssts : ∀ ssts : List (SstReader V),
      (∀ sst ∈ ssts, ∃ value, sst.file.getVersioned env k version = .ok value) →
      getFromSsts env version k ssts =
        .ok (ssts.findSome? fun sst => sst.file.hit env version k).join := by
    intro ssts h
    induction ssts with
    | nil => rfl
    | cons sst ssts ih =>
      rw [forall_mem_cons] at h
      obtain ⟨⟨value, hvalue⟩, h⟩ := h
      rw [getFromSsts, hvalue, findSome?_cons, SstFile.hit, hvalue]
      cases value with
      | none => exact ih h
      | some value => rfl
  rw [copyRead_zero, findSome?_append, memtableLayers, sstLayers, findSome?_map,
    findSome?_map, findSome?_cons, getAt,
    hssts _ fun sst h => hread sst (mem_reverse.mp h)]
  simp only [Function.comp_def]
  cases tree.activeMemtable.get k version with
  | some value => rfl
  | none =>
    cases tree.immutableMemtables.reverse.findSome? fun m => m.get k version with
    | some value => rfl
    | none => rfl

theorem multiGetAt_eq (hopen : tree.Opened env)
    (hord : ∀ sst ∈ tree.sstFiles, OrderedByUserKey sst.file.data)
    (hread : ∀ sst ∈ tree.sstFiles, ∀ k ∈ keys,
      ∃ value, sst.file.getVersioned env k version = .ok value) (batch : SortedBatch keys) :
    tree.multiGetAt env version batch = .ok (probeAll
      (tree.memtableLayers version ++ tree.sstLayers env version) batch.items
      (List.replicate keys.length none)).2 := by
  have hstart : Ordered batch.items (List.replicate keys.length (none : Option V)) :=
    batch.ordered length_replicate
  have hmem : probeMemtables version tree.immutableMemtables.reverse
      (settle (batch.items.zip (tree.activeMemtable.multiGet (batch.items.map Prod.snd) version))
        (List.replicate keys.length none)) =
      probeAll (tree.memtableLayers version) batch.items (List.replicate keys.length none) := by
    rw [probeMemtables_eq, MemTable.multiGet,
      ← answers_always (fun k => tree.activeMemtable.get k version) none]
    rfl
  have hssts := @probeSsts_eq V _ env version tree.sstFiles.reverse
    (fun sst h => hopen sst (mem_reverse.mp h)) (fun sst h => hord sst (mem_reverse.mp h))
    (probeAll (tree.memtableLayers version) batch.items (List.replicate keys.length none))
    hstart.probeAll (fun sst h item hitem => hread sst (mem_reverse.mp h) item.2
      (batch.mem_keys (probeAll_fst_sublist.subset hitem)))
  rw [multiGetAt, hmem, hssts, probeAll_append]
  rfl

/-- The copies of a repeated key agree: where no memtable decides it, the read stays the same
when the newest v5 files that hold the key are passed over, one for each earlier copy. -/
def RepeatsAgree (env : StorageEnv V) (tree : LsmTree V) (version : UInt64) (keys : List Bytes) :
    Prop :=
  ∀ k ∈ keys, (∀ layer ∈ tree.memtableLayers version, layer.2 k = none) → ∀ spent < keys.count k,
    (copyRead (tree.sstLayers env version) spent k).join =
      (copyRead (tree.sstLayers env version) 0 k).join

theorem repeatsAgree_iff :
    RepeatsAgree env tree version keys ↔ ∀ k ∈ keys, ∀ spent < keys.count k,
      (copyRead (tree.memtableLayers version ++ tree.sstLayers env version) spent k).join =
        (copyRead (tree.memtableLayers version ++ tree.sstLayers env version) 0 k).join := by
  have hnever : ∀ layer ∈ tree.memtableLayers version, layer.1 = false := by
    intro layer hlayer
    obtain ⟨m, -, rfl⟩ := mem_map.mp hlayer
    rfl
  refine forall₂_congr fun k _ => ?_
  simp only [copyRead_append hnever]
  constructor
  · intro h spent hspent
    cases hm : (tree.memtableLayers version).findSome? fun layer => layer.2 k with
    | some value => rfl
    | none => exact h (findSome?_eq_none_iff.mp hm) spent hspent
  · intro h hsilent spent hspent
    have := h spent hspent
    rwa [findSome?_eq_none_iff.mpr hsilent] at this

/-- Batched and plain point reads agree exactly when the copies of every repeated key do. -/
theorem multiGetAt_eq_getAt_iff (env : StorageEnv V) (tree : LsmTree V) (hopen : tree.Opened env)
    (hfree : PrefixFree tree.storedKeys) (version : UInt64) (keys : List Bytes)
    (hread : ∀ sst ∈ tree.sstFiles, ∀ k ∈ keys,
      ∃ value, sst.file.getVersioned env k version = .ok value) (batch : SortedBatch keys) :
    tree.multiGetAt env version batch = keys.mapM (tree.getAt env version) ↔
      RepeatsAgree env tree version keys := by
  have hord : ∀ sst ∈ tree.sstFiles, OrderedByUserKey sst.file.data := by
    intro sst hsst
    apply orderedByUserKey_of_prefixFree
    apply hfree.mono
    intro k hk
    refine ⟨sst.file.data, ?_, hk⟩
    simp only [layers, mem_cons, mem_append, mem_map, mem_reverse]
    exact .inr (.inr ⟨sst, hsst, rfl⟩)
  have hplain : keys.mapM (tree.getAt env version) = .ok (keys.map fun k =>
      (copyRead (tree.memtableLayers version ++ tree.sstLayers env version) 0 k).join) :=
    Fallible.mapM_eq_ok fun k hk => getAt_eq_findSome? fun sst hsst => hread sst hsst k hk
  rw [multiGetAt_eq hopen hord hread batch, hplain, Except.ok.injEq, repeatsAgree_iff]
  have hstart : Ordered batch.items (List.replicate keys.length (none : Option V)) :=
    batch.ordered length_replicate
  -- the answer at the index of a copy
  have hcopy : ∀ k r i, (copies k batch.items)[r]? = some i → keys[i]? = some k ∧
      (probeAll (tree.memtableLayers version ++ tree.sstLayers env version) batch.items
        (List.replicate keys.length none)).2[i]? =
      some (copyRead (tree.memtableLayers version ++ tree.sstLayers env version) r k).join := by
    intro k r i hi
    have hmem := mem_of_copies hi
    have hlt := hstart.lt _ hmem
    rw [length_replicate] at hlt
    refine ⟨batch.mem_items.mp hmem, ?_⟩
    rw [probeAll_spec hstart hi, getElem?_replicate, if_pos hlt]
    cases copyRead (tree.memtableLayers version ++ tree.sstLayers env version) r k <;> rfl
  constructor
  · intro heq k _ spent hspent
    rw [← batch.length_copies] at hspent
    obtain ⟨hkey, hout⟩ := hcopy k spent _ (getElem?_eq_getElem hspent)
    rw [heq, getElem?_map, hkey] at hout
    exact (Option.some.inj hout).symm
  · intro h
    refine ext_getElem? fun i => ?_
    rw [getElem?_map]
    cases hk : keys[i]? with
    | none =>
      rw [Option.map_none, List.getElem?_eq_none_iff, length_probeAll, length_replicate]
      exact List.getElem?_eq_none_iff.mp hk
    | some k =>
      obtain ⟨r, hr⟩ := exists_copy (batch.mem_items.mpr hk)
      have hlt : r < keys.count k := by
        rw [← batch.length_copies]
        exact (List.getElem?_eq_some_iff.mp hr).1
      rw [(hcopy k r i hr).2, h k (mem_of_getElem? hk) r hlt, Option.map_some]

end LsmTree

def hashlessEnv : StorageEnv Bytes := ⟨fun _ _ => 0, none⟩

def oneKeySst : SstReader Bytes :=
  { id := 1
    file := SstWriter.writeAll hashlessEnv .none (MemTable.new.put [1] 1 [7]).entries
    firstUserKey := some [1]
    lastUserKey := some [1] }

def oneKeyTree : LsmTree Bytes := { LsmTree.new .none with sstFiles := [oneKeySst] }

def sameKeyTwice : SortedBatch [[1], [1]] where
  items := [(0, [1]), (1, [1])]
  perm := List.Perm.refl _
  sorted := by decide

theorem opened_oneKeyTree : oneKeyTree.Opened hashlessEnv := by
  intro sst hsst
  obtain rfl : sst = oneKeySst := mem_singleton.mp hsst
  exact ⟨.none, MemTable.new.put [1] 1 [7], rfl⟩

theorem prefixFree_oneKeyTree : PrefixFree oneKeyTree.storedKeys := by
  have hone : ∀ k ∈ oneKeyTree.storedKeys, k = [1] := by
    rintro k ⟨layer, hlayer, e, he, rfl⟩
    have hall : ∀ layer ∈ oneKeyTree.layers, ∀ e ∈ layer, e.1.userKey = [1] := by decide +kernel
    exact hall layer hlayer e he
  intro k hk k' hk' _
  rw [hone k hk, hone k' hk']

theorem reads_oneKeyTree (k : Bytes) (version : UInt64) : ∀ sst ∈ oneKeyTree.sstFiles,
    ∃ value, sst.file.getVersioned hashlessEnv k version = .ok value := by
  intro sst hsst
  obtain rfl : sst = oneKeySst := mem_singleton.mp hsst
  have hwf := SstWriter.wellFormed_writeAll hashlessEnv .none (MemTable.new.put [1] 1 [7]).sorted
  exact ⟨_, hwf.getVersioned_eq nofun k version⟩

/-- The second copy of the key is reported missing. -/
theorem second_copy_missing : ¬ ∀ (env : StorageEnv Bytes) (tree : LsmTree Bytes),
    tree.Opened env → PrefixFree tree.storedKeys → ∀ (version : UInt64) (keys : List Bytes),
    (∀ sst ∈ tree.sstFiles, ∀ k ∈ keys,
      ∃ value, sst.file.getVersioned env k version = .ok value) →
    ∀ batch : SortedBatch keys,
      tree.multiGetAt env version batch = keys.mapM (tree.getAt env version) := by
  intro h
  have heq := h hashlessEnv oneKeyTree opened_oneKeyTree prefixFree_oneKeyTree 1 [[1], [1]]
    (fun sst hsst k _ => reads_oneKeyTree k 1 sst hsst) sameKeyTwice
  have hbatch : (oneKeyTree.multiGetAt hashlessEnv 1 sameKeyTwice).toOption =
      some [some [7], none] := by decide +kernel
  have hplain : ([[1], [1]].mapM (oneKeyTree.getAt hashlessEnv 1)).toOption =
      some [some [7], some [7]] := by decide +kernel
  rw [heq, hplain] at hbatch
  exact absurd hbatch (by decide)

def presentAndAbsent : SortedBatch [[2], [1]] where
  items := [(1, [1]), (0, [2])]
  perm := by decide
  sorted := by decide

theorem multiGetAt_presentAndAbsent :
    oneKeyTree.multiGetAt hashlessEnv 1 presentAndAbsent =
      [[2], [1]].mapM (oneKeyTree.getAt hashlessEnv 1) :=
  (LsmTree.multiGetAt_eq_getAt_iff hashlessEnv oneKeyTree opened_oneKeyTree prefixFree_oneKeyTree 1
    [[2], [1]] (fun sst hsst k _ => reads_oneKeyTree k 1 sst hsst) presentAndAbsent).mpr
    (by
      intro k hk _ spent hspent
      have hzero : spent = 0 := by
        rcases mem_cons.mp hk with rfl | hk
        · exact Nat.lt_one_iff.mp hspent
        · obtain rfl := mem_singleton.mp hk
          exact Nat.lt_one_iff.mp hspent
      rw [hzero])

end RhypeDb.Storage
