import RhypeDb.Storage.SstFormat

/-! Point reads of a memtable and of the SST written from it. Both look for the newest
visible entry of a user key in internal-key order, and both rely on the entries of other
user keys not lying in between. -/

namespace RhypeDb.Storage

open InternalKey List

variable {V : Type} {es : List (Entry V)} {a : Entry V}

def readNewest (es : List (Entry V)) (k : Bytes) (s : UInt64) : Option (MemValue V) :=
  (newest es k s).map Prod.snd

/-- Entries of a larger user key never sort before entries of a smaller one. -/
def OrderedByUserKey (es : List (Entry V)) : Prop :=
  ∀ a ∈ es, ∀ b ∈ es, a.1.userKey < b.1.userKey → a.1 < b.1

def Unobstructed (es : List (Entry V)) : Prop :=
  ∀ k s a, IsNewest es k s a → ∀ b ∈ es, b.1.userKey ≠ k → ¬ ((⟨k, s⟩ : InternalKey) ≤ b.1 ∧ b.1 < a.1)

theorem isNewest_self {m : MemTable V} (ha : a ∈ m.entries) :
    IsNewest m.entries a.1.userKey a.1.version a :=
  ⟨ha, rfl, UInt64.le_refl _, fun _ _ _ h => h⟩

theorem lt_version_of_lt {a b : InternalKey} (hk : a.userKey = b.userKey) (h : a < b) :
    b.version < a.version := by
  obtain ⟨k, v⟩ := a
  cases hk
  exact lt_iff_of_userKey.mp h

theorem sorted_split {pre post : List (Entry V)}
    (hs : es.Pairwise fun a b => a.1 < b.1) (h : es = pre ++ a :: post) :
    (∀ y ∈ pre, y.1 < a.1) ∧ ∀ y ∈ post, a.1 < y.1 := by
  rw [h, pairwise_append, pairwise_cons] at hs
  exact ⟨fun y hy => hs.2.2 y hy a mem_cons_self, hs.2.1.1⟩

namespace SstFile

def Probe.toRead : Probe V → Option (MemValue V)
  | .found value => some value
  | .past => none
  | .next => none

theorem probe_append (k : Bytes) (s : UInt64) (xs ys : List (Entry V)) :
    probe k s (xs ++ ys) = match probe k s xs with
      | .next => probe k s ys
      | r => r := by
  induction xs with
  | nil => rfl
  | cons x xs ih =>
    simp only [cons_append, probe]
    split_ifs <;> simp [ih]

def Passes (k : Bytes) (s : UInt64) (e : Entry V) : Prop :=
  e.1.userKey < k ∨ e.1.userKey = k ∧ ¬ e.1.version ≤ s

variable {xs : List (Entry V)} {s : UInt64} {k : Bytes}

theorem probe_of_passes (h : ∀ e ∈ xs, Passes k s e) : probe k s xs = .next := by
  induction xs with
  | nil => rfl
  | cons x xs ih =>
    have ih := ih fun e he => h e (mem_cons_of_mem x he)
    rcases h x mem_cons_self with hlt | ⟨heq, hv⟩
    · rw [probe, if_neg hlt.ne, if_neg (lt_asymm hlt), ih]
    · rw [probe, if_pos heq, if_neg hv, ih]

theorem toRead_probe_of_absent
    (h : ∀ e ∈ xs, e.1.userKey = k → ¬ e.1.version ≤ s) : (probe k s xs).toRead = none := by
  induction xs with
  | nil => rfl
  | cons x xs ih =>
    have ih := ih fun e he => h e (mem_cons_of_mem x he)
    rw [probe]
    split_ifs with h₁ h₂ h₃
    · exact absurd h₂ (h x mem_cons_self h₁)
    · exact ih
    · rfl
    · exact ih

theorem probe_of_past {ys : List (Entry V)} {b : Entry V}
    (h : ∀ e ∈ xs, e.1.userKey = k → ¬ e.1.version ≤ s) (hb : b ∈ xs) (hk : k < b.1.userKey) :
    probe k s (xs ++ ys) = .past := by
  induction xs with
  | nil => simp at hb
  | cons x xs ih =>
    rw [cons_append, probe]
    split_ifs with h₁ h₂ h₃
    · exact absurd h₂ (h x mem_cons_self h₁)
    · refine ih (fun e he => h e (mem_cons_of_mem x he)) ?_
      rcases mem_cons.mp hb with rfl | hb
      · exact absurd h₁ hk.ne'
      · exact hb
    · rfl
    · refine ih (fun e he => h e (mem_cons_of_mem x he)) ?_
      rcases mem_cons.mp hb with rfl | hb
      · exact absurd hk h₃
      · exact hb

theorem toRead_probe_iff (m : MemTable V) :
    (∀ k s, (probe k s m.entries).toRead = readNewest m.entries k s) ↔
      OrderedByUserKey m.entries := by
  constructor
  · intro h a ha b hb hab
    by_contra hnot
    have hne : a.1 ≠ b.1 := fun heq => hab.ne (congrArg InternalKey.userKey heq)
    have hlt : b.1 < a.1 := lt_of_le_of_ne (not_lt.mp hnot) hne.symm
    obtain ⟨pre, post, hsplit⟩ := append_of_mem ha
    obtain ⟨hpre, hpost⟩ := sorted_split m.sorted hsplit
    have hbpre : b ∈ pre := by
      rw [hsplit, mem_append, mem_cons] at hb
      rcases hb with hb | rfl | hb
      · exact hb
      · exact absurd hlt (lt_irrefl _)
      · exact absurd hlt (lt_asymm (hpost b hb))
    have hread := h a.1.userKey a.1.version
    rw [readNewest, newest_eq_some.mpr (isNewest_self ha), hsplit,
      probe_of_past (fun e he hk hv => ?_) hbpre hab] at hread
    · cases hread
    · exact absurd hv (UInt64.not_le.mpr (lt_version_of_lt hk (hpre e he)))
  · intro hord k s
    cases hn : newest m.entries k s with
    | none => rw [readNewest, hn, toRead_probe_of_absent (newest_eq_none.mp hn), Option.map_none]
    | some a =>
      have ha := newest_eq_some.mp hn
      obtain ⟨pre, post, hsplit⟩ := append_of_mem ha.mem
      obtain ⟨hpre, -⟩ := sorted_split m.sorted hsplit
      have hpass : ∀ e ∈ pre, Passes k s e := by
        intro e he
        have hmem : e ∈ m.entries := hsplit ▸ mem_append_left _ he
        rcases lt_trichotomy e.1.userKey k with hlt | heq | hgt
        · exact .inl hlt
        · refine .inr ⟨heq, fun hv => ?_⟩
          have hlt := lt_version_of_lt (heq.trans ha.userKey_eq.symm) (hpre e he)
          exact absurd (ha.newest e hmem heq hv) (UInt64.not_le.mpr hlt)
        · exact absurd (hord a ha.mem e hmem (ha.userKey_eq ▸ hgt)) (lt_asymm (hpre e he))
      rw [readNewest, hn, hsplit, probe_append, probe_of_passes hpass]
      simp [probe, ha.userKey_eq, ha.version_le, Probe.toRead]

theorem WellFormed.index_isEmpty {env : StorageEnv V} {f : SstFile V} (hf : f.WellFormed env)
    (h : f.index.isEmpty = true) : f.data = [] := by
  have hlen := hf.index_length
  rw [List.isEmpty_iff.mp h, length_nil] at hlen
  exact length_eq_zero_iff.mp (by omega)

section

variable [ByteLen V] {env : StorageEnv V} {f : SstFile V} {is : List Nat}

theorem probeBlocks_ok {k : Bytes} {s : UInt64} {i : Nat} {blk : List (Entry V)}
    (h : f.block i = .ok blk) : f.probeBlocks k s (i :: is) =
      match probe k s blk with
      | .found value => .ok (some value)
      | .past => .ok none
      | .next => f.probeBlocks k s is := by
  rw [probeBlocks, h]
  rfl

theorem probeBlocks_error {k : Bytes} {s : UInt64} {i : Nat} {e : Error}
    (h : f.block i = .error e) : f.probeBlocks k s (i :: is) = .error e := by
  rw [probeBlocks, h]
  rfl

theorem WellFormed.probeBlocks_eq (hf : f.WellFormed env) (hfit : f.Fits) (k : Bytes)
    (s : UInt64) (i : Nat) :
    f.probeBlocks k s (f.blocksFrom i) = .ok (probe k s (f.data.drop (16 * i))).toRead := by
  refine block_induction (f := f)
    (P := fun i => f.probeBlocks k s (f.blocksFrom i) =
      .ok (probe k s (f.data.drop (16 * i))).toRead) ?_ ?_ i
  · intro i hi
    rw [blocksFrom_of_le hi, probeBlocks, hf.drop_of_le hi]
    rfl
  · intro i hi ih
    rw [blocksFrom_of_lt hi, probeBlocks_ok (hf.block_of_fits hfit hi), drop_eq_rawBlock_append,
      probe_append]
    cases probe k s (f.rawBlock i) with
    | found value => rfl
    | past => rfl
    | next => exact ih

theorem WellFormed.getVersioned_eq (hf : f.WellFormed env) (hfit : f.Fits) (k : Bytes)
    (s : UInt64) : f.getVersioned env k s = .ok (probe k s f.data).toRead := by
  unfold getVersioned
  split_ifs with hempty hbloom
  · rw [hf.index_isEmpty hempty]
    rfl
  · rw [hf.probeBlocks_eq hfit]
    have hpass : ∀ e ∈ f.data.take (16 * seekBlock f.index (.seek k)), Passes k s e := fun e he =>
      .inl (userKey_lt_of_lt_seek (hf.lt_of_mem_take_seek he))
    conv_rhs => rw [← take_append_drop (16 * seekBlock f.index (.seek k)) f.data,
      probe_append, probe_of_passes hpass]
  · rw [toRead_probe_of_absent]
    rintro e he rfl
    exact absurd (hf.bloom e he) hbloom

theorem WellFormed.fits_of_reads (hf : f.WellFormed env)
    (h : ∀ e ∈ f.data, f.getVersioned env e.1.userKey e.1.version = .ok (some e.2)) : f.Fits := by
  intro hv i hi
  by_contra hbig
  have hlen := hf.index_length
  have hlt : 16 * i < f.data.length := by omega
  set e := f.data[16 * i] with he
  have hmem : e ∈ f.data := getElem_mem hlt
  have hread := h e hmem
  have hdrop : f.data.drop (16 * i) = e :: f.data.drop (16 * i + 1) := drop_eq_getElem_cons hlt
  have hbefore : ∀ x ∈ f.data.take (16 * i), x.1 < e.1 := by
    have hs := hf.sorted
    rw [← take_append_drop (16 * i) f.data, pairwise_append, hdrop] at hs
    exact fun x hx => hs.2.2 x hx e mem_cons_self
  have hstart : seekBlock f.index (.seek e.1.userKey) ≤ i := by
    by_contra hgt
    have hin : e ∈ f.data.take (16 * seekBlock f.index (.seek e.1.userKey)) := by
      rw [mem_take_iff_getElem]
      exact ⟨16 * i, by omega, rfl⟩
    exact absurd (hf.lt_of_mem_take_seek hin)
      (not_lt.mpr (seek_le_of_extends prefix_rfl))
  -- from any block up to the oversized one, the walk never reaches the entry
  have hwalk : ∀ n j, j + n = i → ∀ value,
      f.probeBlocks e.1.userKey e.1.version (f.blocksFrom j) ≠ .ok (some value) := by
    intro n
    induction n with
    | zero =>
      intro j hj value
      obtain rfl : j = i := hj
      have herr : f.block j = .error .sstCorrupted := by
        rw [hf.block_eq hi, if_pos ⟨hv, Nat.lt_of_not_le hbig⟩]
      rw [blocksFrom_of_lt hi, probeBlocks_error herr]
      exact nofun
    | succ n ih =>
      intro j hj value
      have hjlt : j < f.index.length := by omega
      rw [blocksFrom_of_lt hjlt]
      have hblock := hf.block_eq hjlt
      split_ifs at hblock with hc
      · rw [probeBlocks_error hblock]
        exact nofun
      · have habsent : ∀ x ∈ f.rawBlock j, x.1.userKey = e.1.userKey →
            ¬ x.1.version ≤ e.1.version := by
          intro x hx hk hle
          have hxin : x ∈ f.data.take (16 * i) := by
            obtain ⟨p, hp, hpx⟩ := mem_iff_getElem.mp hx
            simp only [rawBlock, length_take, length_drop] at hp
            simp only [rawBlock, getElem_take, getElem_drop] at hpx
            rw [mem_take_iff_getElem]
            exact ⟨16 * j + p, by omega, hpx⟩
          exact absurd hle (UInt64.not_le.mpr (lt_version_of_lt hk (hbefore x hxin)))
        have hnone := toRead_probe_of_absent habsent
        rw [probeBlocks_ok hblock]
        cases hp : probe e.1.userKey e.1.version (f.rawBlock j) with
        | found value' => simp [hp, Probe.toRead] at hnone
        | past => simp
        | next => exact ih (j + 1) (by omega) value
  unfold getVersioned at hread
  rw [if_neg (by rw [List.isEmpty_iff]; rintro h0; rw [h0] at hi; simp at hi),
    if_neg (not_not.mpr (hf.bloom e hmem))] at hread
  exact hwalk (i - seekBlock f.index (.seek e.1.userKey)) _ (by omega) _ hread

end

end SstFile

namespace MemTable

theorem get_iff (m : MemTable V) :
    (∀ k s, m.get k s = readNewest m.entries k s) ↔ Unobstructed m.entries := by
  constructor
  · intro h k s a ha b hb hk ⟨hle, hlt⟩
    obtain ⟨pre, hsplit, hpre, hrange⟩ := m.range_split ⟨k, s⟩
    have hread := h k s
    rw [readNewest, newest_eq_some.mpr ha, MemTable.get] at hread
    cases hr : m.range ⟨k, s⟩ with
    | nil => simp [hr] at hread
    | cons x xs =>
      rw [hr] at hsplit hrange
      have hxk : x.1.userKey = k := by
        by_contra hx
        simp [hr, hx] at hread
      have hxmem : x ∈ m.entries := hsplit ▸ mem_append_right _ mem_cons_self
      have hxb : x.1 ≤ b.1 := by
        rw [hsplit, mem_append, mem_cons] at hb
        rcases hb with hb | rfl | hb
        · exact absurd (hpre b hb) (not_lt.mpr hle)
        · exact le_rfl
        · exact ((sorted_split m.sorted hsplit).2 b hb).le
      have hxs : x.1.version ≤ s := by
        have := hrange x mem_cons_self
        rw [← hxk] at this
        exact le_iff_of_userKey.mp this
      have hva := ha.newest x hxmem hxk hxs
      have := lt_version_of_lt (hxk.trans ha.userKey_eq.symm) (hxb.trans_lt hlt)
      exact absurd hva (UInt64.not_le.mpr this)
  · intro hfree k s
    obtain ⟨pre, hsplit, hpre, hrange⟩ := m.range_split ⟨k, s⟩
    cases hn : newest m.entries k s with
    | none =>
      rw [readNewest, hn, MemTable.get]
      cases hr : m.range ⟨k, s⟩ with
      | nil => rfl
      | cons x xs =>
        have hxk : x.1.userKey ≠ k := by
          intro hxk
          have hxmem : x ∈ m.entries := hsplit ▸ hr ▸ mem_append_right _ mem_cons_self
          refine newest_eq_none.mp hn x hxmem hxk ?_
          have := hrange x (hr ▸ mem_cons_self)
          rw [← hxk] at this
          exact le_iff_of_userKey.mp this
        simp [hxk]
    | some a =>
      have ha := newest_eq_some.mp hn
      have hle : (⟨k, s⟩ : InternalKey) ≤ a.1 := by
        rw [← ha.userKey_eq]
        exact le_iff_of_userKey.mpr ha.version_le
      have hain : a ∈ m.range ⟨k, s⟩ := by
        have hmem := ha.mem
        rw [hsplit, mem_append] at hmem
        exact hmem.resolve_left fun h => absurd (hpre a h) (not_lt.mpr hle)
      obtain ⟨x, xs, hr⟩ := exists_cons_of_ne_nil (ne_nil_of_mem hain)
      have hxmem : x ∈ m.entries := hsplit ▸ hr ▸ mem_append_right _ mem_cons_self
      have hxle := hrange x (hr ▸ mem_cons_self)
      have hxa : x.1 ≤ a.1 := by
        rw [hr] at hain hsplit
        rcases mem_cons.mp hain with rfl | hain
        · exact le_rfl
        · exact ((sorted_split m.sorted hsplit).2 a hain).le
      obtain rfl : x = a := by
        by_contra hne
        have hlt : x.1 < a.1 := lt_of_le_of_ne hxa fun h => hne (SortedMap.eq_of_mem hxmem ha.mem h)
        by_cases hxk : x.1.userKey = k
        · have hxs : x.1.version ≤ s := by
            rw [← hxk] at hxle
            exact le_iff_of_userKey.mp hxle
          have := lt_version_of_lt (hxk.trans ha.userKey_eq.symm) hlt
          exact absurd (ha.newest x hxmem hxk hxs) (UInt64.not_le.mpr this)
        · exact hfree k s a ha x hxmem hxk ⟨hxle, hlt⟩
      rw [readNewest, hn, MemTable.get, hr]
      simp [ha.userKey_eq]

end MemTable

def userKeys (es : List (Entry V)) : Set Bytes := {k | ∃ e ∈ es, e.1.userKey = k}

theorem orderedByUserKey_of_prefixFree (h : PrefixFree (userKeys es)) : OrderedByUserKey es := by
  intro a ha b hb hlt
  exact lt_of_diverge hlt
    (fun hp => hlt.ne (h _ ⟨a, ha, rfl⟩ _ ⟨b, hb, rfl⟩ hp)) a.1.version b.1.version

theorem unobstructed_of_prefixFree (h : PrefixFree (userKeys es)) : Unobstructed es := by
  rintro k s a ha b hb hne ⟨hle, hlt⟩
  rcases lt_or_gt_of_ne hne with hbk | hkb
  · have hp : ¬ b.1.userKey <+: k := fun hp =>
      hne (h _ ⟨b, hb, rfl⟩ _ ⟨a, ha.mem, ha.userKey_eq⟩ hp)
    exact absurd (lt_of_diverge hbk hp b.1.version s) (not_lt.mpr hle)
  · rw [← ha.userKey_eq] at hkb
    exact lt_asymm hlt (orderedByUserKey_of_prefixFree h a ha.mem b hb hkb)

section

variable [ByteLen V] {file : SstFile V}

theorem SstReader.open_of_fits {env : StorageEnv V}
    (hf : file.WellFormed env) (hfit : file.Fits) (id : Nat) :
    ∃ sst, SstReader.open id file = .ok sst ∧ sst.file = file ∧ sst.id = id := by
  unfold SstReader.open SstFile.computeLastUserKey
  by_cases hempty : file.index.isEmpty = true
  · exact ⟨_, by rw [if_pos hempty]; rfl, rfl, rfl⟩
  · have hlt : file.index.length - 1 < file.index.length := by
      have : file.index.length ≠ 0 := by simpa using hempty
      omega
    exact ⟨_, by rw [if_neg hempty, hf.block_of_fits hfit hlt]; rfl, rfl, rfl⟩

theorem SstReader.file_of_open {id : Nat} {sst : SstReader V}
    (h : SstReader.open id file = .ok sst) : sst.file = file ∧ sst.id = id := by
  unfold SstReader.open at h
  cases hc : file.computeLastUserKey with
  | error e => rw [hc] at h; cases h
  | ok last => rw [hc] at h; cases h; exact ⟨rfl, rfl⟩

/-- Writing a table to an SST and reopening it keeps every point read, in the file and in
the table, exactly when the entries of different user keys stay apart and every v6 block is
within the cap. -/
theorem flush_preserves_point_reads_iff (env : StorageEnv V) (c : SstCompression) (id : Nat)
    (m : MemTable V) :
    (∃ sst, SstReader.open id (SstWriter.writeAll env c m.entries) = .ok sst ∧
      ∀ k s, sst.file.getVersioned env k s = .ok (readNewest m.entries k s) ∧
        m.get k s = readNewest m.entries k s) ↔
    OrderedByUserKey m.entries ∧ Unobstructed m.entries ∧
      (SstWriter.writeAll env c m.entries).Fits := by
  have hf := SstWriter.wellFormed_writeAll env c m.sorted
  have hdata := SstWriter.data_writeAll env c m.entries
  constructor
  · rintro ⟨sst, hopen, hread⟩
    rw [(SstReader.file_of_open hopen).1] at hread
    have hfit : (SstWriter.writeAll env c m.entries).Fits := hf.fits_of_reads fun e he => by
      rw [hdata] at he
      rw [(hread _ _).1, readNewest, newest_eq_some.mpr (isNewest_self he), Option.map_some]
    refine ⟨(SstFile.toRead_probe_iff m).mp fun k s => ?_,
      (MemTable.get_iff m).mp fun k s => (hread k s).2, hfit⟩
    have := (hread k s).1
    rw [hf.getVersioned_eq hfit, hdata] at this
    exact Except.ok.inj this
  · rintro ⟨hord, hfree, hfit⟩
    obtain ⟨sst, hopen, hfile, -⟩ := SstReader.open_of_fits hf hfit id
    refine ⟨sst, hopen, fun k s => ⟨?_, (MemTable.get_iff m).mpr hfree k s⟩⟩
    rw [hfile, hf.getVersioned_eq hfit, hdata, (SstFile.toRead_probe_iff m).mpr hord]

end

def prefixPair : MemTable Bytes := (MemTable.new.put [97] 1 [1]).put [97, 98] 1 [2]

theorem prefix_key_lost : ¬ ∀ (env : StorageEnv Bytes) (c : SstCompression) (m : MemTable Bytes),
    ∃ sst, SstReader.open 1 (SstWriter.writeAll env c m.entries) = .ok sst ∧
      ∀ k s, sst.file.getVersioned env k s = .ok (readNewest m.entries k s) ∧
        m.get k s = readNewest m.entries k s := by
  intro h
  let env : StorageEnv Bytes := ⟨fun _ _ => 0, none⟩
  obtain ⟨sst, hopen, hread⟩ := h env .none prefixPair
  have hread := (hread [97] 1).1
  have hf := SstWriter.wellFormed_writeAll env .none prefixPair.sorted
  rw [(SstReader.file_of_open hopen).1, hf.getVersioned_eq nofun,
    SstWriter.data_writeAll] at hread
  exact absurd (Except.ok.inj hread) (by decide)

end RhypeDb.Storage
