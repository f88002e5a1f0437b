import RhypeDb.Storage.Sst

/-! What the writer leaves on disk: the entries in order, one index entry per block of 16,
a filter that contains every user key, and zone bounds that enclose every extracted value.
The readers rely on nothing else. -/

namespace RhypeDb.Storage

open List Option

variable {V : Type}

structure SstFile.WellFormed (env : StorageEnv V) (f : SstFile V) : Prop where
  sorted : f.data.Pairwise fun a b => a.1 < b.1
  index_length : f.index.length = (f.data.length + 15) / 16
  index_get : ∀ i e, f.index[i]? = some e → e.offset = 16 * i ∧
    (f.data[16 * i]?).map Prod.fst = some e.key
  bloom : ∀ e ∈ f.data, f.mightContain env e.1.userKey = true
  zone : ∀ extract, env.zoneExtractor = some extract → ∀ i e value, f.data[i]? = some e →
    e.2 = some value → ∀ field ∈ extract e.1 value, f.zoneMap.Covers (i / 16) field

namespace SstWriter

/-- The writer's state after the entries `es`. -/
structure Wrote (extractor : Option (ZoneFieldExtractor V)) (es : List (Entry V))
    (w : SstWriter V) : Prop where
  data : w.data ++ w.blockBuf = es
  data_length : w.data.length = 16 * ((es.length - 1) / 16)
  entryCount : w.entryCount = es.length
  index_length : w.index.length = (es.length + 15) / 16
  index_get : ∀ i e, w.index[i]? = some e → e.offset = 16 * i ∧
    (es[16 * i]?).map Prod.fst = some e.key
  userKeys : ∀ e ∈ es, e.1.userKey ∈ w.userKeys
  rect : w.zoneBuilder.Rect
  zone : ∀ extract, extractor = some extract → ∀ i e value, es[i]? = some e → e.2 = some value →
    ∀ field ∈ extract e.1 value, w.zoneBuilder.toZoneMap.Covers (i / 16) field

theorem wrote_new (extractor : Option (ZoneFieldExtractor V)) : Wrote extractor [] new where
  data := rfl
  data_length := by simp [new]
  entryCount := rfl
  index_length := by simp [new]
  index_get := by simp [new]
  userKeys := by simp
  rect := by simp [new, ZoneBuilder.new, ZoneBuilder.Rect]
  zone := by simp

theorem mem_userKeys_recordUserKey (w : SstWriter V) (k : Bytes) :
    k ∈ (w.recordUserKey k).userKeys ∧ ∀ k' ∈ w.userKeys, k' ∈ (w.recordUserKey k).userKeys := by
  unfold recordUserKey
  split_ifs with h
  · exact ⟨mem_of_getLast? h, fun _ hk => hk⟩
  · exact ⟨mem_append_right _ (mem_singleton_self k),
      fun _ hk => mem_append_left _ hk⟩

theorem recordUserKey_eq (w : SstWriter V) (k : Bytes) :
    w.recordUserKey k = { w with userKeys := (w.recordUserKey k).userKeys } := by
  unfold recordUserKey
  split_ifs <;> rfl

theorem recordZone_eq (w : SstWriter V) (extractor : Option (ZoneFieldExtractor V))
    (e : Entry V) : w.recordZone extractor e =
      { w with zoneBuilder := (w.recordZone extractor e).zoneBuilder } := by
  unfold recordZone
  split
  · dsimp only
    split_ifs <;> rfl
  · rfl

theorem startBlock_eq (w : SstWriter V) (k : InternalKey) :
    w.startBlock k = { w with
      data := (w.startBlock k).data
      blockBuf := (w.startBlock k).blockBuf
      index := (w.startBlock k).index } := by
  unfold startBlock
  split_ifs <;> rfl

variable {w : SstWriter V}

theorem covers_recordZone (hw : w.zoneBuilder.Rect) (extractor : Option (ZoneFieldExtractor V))
    (e : Entry V) :
    (w.recordZone extractor e).zoneBuilder.Rect ∧
      (∀ j field, w.zoneBuilder.toZoneMap.Covers j field →
        (w.recordZone extractor e).zoneBuilder.toZoneMap.Covers j field) ∧
      ∀ extract, extractor = some extract → ∀ value, e.2 = some value →
        ∀ field ∈ extract e.1 value,
          (w.recordZone extractor e).zoneBuilder.toZoneMap.Covers (w.entryCount / 16) field := by
  unfold recordZone
  split
  · next extract' value hvalue =>
    dsimp only
    split_ifs with hempty
    · refine ⟨hw, fun _ _ h => h, ?_⟩
      rintro extract ⟨⟩ value' hvalue' field hfield
      cases hvalue.symm.trans hvalue'
      simp [List.isEmpty_iff.mp hempty] at hfield
    · obtain ⟨hrect, hkeep, hnew⟩ := ZoneBuilder.covers_record hw (w.entryCount / entriesPerBlock)
        (extract' e.1 value)
      refine ⟨hrect, hkeep, ?_⟩
      rintro extract ⟨⟩ value' hvalue' field hfield
      cases hvalue.symm.trans hvalue'
      exact hnew field hfield
  · next hnone =>
    refine ⟨hw, fun _ _ h => h, fun extract hext value hvalue => ?_⟩
    exact absurd hvalue (hnone extract value hext)

variable {es : List (Entry V)}

variable {extractor : Option (ZoneFieldExtractor V)}

theorem startBlock_spec (hw : Wrote extractor es w) (e : Entry V) :
    (w.startBlock e.1).data ++ (w.startBlock e.1).blockBuf = es ∧
      (w.startBlock e.1).data.length = 16 * (es.length / 16) ∧
      (w.startBlock e.1).index.length = (es.length + 16) / 16 ∧
      ∀ i ie, (w.startBlock e.1).index[i]? = some ie → ie.offset = 16 * i ∧
        ((es ++ [e])[16 * i]?).map Prod.fst = some ie.key := by
  have hlen := hw.data_length
  have hidx := hw.index_length
  have hkeep : ∀ i ie, w.index[i]? = some ie → ie.offset = 16 * i ∧
      ((es ++ [e])[16 * i]?).map Prod.fst = some ie.key := by
    intro i ie hi
    obtain ⟨hoff, hkey⟩ := hw.index_get i ie hi
    obtain ⟨x, hx, hxk⟩ := map_eq_some_iff.mp hkey
    refine ⟨hoff, ?_⟩
    rw [getElem?_append_left (List.getElem?_eq_some_iff.mp hx).1, hx, map_some, hxk]
  unfold startBlock
  split_ifs with h
  · rw [hw.entryCount, entriesPerBlock] at h
    refine ⟨?_, ?_, ?_, ?_⟩
    · simp only [flushBlock, append_nil, hw.data]
    · simp only [flushBlock, hw.data]
      omega
    · simp only [flushBlock, length_append, length_singleton, hidx]
      omega
    · intro i ie hi
      simp only [flushBlock, hw.data] at hi
      by_cases hlt : i < w.index.length
      · rw [getElem?_append_left hlt] at hi
        exact hkeep i ie hi
      · obtain ⟨hi', hget⟩ := List.getElem?_eq_some_iff.mp hi
        have hieq : i = w.index.length := by
          simp only [length_append, length_singleton] at hi'
          omega
        subst hieq
        rw [getElem_append_right le_rfl] at hget
        simp only [Nat.sub_self, getElem_cons_zero] at hget
        have hpos : 16 * w.index.length = es.length := by omega
        rw [← hget, hpos, getElem?_concat_length]
        exact ⟨rfl, rfl⟩
  · rw [hw.entryCount, entriesPerBlock] at h
    exact ⟨hw.data, by omega, by omega, hkeep⟩

theorem wrote_add (hw : Wrote extractor es w) (e : Entry V) :
    Wrote extractor (es ++ [e]) (w.add extractor e) := by
  obtain ⟨hdata, hlen, hidx, hget⟩ := startBlock_spec hw e
  have hcount : (w.startBlock e.1).entryCount = es.length := by
    rw [startBlock_eq]
    exact hw.entryCount
  have hzone : (w.startBlock e.1).zoneBuilder = w.zoneBuilder := by rw [startBlock_eq]
  have hkeys : (w.startBlock e.1).userKeys = w.userKeys := by rw [startBlock_eq]
  have hadd : w.add extractor e =
      { w.startBlock e.1 with
        zoneBuilder := ((w.startBlock e.1).recordZone extractor e).zoneBuilder
        userKeys := (((w.startBlock e.1).recordZone extractor e).recordUserKey e.1.userKey).userKeys
        blockBuf := (w.startBlock e.1).blockBuf ++ [e]
        entryCount := (w.startBlock e.1).entryCount + 1 } := by
    rw [add, recordUserKey_eq, recordZone_eq]
  obtain ⟨hmem, hold⟩ := mem_userKeys_recordUserKey
    ((w.startBlock e.1).recordZone extractor e) e.1.userKey
  have hkeys' : ((w.startBlock e.1).recordZone extractor e).userKeys = w.userKeys := by
    rw [recordZone_eq]
    exact hkeys
  obtain ⟨hrect, hcov, hnew⟩ := covers_recordZone (hzone ▸ hw.rect) extractor e
  rw [hadd]
  refine ⟨?_, ?_, ?_, ?_, hget, ?_, hrect, ?_⟩
  · rw [← append_assoc, hdata]
  · simpa using hlen
  · simp [hcount]
  · simp only [hidx, length_append, length_singleton]
  · intro x hx
    rcases mem_append.mp hx with hx | hx
    · exact hold _ (hkeys' ▸ hw.userKeys x hx)
    · rw [mem_singleton.mp hx]
      exact hmem
  · intro extract hext i x value hx hvalue field hfield
    by_cases hlt : i < es.length
    · rw [getElem?_append_left hlt] at hx
      exact hcov _ _ (hzone ▸ hw.zone extract hext i x value hx hvalue field hfield)
    · obtain ⟨hi, hxe⟩ := List.getElem?_eq_some_iff.mp hx
      have hieq : i = es.length := by
        simp only [length_append, length_singleton] at hi
        omega
      subst hieq
      obtain rfl : e = x := by simpa using hxe
      exact hcount ▸ hnew extract hext value hvalue field hfield

theorem wrote_foldl (extractor : Option (ZoneFieldExtractor V)) (es : List (Entry V)) :
    Wrote extractor es (es.foldl (add extractor) new) := by
  induction es using List.reverseRecOn with
  | nil => exact wrote_new extractor
  | append_singleton es e ih =>
    rw [foldl_append]
    exact wrote_add ih e

@[simp] theorem data_writeAll (env : StorageEnv V) (c : SstCompression) (es : List (Entry V)) :
    (writeAll env c es).data = es := (wrote_foldl env.zoneExtractor es).data

theorem wellFormed_writeAll (env : StorageEnv V) (c : SstCompression)
    (hs : es.Pairwise fun a b => a.1 < b.1) : (writeAll env c es).WellFormed env := by
  have hw := wrote_foldl env.zoneExtractor es
  refine ⟨?_, ?_, ?_, ?_, ?_⟩
  · rwa [data_writeAll]
  · rw [data_writeAll]
    exact hw.index_length
  · rw [data_writeAll]
    exact hw.index_get
  · rw [data_writeAll]
    exact fun e he => BloomFilter.contains_reopen_ofKeys (hw.userKeys e he)
  · rw [data_writeAll]
    exact hw.zone

end SstWriter

namespace SstFile

variable {env : StorageEnv V} {f : SstFile V}

def rawBlock (f : SstFile V) (i : Nat) : List (Entry V) := (f.data.drop (16 * i)).take 16

theorem drop_eq_rawBlock_append (f : SstFile V) (i : Nat) :
    f.data.drop (16 * i) = f.rawBlock i ++ f.data.drop (16 * (i + 1)) := by
  rw [rawBlock, Nat.mul_add, ← drop_drop, take_append_drop]

variable {i : Nat} {e : Entry V}

theorem blocksFrom_of_lt (hi : i < f.index.length) :
    f.blocksFrom i = i :: f.blocksFrom (i + 1) := by
  unfold blocksFrom
  rw [show f.index.length - i = f.index.length - (i + 1) + 1 by omega, range'_succ]

theorem blocksFrom_of_le (hi : f.index.length ≤ i) : f.blocksFrom i = [] := by
  unfold blocksFrom
  rw [Nat.sub_eq_zero_of_le hi, range'_zero]

theorem block_induction {P : Nat → Prop} (hend : ∀ i, f.index.length ≤ i → P i)
    (hstep : ∀ i < f.index.length, P (i + 1) → P i) (i : Nat) : P i := by
  induction hn : f.index.length - i generalizing i with
  | zero => exact hend i (by omega)
  | succ n ih => exact hstep i (by omega) (ih (i + 1) (by omega))

theorem WellFormed.drop_of_le (hf : f.WellFormed env) (hi : f.index.length ≤ i) :
    f.data.drop (16 * i) = [] := by
  rw [drop_eq_nil_iff]
  have := hf.index_length
  omega

theorem WellFormed.lt_of_mem_take (hf : f.WellFormed env) {ie : IndexEntry}
    (hi : f.index[i]? = some ie) (he : e ∈ f.data.take (16 * i)) : e.1 < ie.key := by
  obtain ⟨x, hx, hxk⟩ := map_eq_some_iff.mp (hf.index_get i ie hi).2
  have hsorted := hf.sorted
  rw [← take_append_drop (16 * i) f.data, pairwise_append] at hsorted
  rw [← hxk]
  refine hsorted.2.2 e he x ?_
  rw [mem_iff_getElem?]
  exact ⟨0, by rw [getElem?_drop, Nat.add_zero, hx]⟩

theorem seekBlock_spec (index : List IndexEntry) (target : InternalKey) :
    (index ≠ [] → seekBlock index target < index.length) ∧
      (seekBlock index target = 0 ∨
        ∃ ie, index[seekBlock index target]? = some ie ∧ ie.key ≤ target) := by
  unfold seekBlock
  cases hb : binarySearch index target with
  | ok i =>
    have hi : (index[i]?).map IndexEntry.key = some target := by
      simp only [binarySearch] at hb
      split_ifs at hb with h
      cases hb
      exact h
    obtain ⟨ie, hie, rfl⟩ := map_eq_some_iff.mp hi
    exact ⟨fun _ => (List.getElem?_eq_some_iff.mp hie).1, .inr ⟨ie, hie, le_rfl⟩⟩
  | error i =>
    cases i with
    | zero => exact ⟨fun h => length_pos_iff.mpr h, .inl rfl⟩
    | succ i =>
      have hi : i < (index.takeWhile fun e => decide (e.key < target)).length := by
        simp only [binarySearch] at hb
        split_ifs at hb with h
        have := Except.error.inj hb
        omega
      have hpre := takeWhile_prefix (fun e : IndexEntry => decide (e.key < target)) (l := index)
      have hlt : i < index.length := hi.trans_le hpre.length_le
      have hkey : index[i].key < target := by
        rw [← hpre.getElem hi]
        simpa using mem_takeWhile_imp (getElem_mem hi)
      exact ⟨fun _ => hlt, .inr ⟨index[i], getElem?_eq_getElem hlt, hkey.le⟩⟩

theorem WellFormed.lt_of_mem_take_seek (hf : f.WellFormed env) {target : InternalKey}
    (he : e ∈ f.data.take (16 * seekBlock f.index target)) : e.1 < target := by
  rcases (seekBlock_spec f.index target).2 with hzero | ⟨ie, hie, hkey⟩
  · rw [hzero] at he
    simp at he
  · exact (hf.lt_of_mem_take hie he).trans_le hkey

section

variable [ByteLen V]

def Fits (f : SstFile V) : Prop :=
  f.version = .compressed → ∀ i < f.index.length, blockLen (f.rawBlock i) ≤ maxBlockUncompLen

theorem WellFormed.block_eq (hf : f.WellFormed env) {i : Nat} (hi : i < f.index.length) :
    f.block i = if f.version = .compressed ∧ maxBlockUncompLen < blockLen (f.rawBlock i) then
      .error .sstCorrupted else .ok (f.rawBlock i) := by
  obtain ⟨hoff, -⟩ := hf.index_get i _ (getElem?_eq_getElem hi)
  have hblk : (f.data.drop (f.index[i].offset)).take (f.blockEndOffset i - f.index[i].offset) =
      f.rawBlock i := by
    unfold blockEndOffset
    cases hn : f.index[i + 1]? with
    | some e =>
      obtain ⟨hoff', -⟩ := hf.index_get (i + 1) e hn
      simp only [map_some, getD_some, hoff, hoff']
      rw [show 16 * (i + 1) - 16 * i = 16 by omega, rawBlock]
    | none =>
      have hlast : f.index.length = i + 1 := by
        have := List.getElem?_eq_none_iff.mp hn
        omega
      have hlen := hf.index_length
      simp only [map_none, getD_none, hoff, rawBlock]
      rw [take_of_length_le (by simp), take_of_length_le (by simp; omega)]
  simp only [block, getElem?_eq_getElem hi, hblk]
  cases f.version <;> simp

theorem WellFormed.block_of_fits (hf : f.WellFormed env) (hfit : f.Fits) {i : Nat}
    (hi : i < f.index.length) : f.block i = .ok (f.rawBlock i) := by
  rw [hf.block_eq hi, if_neg]
  rintro ⟨hv, hlt⟩
  exact absurd (hfit hv i hi) (Nat.not_le.mpr hlt)

theorem WellFormed.iterFrom_eq (hf : f.WellFormed env) (hfit : f.Fits) (i : Nat) :
    f.iterFrom i = f.data.drop (16 * i) := by
  refine block_induction (f := f) (P := fun i => f.iterFrom i = f.data.drop (16 * i)) ?_ ?_ i
  · intro i hi
    rw [iterFrom, blocksFrom_of_le hi, iterBlocks, hf.drop_of_le hi]
  · intro i hi ih
    rw [iterFrom, blocksFrom_of_lt hi, iterBlocks, hf.block_of_fits hfit hi,
      drop_eq_rawBlock_append]
    exact congrArg _ ih

theorem WellFormed.iterFrom_isPrefix (hf : f.WellFormed env) (i : Nat) :
    f.iterFrom i <+: f.data.drop (16 * i) := by
  refine block_induction (f := f) (P := fun i => f.iterFrom i <+: f.data.drop (16 * i)) ?_ ?_ i
  · intro i hi
    rw [iterFrom, blocksFrom_of_le hi, iterBlocks]
    exact nil_prefix
  · intro i hi ih
    rw [iterFrom, blocksFrom_of_lt hi, iterBlocks, hf.block_eq hi, drop_eq_rawBlock_append]
    split_ifs
    · exact nil_prefix
    · exact (prefix_append_right_inj _).mpr ih

theorem WellFormed.tryForEachEntry_eq (hf : f.WellFormed env)
    (hfit : f.Fits) : f.tryForEachEntry = .ok f.data := by
  have hwalk : ∀ i acc, (f.blocksFrom i).foldlM (fun acc bi => do return acc ++ (← f.block bi)) acc =
      (Except.ok (acc ++ f.data.drop (16 * i)) : Except Error _) := by
    intro i
    refine block_induction (f := f) (P := fun i => ∀ acc,
      (f.blocksFrom i).foldlM (fun acc bi => do return acc ++ (← f.block bi)) acc =
        (Except.ok (acc ++ f.data.drop (16 * i)) : Except Error _)) ?_ ?_ i
    · intro i hi acc
      rw [blocksFrom_of_le hi, hf.drop_of_le hi, append_nil]
      rfl
    · intro i hi ih acc
      rw [blocksFrom_of_lt hi, foldlM_cons, hf.block_of_fits hfit hi,
        drop_eq_rawBlock_append, ← append_assoc]
      exact ih _
  exact hwalk 0 []

end

end SstFile
end RhypeDb.Storage
