import RhypeDb.Storage.SstRead

/-! Files of `sst.rs` that are written and opened again: the sections behind the data are read as they
were laid out, and the entries are returned just where they fit the format and the reader's cap. -/

namespace RhypeDb.Storage.SstBytes

open ByteOrder ByteReader Fallible List Nat

theorem length_zoneBlock {b : ZoneBuilder} (h : b.Rect) : (zoneBlock b).length =
    8 + 4 * b.fieldIds.length + 16 * (b.bounds.length * b.fieldIds.length) := by
  have hrow : ∀ row : List (UInt64 × UInt64), (row.flatMap fun bound =>
      be 8 bound.1.toNat ++ be 8 bound.2.toNat).length = row.length * 16 := by
    intro row
    simp only [length_flatMap, length_append, be_length, map_const',
      sum_replicate_nat]
  have hrows : (b.bounds.flatMap fun row => row.flatMap fun bound =>
      be 8 bound.1.toNat ++ be 8 bound.2.toNat).length =
      b.bounds.length * (b.fieldIds.length * 16) := by
    rw [length_flatMap, map_congr_left fun row hmem => (hrow row).trans
      (congrArg (· * 16) (h row hmem)), map_const', sum_replicate_nat]
  have hids : (b.fieldIds.flatMap fun id => be 4 id.toNat).length = b.fieldIds.length * 4 := by
    simp only [length_flatMap, be_length, map_const', sum_replicate_nat]
  unfold zoneBlock
  simp only [length_append, be_length, hids, hrows]
  ring

theorem words_zoneBlock (b : ZoneBuilder) : word (zoneBlock b) 0 4 = b.bounds.length % 256 ^ 4 ∧
    word (zoneBlock b) 4 4 = b.fieldIds.length % 256 ^ 4 :=
  ⟨word_at [] _ rfl rfl, word_at (be 4 b.bounds.length) _ rfl (be_length _ _).symm⟩

theorem rect_zones (env : WriterEnv) (es : List Entry) : (zones env es).Rect := by
  have hfold : ∀ (fields : List (UInt32 × UInt64)) (i : Nat) (b : ZoneBuilder), b.Rect →
      (fields.foldl (fun b field => b.widen i field) b).Rect := by
    intro fields i
    induction fields with
    | nil => exact fun _ hb => hb
    | cons field fields ih => exact fun b hb => ih _ (ZoneBuilder.rect_widen hb i field)
  induction es using List.reverseRecOn with
  | nil => exact forall_mem_nil _
  | append_singleton es e ih =>
    rw [zones_append]
    unfold recordZone
    split
    · dsimp only
      split_ifs
      · exact ih
      · exact hfold _ _ _ (ZoneBuilder.rect_grow ih _)
    · exact ih

theorem bloom_wrap {n : Nat} (h : n.isPowerOfTwo) :
    6 ≤ (6 + (n + 7) / 8) % 2 ^ 32 ∧
      5 + (n % 2 ^ 32 + 7) / 8 + 1 ≤ (6 + (n + 7) / 8) % 2 ^ 32 := by
  obtain ⟨j, rfl⟩ := h
  by_cases hj : j < 32
  · have hlt : 2 ^ j < 2 ^ 32 := Nat.pow_lt_pow_right (by decide) hj
    generalize 2 ^ j = k at hlt
    omega
  · obtain ⟨i, rfl⟩ := Nat.exists_eq_add_of_le (Nat.le_of_not_lt hj)
    have hsplit : ∃ m : Nat, 2 ^ i = 1 ∨ 2 ^ i = 2 ∨ 2 ^ i = 4 ∨ 2 ^ i = 8 * m := by
      match i with
      | 0 => exact ⟨0, .inl rfl⟩
      | 1 => exact ⟨0, .inr (.inl rfl)⟩
      | 2 => exact ⟨0, .inr (.inr (.inl rfl))⟩
      | i + 3 => exact ⟨2 ^ i, .inr (.inr (.inr (by rw [pow_add]; ring)))⟩
    obtain ⟨m, hm⟩ := hsplit
    rw [pow_add]
    generalize 2 ^ i = k at hm
    omega

def filterBits (n : Nat) : Nat :=
  (max (max n 1 * BloomFilter.defaultBitsPerEntry) 1).nextPowerOfTwo

theorem ofKeys_fields (xxh3 : Xxh3) (keys : List Bytes) :
    (BloomFilter.ofKeys xxh3 keys).numBits.toNat = filterBits keys.length % 2 ^ 32 ∧
      (packBits (BloomFilter.ofKeys xxh3 keys).bits).length = (filterBits keys.length + 7) / 8 := by
  obtain ⟨hbits, hnum, -⟩ := @BloomFilter.foldl_add_fields xxh3
    (Storage.BloomFilter.new keys.length) keys
  rw [← BloomFilter.ofKeys] at hbits hnum
  constructor
  · rw [hnum]
    exact UInt32.toNat_ofNat'
  · rw [packBits, length_map, length_range, hbits]
    exact (congrArg (· / 8) length_replicate).trans (Nat.mul_div_cancel _ (by decide))

theorem length_bloomBlock (xxh3 : Xxh3) (keys : List Bytes) :
    (bloomBlock (BloomFilter.ofKeys xxh3 keys)).length =
      6 + (filterBits keys.length + 7) / 8 := by
  simp only [bloomBlock, length_cons, length_append, be_length, (ofKeys_fields xxh3 keys).2]
  omega

theorem bloomBytes_bloomBlock (xxh3 : Xxh3) (keys : List Bytes) {version : Nat} (h : version ≠ 2) :
    BloomBytes version ((bloomBlock (BloomFilter.ofKeys xxh3 keys)).take
      ((bloomBlock (BloomFilter.ofKeys xxh3 keys)).length % 2 ^ 32)) := by
  obtain ⟨hnum, hpack⟩ := ofKeys_fields xxh3 keys
  obtain ⟨hsix, hfits⟩ := bloom_wrap
    (isPowerOfTwo_nextPowerOfTwo (max (max keys.length 1 * BloomFilter.defaultBitsPerEntry) 1))
  rw [← filterBits] at hsix hfits
  rw [length_bloomBlock]
  generalize BloomFilter.ofKeys xxh3 keys = f at hnum hpack ⊢
  generalize filterBits keys.length = n at hnum hpack hsix hfits ⊢
  obtain ⟨m, hm⟩ := Nat.exists_eq_add_of_le hsix
  rw [hm] at hfits ⊢
  have htake : (bloomBlock f).take (6 + m) = hashAlgoByte f.algo :: (be 4 f.numBits.toNat ++
      (be 1 f.k ++ packBits f.bits).take (1 + m)) := by
    have hsucc : 6 + m = (4 + (1 + m)) + 1 := by omega
    rw [bloomBlock, hsucc, take_succ_cons, take_append, be_length, Nat.add_sub_cancel_left,
      take_of_length_le (by rw [be_length]; omega)]
  have hword : word (be 4 f.numBits.toNat ++ (be 1 f.k ++ packBits f.bits).take (1 + m)) 0 4 =
      n % 2 ^ 32 := by
    refine (word_at [] _ rfl rfl).trans ?_
    rw [hnum]
    exact mod_mod _ _
  have hrest : (be 4 f.numBits.toNat ++ (be 1 f.k ++ packBits f.bits).take (1 + m)).length =
      5 + m := by
    rw [length_append, be_length, length_take, length_append, be_length, hpack]
    omega
  rw [htake, BloomBytes, if_neg h]
  refine ⟨by cases f.algo <;> rfl, ?_⟩
  rw [BloomPayload, hword, hrest]
  omega

section

variable {env : WriterEnv} {bs : List (List Entry)} {zone bloom : Bytes}

theorem zonemapStart_ge (env : WriterEnv) (bs : List (List Entry)) : 8 ≤ zonemapStart env bs := by
  unfold zonemapStart indexStart
  omega

variable (env bs zone bloom) in
theorem length_layout : (layout env bs zone bloom).length =
    zonemapStart env bs + zone.length + bloom.length + 40 := by
  unfold layout
  simp only [length_append, length_fileHeader, length_footer, zonemapStart, indexStart]
  omega

variable (env bs zone bloom) in
theorem footed_layout : Footed (layout env bs zone bloom) (zonemapStart env bs)
    (zone.length % 2 ^ 32) (zonemapStart env bs + zone.length % 2 ^ 32) bloom.length
    (indexStart env bs) bs.length := by
  have h := footed (fileHeader env ++ (dataRegion env bs ++ (indexRegion env bs ++ (zone ++ bloom))))
    (zonemapStart env bs) (zone.length % 2 ^ 32) (zonemapStart env bs + zone.length % 2 ^ 32)
    bloom.length (indexStart env bs) bs.length
  simp only [append_assoc] at h
  exact h

theorem bytesAt_take (before bytes after : Bytes) {n : Nat} (h : n ≤ bytes.length) :
    bytesAt (before ++ (bytes ++ after)) before.length n = bytes.take n := by
  rw [bytesAt, drop_left, take_append_of_le_length h]

theorem fileVersion_cases (env : WriterEnv) : fileVersion env = 5 ∨ fileVersion env = 6 := by
  unfold fileVersion
  cases env.compression
  · exact .inl rfl
  · exact .inr rfl

theorem footerSize_layout : footerSize (headerVersion (layout env bs zone bloom)) = 40 := by
  rw [headerVersion_layout]
  rcases fileVersion_cases env with h | h <;> rw [h] <;> rfl

section

variable (h : (layout env bs zone bloom).length < 2 ^ 63)

include h

theorem zonemapSection_layout : zonemapSection (layout env bs zone bloom) =
    ⟨zonemapStart env bs, zone.length % 2 ^ 32⟩ := by
  rw [length_layout] at h
  have hoffset : zonemapStart env bs % 256 ^ 8 = zonemapStart env bs :=
    mod_eq_of_lt (by norm_num; omega)
  rw [(footed_layout _ _ _ _).zonemap, hoffset]
  exact congrArg _ (mod_mod _ _)

theorem bloomSection_layout : bloomSection (layout env bs zone bloom) =
    ⟨zonemapStart env bs + zone.length % 2 ^ 32, bloom.length % 2 ^ 32⟩ := by
  rw [length_layout] at h
  have hoffset : (zonemapStart env bs + zone.length % 2 ^ 32) % 256 ^ 8 =
      zonemapStart env bs + zone.length % 2 ^ 32 := mod_eq_of_lt (by norm_num; omega)
  rw [(footed_layout _ _ _ _).bloom, hoffset]
  rfl

theorem indexOffset_layout : indexOffset (layout env bs zone bloom) = indexStart env bs := by
  rw [length_layout] at h
  have hstart : indexStart env bs ≤ zonemapStart env bs := le_add_right _ _
  rw [(footed_layout _ _ _ _).indexOffset]
  exact mod_eq_of_lt (by norm_num; omega)

theorem zonemapBytes_layout : (zonemapSection (layout env bs zone bloom)).bytes
    (layout env bs zone bloom) = zone.take (zone.length % 2 ^ 32) := by
  rw [zonemapSection_layout h]
  have hbytes := bytesAt_take (fileHeader env ++ (dataRegion env bs ++ indexRegion env bs)) zone
    (bloom ++ footer (zonemapStart env bs) (zone.length % 2 ^ 32)
      (zonemapStart env bs + zone.length % 2 ^ 32) bloom.length (indexStart env bs) bs.length)
    (mod_le zone.length (2 ^ 32))
  have hlen : (fileHeader env ++ (dataRegion env bs ++ indexRegion env bs)).length =
      zonemapStart env bs := by
    simp only [length_append, length_fileHeader, zonemapStart, indexStart]
    omega
  rw [hlen] at hbytes
  simp only [append_assoc] at hbytes
  exact hbytes

theorem bloomBytes_layout (hzone : zone.length < 2 ^ 32) :
    (bloomSection (layout env bs zone bloom)).bytes (layout env bs zone bloom) =
      bloom.take (bloom.length % 2 ^ 32) := by
  rw [bloomSection_layout h, mod_eq_of_lt hzone]
  have hbytes := bytesAt_take (fileHeader env ++ (dataRegion env bs ++ (indexRegion env bs ++ zone)))
    bloom (footer (zonemapStart env bs) (zone.length % 2 ^ 32)
      (zonemapStart env bs + zone.length % 2 ^ 32) bloom.length (indexStart env bs) bs.length)
    (mod_le bloom.length (2 ^ 32))
  have hlen : (fileHeader env ++ (dataRegion env bs ++ (indexRegion env bs ++ zone))).length =
      zonemapStart env bs + zone.length := by
    simp only [length_append, length_fileHeader, zonemapStart, indexStart]
    omega
  rw [hlen] at hbytes
  simp only [append_assoc] at hbytes
  exact hbytes

theorem readIndex_layout (hkeys : ∀ b ∈ bs, (firstKey b).length < 2 ^ 32) :
    readIndex (layout env bs zone bloom) (indexStart env bs) bs.length =
      .ok (indexFrom env 8 bs) := by
  have hentries : ∀ bs' offset, (∀ b ∈ bs', (firstKey b).length < 2 ^ 32) →
      offset + (bs'.flatMap (blockFrame env)).length < 2 ^ 64 →
      ∀ entry ∈ indexFrom env offset bs', entry.key.length < 2 ^ 32 ∧ entry.offset < 2 ^ 64 := by
    intro bs'
    induction bs' with
    | nil => exact fun _ _ _ => forall_mem_nil _
    | cons b bs' ih =>
      intro offset hkeys hlt
      obtain ⟨hb, hkeys⟩ := forall_mem_cons.mp hkeys
      rw [flatMap_cons, length_append] at hlt
      exact forall_mem_cons.mpr ⟨⟨hb, by dsimp only; omega⟩, ih _ hkeys (by omega)⟩
  have hdata : layout env bs zone bloom = fileHeader env ++ dataRegion env bs ++
      ((indexFrom env 8 bs).flatMap SstWriter.encodeIndexEntry ++ (zone ++ (bloom ++
        footer (zonemapStart env bs) (zone.length % 2 ^ 32)
          (zonemapStart env bs + zone.length % 2 ^ 32) bloom.length (indexStart env bs)
          bs.length))) := by
    rfl
  have hlen : (fileHeader env ++ dataRegion env bs).length = indexStart env bs := by
    rw [length_append, length_fileHeader]
    rfl
  have hlt : 8 + (bs.flatMap (blockFrame env)).length < 2 ^ 64 := by
    have hstart : indexStart env bs ≤ zonemapStart env bs := le_add_right _ _
    rw [length_layout] at h
    change indexStart env bs < 2 ^ 64
    omega
  have hread := readIndex_encode (fileHeader env ++ dataRegion env bs) (zone ++ (bloom ++
    footer (zonemapStart env bs) (zone.length % 2 ^ 32) (zonemapStart env bs + zone.length % 2 ^ 32)
      bloom.length (indexStart env bs) bs.length))
    (fun entry hmem => (hentries bs 8 hkeys hlt entry hmem).1)
    (fun entry hmem => (hentries bs 8 hkeys hlt entry hmem).2)
    (by rw [← hdata]; omega)
  rwa [← hdata, hlen, length_indexFrom] at hread

end

theorem zoneBlock_fits {b : ZoneBuilder} (hrect : b.Rect) (h : (zoneBlock b).length < 2 ^ 32) :
    zoneIds (zoneBlock b) + 8 * zoneBounds (zoneBlock b) ≤ (zoneBlock b).length := by
  obtain ⟨hblocks, hids⟩ := words_zoneBlock b
  have hlen := length_zoneBlock hrect
  have hid : b.fieldIds.length % 256 ^ 4 = b.fieldIds.length := mod_eq_of_lt (by norm_num; omega)
  unfold zoneIds zoneBounds
  rw [hblocks, hids, hid]
  have hprod : b.bounds.length % 256 ^ 4 * b.fieldIds.length ≤
      b.bounds.length * b.fieldIds.length := mul_le_mul_right _ (mod_le _ _)
  omega

end

section

variable {env : WriterEnv} {bs bs' : List (List Entry)} {zone bloom : Bytes} {r : SstReader}

theorem Holds.computeLastUserKey (h : Holds env r bs) (hlz4 : Lossless env.lz4)
    (hfit : ∀ b ∈ bs, BlockFits env b) : ∃ last, r.computeLastUserKey env.lz4 = .ok last := by
  unfold SstReader.computeLastUserKey
  rcases eq_nil_or_concat bs with rfl | ⟨init, b, rfl⟩
  · rw [if_pos (by rw [h.index]; rfl)]
    exact ⟨none, rfl⟩
  · rw [concat_eq_append] at h hfit
    have hlength : r.index.length = init.length + 1 := by
      rw [h.index, length_indexFrom, length_append, length_singleton]
    have hne : ¬ r.index.isEmpty = true := by
      rw [List.isEmpty_iff, ← length_eq_zero_iff, hlength]
      exact succ_ne_zero _
    have hblock := h.block_eq hlz4 (hfit b (mem_append_right _ mem_cons_self)).2
    rw [if_neg hne, hlength, Nat.add_sub_cancel, hblock, ok_bind]
    exact lastUserKeyFrom_returns (stream b) 0 none

theorem readFooter_layout (h : (layout env bs zone bloom).length < 2 ^ 63)
    (hzone : zone.length < 2 ^ 32) (hzonefits : zoneIds zone + 8 * zoneBounds zone ≤ zone.length)
    (hbloom : ∀ version ≠ 2, BloomBytes version (bloom.take (bloom.length % 2 ^ 32))) :
    ∃ s, readFooter (layout env bs zone bloom) (headerVersion (layout env bs zone bloom)) =
      .ok s := by
  have hlen := length_layout env bs zone bloom
  have hstart := zonemapStart_ge env bs
  have hversion := headerVersion_layout env bs zone bloom
  have hcases := fileVersion_cases env
  have hmagic := (footed_layout env bs zone bloom).magic
  have hbytes := zonemapBytes_layout h
  have hzoneSection := zonemapSection_layout h
  have hbloomSection := bloomSection_layout h
  rw [mod_eq_of_lt hzone] at hbytes hzoneSection hbloomSection
  rw [take_length] at hbytes
  have hzoneFits : ZoneMapFits (layout env bs zone bloom) := by
    rw [ZoneMapFits, Section.Inside, footerSize_layout, hbytes, hzoneSection]
    exact ⟨by dsimp only; omega, fun _ => hzonefits⟩
  have hzoneGuarded : ZoneMapGuarded (layout env bs zone bloom) := by
    rw [ZoneMapGuarded, hbytes, hzoneSection]
    exact ⟨by dsimp only; omega, fun _ _ _ => by omega⟩
  have hbloomFits : BloomFits (layout env bs zone bloom) := by
    rw [BloomFits, Section.Inside, footerSize_layout, bloomBytes_layout h hzone, hbloomSection]
    exact ⟨by dsimp only; omega, hbloom _ (by omega)⟩
  refine ((outcome_readFooter (by omega) (by omega)).returns fun _ _ =>
    ⟨fun _ => hzoneGuarded, fun _ _ => ?_⟩).mpr
      ⟨⟨by rw [footerSize_layout]; omega, hmagic⟩, fun _ => hzoneFits, fun _ => hbloomFits⟩
  rw [hbloomSection]
  dsimp only
  omega

theorem holds_opened (h : (layout env bs zone bloom).length < 2 ^ 63) (hcount : bs.length < 2 ^ 32)
    (hkeys : ∀ b ∈ bs, (firstKey b).length < 2 ^ 32) {s : Sections}
    (hs : readFooter (layout env bs zone bloom) (headerVersion (layout env bs zone bloom)) =
      .ok s) : readIndex (layout env bs zone bloom) s.indexOffset s.indexCount =
        .ok (indexFrom env 8 bs) ∧
      Holds env (opened (layout env bs zone bloom) s (indexFrom env 8 bs)) bs := by
  have hlen := length_layout env bs zone bloom
  obtain ⟨hoffset, hindexCount⟩ := readFooter_index (by omega) hs
  rw [indexOffset_layout h] at hoffset
  rw [(footed_layout _ _ _ _).indexCount, mod_eq_of_lt (by norm_num; omega)] at hindexCount
  have hindex := readIndex_layout h hkeys
  rw [← hoffset, ← hindexCount] at hindex
  exact ⟨hindex, ⟨⟨_, rfl⟩, rfl, hoffset, headerVersion_layout env bs zone bloom⟩⟩

theorem open_layout (hlz4 : Lossless env.lz4) (h : (layout env bs zone bloom).length < 2 ^ 63)
    (hcount : bs.length < 2 ^ 32) (hkeys : ∀ b ∈ bs, (firstKey b).length < 2 ^ 32)
    (hs : ∃ s, readFooter (layout env bs zone bloom)
      (headerVersion (layout env bs zone bloom)) = .ok s)
    (hfit : ∀ b ∈ bs, BlockFits env b) :
    ∃ r, SstReader.open env.lz4 (layout env bs zone bloom) = .ok r ∧ Holds env r bs := by
  have hlen := length_layout env bs zone bloom
  have hversion := headerVersion_layout env bs zone bloom
  have hcases := fileVersion_cases env
  obtain ⟨s, hs⟩ := hs
  obtain ⟨hindex, hholds⟩ := holds_opened h hcount hkeys hs
  obtain ⟨last, hlast⟩ := hholds.computeLastUserKey hlz4 hfit
  refine ⟨_, (SstReader.open_eq_ok env.lz4).mpr ⟨by omega, ?_, ?_, s, _, last, hs, hindex, hlast,
    rfl⟩, ⟨hholds.data, hholds.index, hholds.dataEnd, hholds.version⟩⟩
  · exact bytesAt_at [] _ (append_assoc _ _ _) rfl rfl
  · rw [hversion, sstVersionMax]
    omega

variable {es : List Entry} {blk : Bytes} {out : Bytes} {pos n : Nat} {data : Bytes}

theorem numberAt_eq_ok {w : Nat}
    (h : (numberAt data pos w : Result Nat) = .ok n) : n = word data pos w := by
  obtain ⟨bytes, hbytes, h⟩ := bind_eq_ok.mp h
  unfold sliceAt at hbytes
  split_ifs at hbytes
  cases hbytes
  cases h
  rfl

theorem sliceAt_eq_ok
    (h : (sliceAt data pos n : Result Bytes) = .ok out) : pos + n ≤ data.length ∧ out.length = n := by
  unfold sliceAt at h
  split_ifs at h with hle
  cases h
  exact ⟨hle, length_bytesAt hle⟩

theorem word_lt {w : Nat} (h : pos + w ≤ data.length) : word data pos w < 256 ^ w := by
  have hlt := ofBe_lt (bytesAt data pos w)
  rwa [length_bytesAt h] at hlt

theorem entryAt_fits {e : Entry} (hpos : pos + 8 ≤ blk.length)
    (h : entryAt blk pos = .ok (.entry e n)) : EntryFits e ∧
      n = e.1.length + (e.2.getD []).length ∧ pos + 8 + n ≤ blk.length := by
  have hkeyLen : word blk pos 4 < 256 ^ 4 := word_lt (by omega)
  have hvalueLen : word blk (pos + 4) 4 < 256 ^ 4 := word_lt (by omega)
  unfold entryAt at h
  rw [numberAt_eq (by omega), ok_bind, numberAt_eq (by omega), ok_bind] at h
  dsimp only at h
  generalize word blk pos 4 = keyLen at *
  generalize word blk (pos + 4) 4 = raw at *
  split_ifs at h with hend hvalue hraw
  · cases h
  · obtain ⟨key, -, h⟩ := bind_eq_ok.mp h
    cases h
  · obtain ⟨key, hkey, h⟩ := bind_eq_ok.mp h
    obtain ⟨-, hkey⟩ := sliceAt_eq_ok hkey
    cases h
    refine ⟨⟨by rw [hkey]; exact hkeyLen, fun v hv => by cases hv⟩, ?_, by omega⟩
    rw [← hkey]
    rfl
  · obtain ⟨key, hkey, h⟩ := bind_eq_ok.mp h
    obtain ⟨value, hv, h⟩ := bind_eq_ok.mp h
    obtain ⟨-, hkey⟩ := sliceAt_eq_ok hkey
    obtain ⟨-, hv⟩ := sliceAt_eq_ok hv
    have hlen : valueBytes raw = raw := if_neg hraw
    cases h
    refine ⟨⟨by rw [hkey]; exact hkeyLen, ?_⟩, ?_, by omega⟩
    · rintro v ⟨⟩
      unfold tombstoneMarker at *
      omega
    · rw [← hkey, ← hv]
      rfl

theorem entriesFrom_fits (h : entriesFrom blk pos = .ok es) : (∀ e ∈ es, EntryFits e) ∧
      (pos ≤ blk.length → pos + (stream es).length ≤ blk.length) := by
  induction hn : blk.length - pos using Nat.strong_induction_on generalizing pos es with
  | _ n ih =>
    rw [entriesFrom] at h
    split_ifs at h with hpos
    · obtain ⟨step, hstep, h⟩ := bind_eq_ok.mp h
      cases step with
      | entry e k =>
        obtain ⟨hfits, hk, hle⟩ := entryAt_fits hpos hstep
        obtain ⟨rest, hrest, h⟩ := bind_eq_ok.mp h
        cases h
        obtain ⟨hall, hlen⟩ := ih _ (by omega) hrest rfl
        refine ⟨forall_mem_cons.mpr ⟨hfits, hall⟩, fun _ => ?_⟩
        have hstream : (stream (e :: rest)).length = 8 + k + (stream rest).length := by
          rw [stream, flatMap_cons, length_append, length_encodeEntry, hk]
          rfl
        omega
      | keyPastEnd => cases h
      | valuePastEnd => cases h
    · cases h
      exact ⟨forall_mem_nil _, fun hle => hle⟩

theorem SstReader.entriesOfBlocks_fits (lz4 : Lz4) (r : SstReader) {bi : Nat}
    (h : r.entriesOfBlocks lz4 n bi = .ok es) : ∀ e ∈ es, EntryFits e := by
  induction n generalizing bi es with
  | zero =>
    cases h
    exact forall_mem_nil _
  | succ n ih =>
    obtain ⟨blk, -, h⟩ := bind_eq_ok.mp h
    obtain ⟨first, hfirst, h⟩ := bind_eq_ok.mp h
    obtain ⟨rest, hrest, h⟩ := bind_eq_ok.mp h
    cases h
    exact forall_mem_append.mpr ⟨(entriesFrom_fits hfirst).1, ih hrest⟩

theorem decompressFrame_length (hcompression : env.compression = .lz4)
    {before after block : Bytes} {stop : Nat}
    (h : decompressFrame env.lz4 (before ++ (frame env block ++ after)) before.length
      stop = .ok out) : out.length ≤ block.length ∧ (out.length = block.length →
        block.length ≤ maxBlockUncompLen) := by
  have hframe : ∃ (flag : Byte) (rest : Bytes),
      frame env block = flag :: (be 4 block.length ++ rest) := by
    simp only [frame, hcompression]
    split_ifs
    · exact ⟨_, _, rfl⟩
    · exact ⟨_, _, rfl⟩
  obtain ⟨flag, rest, hframe⟩ := hframe
  have hword : word (before ++ (frame env block ++ after)) (before.length + 1) 4 =
      block.length % 256 ^ 4 :=
    word_at (before ++ [flag]) (rest ++ after) (by simp [hframe]) (by simp)
  obtain ⟨-, h⟩ := check_bind_eq_ok.mp h
  obtain ⟨flag', -, h⟩ := bind_eq_ok.mp h
  obtain ⟨uncompLen, hlen, h⟩ := bind_eq_ok.mp h
  obtain ⟨payloadLen, -, h⟩ := bind_eq_ok.mp h
  obtain ⟨-, h⟩ := check_bind_eq_ok.mp h
  obtain ⟨hmax, h⟩ := check_bind_eq_ok.mp h
  obtain ⟨payload, -, h⟩ := bind_eq_ok.mp h
  have hout : out.length = uncompLen := by
    unfold decodePayload at h
    split at h
    · obtain ⟨hcheck, h⟩ := check_bind_eq_ok.mp h
      cases h
      exact hcheck
    · split at h
      · cases h
      · obtain ⟨hcheck, h⟩ := check_bind_eq_ok.mp h
        cases h
        exact hcheck
    · cases h
  rw [numberAt_eq_ok hlen, hword] at hout hmax
  refine ⟨hout ▸ mod_le _ _, fun heq => ?_⟩
  rw [← heq, hout]
  exact hmax

theorem Holds.entries_length (h : Holds env r (bs ++ bs')) (hcompression : env.compression = .lz4)
    (he : r.entriesOfBlocks env.lz4 bs'.length bs.length = .ok es) :
    (stream es).length ≤ (stream bs'.flatten).length ∧
      ((stream es).length = (stream bs'.flatten).length →
        ∀ b ∈ bs', (stream b).length ≤ maxBlockUncompLen) := by
  induction bs' generalizing bs es with
  | nil =>
    cases he
    exact ⟨le_rfl, fun _ => forall_mem_nil _⟩
  | cons b bs' ih =>
    have happend : bs ++ b :: bs' = (bs ++ [b]) ++ bs' := append_cons bs b bs'
    obtain ⟨before, after, hdata, -, hblock⟩ := h.block_at
    have hversion : ¬ fileVersion env < sstVersionCompressed := by
      simp only [fileVersion, hcompression]
      decide
    obtain ⟨blk, hblk, he⟩ := bind_eq_ok.mp he
    obtain ⟨first, hfirst, he⟩ := bind_eq_ok.mp he
    obtain ⟨rest, hrest, he⟩ := bind_eq_ok.mp he
    cases he
    rw [hblock, if_neg hversion, hdata] at hblk
    obtain ⟨-, hblk⟩ := check_bind_eq_ok.mp hblk
    obtain ⟨hle, hcap⟩ := decompressFrame_length hcompression hblk
    have hfirstLen := (entriesFrom_fits hfirst).2 (zero_le _)
    have hnext : bs.length + 1 = (bs ++ [b]).length := by simp
    rw [hnext] at hrest
    obtain ⟨hrestLe, hrestCap⟩ := ih (happend ▸ h) hrest
    have hsplit : ∀ es es' : List Entry, (stream (es ++ es')).length =
        (stream es).length + (stream es').length := fun es es' => by
      rw [stream, flatMap_append, length_append]
      rfl
    rw [flatten_cons, hsplit, hsplit]
    refine ⟨by omega, fun heq => forall_mem_cons.mpr ⟨hcap (by omega), hrestCap (by omega)⟩⟩

theorem zoneBlock_whole {b : ZoneBuilder} (hrect : b.Rect) (hblocks : b.bounds.length < 2 ^ 32)
    (hids : b.fieldIds.length < 2 ^ 32)
    (h : zoneIds ((zoneBlock b).take n) + 8 * zoneBounds ((zoneBlock b).take n) ≤
      ((zoneBlock b).take n).length) : (zoneBlock b).length ≤ n := by
  have hlen := length_zoneBlock hrect
  have htakeLen : ((zoneBlock b).take n).length ≤ n := length_take_le _ _
  have hn : 8 ≤ n := by
    unfold zoneIds at h
    omega
  obtain ⟨m, rfl⟩ := Nat.exists_eq_add_of_le hn
  have htake : ∃ rest, (zoneBlock b).take (8 + m) =
      be 4 b.bounds.length ++ (be 4 b.fieldIds.length ++ rest) := by
    have hfour : 8 + m = (be 4 b.bounds.length).length + ((be 4 b.fieldIds.length).length + m) := by
      simp only [be_length]
      omega
    unfold zoneBlock
    rw [hfour, take_length_add_append, take_length_add_append]
    exact ⟨_, rfl⟩
  obtain ⟨rest, htake⟩ := htake
  have hword : word ((zoneBlock b).take (8 + m)) 0 4 = b.bounds.length :=
    (word_at [] _ htake rfl).trans (mod_eq_of_lt hblocks)
  have hword' : word ((zoneBlock b).take (8 + m)) 4 4 = b.fieldIds.length :=
    (word_at (be 4 b.bounds.length) _ htake (be_length _ _).symm).trans (mod_eq_of_lt hids)
  unfold zoneIds zoneBounds at h
  rw [hword, hword'] at h
  omega

end

variable (env : WriterEnv) (es : List Entry)

structure Fits : Prop where
  entry : ∀ e ∈ es, EntryFits e
  block : env.compression = .lz4 → ∀ b ∈ blocks es, (stream b).length ≤ maxBlockUncompLen
  count : (blocks es).length < 2 ^ 32
  zone : (zoneBlock (zones env es)).length < 2 ^ 32

def RoundTrips : Prop := ∃ r, SstReader.open env.lz4 (writeAll env es) = .ok r ∧
  r.tryForEachEntry env.lz4 = .ok es ∧ r.iter env.lz4 = .ok es

variable {env es}

theorem flatten_blocks (es : List Entry) : (blocks es).flatten = es ∧ ∀ b ∈ blocks es, b ≠ [] := by
  induction es using blocks.induct with
  | case1 => exact ⟨by rw [blocks_nil]; rfl, by rw [blocks_nil]; exact forall_mem_nil _⟩
  | case2 es hne ih =>
    rw [blocks, if_neg hne]
    refine ⟨by rw [flatten_cons, ih.1, take_append_drop],
      forall_mem_cons.mpr ⟨fun hnil => ?_, ih.2⟩⟩
    rw [take_eq_nil_iff] at hnil
    exact hnil.elim (fun hzero => by cases hzero) hne

theorem mem_of_mem_blocks {b : List Entry} (hb : b ∈ blocks es) {e : Entry} (he : e ∈ b) :
    e ∈ es := by
  have hmem := mem_flatten.mpr ⟨b, hb, he⟩
  rwa [(flatten_blocks es).1] at hmem

theorem firstKey_lt (h : ∀ e ∈ es, EntryFits e) :
    ∀ b ∈ blocks es, (firstKey b).length < 2 ^ 32 := by
  intro b hb
  obtain ⟨e, rest, rfl⟩ := exists_cons_of_ne_nil ((flatten_blocks es).2 b hb)
  exact (h e (mem_of_mem_blocks hb mem_cons_self)).1

theorem Fits.roundTrips (h : Fits env es) (hlz4 : Lossless env.lz4)
    (hlen : (writeAll env es).length < 2 ^ 63) : RoundTrips env es := by
  obtain ⟨userKeys, -, hfile⟩ := writeAll_eq env es
  obtain ⟨hflat, hne⟩ := flatten_blocks es
  rw [hfile] at hlen
  have hfit : ∀ b ∈ blocks es, BlockFits env b := fun b hb =>
    ⟨fun e he => h.entry e (mem_of_mem_blocks hb he), fun hc => h.block hc b hb⟩
  have hs := readFooter_layout hlen h.zone (zoneBlock_fits (rect_zones env es) h.zone)
    fun _ hv => bloomBytes_bloomBlock env.xxh3 userKeys hv
  obtain ⟨r, hopen, hholds⟩ := open_layout hlz4 hlen h.count (firstKey_lt h.entry) hs hfit
  have hall : Holds env r ([] ++ blocks es) := hholds
  have hentries := hall.entriesOfBlocks hlz4 hfit
  have hiter := hholds.iter hlz4 hfit hne
  rw [hflat] at hentries hiter
  refine ⟨r, hfile ▸ hopen, ?_, hiter⟩
  rw [SstReader.tryForEachEntry, hholds.index, length_indexFrom]
  exact hentries

theorem RoundTrips.fits (h : RoundTrips env es) (hlen : (writeAll env es).length < 2 ^ 63)
    (hcount : (blocks es).length < 2 ^ 32) (hbounds : (zones env es).bounds.length < 2 ^ 32)
    (hids : (zones env es).fieldIds.length < 2 ^ 32) : Fits env es := by
  obtain ⟨userKeys, -, hfile⟩ := writeAll_eq env es
  obtain ⟨hflat, -⟩ := flatten_blocks es
  obtain ⟨r, hopen, hentries, -⟩ := h
  rw [hfile] at hlen hopen
  have hentry : ∀ e ∈ es, EntryFits e := SstReader.entriesOfBlocks_fits _ _ hentries
  obtain ⟨hsize, -, hversion, s, index, last, hs, hindex, -, hr⟩ :=
    (SstReader.open_eq_ok env.lz4).mp hopen
  obtain ⟨hindex', hopened⟩ := holds_opened hlen hcount (firstKey_lt hentry) hs
  cases hindex.symm.trans hindex'
  have hholds : Holds env r (blocks es) :=
    hr ▸ ⟨hopened.data, hopened.index, hopened.dataEnd, hopened.version⟩
  refine ⟨hentry, fun hcompression => ?_, hcount, ?_⟩
  · rw [SstReader.tryForEachEntry, hholds.index, length_indexFrom] at hentries
    have hall : Holds env r ([] ++ blocks es) := hholds
    exact (hall.entries_length hcompression hentries).2 (by rw [hflat])
  · have hfooter := outcome_readFooter hsize hversion.1
    have hreturns := (hfooter.returns (hfooter.runs.mp (hs ▸ nofun))).mp ⟨s, hs⟩
    have hfive : 5 ≤ headerVersion (layout env (blocks es) (zoneBlock (zones env es))
        (bloomBlock (BloomFilter.ofKeys env.xxh3 userKeys))) := by
      rw [headerVersion_layout]
      rcases fileVersion_cases env with hv | hv <;> omega
    have hzone := (hreturns.2.1 (by omega)).2 hfive
    rw [zonemapBytes_layout hlen] at hzone
    exact (zoneBlock_whole (rect_zones env es) hbounds hids hzone).trans_lt
      (mod_lt _ (by decide))

/-- What is written is read back where it fits, and it fits wherever it is read back, the file's own
counts being of 32 bits. -/
theorem roundTrips_iff_fits (env : WriterEnv) (hlz4 : Lossless env.lz4) (es : List Entry)
    (hlen : (writeAll env es).length < 2 ^ 63) :
    (Fits env es → RoundTrips env es) ∧ ((blocks es).length < 2 ^ 32 →
      (zones env es).bounds.length < 2 ^ 32 → (zones env es).fieldIds.length < 2 ^ 32 →
      (RoundTrips env es ↔ Fits env es)) :=
  ⟨fun h => h.roundTrips hlz4 hlen, fun hcount hbounds hids =>
    ⟨fun h => h.fits hlen hcount hbounds hids, fun h => h.roundTrips hlz4 hlen⟩⟩

def storing : WriterEnv :=
  { lz4 := ⟨id, fun bytes _ => .ok bytes⟩, xxh3 := fun _ _ => 0, zoneExtractor := none
    compression := .lz4 }

theorem lossless_storing : Lossless storing.lz4 := fun _ => rfl

theorem blocks_singleton (e : Entry) : blocks [e] = [[e]] :=
  blocks_last (cons_ne_nil e []) (by rw [length_singleton]; decide)

theorem length_storing (e : Entry) : (writeAll storing [e]).length =
    85 + (stream [e]).length + e.1.length := by
  obtain ⟨userKeys, hkeys, hfile⟩ := writeAll_eq storing [e]
  have hone : max userKeys.length 1 = 1 := max_eq_right hkeys
  have hbloom : (bloomBlock (BloomFilter.ofKeys storing.xxh3 userKeys)).length = 8 := by
    rw [length_bloomBlock, filterBits, hone]
    decide +kernel
  have hzone : (zoneBlock (zones storing [e])).length = 8 := rfl
  have hframe : (blockFrame storing [e]).length = 9 + (stream [e]).length := by
    have hraw : blockFrame storing [e] =
        0 :: (be 4 (stream [e]).length ++ (be 4 (stream [e]).length ++ stream [e])) :=
      if_neg (lt_irrefl _)
    rw [hraw]
    simp only [length_cons, length_append, be_length]
    omega
  have hregion : (dataRegion storing [[e]]).length = 9 + (stream [e]).length := by
    rw [dataRegion, flatMap_singleton, hframe]
  have hindex : (indexRegion storing [[e]]).length = 4 + e.1.length + 8 := by
    rw [indexRegion, indexFrom, indexFrom, flatMap_singleton, length_encodeIndexEntry]
    rfl
  rw [hfile, length_layout, blocks_singleton, hbloom, hzone, zonemapStart, indexStart, hregion,
    hindex]
  omega

theorem length_stream_singleton (e : Entry) :
    (stream [e]).length = 8 + (e.1.length + (e.2.getD []).length) := by
  rw [stream, flatMap_singleton, length_encodeEntry]

/-- Seventeen entries, of which the last has a block of its own. -/
def twoBlocks : List Entry := (range 17).map fun n => (be 8 n ++ be 8 1, some [7])

theorem roundTrips_iff_fits_short : RoundTrips storing twoBlocks ↔ Fits storing twoBlocks := by
  have hblocks : blocks twoBlocks = [twoBlocks.take 16, twoBlocks.drop 16] := by
    rw [blocks, if_neg (by decide), entriesPerBlock, blocks_last (by decide) (by decide)]
  exact (roundTrips_iff_fits storing lossless_storing twoBlocks (by decide +kernel)).2
    (by rw [hblocks]; decide) (by decide) (by decide)

theorem not_roundTrips_storing {e : Entry} {n : Nat} (hn : e.1.length + (e.2.getD []).length = n)
    (hcap : maxBlockUncompLen < 8 + n) (hsmall : n < 2 ^ 40) : ¬ RoundTrips storing [e] := by
  have hstream := length_stream_singleton e
  have hlen := length_storing e
  have hbounds : (zones storing [e]).bounds.length = 0 := rfl
  have hids : (zones storing [e]).fieldIds.length = 0 := rfl
  intro h
  have hfits := h.fits (by omega) (by rw [blocks_singleton, length_singleton]; decide)
    (by omega) (by omega)
  have hblock := hfits.block rfl [e] (by rw [blocks_singleton]; exact mem_cons_self)
  omega

/-- A value of 64 MiB in a compressed file. -/
theorem large_value_not_read_back :
    ¬ RoundTrips storing [(List.replicate 9 0, some (List.replicate (64 * 1024 * 1024) 0))] :=
  not_roundTrips_storing (congrArg₂ (· + ·) length_replicate length_replicate)
    (by decide) (by decide)

end RhypeDb.Storage.SstBytes
