import RhypeDb.Storage.SstWrite

/-! The walks of `SstReader` over the entries of a file, and what they make of the blocks that
`SstWriter` lays out. -/

namespace RhypeDb.Storage.SstBytes

open ByteOrder ByteReader Fallible List Nat

section

variable (lz4 : Lz4)

/-- What is at a place of a block: an entry and its length behind the two lengths, or one that
reaches past the end. -/
inductive Step
  | entry (e : Entry) (n : Nat)
  | keyPastEnd
  | valuePastEnd

def entryAt (blk : Bytes) (pos : Nat) : Result Step := do
  let keyLen ← numberAt blk pos 4
  let valueLenRaw ← numberAt blk (pos + 4) 4
  let keyStart := pos + 8
  if blk.length < keyStart + keyLen then return .keyPastEnd
  else
    let key ← sliceAt blk keyStart keyLen
    let valueLen := valueBytes valueLenRaw
    if blk.length < keyStart + keyLen + valueLen then return .valuePastEnd
    else if valueLenRaw = tombstoneMarker then return .entry (key, none) keyLen
    else
      let value ← sliceAt blk (keyStart + keyLen) valueLen
      return .entry (key, some value) (keyLen + valueLen)

def entriesFrom (blk : Bytes) (pos : Nat) : Result (List Entry) :=
  if pos + 8 ≤ blk.length then do
    match ← entryAt blk pos with
    | .entry e n => return e :: (← entriesFrom blk (pos + 8 + n))
    | .keyPastEnd => throw (.error "entry key extends past block end")
    | .valuePastEnd => throw (.error "entry value extends past block end")
  else return []
termination_by blk.length - pos

def iterEntries (blk : Bytes) (pos : Nat) : Result (List Entry × Bool) :=
  if blk.length ≤ pos then return ([], true)
  else if pos + 8 ≤ blk.length then do
    match ← entryAt blk pos with
    | .entry e n =>
      let (es, whole) ← iterEntries blk (pos + 8 + n)
      return (e :: es, whole)
    | _ => return ([], false)
  else return ([], false)
termination_by blk.length - pos

namespace SstReader

/-- `try_for_each_entry`, from a block on. -/
def entriesOfBlocks (r : SstReader) : Nat → Nat → Result (List Entry)
  | 0, _ => pure []
  | n + 1, bi => do
    let es ← entriesFrom (← r.block lz4 bi) 0
    return es ++ (← r.entriesOfBlocks n (bi + 1))

def tryForEachEntry (r : SstReader) : Result (List Entry) :=
  r.entriesOfBlocks lz4 r.index.length 0

def blockIdxForOffset (r : SstReader) (offset : Nat) : Nat :=
  match r.index.findIdx? fun entry => offset < entry.offset with
  | some i => i - 1
  | none => r.index.length - 1

/-- `SstIterator`; a corrupt block ends the iteration. -/
def iterBlocks (r : SstReader) : Nat → Nat → Nat → Result (List Entry)
  | 0, _, _ => pure []
  | n + 1, bi, pos =>
    match r.block lz4 bi with
    | .ok blk => do
      let (es, whole) ← iterEntries blk pos
      if whole then return es ++ (← r.iterBlocks n (bi + 1) 0)
      else return es
    | .error (.error _) => pure []
    | .error .panic => .error .panic

def iterFrom (r : SstReader) (start : Nat) : Result (List Entry) :=
  if r.index.isEmpty ∨ r.dataEnd ≤ start then pure []
  else
    let bi := r.blockIdxForOffset start
    r.iterBlocks lz4 (r.index.length - bi) bi (start - (r.index.map IndexEntry.offset).getD bi 0)

def iter (r : SstReader) : Result (List Entry) := r.iterFrom lz4 (sstMagic.length + 4)

end SstReader

def EntryFits (e : Entry) : Prop :=
  e.1.length < 2 ^ 32 ∧ ∀ v, e.2 = some v → v.length < tombstoneMarker

theorem length_encodeEntry (e : Entry) :
    (encodeEntry e).length = 8 + (e.1.length + (e.2.getD []).length) := by
  simp only [encodeEntry, length_append, be_length]
  omega

theorem entryAt_encodeEntry (before after : Bytes) {e : Entry} (h : EntryFits e) :
    entryAt (before ++ (encodeEntry e ++ after)) before.length =
      .ok (.entry e (e.1.length + (e.2.getD []).length)) := by
  obtain ⟨key, value⟩ := e
  obtain ⟨hkey, hvalue⟩ := h
  have hdata : before ++ (encodeEntry (key, value) ++ after) = before ++ (be 4 key.length ++
      (be 4 (value.elim tombstoneMarker List.length) ++ (key ++ (value.getD [] ++ after)))) := by
    simp only [encodeEntry, append_assoc]
  have hlen : (before ++ (encodeEntry (key, value) ++ after)).length =
      before.length + (8 + (key.length + (value.getD []).length) + after.length) := by
    rw [length_append, length_append, length_encodeEntry]
  have hkeyLen : word (before ++ (encodeEntry (key, value) ++ after)) before.length 4 =
      key.length := (word_at before _ hdata rfl).trans (mod_eq_of_lt hkey)
  have hraw : value.elim tombstoneMarker List.length < 256 ^ 4 := by
    cases value with
    | none => decide
    | some v => exact (hvalue v rfl).trans (by decide)
  have hvalueLen : word (before ++ (encodeEntry (key, value) ++ after)) (before.length + 4) 4 =
      value.elim tombstoneMarker List.length := by
    refine (word_at (before ++ be 4 key.length) (key ++ (value.getD [] ++ after)) ?_ ?_).trans
      (mod_eq_of_lt hraw)
    · rw [hdata, append_assoc]
    · rw [length_append, be_length]
  have hbytes : ∀ k : Bytes, (be 4 key.length ++ (be 4 (value.elim tombstoneMarker List.length) ++
      k)).length = 8 + k.length := fun k => by
    simp only [length_append, be_length]
    omega
  have hkeyBytes : bytesAt (before ++ (encodeEntry (key, value) ++ after)) (before.length + 8)
      key.length = key := by
    refine bytesAt_at (before ++ (be 4 key.length ++ (be 4 (value.elim tombstoneMarker List.length) ++
      []))) (value.getD [] ++ after) ?_ ?_ rfl
    · simp only [hdata, append_assoc, nil_append]
    · rw [length_append, hbytes]
      rfl
  unfold entryAt
  rw [numberAt_eq (by omega), ok_bind, numberAt_eq (by omega), ok_bind, hkeyLen,
    hvalueLen]
  rw [if_neg (by omega), sliceAt_eq (by omega), ok_bind, hkeyBytes]
  cases value with
  | none =>
    have hzero : valueBytes tombstoneMarker = 0 := if_pos rfl
    rw [Option.elim_none, hzero, if_neg (by omega), if_pos rfl]
    rfl
  | some v =>
    have hne : v.length ≠ tombstoneMarker := (hvalue v rfl).ne
    have hlength : valueBytes v.length = v.length := if_neg hne
    have hvalueBytes : bytesAt (before ++ (encodeEntry (key, some v) ++ after))
        (before.length + 8 + key.length) v.length = v := by
      refine bytesAt_at (before ++ (be 4 key.length ++ (be 4 v.length ++ key))) after ?_ ?_ rfl
      · simp only [hdata, append_assoc]
        rfl
      · have hsum := hbytes key
        rw [length_append, add_assoc]
        exact congrArg _ hsum.symm
    have hlen' : (Option.getD (some v) ([] : Bytes)).length = v.length := rfl
    rw [Option.elim_some, hlength, if_neg (by omega), if_neg hne, sliceAt_eq (by omega),
      ok_bind, hvalueBytes]
    rfl

variable {es : List Entry}

theorem entriesFrom_stream (before : Bytes) (h : ∀ e ∈ es, EntryFits e) :
    entriesFrom (before ++ stream es) before.length = .ok es := by
  induction es generalizing before with
  | nil =>
    rw [entriesFrom, if_neg (by simp [stream])]
    rfl
  | cons e es ih =>
    obtain ⟨he, hes⟩ := forall_mem_cons.mp h
    have hrest := ih (before ++ encodeEntry e) hes
    have hlen := length_encodeEntry e
    rw [append_assoc, length_append, hlen, ← add_assoc] at hrest
    have hstream : stream (e :: es) = encodeEntry e ++ stream es := flatMap_cons
    rw [hstream, entriesFrom, if_pos (by simp only [length_append]; omega),
      entryAt_encodeEntry before (stream es) he, ok_bind]
    dsimp only
    rw [hrest]
    rfl

theorem iterEntries_stream (before : Bytes) (h : ∀ e ∈ es, EntryFits e) :
    iterEntries (before ++ stream es) before.length = .ok (es, true) := by
  induction es generalizing before with
  | nil =>
    rw [iterEntries, if_pos (by simp [stream])]
    rfl
  | cons e es ih =>
    obtain ⟨he, hes⟩ := forall_mem_cons.mp h
    have hrest := ih (before ++ encodeEntry e) hes
    have hlen := length_encodeEntry e
    rw [append_assoc, length_append, hlen, ← add_assoc] at hrest
    have hstream : stream (e :: es) = encodeEntry e ++ stream es := flatMap_cons
    rw [hstream, iterEntries, if_neg (by simp only [length_append]; omega),
      if_pos (by simp only [length_append]; omega),
      entryAt_encodeEntry before (stream es) he, ok_bind]
    dsimp only
    rw [hrest]
    rfl

theorem length_encodeIndexEntry (entry : IndexEntry) :
    (SstWriter.encodeIndexEntry entry).length = 4 + entry.key.length + 8 := by
  simp only [SstWriter.encodeIndexEntry, length_append, be_length]
  omega

theorem readIndex_encode {index : List IndexEntry} (before after : Bytes)
    (hkey : ∀ entry ∈ index, entry.key.length < 2 ^ 32)
    (hoffset : ∀ entry ∈ index, entry.offset < 2 ^ 64)
    (hlen : (before ++ (index.flatMap SstWriter.encodeIndexEntry ++ after)).length < 2 ^ 64) :
    readIndex (before ++ (index.flatMap SstWriter.encodeIndexEntry ++ after)) before.length
      index.length = .ok index := by
  induction index generalizing before with
  | nil => rfl
  | cons entry index ih =>
    obtain ⟨hkey, hkeys⟩ := forall_mem_cons.mp hkey
    obtain ⟨hoffset, hoffsets⟩ := forall_mem_cons.mp hoffset
    have hdata : before ++ ((entry :: index).flatMap SstWriter.encodeIndexEntry ++ after) =
        before ++ (be 4 entry.key.length ++ (entry.key ++ (be 8 entry.offset ++
          (index.flatMap SstWriter.encodeIndexEntry ++ after)))) := by
      simp only [flatMap_cons, SstWriter.encodeIndexEntry, append_assoc]
    have hrest := ih (before ++ SstWriter.encodeIndexEntry entry) hkeys hoffsets
    rw [append_assoc, ← append_assoc _ _ after, ← flatMap_cons] at hrest
    have htotal : (before ++ ((entry :: index).flatMap SstWriter.encodeIndexEntry ++ after)).length =
        before.length + (4 + entry.key.length + 8 +
          (index.flatMap SstWriter.encodeIndexEntry ++ after).length) := by
      rw [flatMap_cons, append_assoc, length_append, length_append,
        length_encodeIndexEntry]
    have hkeyLen : word (before ++ ((entry :: index).flatMap SstWriter.encodeIndexEntry ++ after))
        before.length 4 = entry.key.length :=
      (word_at before _ hdata rfl).trans (mod_eq_of_lt hkey)
    have hkeyBytes : bytesAt (before ++ ((entry :: index).flatMap SstWriter.encodeIndexEntry ++
        after)) (before.length + 4) entry.key.length = entry.key := by
      refine bytesAt_at (before ++ be 4 entry.key.length) (be 8 entry.offset ++
        (index.flatMap SstWriter.encodeIndexEntry ++ after)) ?_ ?_ rfl
      · rw [hdata, append_assoc]
      · rw [length_append, be_length]
    have hword : word (before ++ ((entry :: index).flatMap SstWriter.encodeIndexEntry ++ after))
        (before.length + 4 + entry.key.length) 8 = entry.offset := by
      refine (word_at (before ++ (be 4 entry.key.length ++ entry.key))
        (index.flatMap SstWriter.encodeIndexEntry ++ after) ?_ ?_).trans (mod_eq_of_lt hoffset)
      · simp only [hdata, append_assoc]
      · simp only [length_append, be_length, add_assoc]
    have hnext : before.length + 4 + entry.key.length + 8 =
        (before ++ SstWriter.encodeIndexEntry entry).length := by
      rw [length_append, length_encodeIndexEntry]
      omega
    have hadd : (usizeAdd before.length 4 : Result Nat) = .ok (before.length + 4) :=
      if_pos (by omega)
    rw [length_cons, readIndex, hadd, ok_bind]
    refine check_bind_eq_ok.mpr ⟨by omega, ?_⟩
    rw [numberAt_eq (by omega), ok_bind, hkeyLen, sliceAt_eq (by omega), ok_bind,
      hkeyBytes, numberAt_eq (by omega), ok_bind, hword, hnext, hrest (by omega)]
    rfl

variable {env : WriterEnv}

theorem length_blockFrame (env : WriterEnv) {b : List Entry} (h : b ≠ []) :
    0 < (blockFrame env b).length := by
  unfold blockFrame frame
  split
  · exact length_pos_iff.mpr (stream_ne_nil h)
  · dsimp only
    split_ifs <;> exact succ_pos _

theorem decompressFrame_frame (hlz4 : ∀ block, env.lz4.decompress (env.lz4.compress block)
    block.length = .ok block) (hcompression : env.compression = .lz4) (before after : Bytes)
    {block : Bytes} (h : block.length ≤ maxBlockUncompLen) :
    decompressFrame env.lz4 (before ++ (frame env block ++ after)) before.length
      (before.length + (frame env block).length) = .ok block := by
  have hmax : maxBlockUncompLen < 256 ^ 4 := by decide
  -- either frame is a flag, two lengths and a payload
  have hframe : ∀ (flag : Nat) (payload : Bytes), flag < 256 ^ 1 → payload.length ≤ block.length →
      frame env block = be 1 flag ++ (be 4 block.length ++ (be 4 payload.length ++ payload)) →
      decompressFrame env.lz4 (before ++ (frame env block ++ after)) before.length
        (before.length + (frame env block).length) =
        decodePayload env.lz4 flag block.length payload := by
    intro flag payload hflag hpayload hframe
    have hlen : (frame env block).length = 9 + payload.length := by
      rw [hframe]
      simp only [length_append, be_length]
      omega
    have htotal : (before ++ (frame env block ++ after)).length =
        before.length + (9 + payload.length + after.length) := by
      rw [length_append, length_append, hlen]
    have hword0 : word (before ++ (frame env block ++ after)) before.length 1 = flag :=
      (word_at before (be 4 block.length ++ (be 4 payload.length ++ (payload ++ after)))
        (by simp only [hframe, append_assoc]) rfl).trans (mod_eq_of_lt hflag)
    have hword1 : word (before ++ (frame env block ++ after)) (before.length + 1) 4 = block.length :=
      (word_at (before ++ be 1 flag) (be 4 payload.length ++ (payload ++ after))
        (by simp only [hframe, append_assoc]) (by simp)).trans
        (mod_eq_of_lt (h.trans_lt hmax))
    have hword5 : word (before ++ (frame env block ++ after)) (before.length + 5) 4 =
        payload.length :=
      (word_at (before ++ (be 1 flag ++ be 4 block.length)) (payload ++ after)
        (by simp only [hframe, append_assoc]) (by simp)).trans
        (mod_eq_of_lt ((hpayload.trans h).trans_lt hmax))
    have hbytes : bytesAt (before ++ (frame env block ++ after)) (before.length + 9)
        payload.length = payload :=
      bytesAt_at (before ++ (be 1 flag ++ (be 4 block.length ++ be 4 payload.length))) after
        (by simp only [hframe, append_assoc]) (by simp) rfl
    have hcheck : ∀ {cond : Prop} [Decidable cond] (message : String), cond →
        (check cond message : Result Unit) = .ok () := fun _ hc => if_pos hc
    unfold decompressFrame
    rw [hcheck _ (by rw [hlen, blockFrameHeader]; omega), ok_bind,
      numberAt_eq (by omega), ok_bind, numberAt_eq (by omega), ok_bind,
      numberAt_eq (by omega), ok_bind, hword0, hword1, hword5, blockFrameHeader]
    dsimp only
    rw [hcheck _ (by rw [hlen]; omega), ok_bind, hcheck _ h, ok_bind,
      sliceAt_eq (by omega), ok_bind, hbytes]
  by_cases hshort : (env.lz4.compress block).length < block.length
  · have hcompressed : frame env block = be 1 1 ++ (be 4 block.length ++
        (be 4 (env.lz4.compress block).length ++ env.lz4.compress block)) := by
      simp only [frame, hcompression, if_pos hshort]
      rfl
    rw [hframe 1 _ (by decide) hshort.le hcompressed]
    unfold decodePayload
    rw [hlz4 block]
    exact check_bind_eq_ok.mpr ⟨rfl, rfl⟩
  · have hraw : frame env block = be 1 0 ++ (be 4 block.length ++ (be 4 block.length ++ block)) := by
      simp only [frame, hcompression, if_neg hshort]
      rfl
    rw [hframe 0 block (by decide) le_rfl hraw]
    exact check_bind_eq_ok.mpr ⟨rfl, rfl⟩

structure Holds (env : WriterEnv) (r : SstReader) (bs : List (List Entry)) : Prop where
  data : ∃ after, r.data = fileHeader env ++ (dataRegion env bs ++ after)
  index : r.index = indexFrom env 8 bs
  dataEnd : r.dataEnd = indexStart env bs
  version : r.version = fileVersion env

variable {r : SstReader} {bs bs' : List (List Entry)} {b : List Entry}

theorem Holds.block_at (h : Holds env r (bs ++ b :: bs')) :
    ∃ before after, r.data = before ++ (blockFrame env b ++ after) ∧
      before.length + (blockFrame env b).length ≤ r.dataEnd ∧
      r.block env.lz4 bs.length = (check (before.length ≤ before.length + (blockFrame env b).length ∧
          before.length + (blockFrame env b).length ≤ r.dataEnd) "block bounds out of range" >>=
        fun _ => if fileVersion env < sstVersionCompressed then
            sliceAt r.data before.length (blockFrame env b).length
          else decompressFrame env.lz4 r.data before.length
            (before.length + (blockFrame env b).length)) := by
  obtain ⟨after, hdata⟩ := h.data
  have hregion : dataRegion env (bs ++ b :: bs') =
      dataRegion env bs ++ (blockFrame env b ++ dataRegion env bs') := by
    simp only [dataRegion, flatMap_append, flatMap_cons]
  have hoffset : 8 + (dataRegion env bs).length = (fileHeader env ++ dataRegion env bs).length := by
    rw [length_append, length_fileHeader]
  have hend : r.dataEnd = (fileHeader env ++ dataRegion env bs).length +
      ((blockFrame env b).length + (dataRegion env bs').length) := by
    rw [h.dataEnd, indexStart, hregion, length_append, length_append, ← add_assoc,
      hoffset]
  have hentry : r.index[bs.length]? =
      some ⟨firstKey b, (fileHeader env ++ dataRegion env bs).length⟩ := by
    rw [h.index, indexFrom_append, getElem?_append_right (length_indexFrom _ _ _).le,
      length_indexFrom, Nat.sub_self, ← hoffset]
    rfl
  have hnext : r.blockEndOffset bs.length =
      (fileHeader env ++ dataRegion env bs).length + (blockFrame env b).length := by
    unfold SstReader.blockEndOffset
    have hlen : (indexFrom env 8 bs).length ≤ bs.length + 1 := by
      rw [length_indexFrom]
      exact le_succ _
    rw [h.index, indexFrom_append, getElem?_append_right hlen, length_indexFrom,
      Nat.add_sub_cancel_left]
    cases bs' with
    | nil =>
      have hdrop : dataRegion env [] = [] := rfl
      rw [hend, hdrop, length_nil, add_zero]
      rfl
    | cons b' bs' =>
      rw [← hoffset]
      rfl
  refine ⟨fileHeader env ++ dataRegion env bs, dataRegion env bs' ++ after, ?_, by omega, ?_⟩
  · rw [hdata, hregion]
    simp only [append_assoc]
  · unfold SstReader.block
    rw [hentry]
    dsimp only
    rw [hnext, h.version, Nat.add_sub_cancel_left]

theorem Holds.block_eq (h : Holds env r (bs ++ b :: bs'))
    (hlz4 : ∀ block, env.lz4.decompress (env.lz4.compress block) block.length = .ok block)
    (hb : env.compression = .lz4 → (stream b).length ≤ maxBlockUncompLen) :
    r.block env.lz4 bs.length = .ok (stream b) := by
  obtain ⟨before, after, hdata, hend, hblock⟩ := h.block_at
  rw [hblock]
  refine check_bind_eq_ok.mpr ⟨⟨le_add_right _ _, hend⟩, ?_⟩
  cases hcompression : env.compression with
  | none =>
    have hversion : fileVersion env < sstVersionCompressed := by
      simp only [fileVersion, hcompression]
      decide
    have hframe : blockFrame env b = stream b := by
      simp only [blockFrame, frame, hcompression]
    rw [if_pos hversion, hdata, hframe, sliceAt_eq (by simp)]
    exact congrArg _ (bytesAt_append before (stream b) after)
  | lz4 =>
    have hversion : ¬ fileVersion env < sstVersionCompressed := by
      simp only [fileVersion, hcompression]
      decide
    rw [if_neg hversion, hdata]
    exact decompressFrame_frame hlz4 hcompression before after (hb hcompression)

end

variable {env : WriterEnv} {r : SstReader} {bs bs' : List (List Entry)}

def BlockFits (env : WriterEnv) (b : List Entry) : Prop :=
  (∀ e ∈ b, EntryFits e) ∧ (env.compression = .lz4 → (stream b).length ≤ maxBlockUncompLen)

def Lossless (lz4 : Lz4) : Prop :=
  ∀ block, lz4.decompress (lz4.compress block) block.length = .ok block

theorem Holds.entriesOfBlocks (h : Holds env r (bs ++ bs')) (hlz4 : Lossless env.lz4)
    (hfit : ∀ b ∈ bs', BlockFits env b) :
    r.entriesOfBlocks env.lz4 bs'.length bs.length = .ok bs'.flatten := by
  induction bs' generalizing bs with
  | nil => rfl
  | cons b bs' ih =>
    obtain ⟨hb, hbs'⟩ := forall_mem_cons.mp hfit
    have happend : bs ++ b :: bs' = (bs ++ [b]) ++ bs' := append_cons bs b bs'
    have hrest := ih (happend ▸ h) hbs'
    rw [length_append, length_singleton] at hrest
    have hentries : entriesFrom (stream b) 0 = .ok b := entriesFrom_stream [] hb.1
    rw [length_cons, SstReader.entriesOfBlocks, h.block_eq hlz4 hb.2, ok_bind,
      hentries, ok_bind, hrest]
    rfl

theorem Holds.iterBlocks (h : Holds env r (bs ++ bs')) (hlz4 : Lossless env.lz4)
    (hfit : ∀ b ∈ bs', BlockFits env b) :
    r.iterBlocks env.lz4 bs'.length bs.length 0 = .ok bs'.flatten := by
  induction bs' generalizing bs with
  | nil => rfl
  | cons b bs' ih =>
    obtain ⟨hb, hbs'⟩ := forall_mem_cons.mp hfit
    have happend : bs ++ b :: bs' = (bs ++ [b]) ++ bs' := append_cons bs b bs'
    have hrest := ih (happend ▸ h) hbs'
    rw [length_append, length_singleton] at hrest
    have hentries : iterEntries (stream b) 0 = .ok (b, true) := iterEntries_stream [] hb.1
    rw [length_cons, SstReader.iterBlocks, h.block_eq hlz4 hb.2]
    dsimp only
    rw [hentries, ok_bind]
    rw [if_pos rfl, hrest]
    rfl

theorem Holds.iter (h : Holds env r bs) (hlz4 : Lossless env.lz4)
    (hfit : ∀ b ∈ bs, BlockFits env b) (hne : ∀ b ∈ bs, b ≠ []) :
    r.iter env.lz4 = .ok bs.flatten := by
  unfold SstReader.iter SstReader.iterFrom
  cases bs with
  | nil =>
    rw [if_pos (.inl (by rw [h.index]; rfl))]
    rfl
  | cons b bs =>
    have hpos : 0 < (blockFrame env b).length := length_blockFrame env (hne b mem_cons_self)
    have hend : 8 < r.dataEnd := by
      rw [h.dataEnd, indexStart, dataRegion, flatMap_cons, length_append]
      omega
    have hindex : r.index = ⟨firstKey b, 8⟩ :: indexFrom env (8 + (blockFrame env b).length) bs :=
      h.index
    have hfirst : r.blockIdxForOffset 8 = 0 := by
      unfold SstReader.blockIdxForOffset
      rw [hindex, findIdx?_cons,
        if_neg fun hlt => lt_irrefl 8 (of_decide_eq_true hlt)]
      cases bs with
      | nil => rfl
      | cons b' bs =>
        have hlater : decide (8 < 8 + (blockFrame env b).length) = true := by
          rw [decide_eq_true_iff]
          omega
        rw [indexFrom, findIdx?_cons, if_pos hlater]
        rfl
    have hempty : ¬ (r.index.isEmpty = true ∨ r.dataEnd ≤ sstMagic.length + 4) := by
      rw [hindex]
      rintro (hnil | hle)
      · cases hnil
      · exact absurd hend (not_lt.mpr hle)
    have hlen : r.index.length = (b :: bs).length := by
      rw [h.index, length_indexFrom]
    have hall : Holds env r ([] ++ b :: bs) := h
    have hblocks := hall.iterBlocks hlz4 hfit
    rw [if_neg hempty]
    change r.iterBlocks env.lz4 (r.index.length - r.blockIdxForOffset 8) (r.blockIdxForOffset 8)
      (8 - (r.index.map IndexEntry.offset).getD (r.blockIdxForOffset 8) 0) = _
    rw [hfirst, hindex]
    rw [hindex] at hlen
    rw [hlen]
    exact hblocks

end RhypeDb.Storage.SstBytes
