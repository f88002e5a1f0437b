import RhypeDb.Storage.SstOpen

/-! `SstWriter` of `sst.rs` over the bytes of a file: blocks of 16 entries, then the sparse index, the
zone map, the filter and the footer. Lengths and counts are cast to the 32 bits that they are written
in. -/

namespace RhypeDb.Storage.SstBytes

open ByteOrder ByteReader List Nat

abbrev Entry := Bytes × Option Bytes

section

structure WriterEnv where
  lz4 : Lz4
  xxh3 : Xxh3
  zoneExtractor : Option (Bytes → Bytes → List (UInt32 × UInt64))
  compression : SstCompression

def zoneBlock (b : ZoneBuilder) : Bytes :=
  be 4 b.bounds.length ++ (be 4 b.fieldIds.length ++ (b.fieldIds.flatMap (fun id => be 4 id.toNat) ++
    b.bounds.flatMap fun row => row.flatMap fun bound => be 8 bound.1.toNat ++ be 8 bound.2.toNat))

def hashAlgoByte : HashAlgo → Byte
  | .fnv1a => 0
  | .xxh3 => 1

/-- Bit `i` is bit `i % 8` of byte `i / 8`. -/
def packBits (bits : List Bool) : Bytes :=
  (List.range (bits.length / 8)).map fun byte => Fin.ofNat 256
    ((List.range 8).map fun bit => if bits.getD (8 * byte + bit) false then 2 ^ bit else 0).sum

def bloomBlock (f : Storage.BloomFilter) : Bytes :=
  hashAlgoByte f.algo :: (be 4 f.numBits.toNat ++ (be 1 f.k ++ packBits f.bits))

structure SstWriter where
  out : Bytes
  index : List IndexEntry
  currentOffset : Nat
  entryCount : Nat
  userKeys : List Bytes
  zoneBuilder : ZoneBuilder
  blockBuf : Bytes

variable (env : WriterEnv)

def fileVersion : Nat :=
  match env.compression with
  | .none => 5
  | .lz4 => 6

def frame (block : Bytes) : Bytes :=
  match env.compression with
  | .none => block
  | .lz4 =>
    let compressed := env.lz4.compress block
    if compressed.length < block.length then
      1 :: (be 4 block.length ++ (be 4 compressed.length ++ compressed))
    else 0 :: (be 4 block.length ++ (be 4 block.length ++ block))

def encodeEntry (e : Entry) : Bytes :=
  be 4 e.1.length ++ (be 4 (e.2.elim tombstoneMarker List.length) ++ (e.1 ++ e.2.getD []))

def recordZone (b : ZoneBuilder) (entryCount : Nat) (e : Entry) : ZoneBuilder :=
  match env.zoneExtractor, e.2 with
  | some extractor, some value =>
    let zoneFields := extractor e.1 value
    if zoneFields.isEmpty then b else b.record (entryCount / entriesPerBlock) zoneFields
  | _, _ => b

def recordUserKey (userKeys : List Bytes) (key : Bytes) : List Bytes :=
  if 8 ≤ key.length then
    let userKey := key.take (key.length - 8)
    if userKeys.getLast? = some userKey then userKeys else userKeys ++ [userKey]
  else userKeys

namespace SstWriter

def new : SstWriter :=
  { out := sstMagic ++ be 4 (fileVersion env), index := [], currentOffset := 8, entryCount := 0
    userKeys := [], zoneBuilder := .new, blockBuf := [] }

def flushBlock (w : SstWriter) : SstWriter :=
  if w.blockBuf = [] then w
  else
    { w with
      out := w.out ++ frame env w.blockBuf
      currentOffset := w.currentOffset + (frame env w.blockBuf).length
      blockBuf := [] }

def startBlock (w : SstWriter) (key : Bytes) : SstWriter :=
  if w.entryCount % entriesPerBlock = 0 then
    let w := w.flushBlock env
    { w with index := w.index ++ [⟨key, w.currentOffset⟩] }
  else w

def add (w : SstWriter) (e : Entry) : SstWriter :=
  let w := w.startBlock env e.1
  { w with
    zoneBuilder := recordZone env w.zoneBuilder w.entryCount e
    userKeys := recordUserKey w.userKeys e.1
    blockBuf := w.blockBuf ++ encodeEntry e
    entryCount := w.entryCount + 1 }

def encodeIndexEntry (entry : IndexEntry) : Bytes :=
  be 4 entry.key.length ++ (entry.key ++ be 8 entry.offset)

def finish (w : SstWriter) : Bytes :=
  let w := w.flushBlock env
  let index := w.index.flatMap encodeIndexEntry
  let zone := zoneBlock w.zoneBuilder
  let bloom := bloomBlock (BloomFilter.ofKeys env.xxh3 w.userKeys)
  let zonemapOffset := w.currentOffset + index.length
  let zonemapSize := zone.length % 2 ^ 32
  let bloomOffset := zonemapOffset + zonemapSize
  w.out ++ (index ++ (zone ++ (bloom ++ (be 8 zonemapOffset ++ (be 4 zonemapSize ++
    (be 8 bloomOffset ++ (be 4 bloom.length ++ (be 8 w.currentOffset ++
      (be 4 w.index.length ++ sstMagic)))))))))

end SstWriter

def writeAll (es : List Entry) : Bytes := (es.foldl (SstWriter.add env) (.new env)).finish env

end

section

variable (env : WriterEnv) {b : List Entry}

def stream (es : List Entry) : Bytes := es.flatMap encodeEntry

def blocks (es : List Entry) : List (List Entry) :=
  if es = [] then [] else es.take entriesPerBlock :: blocks (es.drop entriesPerBlock)
termination_by es.length
decreasing_by
  rename_i hne
  have hpos := List.length_pos_iff.mpr hne
  rw [List.length_drop, entriesPerBlock]
  omega

theorem blocks_nil : blocks [] = [] := by
  rw [blocks, if_pos rfl]

theorem blocks_append {es : List Entry} (h : b.length = entriesPerBlock) :
    blocks (b ++ es) = b :: blocks es := by
  have hne : b ++ es ≠ [] := fun hnil => by
    rw [(append_eq_nil_iff.mp hnil).1] at h
    cases h
  rw [blocks, if_neg hne, ← h, take_left, drop_left]

theorem blocks_last (hne : b ≠ []) (h : b.length ≤ entriesPerBlock) : blocks b = [b] := by
  rw [blocks, if_neg hne, take_of_length_le h, drop_eq_nil_of_le h, blocks, if_pos rfl]

theorem blocks_flatten_append {full : List (List Entry)}
    (hfull : ∀ b ∈ full, b.length = entriesPerBlock) (hne : b ≠ [])
    (h : b.length ≤ entriesPerBlock) : blocks (full.flatten ++ b) = full ++ [b] := by
  induction full with
  | nil => exact blocks_last hne h
  | cons b' full ih =>
    obtain ⟨hb', hfull⟩ := forall_mem_cons.mp hfull
    rw [flatten_cons, append_assoc, blocks_append hb', ih hfull, cons_append]

def blockFrame (b : List Entry) : Bytes := frame env (stream b)

def firstKey (b : List Entry) : Bytes := (b.head?.map Prod.fst).getD []

def indexFrom : Nat → List (List Entry) → List IndexEntry
  | _, [] => []
  | offset, b :: bs => ⟨firstKey b, offset⟩ :: indexFrom (offset + (blockFrame env b).length) bs

theorem length_indexFrom (offset : Nat) (bs : List (List Entry)) :
    (indexFrom env offset bs).length = bs.length := by
  induction bs generalizing offset with
  | nil => rfl
  | cons b bs ih => rw [indexFrom, length_cons, ih, length_cons]

theorem indexFrom_append (offset : Nat) (bs bs' : List (List Entry)) :
    indexFrom env offset (bs ++ bs') = indexFrom env offset bs ++
      indexFrom env (offset + (bs.flatMap (blockFrame env)).length) bs' := by
  induction bs generalizing offset with
  | nil => rfl
  | cons b bs ih =>
    rw [cons_append, indexFrom, ih, indexFrom, cons_append, flatMap_cons,
      length_append, add_assoc]

def zones (es : List Entry) : ZoneBuilder :=
  es.zipIdx.foldl (fun b p => recordZone env b p.2 p.1) .new

def fileHeader : Bytes := sstMagic ++ be 4 (fileVersion env)

theorem length_fileHeader : (fileHeader env).length = 8 := by
  rfl

structure Wrote (es : List Entry) (w : SstWriter) (full : List (List Entry)) (b : List Entry) :
    Prop where
  entries : es = full.flatten ++ b
  closed : ∀ b ∈ full, b.length = entriesPerBlock
  length : b.length ≤ entriesPerBlock
  empty : b = [] → full = []
  out : w.out = fileHeader env ++ full.flatMap (blockFrame env)
  index : w.index = indexFrom env 8 (full ++ if b = [] then [] else [b])
  currentOffset : w.currentOffset = w.out.length
  entryCount : w.entryCount = es.length
  zoneBuilder : w.zoneBuilder = zones env es
  blockBuf : w.blockBuf = stream b

theorem stream_ne_nil (h : b ≠ []) : stream b ≠ [] := by
  obtain ⟨e, b, rfl⟩ := exists_cons_of_ne_nil h
  intro hnil
  have hlen := congrArg List.length hnil
  simp [stream, encodeEntry] at hlen

variable {env} {es : List Entry} {w : SstWriter} {full : List (List Entry)}

theorem Wrote.flushBlock (h : Wrote env es w full b) :
    (w.flushBlock env).out = fileHeader env ++ (full ++ if b = [] then [] else [b]).flatMap
      (blockFrame env) ∧ (w.flushBlock env).currentOffset = (w.flushBlock env).out.length ∧
      (w.flushBlock env).index = w.index ∧ (w.flushBlock env).blockBuf = [] ∧
      (w.flushBlock env).zoneBuilder = w.zoneBuilder ∧
      (w.flushBlock env).entryCount = w.entryCount := by
  unfold SstWriter.flushBlock
  by_cases hb : b = []
  · have hbuf : w.blockBuf = [] := by rw [h.blockBuf, hb]; rfl
    rw [if_pos hbuf, if_pos hb, append_nil]
    exact ⟨h.out, h.currentOffset, rfl, hbuf, rfl, rfl⟩
  · have hbuf : w.blockBuf ≠ [] := h.blockBuf ▸ stream_ne_nil hb
    rw [if_neg hbuf, if_neg hb]
    refine ⟨?_, ?_, rfl, rfl, rfl, rfl⟩
    · rw [flatMap_append, flatMap_singleton, ← append_assoc, ← h.out, h.blockBuf]
      rfl
    · rw [length_append, h.currentOffset]

theorem zones_append (es : List Entry) (e : Entry) :
    zones env (es ++ [e]) = recordZone env (zones env es) es.length e := by
  unfold zones
  rw [zipIdx_append, foldl_append]
  simp

theorem Wrote.add (h : Wrote env es w full b) (e : Entry) :
    ∃ full' b', Wrote env (es ++ [e]) (w.add env e) full' b' := by
  have hlen : es.length = entriesPerBlock * full.length + b.length := by
    have hsum : full.flatten.length = entriesPerBlock * full.length := by
      rw [length_flatten, map_congr_left h.closed, map_const',
        sum_replicate_nat, mul_comm]
    rw [h.entries, length_append, hsum]
  have hbound := h.length
  by_cases hboundary : w.entryCount % entriesPerBlock = 0
  · obtain ⟨hout, hoffset, hindex, hbuf, hzone, hcount⟩ := h.flushBlock
    have hstart : w.startBlock env e.1 = { w.flushBlock env with
        index := (w.flushBlock env).index ++ [⟨e.1, (w.flushBlock env).currentOffset⟩] } :=
      if_pos hboundary
    have hclosed : ∀ b' ∈ full ++ (if b = [] then [] else [b]), b'.length = entriesPerBlock := by
      rw [h.entryCount, hlen] at hboundary
      intro b' hb'
      rcases mem_append.mp hb' with hb' | hb'
      · exact h.closed b' hb'
      · split_ifs at hb' with hb
        · cases hb'
        · rw [mem_singleton.mp hb']
          have hpos := length_pos_iff.mpr hb
          rw [entriesPerBlock] at *
          omega
    refine ⟨full ++ (if b = [] then [] else [b]), [e], ?_, hclosed,
      by rw [length_singleton]; decide, by simp, ?_, ?_, ?_,
      ?_, ?_, ?_⟩
    · rw [h.entries]
      split_ifs with hb
      · rw [hb, append_nil, append_nil]
      · rw [flatten_append, flatten_singleton]
    · simp only [SstWriter.add, hstart, hout]
    · have hoffset' : (w.flushBlock env).currentOffset =
          8 + ((full ++ if b = [] then [] else [b]).flatMap (blockFrame env)).length := by
        rw [hoffset, hout, length_append, length_fileHeader]
      simp only [SstWriter.add, hstart, hindex, h.index, hoffset', indexFrom_append env 8 _ [[e]],
        cons_ne_nil, if_false]
      rfl
    · simp only [SstWriter.add, hstart, hoffset]
    · simp only [SstWriter.add, hstart, hcount, h.entryCount, length_append]
      rfl
    · simp only [SstWriter.add, hstart, hzone, h.zoneBuilder, hcount, h.entryCount, zones_append]
    · simp only [SstWriter.add, hstart, hbuf]
      simp [stream]
  · have hne : b ≠ [] := by
      rintro rfl
      have hempty := h.empty rfl
      rw [h.entryCount, hlen, hempty] at hboundary
      exact hboundary rfl
    have hstart : w.startBlock env e.1 = w := if_neg hboundary
    have hshort : b.length < entriesPerBlock := by
      refine lt_of_le_of_ne h.length fun heq => hboundary ?_
      rw [h.entryCount, hlen, heq, ← mul_succ, mul_mod_right]
    have hne' : b ++ [e] ≠ [] := append_ne_nil_of_right_ne_nil b (cons_ne_nil e [])
    have hfirst : firstKey (b ++ [e]) = firstKey b := by
      obtain ⟨e', b, rfl⟩ := exists_cons_of_ne_nil hne
      rfl
    refine ⟨full, b ++ [e], ?_, h.closed, by rwa [length_append],
      fun hnil => absurd hnil hne', ?_, ?_, ?_, ?_, ?_, ?_⟩
    · rw [h.entries, append_assoc]
    · simp only [SstWriter.add, hstart, h.out]
    · simp only [SstWriter.add, hstart, h.index, if_neg hne, if_neg hne', indexFrom_append env 8 full,
        indexFrom, hfirst]
    · simp only [SstWriter.add, hstart, h.currentOffset]
    · simp only [SstWriter.add, hstart, h.entryCount, length_append]
      rfl
    · simp only [SstWriter.add, hstart, h.zoneBuilder, h.entryCount, zones_append]
    · simp only [SstWriter.add, hstart, h.blockBuf]
      simp [stream]

variable (env) in
theorem wrote_foldl (es : List Entry) :
    ∃ full b, Wrote env es (es.foldl (SstWriter.add env) (.new env)) full b := by
  induction es using List.reverseRecOn with
  | nil =>
    refine ⟨[], [], rfl, forall_mem_nil _, zero_le _, fun _ => rfl, ?_, rfl, ?_, rfl, rfl,
      rfl⟩
    · exact (append_nil _).symm
    · exact (length_fileHeader env).symm
  | append_singleton es e ih =>
    obtain ⟨full, b, h⟩ := ih
    rw [foldl_append]
    exact h.add e

end

variable (env : WriterEnv)

def footer (zonemapOffset zonemapSize bloomOffset bloomSize indexOffset indexCount : Nat) : Bytes :=
  words [(8, zonemapOffset), (4, zonemapSize), (8, bloomOffset), (4, bloomSize), (8, indexOffset),
    (4, indexCount)] ++ sstMagic

def dataRegion (bs : List (List Entry)) : Bytes := bs.flatMap (blockFrame env)

def indexRegion (bs : List (List Entry)) : Bytes :=
  (indexFrom env 8 bs).flatMap SstWriter.encodeIndexEntry

def indexStart (bs : List (List Entry)) : Nat := 8 + (dataRegion env bs).length

def zonemapStart (bs : List (List Entry)) : Nat := indexStart env bs + (indexRegion env bs).length

def layout (bs : List (List Entry)) (zone bloom : Bytes) : Bytes :=
  fileHeader env ++ (dataRegion env bs ++ (indexRegion env bs ++ (zone ++ (bloom ++
    footer (zonemapStart env bs) (zone.length % 2 ^ 32)
      (zonemapStart env bs + zone.length % 2 ^ 32) bloom.length (indexStart env bs) bs.length))))

theorem length_userKeys (es : List Entry) (w : SstWriter) :
    (es.foldl (SstWriter.add env) w).userKeys.length ≤ w.userKeys.length + es.length := by
  have hflush : ∀ w : SstWriter, (w.flushBlock env).userKeys = w.userKeys := by
    intro w
    unfold SstWriter.flushBlock
    split_ifs <;> rfl
  have hadd : ∀ (w : SstWriter) (e : Entry),
      (w.add env e).userKeys.length ≤ w.userKeys.length + 1 := by
    intro w e
    have hstart : (w.startBlock env e.1).userKeys = w.userKeys := by
      unfold SstWriter.startBlock
      split_ifs
      · exact hflush w
      · rfl
    simp only [SstWriter.add, hstart, recordUserKey]
    split_ifs
    · exact le_succ _
    · rw [length_append]
      rfl
    · exact le_succ _
  induction es generalizing w with
  | nil => exact le_rfl
  | cons e es ih =>
    have hrest := ih (w.add env e)
    have he := hadd w e
    rw [length_cons]
    exact hrest.trans (by omega)

theorem writeAll_eq (es : List Entry) : ∃ userKeys : List Bytes, userKeys.length ≤ es.length ∧
    writeAll env es = layout env (blocks es) (zoneBlock (zones env es))
      (bloomBlock (BloomFilter.ofKeys env.xxh3 userKeys)) := by
  obtain ⟨full, b, h⟩ := wrote_foldl env es
  have hkeys : ((es.foldl (SstWriter.add env) (.new env)).flushBlock env).userKeys =
      (es.foldl (SstWriter.add env) (.new env)).userKeys := by
    unfold SstWriter.flushBlock
    split_ifs <;> rfl
  refine ⟨((es.foldl (SstWriter.add env) (.new env)).flushBlock env).userKeys,
    hkeys ▸ (length_userKeys env es (.new env)).trans (zero_add _).le, ?_⟩
  have hblocks : full ++ (if b = [] then [] else [b]) = blocks es := by
    rw [h.entries]
    split_ifs with hb
    · rw [hb, h.empty hb]
      exact blocks_nil.symm
    · exact (blocks_flatten_append h.closed hb h.length).symm
  obtain ⟨hout, hoffset, hindex, -, hzone, -⟩ := h.flushBlock
  rw [hblocks] at hout
  have hstart : ((es.foldl (SstWriter.add env) (.new env)).flushBlock env).currentOffset =
      indexStart env (blocks es) := by
    rw [hoffset, hout, length_append, length_fileHeader]
    rfl
  have hentries : ((es.foldl (SstWriter.add env) (.new env)).flushBlock env).index =
      indexFrom env 8 (blocks es) := by
    rw [hindex, h.index, hblocks]
  unfold writeAll SstWriter.finish layout
  simp only [hout, hstart, hentries, hzone, h.zoneBuilder, length_indexFrom, append_assoc]
  rfl

variable {env} {bs : List (List Entry)} {zone bloom : Bytes} {data : Bytes}

theorem word_at {pos w n : Nat} (before after : Bytes)
    (h : data = before ++ (be w n ++ after)) (hpos : pos = before.length) :
    word data pos w = n % 256 ^ w := by
  rw [h, hpos, word_append]

theorem bytesAt_at {bytes : Bytes} {pos n : Nat} (before after : Bytes)
    (h : data = before ++ (bytes ++ after)) (hpos : pos = before.length) (hn : n = bytes.length) :
    bytesAt data pos n = bytes := by
  rw [h, hpos, hn, bytesAt_append]

variable (env bs zone bloom) in
theorem headerVersion_layout : headerVersion (layout env bs zone bloom) = fileVersion env := by
  have hversion : fileVersion env % 256 ^ 4 = fileVersion env := by
    unfold fileVersion
    cases env.compression <;> rfl
  refine (word_at sstMagic _ (append_assoc _ _ _) rfl).trans hversion

structure Footed (data : Bytes) (zo zs bo bloomSize io ic : Nat) : Prop where
  zonemap : zonemapSection data = ⟨zo % 256 ^ 8, zs % 256 ^ 4⟩
  bloom : bloomSection data = ⟨bo % 256 ^ 8, bloomSize % 256 ^ 4⟩
  indexOffset : SstBytes.indexOffset data = io % 256 ^ 8
  indexCount : SstBytes.indexCount data = ic % 256 ^ 4
  magic : bytesAt data (data.length - 4) 4 = sstMagic

theorem length_footer (zo zs bo bloomSize io ic : Nat) :
    (footer zo zs bo bloomSize io ic).length = 40 := by
  rfl

theorem footed (before : Bytes) (zo zs bo bloomSize io ic : Nat) :
    Footed (before ++ footer zo zs bo bloomSize io ic) zo zs bo bloomSize io ic := by
  have hlen : (before ++ footer zo zs bo bloomSize io ic).length = before.length + 40 := by
    rw [length_append, length_footer]
  have hword : ∀ i w n k, [(8, zo), (4, zs), (8, bo), (4, bloomSize), (8, io), (4, ic)][i]? =
      some (w, n) → k + (([(8, zo), (4, zs), (8, bo), (4, bloomSize), (8, io), (4, ic)].take i).map
        Prod.fst).sum = 40 →
      word (before ++ footer zo zs bo bloomSize io ic)
        ((before ++ footer zo zs bo bloomSize io ic).length - k) w = n % 256 ^ w := by
    intro i w n k hi hk
    have hpos : (before ++ footer zo zs bo bloomSize io ic).length - k = before.length +
        (([(8, zo), (4, zs), (8, bo), (4, bloomSize), (8, io), (4, ic)].take i).map Prod.fst).sum := by
      omega
    rw [hpos]
    exact word_words before _ sstMagic hi
  have hmagic : (before ++ footer zo zs bo bloomSize io ic).length - 4 = (before ++ words [(8, zo),
      (4, zs), (8, bo), (4, bloomSize), (8, io), (4, ic)]).length := by
    rw [hlen, length_append, length_words]
    rfl
  refine ⟨congrArg₂ Section.mk (hword 0 8 zo 40 rfl rfl) (hword 1 4 zs 32 rfl rfl),
    congrArg₂ Section.mk (hword 2 8 bo 28 rfl rfl) (hword 3 4 bloomSize 20 rfl rfl),
    hword 4 8 io 16 rfl rfl, hword 5 4 ic 8 rfl rfl, bytesAt_at _ [] ?_ hmagic rfl⟩
  rw [append_nil, footer, append_assoc]

end RhypeDb.Storage.SstBytes
