import RhypeDb.Basic.ByteOutcome
import RhypeDb.Storage.Sst

/-! `SstReader::open` of `sst.rs` over the bytes of a file, formats v1 to v6. Offsets and lengths
come from the file: a sum that leaves `usize`, a slice past the end and a capacity that no
allocation has stop the program. -/

namespace RhypeDb.Storage

def HashAlgo.fromByte : Byte → Option HashAlgo
  | 0 => some .fnv1a
  | 1 => some .xxh3
  | _ => none

namespace SstBytes

open ByteOrder ByteReader Fallible

/-- Every error is an `Error::SstCorrupted` with its message. -/
abbrev Result := Except (Stop String)

def sstMagic : Bytes := [0x52, 0x53, 0x53, 0x54]

def sstVersionMax : Nat := 6

def sstVersionCompressed : Nat := 6

def footerV1Size : Nat := 16

def footerV2Size : Nat := 28

def footerV4Size : Nat := 40

def blockFrameHeader : Nat := 9

def tombstoneMarker : Nat := 4294967295

structure BloomFilter where
  bits : Bytes
  numBits : Nat
  k : Nat
  mask : Option Nat
  algo : HashAlgo

def BloomFilter.readFrom (algo : HashAlgo) : Reader String BloomFilter := do
  let numBits ← number 4 "bloom: failed to fill whole buffer"
  let k ← number 1 "bloom: failed to fill whole buffer"
  let bits ← take ((numBits + 7) / 8) "bloom: failed to fill whole buffer"
  let mask := if 0 < numBits ∧ 2 ^ numBits.log2 = numBits then some (numBits - 1) else none
  return { bits, numBits, k, mask, algo }

structure ZoneMap where
  fieldIdToIdx : List (Nat × Nat)
  numFields : Nat
  bounds : List Nat

/-- `Vec::with_capacity` of so many `u64`s. -/
def withCapacity (count : Nat) : Reader String Unit :=
  if count * 8 < 2 ^ 63 then pure () else panic

def ZoneMap.readFrom : Reader String ZoneMap := do
  let numBlocks ← number 4 "zone map: failed to fill whole buffer"
  let numFields ← number 4 "zone map: failed to fill whole buffer"
  let fieldIds ← items (number 4 "zone map: failed to fill whole buffer") numFields
  let boundCount := numBlocks * numFields * 2
  withCapacity boundCount
  let bounds ← items (number 8 "zone map: failed to fill whole buffer") boundCount
  return { fieldIdToIdx := fieldIds.zipIdx.reverse, numFields, bounds }

def readBloom (data : Bytes) (version footerStart offset size : Nat) : Result BloomFilter := do
  check ((← usizeAdd offset size) ≤ footerStart) "bloom block extends past footer"
  let bloomSlice ← sliceAt data offset size
  if version = 2 then
    (BloomFilter.readFrom .fnv1a).decode bloomSlice
  else
    match bloomSlice with
    | [] => throw (.error (if version = 3 then "v3 bloom missing algo byte"
        else "v4/v5 bloom missing algo byte"))
    | b :: rest =>
      match HashAlgo.fromByte b with
      | none => throw (.error s!"unknown bloom algo byte: {b}")
      | some algo => (BloomFilter.readFrom algo).decode rest

def readZoneMap (data : Bytes) (version footerStart offset size : Nat) :
    Result (Option ZoneMap) := do
  check ((← usizeAdd offset size) ≤ footerStart) "zonemap extends past footer"
  if 5 ≤ version then
    return some (← ZoneMap.readFrom.decode (← sliceAt data offset size))
  else return none

structure Sections where
  indexOffset : Nat
  indexCount : Nat
  bloom : Option BloomFilter
  zoneMap : Option ZoneMap

def readFooterV4 (data : Bytes) (version : Nat) : Result Sections := do
  check (sstMagic.length + 4 + footerV4Size ≤ data.length) "v4/v5/v6 footer truncated"
  let footerStart := data.length - footerV4Size
  check ((← sliceAt data (footerStart + 36) 4) = sstMagic) "bad v4/v5 footer magic"
  let zonemapOffset ← numberAt data footerStart 8
  let zonemapSize ← numberAt data (footerStart + 8) 4
  let bloomOffset ← numberAt data (footerStart + 12) 8
  let bloomSize ← numberAt data (footerStart + 20) 4
  let indexOffset ← numberAt data (footerStart + 24) 8
  let indexCount ← numberAt data (footerStart + 32) 4
  let zoneMap ← readZoneMap data version footerStart zonemapOffset zonemapSize
  let bloom ← readBloom data version footerStart bloomOffset bloomSize
  return { indexOffset, indexCount, bloom := some bloom, zoneMap }

def readFooterV2 (data : Bytes) (version : Nat) : Result Sections := do
  check (sstMagic.length + 4 + footerV2Size ≤ data.length) "v2/v3 footer truncated"
  let footerStart := data.length - footerV2Size
  check ((← sliceAt data (footerStart + 24) 4) = sstMagic) "bad footer magic"
  let bloomOffset ← numberAt data footerStart 8
  let bloomSize ← numberAt data (footerStart + 8) 4
  let indexOffset ← numberAt data (footerStart + 12) 8
  let indexCount ← numberAt data (footerStart + 20) 4
  let bloom ← readBloom data version footerStart bloomOffset bloomSize
  return { indexOffset, indexCount, bloom := some bloom, zoneMap := none }

def readFooterV1 (data : Bytes) : Result Sections := do
  let footerStart := data.length - footerV1Size
  check ((← sliceAt data (footerStart + 12) 4) = sstMagic) "bad footer magic"
  let indexOffset ← numberAt data footerStart 8
  let indexCount ← numberAt data (footerStart + 8) 4
  return { indexOffset, indexCount, bloom := none, zoneMap := none }

def readFooter (data : Bytes) (version : Nat) : Result Sections :=
  if 4 ≤ version then readFooterV4 data version
  else if version = 2 ∨ version = 3 then readFooterV2 data version
  else readFooterV1 data

section

structure IndexEntry where
  key : Bytes
  offset : Nat

def readIndex (data : Bytes) : Nat → Nat → Result (List IndexEntry)
  | _, 0 => pure []
  | pos, count + 1 => do
    check ((← usizeAdd pos 4) ≤ data.length) "index truncated"
    let keyLen ← numberAt data pos 4
    let key ← sliceAt data (pos + 4) keyLen
    let offset ← numberAt data (pos + 4 + keyLen) 8
    return ⟨key, offset⟩ :: (← readIndex data (pos + 4 + keyLen + 8) count)

structure SstReader where
  data : Bytes
  index : List IndexEntry
  bloom : Option BloomFilter
  dataEnd : Nat
  firstUserKey : Option Bytes
  lastUserKey : Option Bytes
  zoneMap : Option ZoneMap
  version : Nat

/-- The crate `lz4_flex`. -/
structure Lz4 where
  compress : Bytes → Bytes
  decompress : Bytes → Nat → Except String Bytes

variable (lz4 : Lz4)

def decodePayload (flag uncompLen : Nat) (payload : Bytes) : Result Bytes :=
  match flag with
  | 0 => do
    check (payload.length = uncompLen) "v6 raw block length mismatch"
    return payload
  | 1 =>
    match lz4.decompress payload uncompLen with
    | .error e => throw (.error s!"v6 block lz4 decode: {e}")
    | .ok out => do
      check (out.length = uncompLen) "v6 block decompressed length mismatch"
      return out
  | other => throw (.error s!"v6 block unknown flag {other}")

def decompressFrame (data : Bytes) (start stop : Nat) : Result Bytes := do
  check (start + blockFrameHeader ≤ stop) "v6 block frame header truncated"
  let flag ← numberAt data start 1
  let uncompLen ← numberAt data (start + 1) 4
  let payloadLen ← numberAt data (start + 5) 4
  let payloadStart := start + blockFrameHeader
  check (payloadStart + payloadLen ≤ stop) "v6 block payload past frame end"
  check (uncompLen ≤ maxBlockUncompLen) s!"v6 block uncompressed length {uncompLen} exceeds cap"
  decodePayload lz4 flag uncompLen (← sliceAt data payloadStart payloadLen)

namespace SstReader

def blockEndOffset (r : SstReader) (blockIdx : Nat) : Nat :=
  ((r.index[blockIdx + 1]?).map IndexEntry.offset).getD r.dataEnd

def block (r : SstReader) (blockIdx : Nat) : Result Bytes :=
  match r.index[blockIdx]? with
  | none => .error .panic
  | some entry => do
    let start := entry.offset
    let stop := r.blockEndOffset blockIdx
    check (start ≤ stop ∧ stop ≤ r.dataEnd) "block bounds out of range"
    if r.version < sstVersionCompressed then sliceAt r.data start (stop - start)
    else decompressFrame lz4 r.data start stop

end SstReader

def valueBytes (valueLenRaw : Nat) : Nat := if valueLenRaw = tombstoneMarker then 0 else valueLenRaw

def lastUserKeyFrom (blk : Bytes) (pos : Nat) (last : Option Bytes) : Result (Option Bytes) :=
  if pos + 8 ≤ blk.length then do
    let keyLen ← numberAt blk pos 4
    let valueLenRaw ← numberAt blk (pos + 4) 4
    let keyStart := pos + 8
    if blk.length < keyStart + keyLen then return last
    else
      let last ← if 8 ≤ keyLen then some <$> sliceAt blk keyStart (keyLen - 8) else pure last
      lastUserKeyFrom blk (keyStart + keyLen + valueBytes valueLenRaw) last
  else return last
termination_by blk.length - pos

def SstReader.computeLastUserKey (r : SstReader) : Result (Option Bytes) := do
  if r.index.isEmpty then return none
  else lastUserKeyFrom (← r.block lz4 (r.index.length - 1)) 0 none

def firstUserKey (index : List IndexEntry) : Option Bytes :=
  match index with
  | [] => none
  | e :: _ => if 8 ≤ e.key.length then some (e.key.take (e.key.length - 8)) else none

def SstReader.open (data : Bytes) : Result SstReader := do
  check (sstMagic.length + 4 + footerV1Size ≤ data.length) "file too small"
  check ((← sliceAt data 0 4) = sstMagic) "bad magic"
  let version ← numberAt data 4 4
  check (1 ≤ version ∧ version ≤ sstVersionMax) s!"unsupported version: {version}"
  let sections ← readFooter data version
  let index ← readIndex data sections.indexOffset sections.indexCount
  let reader : SstReader :=
    { data, index, bloom := sections.bloom, dataEnd := sections.indexOffset
      firstUserKey := SstBytes.firstUserKey index, lastUserKey := none
      zoneMap := sections.zoneMap, version }
  return { reader with lastUserKey := ← reader.computeLastUserKey lz4 }

def headerVersion (data : Bytes) : Nat := word data 4 4

def footerSize (version : Nat) : Nat :=
  if 4 ≤ version then footerV4Size else if version = 1 then footerV1Size else footerV2Size

structure Recognized (data : Bytes) : Prop where
  size : 24 ≤ data.length
  magic : bytesAt data 0 4 = sstMagic
  version : 1 ≤ headerVersion data ∧ headerVersion data ≤ sstVersionMax
  footer : 8 + footerSize (headerVersion data) ≤ data.length
  footerMagic : bytesAt data (data.length - 4) 4 = sstMagic

/-- Sections of a file that lie before its footer, and whose contents are as long as they say. -/
structure Section where
  offset : Nat
  size : Nat

variable (data : Bytes)

def zonemapSection : Section := ⟨word data (data.length - 40) 8, word data (data.length - 32) 4⟩

def bloomSection : Section := ⟨word data (data.length - 28) 8, word data (data.length - 20) 4⟩

def indexOffset : Nat := word data (data.length - 16) 8

def indexCount : Nat := word data (data.length - 8) 4

def Section.Inside (s : Section) : Prop :=
  s.offset + s.size ≤ data.length - footerSize (headerVersion data)

def Section.bytes (s : Section) : Bytes := bytesAt data s.offset s.size

def zoneIds (bytes : Bytes) : Nat := 8 + 4 * word bytes 4 4

def zoneBounds (bytes : Bytes) : Nat := word bytes 0 4 * word bytes 4 4 * 2

def ZoneMapGuarded : Prop :=
  (zonemapSection data).offset + (zonemapSection data).size < 2 ^ 64 ∧
    ((zonemapSection data).Inside data → 5 ≤ headerVersion data →
      let bytes := (zonemapSection data).bytes data
      zoneIds bytes ≤ bytes.length → zoneBounds bytes * 8 < 2 ^ 63)

def ZoneMapFits : Prop :=
  (zonemapSection data).Inside data ∧ (5 ≤ headerVersion data →
    let bytes := (zonemapSection data).bytes data
    zoneIds bytes + 8 * zoneBounds bytes ≤ bytes.length)

def BloomPayload (bytes : Bytes) : Prop := 5 + (word bytes 0 4 + 7) / 8 ≤ bytes.length

def BloomBytes (version : Nat) (bytes : Bytes) : Prop :=
  if version = 2 then BloomPayload bytes
  else match bytes with
    | [] => False
    | b :: rest => (HashAlgo.fromByte b).isSome ∧ BloomPayload rest

def BloomFits : Prop :=
  (bloomSection data).Inside data ∧ BloomBytes (headerVersion data) ((bloomSection data).bytes data)

def IndexGuarded : Nat → Nat → Prop
  | _, 0 => True
  | pos, count + 1 => pos + 4 < 2 ^ 64 ∧ (pos + 4 ≤ data.length →
      pos + 4 + word data pos 4 + 8 ≤ data.length ∧
        IndexGuarded (pos + 4 + word data pos 4 + 8) count)

/-- The sums that are formed of a file's own numbers stay in `usize`, and its index entries are
whole, each as far as it is read. -/
def Guarded : Prop :=
  Recognized data → (4 ≤ headerVersion data → ZoneMapGuarded data) ∧
    ((4 ≤ headerVersion data → ZoneMapFits data) →
      (2 ≤ headerVersion data → (bloomSection data).offset + (bloomSection data).size < 2 ^ 64) ∧
      ((2 ≤ headerVersion data → BloomFits data) →
        IndexGuarded data (indexOffset data) (indexCount data)))

end

section

variable {data : Bytes} {size version footerStart offset : Nat}

theorem outcome_bloomFilter (algo : HashAlgo) (bytes : Bytes) :
    Outcome ((BloomFilter.readFrom algo).decode bytes) True (BloomPayload bytes) := by
  refine Outcome.congr (Outcome.decode (outcome_number 4 _ fun _ => outcome_number 1 _ fun _ =>
    outcome_take _ _ fun _ => Outcome.ok _)) (iff_of_true (fun _ _ _ => trivial) trivial) ?_
  unfold BloomPayload
  constructor
  · exact fun h => by omega
  · exact fun h => ⟨by omega, by omega, by omega, trivial⟩

theorem outcome_zoneMap (bytes : Bytes) :
    Outcome (ZoneMap.readFrom.decode bytes)
      (zoneIds bytes ≤ bytes.length → zoneBounds bytes * 8 < 2 ^ 63)
      (zoneIds bytes + 8 * zoneBounds bytes ≤ bytes.length) := by
  have hcap : ∀ {k : Unit → Reader String ZoneMap} {data : Bytes} {pos count : Nat}
      {guard fits : Prop}, Outcome ((k ()).run data pos) guard fits →
      Outcome ((withCapacity count >>= k).run data pos) (count * 8 < 2 ^ 63 ∧ guard) fits := by
    intro k data pos count guard fits hk
    unfold withCapacity
    split_ifs with h
    · exact hk.congr ⟨fun hg => ⟨h, hg⟩, And.right⟩ Iff.rfl
    · exact ⟨iff_of_false (fun hruns => hruns rfl) fun hg => h hg.1, fun hg => absurd hg.1 h⟩
  refine Outcome.congr (Outcome.decode (outcome_number 4 _ fun _ => outcome_number 4 _ fun h =>
    outcome_items_number 4 _ _ h fun h' _ => hcap (outcome_items_number 8 _ _ h' fun _ _ =>
      Outcome.ok _))) ?_ ?_
  · simp only [zoneIds, zoneBounds, Nat.zero_add]
    constructor
    · exact fun h hids => (h (by omega) (by omega) (by omega)).1
    · exact fun h _ _ hids => ⟨h (by omega), fun _ => trivial⟩
  · simp only [zoneIds, zoneBounds, Nat.zero_add]
    constructor
    · exact fun h => by omega
    · exact fun h => ⟨by omega, by omega, by omega, by omega, trivial⟩

theorem outcome_readZoneMap (h : footerStart ≤ data.length) :
    Outcome (readZoneMap data version footerStart offset size)
      (offset + size < 2 ^ 64 ∧ (offset + size ≤ footerStart → 5 ≤ version →
        zoneIds (bytesAt data offset size) ≤ (bytesAt data offset size).length →
          zoneBounds (bytesAt data offset size) * 8 < 2 ^ 63))
      (offset + size ≤ footerStart ∧ (5 ≤ version →
        zoneIds (bytesAt data offset size) + 8 * zoneBounds (bytesAt data offset size) ≤
          (bytesAt data offset size).length)) := by
  refine Outcome.add_bind (Outcome.check_bind fun hle => ?_)
  split_ifs with hversion
  · refine Outcome.slice_bind (hle.trans h) ?_
    exact ((outcome_zoneMap _).bind fun _ _ => Outcome.ok _).congr
      ⟨fun hg _ => hg.1, fun hg => ⟨hg hversion, fun _ => trivial⟩⟩
      ⟨fun hfits _ => hfits.1, fun hfits => ⟨hfits hversion, trivial⟩⟩
  · exact (Outcome.ok _).congr (iff_of_true trivial fun hge => absurd hge hversion)
      (iff_of_true trivial fun hge => absurd hge hversion)

theorem outcome_readBloom (h : footerStart ≤ data.length) :
    Outcome (readBloom data version footerStart offset size) (offset + size < 2 ^ 64)
      (offset + size ≤ footerStart ∧ BloomBytes version (bytesAt data offset size)) := by
  have hbytes : ∀ bytes : Bytes, Outcome
      (if version = 2 then (BloomFilter.readFrom .fnv1a).decode bytes
        else match bytes with
          | [] => throw (.error (if version = 3 then "v3 bloom missing algo byte"
              else "v4/v5 bloom missing algo byte"))
          | b :: rest =>
            match HashAlgo.fromByte b with
            | none => throw (.error s!"unknown bloom algo byte: {b}")
            | some algo => (BloomFilter.readFrom algo).decode rest)
      True (BloomBytes version bytes) := by
    intro bytes
    unfold BloomBytes
    by_cases hversion : version = 2
    · rw [if_pos hversion, if_pos hversion]
      exact outcome_bloomFilter _ bytes
    · rw [if_neg hversion, if_neg hversion]
      rcases bytes with _ | ⟨b, rest⟩
      · exact Outcome.error _
      · dsimp only
        cases HashAlgo.fromByte b with
        | none => exact (Outcome.error _).congr Iff.rfl (iff_of_false id fun hb => by cases hb.1)
        | some algo =>
          exact (outcome_bloomFilter algo rest).congr Iff.rfl ⟨fun hfits => ⟨rfl, hfits⟩, And.right⟩
  refine (Outcome.add_bind (Outcome.check_bind fun hle => Outcome.slice_bind (hle.trans h)
    (hbytes _))).congr ⟨And.left, fun hlt => ⟨hlt, fun _ => trivial⟩⟩ Iff.rfl

def IndexFits (data : Bytes) : Nat → Nat → Prop
  | _, 0 => True
  | pos, count + 1 => pos + 4 ≤ data.length ∧
      IndexFits data (pos + 4 + word data pos 4 + 8) count

theorem outcome_readIndex (pos count : Nat) :
    Outcome (readIndex data pos count) (IndexGuarded data pos count)
      (IndexFits data pos count) := by
  induction count generalizing pos with
  | zero => exact Outcome.ok []
  | succ count ih =>
    refine Outcome.add_bind (Outcome.check_bind fun hle => Outcome.number_bind hle ?_)
    have hrest := (ih (pos + 4 + word data pos 4 + 8)).bind fun rest _ =>
      Outcome.ok (ε := String) (IndexEntry.mk (bytesAt data (pos + 4) (word data pos 4))
        (word data (pos + 4 + word data pos 4) 8) :: rest)
    refine Outcome.congr (Outcome.slice_bind' fun _ => Outcome.number_bind' fun _ => hrest) ?_ ?_
    · exact ⟨fun hg => ⟨hg.2.1, hg.2.2.1⟩, fun hg => ⟨by omega, hg.1, hg.2, fun _ => trivial⟩⟩
    · exact ⟨And.left, fun hfits => ⟨hfits, trivial⟩⟩

theorem numberAt_footer (data : Bytes) {k w : Nat} (hsize : size ≤ data.length)
    (hk : k + w ≤ size) :
    (numberAt data (data.length - size + k) w : Result Nat) =
      .ok (word data (data.length - (size - k)) w) := by
  have hpos : data.length - size + k = data.length - (size - k) := by omega
  rw [hpos]
  exact numberAt_eq (by omega)

theorem numberAt_footerStart {w : Nat} (hsize : size ≤ data.length) (hk : w ≤ size) :
    (numberAt data (data.length - size) w : Result Nat) = .ok (word data (data.length - size) w) :=
  numberAt_eq (by omega)

theorem sliceAt_magic {k : Nat} (hsize : size ≤ data.length) (hk : k + 4 = size) :
    (sliceAt data (data.length - size + k) 4 : Result Bytes) =
      .ok (bytesAt data (data.length - 4) 4) := by
  have hpos : data.length - size + k = data.length - 4 := by omega
  rw [hpos]
  exact sliceAt_eq (by omega)

theorem readFooterV4_eq (version : Nat) (h : 48 ≤ data.length) :
    readFooterV4 data version = do
      check (bytesAt data (data.length - 4) 4 = sstMagic) "bad v4/v5 footer magic"
      let zoneMap ← readZoneMap data version (data.length - 40) (zonemapSection data).offset
        (zonemapSection data).size
      let bloom ← readBloom data version (data.length - 40) (bloomSection data).offset
        (bloomSection data).size
      return ⟨indexOffset data, indexCount data, some bloom, zoneMap⟩ := by
  have hsize : 40 ≤ data.length := by omega
  unfold readFooterV4 check
  rw [if_pos (show sstMagic.length + 4 + footerV4Size ≤ data.length from h)]
  simp (disch := decide) only [Fallible.ok_bind, footerV4Size, sliceAt_magic hsize,
    numberAt_footer data hsize, numberAt_footerStart hsize]
  rfl

theorem readFooterV2_eq (version : Nat) (h : 36 ≤ data.length) :
    readFooterV2 data version = do
      check (bytesAt data (data.length - 4) 4 = sstMagic) "bad footer magic"
      let bloom ← readBloom data version (data.length - 28) (bloomSection data).offset
        (bloomSection data).size
      return ⟨indexOffset data, indexCount data, some bloom, none⟩ := by
  have hsize : 28 ≤ data.length := by omega
  unfold readFooterV2 check
  rw [if_pos (show sstMagic.length + 4 + footerV2Size ≤ data.length from h)]
  simp (disch := decide) only [Fallible.ok_bind, footerV2Size, sliceAt_magic hsize,
    numberAt_footer data hsize, numberAt_footerStart hsize]
  rfl

theorem readFooterV1_eq (h : 24 ≤ data.length) :
    readFooterV1 data = do
      check (bytesAt data (data.length - 4) 4 = sstMagic) "bad footer magic"
      return ⟨indexOffset data, indexCount data, none, none⟩ := by
  have hsize : 16 ≤ data.length := by omega
  unfold readFooterV1
  simp (disch := decide) only [Fallible.ok_bind, footerV1Size, sliceAt_magic hsize,
    numberAt_footer data hsize, numberAt_footerStart hsize]
  rfl

theorem footerSize_cases (h : 1 ≤ version) :
    (4 ≤ version ∧ footerSize version = 40) ∨
      ((version = 2 ∨ version = 3) ∧ footerSize version = 28) ∨
      (version = 1 ∧ footerSize version = 16) := by
  unfold footerSize
  by_cases h4 : 4 ≤ version
  · exact .inl ⟨h4, if_pos h4⟩
  · by_cases h1 : version = 1
    · exact .inr (.inr ⟨h1, by rw [if_neg h4, if_pos h1]; rfl⟩)
    · exact .inr (.inl ⟨by omega, by rw [if_neg h4, if_neg h1]; rfl⟩)

theorem outcome_readFooter (h : 24 ≤ data.length) (hversion : 1 ≤ headerVersion data) :
    Outcome (readFooter data (headerVersion data))
      (8 + footerSize (headerVersion data) ≤ data.length →
        bytesAt data (data.length - 4) 4 = sstMagic → (4 ≤ headerVersion data → ZoneMapGuarded data) ∧
          ((4 ≤ headerVersion data → ZoneMapFits data) → 2 ≤ headerVersion data →
            (bloomSection data).offset + (bloomSection data).size < 2 ^ 64))
      ((8 + footerSize (headerVersion data) ≤ data.length ∧
        bytesAt data (data.length - 4) 4 = sstMagic) ∧ (4 ≤ headerVersion data → ZoneMapFits data) ∧
          (2 ≤ headerVersion data → BloomFits data)) := by
  have hshort : ∀ {message : String} {size : Nat} {guard fits : Prop} {f : Unit → Result Sections},
      ¬ 8 + size ≤ data.length → Outcome (check (8 + size ≤ data.length) message >>= f)
        (8 + size ≤ data.length → guard) ((8 + size ≤ data.length ∧ fits)) :=
    fun hnot => Outcome.check_bind fun hle => absurd hle hnot
  unfold readFooter ZoneMapGuarded ZoneMapFits BloomFits Section.Inside Section.bytes
  rcases footerSize_cases hversion with ⟨h4, hsize⟩ | ⟨h2, hsize⟩ | ⟨h1, hsize⟩
  · have h2 : 2 ≤ headerVersion data := by omega
    rw [if_pos h4, hsize]
    by_cases hlen : 48 ≤ data.length
    · rw [readFooterV4_eq _ hlen]
      refine (Outcome.check_bind fun _ => (outcome_readZoneMap (Nat.sub_le _ _)).bind fun _ _ =>
        (outcome_readBloom (Nat.sub_le _ _)).bind fun _ _ => Outcome.ok _).congr ?_ ?_
      · constructor
        · exact fun hg _ hm => ⟨fun _ => (hg hm).1, fun hz _ => ((hg hm).2 (hz h4)).1⟩
        · exact fun hg hm => ⟨(hg hlen hm).1 h4, fun hz =>
            ⟨(hg hlen hm).2 (fun _ => hz) h2, fun _ => trivial⟩⟩
      · constructor
        · exact fun hf => ⟨⟨hlen, hf.1⟩, fun _ => hf.2.1, fun _ => hf.2.2.1⟩
        · exact fun hf => ⟨hf.1.2, hf.2.1 h4, hf.2.2 h2, trivial⟩
    · exact (hshort hlen).congr Iff.rfl and_assoc.symm
  · have h4 : ¬ 4 ≤ headerVersion data := by omega
    have h2' : 2 ≤ headerVersion data := by omega
    rw [if_neg h4, if_pos h2, hsize]
    by_cases hlen : 36 ≤ data.length
    · rw [readFooterV2_eq _ hlen]
      refine (Outcome.check_bind fun _ =>
        (outcome_readBloom (Nat.sub_le _ _)).bind fun _ _ => Outcome.ok _).congr ?_ ?_
      · constructor
        · exact fun hg _ hm => ⟨fun hge => absurd hge h4, fun _ _ => (hg hm).1⟩
        · exact fun hg hm => ⟨(hg hlen hm).2 (fun hge => absurd hge h4) h2', fun _ => trivial⟩
      · constructor
        · exact fun hf => ⟨⟨hlen, hf.1⟩, fun hge => absurd hge h4, fun _ => hf.2.1⟩
        · exact fun hf => ⟨hf.1.2, hf.2.2 h2', trivial⟩
    · exact (hshort hlen).congr Iff.rfl and_assoc.symm
  · have h4 : ¬ 4 ≤ headerVersion data := by omega
    have h2 : ¬ 2 ≤ headerVersion data := by omega
    have h2' : ¬ (headerVersion data = 2 ∨ headerVersion data = 3) := by omega
    rw [if_neg h4, if_neg h2', hsize, readFooterV1_eq h]
    refine Outcome.congr (Outcome.check_bind fun _ => Outcome.ok _) ?_ ?_
    · exact iff_of_true (fun _ => trivial) fun _ _ =>
        ⟨fun hge => absurd hge h4, fun _ hge => absurd hge h2⟩
    · constructor
      · exact fun hf => ⟨⟨h, hf.1⟩, fun hge => absurd hge h4, fun hge => absurd hge h2⟩
      · exact fun hf => ⟨hf.1.2, trivial⟩

theorem readFooter_index (h : 24 ≤ data.length) {s : Sections}
    (hs : readFooter data (headerVersion data) = .ok s) :
    s.indexOffset = indexOffset data ∧ s.indexCount = indexCount data := by
  unfold readFooter at hs
  split_ifs at hs with h4 h2
  · by_cases hlen : 48 ≤ data.length
    · rw [readFooterV4_eq _ hlen] at hs
      obtain ⟨_, _, hs⟩ := bind_eq_ok.mp hs
      obtain ⟨_, _, hs⟩ := bind_eq_ok.mp hs
      obtain ⟨_, _, hs⟩ := bind_eq_ok.mp hs
      cases hs
      exact ⟨rfl, rfl⟩
    · obtain ⟨_, hcheck, _⟩ := bind_eq_ok.mp hs
      have hcond := check_eq_ok.mp hcheck
      exact (hlen hcond).elim
  · by_cases hlen : 36 ≤ data.length
    · rw [readFooterV2_eq _ hlen] at hs
      obtain ⟨_, _, hs⟩ := bind_eq_ok.mp hs
      obtain ⟨_, _, hs⟩ := bind_eq_ok.mp hs
      cases hs
      exact ⟨rfl, rfl⟩
    · obtain ⟨_, hcheck, _⟩ := bind_eq_ok.mp hs
      have hcond := check_eq_ok.mp hcheck
      exact (hlen hcond).elim
  · rw [readFooterV1_eq h] at hs
    obtain ⟨_, _, hs⟩ := bind_eq_ok.mp hs
    cases hs
    exact ⟨rfl, rfl⟩

theorem lastUserKeyFrom_returns (blk : Bytes) (pos : Nat) (last : Option Bytes) :
    ∃ key, lastUserKeyFrom blk pos last = .ok key := by
  induction hn : blk.length - pos using Nat.strong_induction_on generalizing pos last with
  | _ n ih =>
    rw [lastUserKeyFrom]
    split_ifs with hpos
    · rw [numberAt_eq (by omega), ok_bind, numberAt_eq (by omega), ok_bind]
      dsimp only
      split_ifs with hend hkey
      · exact ⟨last, rfl⟩
      · rw [sliceAt_eq (by omega)]
        exact ih _ (by omega) _ _ rfl
      · exact ih _ (by omega) _ _ rfl
    · exact ⟨last, rfl⟩

theorem decompressFrame_ne_panic (lz4 : Lz4) {start stop : Nat} (h : stop ≤ data.length) :
    decompressFrame lz4 data start stop ≠ .error .panic := by
  refine check_bind_ne_panic fun hheader => ?_
  rw [blockFrameHeader] at hheader
  rw [numberAt_eq (by omega), ok_bind, numberAt_eq (by omega), ok_bind,
    numberAt_eq (by omega), ok_bind]
  refine check_bind_ne_panic fun hpayload => check_bind_ne_panic fun _ => ?_
  rw [sliceAt_eq (hpayload.trans h), ok_bind]
  unfold decodePayload
  split
  · exact check_bind_ne_panic fun _ => nofun
  · split
    · exact nofun
    · exact check_bind_ne_panic fun _ => nofun
  · exact nofun

theorem SstReader.computeLastUserKey_ne_panic (lz4 : Lz4) (r : SstReader)
    (h : r.index ≠ [] → r.dataEnd ≤ r.data.length) : r.computeLastUserKey lz4 ≠ .error .panic := by
  unfold SstReader.computeLastUserKey
  split_ifs with hempty
  · exact nofun
  · have hne : r.index ≠ [] := fun hnil => hempty (List.isEmpty_iff.mpr hnil)
    refine bind_ne_panic ?_ fun blk _ => ?_
    rotate_left
    · obtain ⟨key, hkey⟩ := lastUserKeyFrom_returns blk 0 none
      rw [hkey]
      exact nofun
    have hlast : r.index.length - 1 < r.index.length :=
      Nat.sub_lt (List.length_pos_iff.mpr hne) Nat.one_pos
    unfold SstReader.block
    rw [List.getElem?_eq_getElem hlast]
    refine check_bind_ne_panic fun ⟨hle, hend⟩ => ?_
    split_ifs
    · rw [sliceAt_eq (by have := h hne; omega)]
      exact nofun
    · exact decompressFrame_ne_panic lz4 (hend.trans (h hne))

theorem readIndex_eq_ok {pos count : Nat} {index : List IndexEntry}
    (h : readIndex data pos count = .ok index) : index ≠ [] → pos ≤ data.length := by
  cases count with
  | zero =>
    cases h
    exact fun hne => absurd rfl hne
  | succ count =>
    intro _
    have hfits := ((outcome_readIndex pos (count + 1)).returns
      ((outcome_readIndex pos (count + 1)).runs.mp (h ▸ nofun))).mp ⟨index, h⟩
    exact (Nat.le_add_right _ _).trans hfits.1

end

def opened (data : Bytes) (s : Sections) (index : List IndexEntry) : SstReader :=
  { data, index, bloom := s.bloom, dataEnd := s.indexOffset
    firstUserKey := SstBytes.firstUserKey index, lastUserKey := none
    zoneMap := s.zoneMap, version := headerVersion data }

theorem SstReader.open_eq_ok (lz4 : Lz4) {data : Bytes} {r : SstReader} :
    SstReader.open lz4 data = .ok r ↔ 24 ≤ data.length ∧ bytesAt data 0 4 = sstMagic ∧
      (1 ≤ headerVersion data ∧ headerVersion data ≤ sstVersionMax) ∧
      ∃ s index last, readFooter data (headerVersion data) = .ok s ∧
        readIndex data s.indexOffset s.indexCount = .ok index ∧
        (opened data s index).computeLastUserKey lz4 = .ok last ∧
        { opened data s index with lastUserKey := last } = r := by
  unfold SstReader.open
  rw [check_bind_eq_ok]
  refine and_congr_right fun hsize => ?_
  change 24 ≤ data.length at hsize
  rw [sliceAt_eq (by omega), ok_bind, check_bind_eq_ok]
  refine and_congr_right fun _ => ?_
  rw [numberAt_eq (by omega), ok_bind, check_bind_eq_ok]
  refine and_congr_right fun _ => ?_
  simp only [bind_eq_ok, pure_eq_ok, exists_and_left]
  rfl

/-- Opening a file stops the program just where a sum of its own numbers leaves `usize`, its zone
map asks for more bounds than an allocation may have, or an index entry's length reaches past its
end. -/
theorem SstReader.open_ne_panic_iff (lz4 : Lz4) (data : Bytes) :
    SstReader.open lz4 data ≠ .error .panic ↔ Guarded data := by
  have hindex : ∀ pos count, ∀ s : Sections, ∀ version : Nat,
      s.indexOffset = pos → s.indexCount = count →
      ((do
        let index ← readIndex data s.indexOffset s.indexCount
        let reader : SstReader :=
          { data, index, bloom := s.bloom, dataEnd := s.indexOffset
            firstUserKey := SstBytes.firstUserKey index, lastUserKey := none
            zoneMap := s.zoneMap, version }
        return { reader with lastUserKey := ← reader.computeLastUserKey lz4 }) ≠
          (.error .panic : Result SstReader) ↔ IndexGuarded data pos count) := by
    rintro pos count s version rfl rfl
    refine ((outcome_readIndex _ _).bind_runs fun index hi => iff_of_true ?_ trivial).trans
      ⟨And.left, fun hg => ⟨hg, fun _ => trivial⟩⟩
    refine bind_ne_panic ?_ fun _ _ => nofun
    exact SstReader.computeLastUserKey_ne_panic lz4 _ (readIndex_eq_ok hi)
  have hopen : SstReader.open lz4 data ≠ .error .panic ↔ (24 ≤ data.length →
      bytesAt data 0 4 = sstMagic → 1 ≤ headerVersion data ∧ headerVersion data ≤ sstVersionMax →
      (8 + footerSize (headerVersion data) ≤ data.length →
        bytesAt data (data.length - 4) 4 = sstMagic → (4 ≤ headerVersion data → ZoneMapGuarded data) ∧
          ((4 ≤ headerVersion data → ZoneMapFits data) → 2 ≤ headerVersion data →
            (bloomSection data).offset + (bloomSection data).size < 2 ^ 64)) ∧
      ((8 + footerSize (headerVersion data) ≤ data.length ∧
        bytesAt data (data.length - 4) 4 = sstMagic) ∧ (4 ≤ headerVersion data → ZoneMapFits data) ∧
          (2 ≤ headerVersion data → BloomFits data) →
        IndexGuarded data (indexOffset data) (indexCount data))) := by
    refine check_bind_ne_panic_iff.trans (forall_congr' fun hsize => ?_)
    change 24 ≤ data.length at hsize
    rw [sliceAt_eq (by omega), ok_bind]
    refine check_bind_ne_panic_iff.trans (forall_congr' fun _ => ?_)
    rw [numberAt_eq (by omega), ok_bind]
    refine check_bind_ne_panic_iff.trans (forall_congr' fun hversion => ?_)
    refine (outcome_readFooter hsize hversion.1).bind_runs fun s hs => ?_
    obtain ⟨hoffset, hcount⟩ := readFooter_index hsize hs
    exact hindex _ _ s _ hoffset hcount
  rw [hopen]
  constructor
  · intro h hrec
    obtain ⟨hfooter, hrest⟩ := h hrec.size hrec.magic hrec.version
    obtain ⟨hzone, hbloom⟩ := hfooter hrec.footer hrec.footerMagic
    exact ⟨hzone, fun hz => ⟨hbloom hz, fun hb =>
      hrest ⟨⟨hrec.footer, hrec.footerMagic⟩, hz, hb⟩⟩⟩
  · intro h hsize hmagic hversion
    refine ⟨fun hfooter hend => ?_, fun ⟨⟨hfooter, hend⟩, hz, hb⟩ => ?_⟩
    · obtain ⟨hzone, hrest⟩ := h ⟨hsize, hmagic, hversion, hfooter, hend⟩
      exact ⟨hzone, fun hz => (hrest hz).1⟩
    · exact ((h ⟨hsize, hmagic, hversion, hfooter, hend⟩).2 hz).2 hb

set_option maxRecDepth 8000 in
/-- A v1 file of 28 bytes whose index entry says that its key has `0xffffffff` bytes. -/
theorem SstReader.open_panics : SstReader.open ⟨id, fun bytes _ => .ok bytes⟩
    (sstMagic ++ [0, 0, 0, 1] ++ [255, 255, 255, 255] ++
      [0, 0, 0, 0, 0, 0, 0, 8] ++ [0, 0, 0, 1] ++ sstMagic) = .error .panic := rfl

end SstBytes

end RhypeDb.Storage
