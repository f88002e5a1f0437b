import RhypeDb.Storage.Bloom
import RhypeDb.Storage.MemTable
import RhypeDb.Storage.Mvcc
import RhypeDb.Storage.Zone

/-! SST files of `sst.rs`, formats v5 and v6. The data region is kept as its entries, 16
to a block, and offsets count entries; a v6 block is refused on read when its uncompressed
length exceeds the cap. -/

namespace RhypeDb.Storage

/-- The stored length of a value in bytes. -/
class ByteLen (V : Type) where
  byteLen : V → Nat

instance : ByteLen Bytes := ⟨List.length⟩

structure StorageEnv (V : Type) where
  xxh3 : Xxh3
  zoneExtractor : Option (ZoneFieldExtractor V)

inductive SstCompression
  | none
  | lz4
  deriving DecidableEq, Repr

inductive SstVersion
  | uncompressed
  | compressed
  deriving DecidableEq, Repr

structure IndexEntry where
  key : InternalKey
  offset : Nat

def entriesPerBlock : Nat := 16

def maxBlockUncompLen : Nat := 64 * 1024 * 1024

variable {V : Type}

structure SstFile (V : Type) where
  version : SstVersion
  data : List (Entry V)
  index : List IndexEntry
  zoneMap : ZoneMap
  bloom : BloomFilter

structure SstWriter (V : Type) where
  data : List (Entry V)
  index : List IndexEntry
  entryCount : Nat
  userKeys : List Bytes
  zoneBuilder : ZoneBuilder
  blockBuf : List (Entry V)

namespace SstWriter

def new : SstWriter V :=
  { data := [], index := [], entryCount := 0, userKeys := [], zoneBuilder := .new, blockBuf := [] }

def flushBlock (w : SstWriter V) : SstWriter V :=
  { w with data := w.data ++ w.blockBuf, blockBuf := [] }

def startBlock (w : SstWriter V) (key : InternalKey) : SstWriter V :=
  if w.entryCount % entriesPerBlock = 0 then
    let w := w.flushBlock
    { w with index := w.index ++ [⟨key, w.data.length⟩] }
  else w

def recordZone (w : SstWriter V) (extractor : Option (ZoneFieldExtractor V)) (e : Entry V) :
    SstWriter V :=
  match extractor, e.2 with
  | some extract, some value =>
    let zoneFields := extract e.1 value
    if zoneFields.isEmpty then w
    else
      { w with
        zoneBuilder := w.zoneBuilder.record (w.entryCount / entriesPerBlock) zoneFields }
  | _, _ => w

def recordUserKey (w : SstWriter V) (userKey : Bytes) : SstWriter V :=
  if w.userKeys.getLast? = some userKey then w
  else { w with userKeys := w.userKeys ++ [userKey] }

def add (extractor : Option (ZoneFieldExtractor V)) (w : SstWriter V) (e : Entry V) :
    SstWriter V :=
  let w := ((w.startBlock e.1).recordZone extractor e).recordUserKey e.1.userKey
  { w with blockBuf := w.blockBuf ++ [e], entryCount := w.entryCount + 1 }

def finish (w : SstWriter V) (env : StorageEnv V) (compression : SstCompression) : SstFile V :=
  let w := w.flushBlock
  { version := match compression with
      | .none => .uncompressed
      | .lz4 => .compressed
    data := w.data
    index := w.index
    zoneMap := w.zoneBuilder.toZoneMap
    bloom := (BloomFilter.ofKeys env.xxh3 w.userKeys).reopen }

def writeAll (env : StorageEnv V) (compression : SstCompression) (es : List (Entry V)) :
    SstFile V :=
  (es.foldl (add env.zoneExtractor) new).finish env compression

end SstWriter

namespace SstFile

variable [ByteLen V]

def blockLen (blk : List (Entry V)) : Nat :=
  (blk.map fun e => 8 + (e.1.userKey.length + 8) + (e.2.map ByteLen.byteLen).getD 0).sum

def blockEndOffset (f : SstFile V) (blockIdx : Nat) : Nat :=
  ((f.index[blockIdx + 1]?).map IndexEntry.offset).getD f.data.length

def block (f : SstFile V) (blockIdx : Nat) : Except Error (List (Entry V)) :=
  match f.index[blockIdx]? with
  | none => .error .sstCorrupted
  | some entry =>
    let blk := (f.data.drop entry.offset).take (f.blockEndOffset blockIdx - entry.offset)
    match f.version with
    | .uncompressed => .ok blk
    | .compressed => if maxBlockUncompLen < blockLen blk then .error .sstCorrupted else .ok blk

def computeLastUserKey (f : SstFile V) : Except Error (Option Bytes) :=
  if f.index.isEmpty then .ok none
  else do
    let blk ← f.block (f.index.length - 1)
    return blk.getLast?.map (·.1.userKey)

def mightContain (env : StorageEnv V) (f : SstFile V) (userKey : Bytes) : Bool :=
  f.bloom.contains env.xxh3 userKey

/-- `binary_search_by` on the sparse index, whose keys increase. -/
def binarySearch (index : List IndexEntry) (target : InternalKey) : Except Nat Nat :=
  let i := (index.takeWhile fun e => decide (e.key < target)).length
  if (index[i]?).map IndexEntry.key = some target then .ok i else .error i

def seekBlock (index : List IndexEntry) (target : InternalKey) : Nat :=
  match binarySearch index target with
  | .ok i => i
  | .error 0 => 0
  | .error (i + 1) => i

inductive Probe (V : Type)
  | found (value : MemValue V)
  | past
  | next

/-- The entry loop of `get_versioned`. -/
def probe (userKey : Bytes) (version : UInt64) : List (Entry V) → Probe V
  | [] => .next
  | e :: es =>
    if e.1.userKey = userKey then
      if e.1.version ≤ version then .found e.2 else probe userKey version es
    else if userKey < e.1.userKey then .past
    else probe userKey version es

def probeBlocks (f : SstFile V) (userKey : Bytes) (version : UInt64) :
    List Nat → Except Error (Option (MemValue V))
  | [] => .ok none
  | bi :: bis => do
    let blk ← f.block bi
    match probe userKey version blk with
    | .found value => return some value
    | .past => return none
    | .next => probeBlocks f userKey version bis

/-- The block indices from `bi` to the end of the file. -/
def blocksFrom (f : SstFile V) (bi : Nat) : List Nat := List.range' bi (f.index.length - bi)

def getVersioned (env : StorageEnv V) (f : SstFile V) (userKey : Bytes) (version : UInt64) :
    Except Error (Option (MemValue V)) :=
  if f.index.isEmpty then .ok none
  else if ¬ f.mightContain env userKey then .ok none
  else f.probeBlocks userKey version (f.blocksFrom (seekBlock f.index (.seek userKey)))

def iterBlocks (f : SstFile V) : List Nat → List (Entry V)
  | [] => []
  | bi :: bis =>
    match f.block bi with
    | .ok blk => blk ++ iterBlocks f bis
    | .error _ => []

/-- `iter_from` at the start of a block. -/
def iterFrom (f : SstFile V) (bi : Nat) : List (Entry V) := f.iterBlocks (f.blocksFrom bi)

def scanPrefix (f : SstFile V) (pre : Bytes) (version : UInt64) : List (Bytes × MemValue V) :=
  collect pre pre version none (f.iterFrom (seekBlock f.index (.seek pre)))

def scanPrefixMax (f : SstFile V) (pre : Bytes) (version : UInt64) (maxDistinct : Nat) :
    List (Bytes × MemValue V) := (f.scanPrefix pre version).take maxDistinct

def scanFromMax (f : SstFile V) (pre start : Bytes) (version : UInt64) (maxDistinct : Nat) :
    List (Bytes × MemValue V) :=
  if ¬ pre <+: start then []
  else (collect start pre version none
    (f.iterFrom (seekBlock f.index (.seek start)))).take maxDistinct

def tryForEachEntry (f : SstFile V) : Except Error (List (Entry V)) :=
  (f.blocksFrom 0).foldlM (fun acc bi => do return acc ++ (← f.block bi)) []

def maxVersion (f : SstFile V) : Except Error UInt64 := do
  return (← f.tryForEachEntry).foldl (fun acc e => max acc e.1.version) 0

end SstFile

/-- An open file; `id` names its path. -/
structure SstReader (V : Type) where
  id : Nat
  file : SstFile V
  firstUserKey : Option Bytes
  lastUserKey : Option Bytes

/-- `SstReader::open` on a finished file: it reads the last block. -/
def SstReader.open [ByteLen V] (id : Nat) (file : SstFile V) : Except Error (SstReader V) := do
  let lastUserKey ← file.computeLastUserKey
  return { id, file, firstUserKey := file.index.head?.map (·.key.userKey), lastUserKey }

end RhypeDb.Storage
