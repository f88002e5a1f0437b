import RhypeDb.Authz.Rules
import RhypeDb.Basic.ByteOrder
import RhypeDb.Basic.Fallible
import RhypeDb.Basic.FileOps

/-! Restore on boot, of `restore.rs`: what a boot checks, and the file operations that it then does
in the data directory. The `LOCK` file is left out. -/

namespace RhypeDb.Server.Restore

open Authz (Json)
open Fallible FileOps

/-- A file of the `sst` directory, or one beside it. -/
inductive Path
  | sst (name : String)
  | top (name : String)
  deriving DecidableEq, Repr

abbrev Dir := Disk Path Byte

def sentinel : Path := .top "RESTORE_DONE"
def inProgress : Path := .top "RESTORE_IN_PROGRESS"
def manifestFile : Path := .top "MANIFEST.json"
def walLog : Path := .top "wal.log"
def schemaFile : Path := .top "schema.rhype"

/-- The extension of the name is `sst`. A leading dot begins none. -/
def isSst (name : String) : Bool :=
  ".sst".toList.isSuffixOf name.toList && decide (name ≠ ".sst")

def isHnsw (name : String) : Bool :=
  "hnsw_".toList.isPrefixOf name.toList && ".bin".toList.isSuffixOf name.toList

structure Identity where
  createdAtMs : Nat
  maxVersion : Nat
  deriving DecidableEq, Repr

/-- What `serde_json` reads and prints; `readIdentity` gives an identity if the text is of its
value. -/
structure Serde (F : Type) where
  fromStr : Bytes → Except String (Json F)
  asU64 : F → Option Nat
  identityText : Identity → Bytes
  readIdentity : Bytes → Option Identity

structure RestoreReport where
  skipped : Bool
  sstCount : Nat
  hnswCount : Nat
  inFlight : List (Nat × String)
  deriving DecidableEq, Repr

section

variable {F : Type} (serde : Serde F)

def isSafeFilename (name : String) : Bool :=
  decide (name ≠ "") && decide (name ≠ ".") && decide (name ≠ "..") &&
    decide ('/' ∉ name.toList) && decide ('\\' ∉ name.toList)

def asStr : Json F → Option String
  | .string s => some s
  | _ => none

def asArray : Json F → List (Json F)
  | .array items => items
  | _ => []

def Serde.number (value : Option (Json F)) : Nat :=
  match value with
  | some (.number n) => (serde.asU64 n).getD 0
  | _ => 0

def manifestStrs (manifest : Json F) (key : String) : List String :=
  ((manifest.get key).elim [] asArray).filterMap asStr

def backupMissingFiles (dir : Dir) (manifest : Json F) : List String :=
  ((manifestStrs manifest "ssts").filter fun s => (dir.lookup (.sst s)).isNone).map ("sst/" ++ ·) ++
    (if (dir.lookup walLog).isNone then ["wal.log"] else []) ++
    (if (dir.lookup schemaFile).isNone then ["schema.rhype"] else [])

def snapshotIdentity (manifest : Json F) : Identity where
  createdAtMs := serde.number (manifest.get "created_at_ms")
  maxVersion := serde.number (manifest.get "max_version")

def parseInFlight (manifest : Json F) : List (Nat × String) :=
  ((manifest.get "in_flight_migrations").elim [] asArray).map fun m =>
    (serde.number (m.get "plan_id"), ((m.get "converter").bind asStr).getD "?")

def validate (snapshot : Dir) (snapshotDir : String) : Except String (Json F) := do
  let text ← (snapshot.lookup manifestFile).elim
    (.error ("not a valid backup: " ++ snapshotDir ++ "/MANIFEST.json missing")) .ok
  let manifest ← (serde.fromStr text).mapError ("invalid MANIFEST.json: " ++ ·)
  let names := manifestStrs manifest "ssts" ++ manifestStrs manifest "hnsw_files"
  (names.find? fun name => !isSafeFilename name).elim (.ok ()) fun name =>
    .error ("backup manifest lists an unsafe filename: " ++ name.quote)
  let missing := backupMissingFiles snapshot manifest
  require (missing = []) ("source backup is INCOMPLETE — missing: " ++ ", ".intercalate missing)
  return manifest

def sstNames (dir : Dir) : List String :=
  dir.keys.filterMap fun | .sst name => some name | .top _ => none

def topNames (dir : Dir) : List String :=
  dir.keys.filterMap fun | .sst _ => none | .top name => some name

def dataDirNonEmpty (data : Dir) : Bool :=
  (sstNames data).any isSst || (data.lookup walLog).isSome || (data.lookup schemaFile).isSome ||
    (topNames data).any isHnsw

def alreadyRestored (data : Dir) (want : Identity) : Bool :=
  decide ((data.lookup sentinel).bind serde.readIdentity = some want)

def markerIdentity (data : Dir) : Option Identity :=
  (data.lookup inProgress).bind serde.readIdentity

structure Listing where
  order : List String → List String
  perm : ∀ names, (order names).Perm names

/-- What one boot is given: how paths print, whether the snapshot lies in the data directory, the
message of the guard if another process holds it, the order of its `read_dir`s, and the operation
and the byte at which it is cut. -/
structure Boot where
  force : Bool
  snapshotDir : String
  dataDir : String
  inside : Bool
  locked : Option String
  listing : Listing
  cut : Option (Nat × Nat)

def hnswListed (snapshot : Dir) (manifest : Json F) : List String :=
  (manifestStrs manifest "hnsw_files").filter fun f => (snapshot.lookup (.top f)).isSome

/-- Stale data goes: `remove_dir_all` of `sst`, the log, and the index snapshots. The schema file
is left for the copy to overwrite. -/
def clearOps (data : Dir) (listing : Listing) : List (Op Path Byte) :=
  removes ((listing.order (sstNames data)).map .sst) ++ removes [walLog] ++
    removes ((listing.order ((topNames data).filter isHnsw)).map .top)

def copyOps (snapshot : Dir) (manifest : Json F) (listing : Listing) : List (Op Path Byte) :=
  copies snapshot ((listing.order ((sstNames snapshot).filter isSst)).map .sst) ++
    copies snapshot [walLog, schemaFile] ++
    copies snapshot ((hnswListed snapshot manifest).map .top)

def restoreOps (snapshot data : Dir) (manifest : Json F) (listing : Listing) :
    List (Op Path Byte) :=
  [.write inProgress (serde.identityText (snapshotIdentity serde manifest)), .remove sentinel] ++
    clearOps data listing ++ copyOps snapshot manifest listing

/-- The operations of a boot that is not refused, and its report. -/
def restoreFromSnapshot (snapshot data : Dir) (b : Boot) :
    Except String (List (Op Path Byte) × RestoreReport) := do
  let manifest ← validate serde snapshot b.snapshotDir
  let identity := snapshotIdentity serde manifest
  require (b.inside = false) ("--restore-from " ++ b.snapshotDir ++
    " is the data dir (or inside it); refusing to clear the source")
  b.locked.elim (.ok ()) .error
  if alreadyRestored serde data identity then
    return ([.remove inProgress],
      { skipped := true, sstCount := 0, hnswCount := 0, inFlight := [] })
  else
    let resuming := decide (markerIdentity serde data = some identity)
    require (¬ (dataDirNonEmpty data = true ∧ b.force = false ∧ resuming = false))
      (b.dataDir ++ " already contains a database (use --restore-force / " ++
        "RHYPEDB_RESTORE_FROM_FORCE=1 to overwrite)")
    return (restoreOps serde snapshot data manifest b.listing ++
        [.write sentinel (serde.identityText identity), .remove inProgress],
      { skipped := false
        sstCount := ((sstNames snapshot).filter isSst).length
        hnswCount := (hnswListed snapshot manifest).length
        inFlight := parseInFlight serde manifest })

inductive Outcome
  | refused (message : String)
  | returned (report : RestoreReport)
  | cut
  deriving DecidableEq, Repr

def boot (snapshot data : Dir) (b : Boot) : Dir × Outcome :=
  match restoreFromSnapshot serde snapshot data b with
  | .error message => (data, .refused message)
  | .ok (ops, report) =>
    match b.cut with
    | none => (run ops data, .returned report)
    | some (k, n) =>
      if k < ops.length then (runCut ops k n data, .cut) else (run ops data, .returned report)

structure Past where
  boot : Boot
  found : Dir
  outcome : Outcome

structure Machine where
  data : Dir
  serving : Bool
  boots : List Past

/-- A boot, or the server that runs writes a file, or removes one. It never touches the two files
of the restore. -/
inductive Step
  | boot (b : Boot)
  | live (op : Op Path Byte)

def Outcome.isReturned : Outcome → Bool
  | .returned _ => true
  | _ => false

def step (snapshot : Dir) (m : Machine) : Step → Machine
  | .boot b =>
    let (data, outcome) := boot serde snapshot m.data b
    { data, serving := outcome.isReturned, boots := m.boots ++ [⟨b, m.data, outcome⟩] }
  | .live op =>
    if m.serving = true ∧ op.path ≠ sentinel ∧ op.path ≠ inProgress then
      { m with data := op.apply m.data }
    else m

def Machine.init (data : Dir) : Machine where
  data
  serving := false
  boots := []

end

variable {F : Type}

def LoadBearing : Path → Bool
  | .sst name => isSst name
  | .top name => decide (name = "wal.log") || decide (name = "schema.rhype") || isHnsw name

def restored (snapshot : Dir) (manifest : Json F) : Path → Option Bytes
  | .sst name => snapshot.lookup (.sst name)
  | .top name =>
    if isHnsw name = true ∧ name ∉ manifestStrs manifest "hnsw_files" then none
    else snapshot.lookup (.top name)

def IsRestored (snapshot : Dir) (manifest : Json F) (data : Dir) : Prop :=
  ∀ p, LoadBearing p = true → data.lookup p = restored snapshot manifest p

def OwnPartial (snapshot : Dir) (manifest : Json F) (data : Dir) : Prop :=
  ∀ p content, LoadBearing p = true → data.lookup p = some content →
    ∃ whole, restored snapshot manifest p = some whole ∧ content <+: whole

def Machine.HasReturned (m : Machine) : Prop := ∃ e ∈ m.boots, e.outcome.isReturned = true

def Machine.ForcedCut (m : Machine) : Prop :=
  ∃ e ∈ m.boots, e.boot.force = true ∧ dataDirNonEmpty e.found = true ∧ e.outcome = .cut

end RhypeDb.Server.Restore
