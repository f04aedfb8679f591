import Aikoql.Lib.Runs
import Aikoql.Storage.System

/-!
# Snapshots

Copying a generation of a running database, and restoring it.

Under one hold of the state lock a snapshot reads the generation, lists its
files, copies the log and pins the names it listed. It then copies the files one
by one without a lock: files of a published generation do not change, and the
two places that delete files skip the pinned names. At the end it reads every
copy back and publishes a marker that names them. However it ends, its names are
unpinned. The pins are one set of names for all snapshots.

A restore takes a directory with one marker. It checks that the marker names
what makes a generation, among them the newest log of each directory family the
manifest has a mark for, copies the files and opens the result.
-/

namespace Aikoql.Storage

/-! ## Files by name -/

/-- The files of a generation by name. Distinct files have distinct names. -/
inductive SnapshotFile where
  | current
  | manifest (generation : Nat)
  | segment (id : Nat)
  | directory (file : DirectoryFile)
  | wal
  deriving DecidableEq

def SnapshotFile.name : SnapshotFile → String
  | .current => "CURRENT"
  | .manifest g => "MANIFEST-" ++ pad6 g
  | .segment id => "SEGMENT-" ++ pad6 id ++ ".seg"
  | .directory (.identityLog g) => "IDENTITY-" ++ pad6 g ++ ".log"
  | .directory (.replicaLog g) => "REPLICA-" ++ pad6 g ++ ".log"
  | .directory (.placementLog g) => "PLACEMENT-" ++ pad6 g ++ ".log"
  | .directory (.checkpoint g) => "CHECKPOINT-" ++ pad6 g ++ ".log"
  | .wal => "WAL-000001.log"

def Disk.has (disk : Disk) : SnapshotFile → Bool
  | .current => disk.current.isSome
  | .manifest g => disk.manifests.contains g
  | .segment id => disk.segmentFiles.contains id
  | .directory (.identityLog g) => disk.identityLogs.contains g
  | .directory (.replicaLog g) => disk.replicaLogs.contains g
  | .directory (.placementLog g) => disk.placementLogs.contains g
  | .directory (.checkpoint g) => disk.checkpoints.contains g
  | .wal => true

def copyKey {V : Type} (src dst : Std.ExtTreeMap Nat V) (k : Nat) : Std.ExtTreeMap Nat V :=
  match src[k]? with
  | none => dst
  | some v => dst.insert k v

def Disk.withFile (dst src : Disk) : SnapshotFile → Disk
  | .current => { dst with current := src.current }
  | .manifest g => { dst with manifests := copyKey src.manifests dst.manifests g }
  | .segment id => { dst with segmentFiles := copyKey src.segmentFiles dst.segmentFiles id }
  | .directory (.identityLog g) =>
    { dst with identityLogs := copyKey src.identityLogs dst.identityLogs g }
  | .directory (.replicaLog g) =>
    { dst with replicaLogs := copyKey src.replicaLogs dst.replicaLogs g }
  | .directory (.placementLog g) =>
    { dst with placementLogs := copyKey src.placementLogs dst.placementLogs g }
  | .directory (.checkpoint g) =>
    { dst with checkpoints := copyKey src.checkpoints dst.checkpoints g }
  | .wal => { dst with wal := src.wal }

/-! ## Taking a snapshot -/

def upTo {V : Type} (files : Std.ExtTreeMap Nat V) (generation : Nat) : List Nat :=
  files.keys.filter fun g => g ≤ generation

def pinnedFiles (disk : Disk) (generation : Nat) : Except FormatError (List SnapshotFile) :=
  match disk.manifests[generation]? with
  | none => .error (.io "manifest missing or unreadable")
  | some manifest => .ok
      ([.current, .manifest generation] ++ manifest.segments.map (fun r => .segment r.segmentId) ++
        (upTo disk.identityLogs generation).map (fun g => .directory (.identityLog g)) ++
        (upTo disk.replicaLogs generation).map (fun g => .directory (.replicaLog g)) ++
        (upTo disk.placementLogs generation).map (fun g => .directory (.placementLog g)) ++
        (upTo disk.checkpoints generation).map (fun g => .directory (.checkpoint g)) ++ [.wal])

/-- A snapshot in progress: the files it captured, those it has not copied yet,
    and the directory it copies to. -/
structure Snapshot where
  generation : Nat
  files : List SnapshotFile
  todo : List SnapshotFile
  dir : Disk
  lastSeq : Nat

def snapshotCapture (H : Sha256) (st : State) (disk : Disk) : Except FormatError Snapshot := do
  let generation ← match disk.current with
    | none => .error (.io "CURRENT missing or unreadable")
    | some g => .ok g
  let files ← pinnedFiles disk generation
  let walSize ← validPrefixLen H disk.wal
  return {
    generation := generation
    files := files
    todo := files
    dir := { Disk.empty with wal := disk.wal.take walSize }
    lastSeq := st.lastSeq }

/-- Copy the next file. The pointer is written from the captured generation, and
    the log is there already. -/
def Snapshot.copy (s : Snapshot) (disk : Disk) : Except FormatError Snapshot :=
  match s.todo with
  | [] => .ok s
  | .wal :: todo => .ok { s with todo := todo }
  | .current :: todo =>
    .ok { s with todo := todo, dir := { s.dir with current := some s.generation } }
  | file :: todo =>
    let name := file.name
    if disk.has file then .ok { s with todo := todo, dir := s.dir.withFile disk file }
    else .error (.io s!"open {name} for snapshot")

/-- What a finished snapshot names. -/
structure SnapshotMarker where
  generation : Nat
  files : List SnapshotFile

def Snapshot.publish (s : Snapshot) : Except FormatError SnapshotMarker := do
  ensure (s.todo = []) (.io "files are left to copy")
  ensure (∀ file ∈ s.files, s.dir.has file) (.corrupt "snapshot verify: file missing")
  return ⟨s.generation, s.files⟩

/-! ## Restoring -/

/-- The log of a mark that is not zero must ride along. -/
def requireFloor (marker : SnapshotMarker) (file : Nat → DirectoryFile) (mark : FamilyMark) :
    Except FormatError Unit :=
  let name := (SnapshotFile.directory (file mark.floor)).name
  let floor := mark.floor
  ensure (¬(0 < mark.floor ∧ ¬.directory (file mark.floor) ∈ marker.files))
    (.corrupt s!"snapshot marker omits {name} — manifest floor {floor}")

def validateSnapshotManifest (marker : SnapshotMarker) (src : Disk) : Except FormatError Unit := do
  ensure (marker.files.Nodup) (.corrupt "snapshot marker names a file twice")
  ensure (.current ∈ marker.files) (.corrupt "snapshot marker carries no CURRENT")
  let name := (SnapshotFile.manifest marker.generation).name
  ensure (.manifest marker.generation ∈ marker.files)
    (.corrupt s!"snapshot marker carries no {name}")
  ensure (.wal ∈ marker.files) (.corrupt "snapshot marker carries no WAL-000001.log")
  let manifest ← match src.manifests[marker.generation]? with
    | none => .error (.io "manifest missing or unreadable")
    | some m => .ok m
  ensure (∀ r ∈ manifest.segments, .segment r.segmentId ∈ marker.files)
    (.corrupt s!"snapshot marker omits a segment referenced by {name}")
  requireFloor marker .identityLog manifest.identity
  requireFloor marker .replicaLog manifest.replica
  requireFloor marker .placementLog manifest.placement

def restoreFrom (H : Sha256) (marker : SnapshotMarker) (src : Disk) :
    Except FormatError (State × Disk) := do
  validateSnapshotManifest marker src
  ensure (∀ file ∈ marker.files, src.has file) (.corrupt "snapshot file is missing")
  dbOpen H Config.new (marker.files.foldl (fun target file => target.withFile src file) Disk.empty)

/-! ## The system with snapshots -/

def pinnedSegments (pins : List SnapshotFile) : List Nat :=
  pins.filterMap fun
    | .segment id => some id
    | _ => none

def pinnedDirectory (pins : List SnapshotFile) : List DirectoryFile :=
  pins.filterMap fun
    | .directory file => some file
    | _ => none

/-- An event whose deletions skip the pinned names, besides those that fail. -/
def Event.sparing (pins : List SnapshotFile) : Event → Event
  | .flushC fault ckp => .flushC fault (ckp.map (· ++ pinnedDirectory pins))
  | .compactC i kept ckp =>
    .compactC i (kept ++ pinnedSegments pins) (ckp.map (· ++ pinnedDirectory pins))
  | .flushCrash done ckp => .flushCrash done (ckp.map (· ++ pinnedDirectory pins))
  | .compactCrash i kept ckp done =>
    .compactCrash i (kept ++ pinnedSegments pins) (ckp.map (· ++ pinnedDirectory pins)) done
  | e => e

def Event.stops : Event → Bool
  | .reopen => true
  | .crash => true
  | .flushCrash _ _ => true
  | .compactCrash _ _ _ _ => true
  | _ => false

/-- The system, the pinned names, the snapshots in progress and those taken. -/
structure SnapSys where
  sys : Sys
  pins : List SnapshotFile
  running : List Snapshot
  taken : List (SnapshotMarker × Disk)

/-- The steps: one of the database, the capture of a snapshot, the copy of a
    snapshot's next file, its end, and its failure. -/
inductive SnapEvent where
  | db (e : Event)
  | capture
  | copy (i : Nat)
  | finish (i : Nat)
  | fail (i : Nat)

def SnapSys.initial : SnapSys :=
  ⟨Sys.initial, [], [], []⟩

def SnapSys.disarm (s : SnapSys) (i : Nat) (snapshot : Snapshot) : SnapSys :=
  { s with
    pins := s.pins.filter fun file => !snapshot.files.contains file
    running := s.running.eraseIdx i }

/-- One step; none if it is not possible in this state. The database cannot be
    closed while a snapshot holds it; a crash ends the snapshots. -/
def snapStep (H : Sha256) (cfg : Config) (s : SnapSys) : SnapEvent → Option SnapSys
  | .db e =>
    if e.stops then
      match e with
      | .reopen =>
        if s.running.isEmpty then
          (step H cfg s.sys .reopen).map fun sys => { s with sys := sys, pins := [] }
        else
          none
      | e => (step H cfg s.sys (e.sparing s.pins)).map fun sys =>
        { s with sys := sys, pins := [], running := [] }
    else
      (step H cfg s.sys (e.sparing s.pins)).map fun sys => { s with sys := sys }
  | .capture =>
    match snapshotCapture H s.sys.st s.sys.disk with
    | .error _ => some s
    | .ok snapshot =>
      some { s with pins := s.pins ++ snapshot.files, running := s.running ++ [snapshot] }
  | .copy i =>
    match s.running[i]? with
    | none => none
    | some snapshot =>
      match snapshot.copy s.sys.disk with
      | .error _ => some (s.disarm i snapshot)
      | .ok snapshot => some { s with running := s.running.set i snapshot }
  | .finish i =>
    match s.running[i]? with
    | none => none
    | some snapshot =>
      match snapshot.publish with
      | .error _ => none
      | .ok marker =>
        some { s.disarm i snapshot with taken := s.taken ++ [(marker, snapshot.dir)] }
  | .fail i =>
    match s.running[i]? with
    | none => none
    | some snapshot => some (s.disarm i snapshot)

end Aikoql.Storage
