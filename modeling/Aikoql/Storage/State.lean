import Aikoql.Storage.Compaction
import Aikoql.Storage.Directory

/-!
# Memory, Files and Publications

What a running database holds in memory, what it leaves on disk, and how a
phase of it writes files one after the other.

Files other than the write-ahead log are published whole: a publication either
replaces the file or leaves it as it was, so the disk holds decoded values.
The write-ahead log is a byte string, because its failures are about bytes.

A phase that writes files is described by the operations it issues in order,
each with the memory it leaves behind if the operation fails. `Publication.run`
carries out a phase in which a given operation fails, or none. A crash keeps the
disk a failure would leave and forgets the memory.
-/

namespace Aikoql.Storage

/-- The settings the model depends on. -/
structure Config where
  blockTarget : Nat
  mergeChunkBytes : Nat
  retainLog : Bool

/-- The settings a caller who chooses none gets. -/
def Config.new : Config where
  blockTarget := 16 * 1024
  mergeChunkBytes := 64 * 1024 * 1024
  retainLog := false

/-- The memory of a running database. Segments stand in manifest order, oldest
    first, and so do the immutable memtables. -/
structure State where
  active : Memtable
  immutables : List Memtable
  segments : List Segment
  segmentRecords : List SegmentRecord
  nextSeq : Nat
  nextSegmentId : Nat
  generation : Nat
  dirs : Directories
  identityMark : FamilyMark
  replicaMark : FamilyMark
  placementMark : FamilyMark

/-- The largest sequence number drawn so far. -/
def State.lastSeq (st : State) : Nat :=
  st.nextSeq - 1

/-! ## Files -/

/-- The name of a file of the archive: the id its compaction drew for all of them,
    and its place among them. -/
structure ArchiveName where
  id : Nat
  chunk : Nat
  deriving DecidableEq

/-- The files of a database. The replication log holds covered beginnings of the
    write-ahead log by their first sequence number, the archive the segments a
    compaction archived. -/
structure Disk where
  current : Option Nat
  manifests : Std.ExtTreeMap Nat Manifest
  segmentFiles : Std.ExtTreeMap Nat Segment
  identityLogs : DeltaLogs IdentityRecord
  replicaLogs : DeltaLogs ReplicaRecord
  placementLogs : DeltaLogs PlacementRecord
  checkpoints : Std.ExtTreeMap Nat DirectoryCheckpoint
  wal : Bytes
  rlog : Std.ExtTreeMap Nat Bytes
  archiveFiles : List (ArchiveName × Segment)

/-- A directory nothing was written to. -/
def Disk.empty : Disk :=
  ⟨none, ∅, ∅, ∅, ∅, ∅, ∅, [], ∅, []⟩

/-- The files a prune may remove. -/
inductive DirectoryFile where
  | identityLog (generation : Nat)
  | replicaLog (generation : Nat)
  | placementLog (generation : Nat)
  | checkpoint (generation : Nat)
  deriving DecidableEq

/-- The file operations of the engine. Segments of the archive are written and
    never read; one that is moved to a name in use replaces the file there. A prune
    and a removal skip the files a snapshot has pinned and those whose deletion
    failed, which the engine tolerates; both are in `kept`. -/
inductive FileOp where
  | segment (id : Nat) (s : Segment)
  | archiveSegment (name : ArchiveName) (s : Segment)
  | identityLog (generation : Nat) (records : List IdentityRecord)
  | replicaLog (generation : Nat) (records : List ReplicaRecord)
  | placementLog (generation : Nat) (records : List PlacementRecord)
  | manifest (manifest : Manifest)
  | current (generation : Nat)
  | archive (first : Nat) (bytes : Bytes)
  | walSetLen (len : Nat)
  | walAppend (bytes : Bytes)
  | walSync
  | checkpoint (checkpoint : DirectoryCheckpoint)
  | checkpointRead (generation : Nat)
  | prune (generation : Nat) (kept : List DirectoryFile)
  | removeSegments (ids kept : List Nat)

def DeltaLogs.prune {α : Type} (logs : DeltaLogs α) (generation : Nat)
    (file : Nat → DirectoryFile) (kept : List DirectoryFile) : DeltaLogs α :=
  logs.filter fun g _ => decide (generation < g) || kept.contains (file g)

def Disk.apply (disk : Disk) : FileOp → Disk
  | .segment id s => { disk with segmentFiles := disk.segmentFiles.insert id s }
  | .archiveSegment name s =>
    { disk with
      archiveFiles := disk.archiveFiles.filter (fun file => file.1 ≠ name) ++ [(name, s)] }
  | .identityLog g records => { disk with identityLogs := disk.identityLogs.insert g records }
  | .replicaLog g records => { disk with replicaLogs := disk.replicaLogs.insert g records }
  | .placementLog g records => { disk with placementLogs := disk.placementLogs.insert g records }
  | .manifest m => { disk with manifests := disk.manifests.insert m.generation m }
  | .current g => { disk with current := some g }
  | .archive first bytes => { disk with rlog := disk.rlog.insert first bytes }
  | .walSetLen len => { disk with wal := disk.wal.take len }
  | .walAppend bytes => { disk with wal := disk.wal ++ bytes }
  | .walSync => disk
  | .checkpoint c => { disk with checkpoints := disk.checkpoints.insert c.generation c }
  | .checkpointRead _ => disk
  | .prune g kept =>
    { disk with
      identityLogs := disk.identityLogs.prune g .identityLog kept
      replicaLogs := disk.replicaLogs.prune g .replicaLog kept
      placementLogs := disk.placementLogs.prune g .placementLog kept
      checkpoints := disk.checkpoints.filter fun g' _ =>
        decide (g ≤ g') || kept.contains (.checkpoint g') }
  | .removeSegments ids kept =>
    { disk with
      segmentFiles := disk.segmentFiles.filter fun id _ =>
        !ids.contains id || kept.contains id }

def Disk.applyAll (disk : Disk) (ops : List FileOp) : Disk :=
  ops.foldl Disk.apply disk

@[simp] theorem Disk.applyAll_nil (disk : Disk) : disk.applyAll [] = disk := rfl

@[simp] theorem Disk.applyAll_cons (disk : Disk) (op : FileOp) (ops : List FileOp) :
    disk.applyAll (op :: ops) = (disk.apply op).applyAll ops := rfl

theorem Disk.applyAll_append (disk : Disk) (ops ops' : List FileOp) :
    disk.applyAll (ops ++ ops') = (disk.applyAll ops).applyAll ops' :=
  List.foldl_append

/-! ## Publications -/

/-- The file operations of a phase in order, each with the memory its failure
    leaves, and how the phase ends if none fails. -/
structure Publication where
  steps : List (State × FileOp)
  final : State
  result : Except FormatError Unit

def Publication.ops (p : Publication) : List FileOp :=
  p.steps.map Prod.snd

def ioError : FormatError :=
  .io "file operation failed"

def Publication.run (p : Publication) (disk : Disk) (fault : Option Nat) :
    State × Disk × Except FormatError Unit :=
  match fault.bind fun k => p.steps[k]?.map fun step => (k, step.1) with
  | some (k, st) => (st, disk.applyAll (p.ops.take k), .error ioError)
  | none => (p.final, disk.applyAll p.ops, p.result)

theorem Publication.run_none (p : Publication) (disk : Disk) :
    p.run disk none = (p.final, disk.applyAll p.ops, p.result) := rfl

end Aikoql.Storage
