import Aikoql.Storage.Compact
import Aikoql.Storage.Replay

/-!
# Opening a Database

What a database recovers from its files.

Open reads the generation the pointer names, checks its manifest, rebuilds the
directories from the newest checkpoint and the logs published after it, opens
the segments, checks every placement that names one, and replays the log into a
fresh memtable and the directories. Everything it finds wrong fails the open.
The sequence allocator is put past the replayed frames and the rows of the
segments, and the other allocators past what the directories hold.
-/

namespace Aikoql.Storage

def validateRecord (disk : Disk) (seen : List Nat) (r : SegmentRecord) :
    Except FormatError Unit := do
  let id := r.segmentId
  let level := r.level
  ensure (¬seen.contains r.segmentId) (.corrupt s!"manifest names segment {id} twice")
  ensure (r.level ≤ 1) (.corrupt s!"segment {id} has unsupported level {level}")
  ensure (¬r.keyMax < r.keyMin) (.corrupt s!"segment {id} key range flipped")
  ensure (¬r.seqHi < r.seqLo) (.corrupt s!"segment {id} sequence range flipped")
  ensure (r.recordCount ≠ 0) (.corrupt s!"segment {id} claims zero records")
  ensure (disk.segmentFiles.contains r.segmentId) (.io s!"segment {id} file missing or unreadable")

def validateRecords (disk : Disk) : List Nat → List SegmentRecord → Except FormatError Unit
  | _, [] => .ok ()
  | seen, r :: records => do
      validateRecord disk seen r
      validateRecords disk (r.segmentId :: seen) records

def validateManifest (manifest : Manifest) (disk : Disk) : Except FormatError Unit := do
  ensure (manifest.generation ≠ 0) (.corrupt "manifest generation must be > 0")
  validateRecords disk [] manifest.segments

def openSegment (disk : Disk) (r : SegmentRecord) : Except FormatError Segment :=
  let id := r.segmentId
  match disk.segmentFiles[r.segmentId]? with
  | none => .error (.io s!"segment {id} file missing or unreadable")
  | some s =>
    if segmentRecord r.segmentId r.level s ≠ r then
      .error (.corrupt s!"manifest record for segment {id} disagrees with the segment header")
    else
      .ok s

def freshDisk (disk : Disk) : Disk :=
  match disk.current with
  | some _ => disk
  | none => (disk.apply (.manifest ⟨1, [], ⟨0, 0⟩, ⟨0, 0⟩, ⟨0, 0⟩⟩)).apply (.current 1)

/-- The directories as the checkpoint and the logs have them. -/
structure Recovered where
  identity : IdentityMap
  replicas : ReplicaMap
  placements : PlacementMap

def identityRecords (disk : Disk) (current : Nat) : List IdentityRecord :=
  match loadNewest disk.checkpoints current with
  | none => disk.identityLogs.records 0 current
  | some ckp => ckp.identities ++ disk.identityLogs.records ckp.generation current

def replicaRecords (disk : Disk) (current : Nat) : List ReplicaRecord :=
  match loadNewest disk.checkpoints current with
  | none => disk.replicaLogs.records 0 current
  | some ckp => ckp.replicas ++ disk.replicaLogs.records ckp.generation current

def placementRecords (disk : Disk) (current : Nat) : List PlacementRecord :=
  match loadNewest disk.checkpoints current with
  | none => disk.placementLogs.records 0 current
  | some ckp => ckp.placements ++ disk.placementLogs.records ckp.generation current

def validatePlacement (manifest : Manifest) (segments : List Segment)
    (rp : ReplicaId × Placement) : Except FormatError Unit :=
  match rp.2 with
  | .memtable _ => .ok ()
  | .retired _ => .ok ()
  | .segment loc =>
    let ids := manifest.segments.map SegmentRecord.segmentId
    let name := rp.1.val
    let segment := loc.segmentId
    match (ids.zip segments).find? fun is => is.1 = loc.segmentId with
    | none => .error (.corrupt
        (s!"placement for replica ReplicaId({name}) references segment {segment} " ++
          "absent from the manifest"))
    | some is => validateSegmentLocation loc ids (is.2.blockEntryCount loc.blockId)

def maxOf (ns : List Nat) : Nat :=
  ns.foldl max 0

def maxGeneration (placements : PlacementMap) : Nat :=
  maxOf (placements.toList.map fun rp => rp.2.generation)

structure Replayed where
  active : Memtable
  dirs : Directories
  replayMax : Nat

def replayOp (seq : U64) (r : Replayed) (op : Op) : Except FormatError Replayed :=
  match replayGate r.dirs op with
  | (_, some e) => .error e
  | (dirs, none) => .ok ⟨applyRow seq.val r.active op, dirs, max r.replayMax seq.val⟩

def checkpointFloors (checkpoint : Option DirectoryCheckpoint) : Nat × Nat × Nat :=
  match checkpoint with
  | none => (0, 0, 0)
  | some c => (c.nextLogicalId, c.nextReplicaId, c.nextPlacementGeneration)

def replayStart (recovered : Recovered) (orphanMax : Nat) : Replayed :=
  { active := Memtable.new
    dirs :=
      { identity := recovered.identity
        replicas := recovered.replicas
        placements := recovered.placements
        pendingIdentity := []
        pendingReplicas := []
        pendingPlacements := []
        nextLogicalId := 0
        nextReplicaId := 0
        nextPlacementGeneration := max (maxGeneration recovered.placements) orphanMax + 1 }
    replayMax := 0 }

/-- The directories after the replay, with the allocators put past everything
    they hold and what the checkpoint guarantees. -/
def recoverAllocators (dirs : Directories) (orphanMax : Nat) (floors : Nat × Nat × Nat) :
    Directories :=
  { dirs with
    nextLogicalId := max (maxOf (dirs.identity.toList.map fun ol => ol.2.val) + 1) floors.1
    nextReplicaId := max (maxOf (dirs.replicas.toList.map fun lr => lr.2.val) + 1) floors.2.1
    nextPlacementGeneration :=
      max (max (maxGeneration dirs.placements) orphanMax + 1) floors.2.2 }

def dbOpen (H : Sha256) (cfg : Config) (disk : Disk) : Except FormatError (State × Disk) := do
  ensure (cfg.blockTarget ≠ 0) (.invalid "target block size must be > 0")
  let disk := freshDisk disk
  let current := disk.current.getD 1
  let manifest ← match disk.manifests[current]? with
    | none => .error (.io "manifest missing or unreadable")
    | some m => .ok m
  verifyPair current manifest
  validateManifest manifest disk
  let checkpoint := loadNewest disk.checkpoints current
  validateDeltaCoverage H disk.identityLogs disk.replicaLogs disk.placementLogs checkpoint manifest
  let identity ← mergeIdentities ∅ (identityRecords disk current)
  let replicas ← mergeReplicas ∅ (replicaRecords disk current)
  let segments ← manifest.segments.mapM (openSegment disk)
  let placements ← mergePlacements ∅ (placementRecords disk current)
  let orphanMax := orphanPlacementMaxGeneration disk.placementLogs current
  let _ ← placements.toList.mapM (validatePlacement manifest segments)
  let (ends, replayed) ←
    replayReader H disk.wal replayOp (replayStart ⟨identity, replicas, placements⟩ orphanMax)
  let disk := if ends.1 ≠ ends.2 then disk.apply (.walSetLen ends.1) else disk
  return ({
    active := replayed.active
    immutables := []
    segments := segments
    segmentRecords := manifest.segments
    nextSeq := max replayed.replayMax (maxOf (manifest.segments.map SegmentRecord.seqHi)) + 1
    nextSegmentId := maxOf (manifest.segments.map SegmentRecord.segmentId) + 1
    generation := manifest.generation
    dirs := recoverAllocators replayed.dirs orphanMax (checkpointFloors checkpoint)
    identityMark := manifest.identity
    replicaMark := manifest.replica
    placementMark := manifest.placement }, disk)

end Aikoql.Storage
