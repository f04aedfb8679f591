import Aikoql.Storage.Write

/-!
# Flushing

The three phases that turn memtables into segments.

Phase A runs under the state lock: it retires the active memtable, detaches all
immutable ones, reserves a segment id for each and notes the length of the log.
Phase B runs without the lock and writes a segment per detached memtable. Phase
C takes the lock again: it places the replicas the segments anchor, publishes
what each directory family owes, the manifest and the pointer to it, drops the
covered beginning of the log, and only then attaches the segments for readers.
Between A and C the detached memtables belong to no structure a reader looks at.
-/

namespace Aikoql.Storage

/-! ## Phase A -/

/-- The detached memtables, their segment ids, and the length of the log they
    and everything older are in. -/
structure FlushPlan where
  immutables : List Memtable
  segmentIds : List Nat
  walTruncateLen : Nat

def flushPhaseA (st : State) (walLen : Nat) : State × Option FlushPlan :=
  let st := rotate st
  if st.immutables.isEmpty then
    (st, none)
  else
    let n := st.immutables.length
    ({ st with immutables := [], nextSegmentId := st.nextSegmentId + n },
      some ⟨st.immutables, (List.range n).map fun i => st.nextSegmentId + i, walLen⟩)

/-! ## Phase B -/

/-- A replica's newest row among published segments. -/
structure Anchor where
  seq : Nat
  segmentId : Nat
  blockId : Nat
  entryOffset : Nat
  deriving DecidableEq

abbrev Anchors := Std.ExtTreeMap ReplicaId Anchor

def keepNewest (id : Nat) (anchors : Anchors) (a : SegmentAnchor) : Anchors :=
  let anchor : Anchor := ⟨a.seq, id, a.blockId, a.entryOffset⟩
  match anchors[a.replicaId]? with
  | some best => if a.seq ≤ best.seq then anchors else anchors.insert a.replicaId anchor
  | none => anchors.insert a.replicaId anchor

def addAnchors (id : Nat) (anchors : Anchors)
    (segAnchors : Std.ExtTreeMap ReplicaId SegmentAnchor) : Anchors :=
  (segAnchors.toList.map Prod.snd).foldl (keepNewest id) anchors

def segmentRecord (id level : Nat) (s : Segment) : SegmentRecord :=
  { segmentId := id
    level := level
    keyMin := s.keyMin
    keyMax := s.keyMax
    seqLo := s.seqLo
    seqHi := s.seqHi
    recordCount := s.entryCount }

def segmentEntry (entry : Bytes × Nat × MemEntry) : SegmentEntry :=
  let value := entry.2.2.value
  { key := entry.1
    value := value.getD []
    seq := entry.2.1
    flags := if value.isSome then flagPut else flagDelete
    replicaId := entry.2.2.replicaId }

def publishWithAnchorsSorted (H : Sha256) (w : BlockVersion) (target : Nat)
    (entries : List SegmentEntry) :
    Except FormatError (Segment × Std.ExtTreeMap ReplicaId SegmentAnchor) :=
  publishSortedEntries H w target ((runsOf entries.length entries).flatMap List.reverse)

def publishMemtable (H : Sha256) (cfg : Config) (mem : Memtable) :
    Except FormatError (Segment × Std.ExtTreeMap ReplicaId SegmentAnchor) :=
  publishWithAnchorsSorted H (if mem.hasIdentity then newV4 else newV2) cfg.blockTarget
    (mem.entries.map segmentEntry)

/-- The segments of a flush, their records and the newest row of each
    replica in them. -/
structure FlushBuild where
  newSegments : List Segment
  records : List SegmentRecord
  anchors : Anchors

def flushPhaseB (H : Sha256) (cfg : Config) :
    FlushBuild → List (Memtable × Nat) → List FileOp × Except FormatError FlushBuild
  | build, [] => ([], .ok build)
  | build, (mem, id) :: rest =>
    match publishMemtable H cfg mem with
    | .error e => ([], .error e)
    | .ok (s, anchors) =>
      let build : FlushBuild :=
        { newSegments := build.newSegments ++ [s]
          records := build.records ++ [segmentRecord id 0 s]
          anchors := addAnchors id build.anchors anchors }
      let written := flushPhaseB H cfg build rest
      (.segment id s :: written.1, written.2)

def FlushBuild.empty : FlushBuild :=
  ⟨[], [], ∅⟩

/-! ## Checkpoints -/

def checkpointOf (st : State) : DirectoryCheckpoint :=
  { generation := st.generation
    identities := st.dirs.identity.toList.map fun kv => ⟨kv.1, kv.2⟩
    replicas := st.dirs.replicas.toList.map fun kv => ⟨kv.1, localNodeId, kv.2⟩
    placements := st.dirs.placements.toList.map fun kv => ⟨kv.1, kv.2⟩
    nextLogicalId := st.dirs.nextLogicalId
    nextReplicaId := st.dirs.nextReplicaId
    nextPlacementGeneration := st.dirs.nextPlacementGeneration
    identityChain := st.identityMark.chain
    replicaChain := st.replicaMark.chain
    placementChain := st.placementMark.chain }

def writeCheckpoint (st : State) (kept : List DirectoryFile) : List (State × FileOp) :=
  [(st, .checkpoint (checkpointOf st)), (st, .checkpointRead st.generation),
    (st, .prune st.generation kept)]

/-! ## Phase C -/

def placeAnchors : Directories → List (ReplicaId × Anchor) → Directories × Option FormatError
  | dirs, [] => (dirs, none)
  | dirs, (rid, a) :: rest =>
    match place dirs rid fun pgen => .segment ⟨a.segmentId, a.blockId, a.entryOffset, pgen⟩ with
    | (dirs, some e) => (dirs, some e)
    | (dirs, none) => placeAnchors dirs rest

/-- Publish what a directory family owes, if anything: the records are taken
    before the log is written, and the mark moves after. -/
def publishFamily {α : Type} (pending : List α) (take mark : State → State)
    (op : Nat → List α → FileOp) (st : State) : List (State × FileOp) × State :=
  match pending with
  | [] => ([], st)
  | _ :: _ => ([(take st, op st.generation pending)], mark (take st))

def publishIdentity (H : Sha256) (st : State) : List (State × FileOp) × State :=
  publishFamily st.dirs.pendingIdentity
    (fun st => { st with dirs := { st.dirs with pendingIdentity := [] } })
    (fun st => { st with identityMark := st.identityMark.publish H st.generation })
    .identityLog st

def publishReplica (H : Sha256) (st : State) : List (State × FileOp) × State :=
  publishFamily st.dirs.pendingReplicas
    (fun st => { st with dirs := { st.dirs with pendingReplicas := [] } })
    (fun st => { st with replicaMark := st.replicaMark.publish H st.generation })
    .replicaLog st

def publishPlacement (H : Sha256) (st : State) : List (State × FileOp) × State :=
  publishFamily st.dirs.pendingPlacements
    (fun st => { st with dirs := { st.dirs with pendingPlacements := [] } })
    (fun st => { st with placementMark := st.placementMark.publish H st.generation })
    .placementLog st

def manifestOf (st : State) : Manifest :=
  { generation := st.generation
    segments := st.segmentRecords
    identity := st.identityMark
    replica := st.replicaMark
    placement := st.placementMark }

def archiveOps (H : Sha256) (cfg : Config) (covered : Bytes) : Except FormatError (List FileOp) :=
  if cfg.retainLog && decide (0 < covered.length) then do
    let (frame, _) ← decodeFrame H covered
    return [.archive frame.seq.val covered]
  else
    return []

/-- The file operations that drop the covered beginning of the log and keep the
    rest. -/
def truncateOps (tail : Bytes) : List FileOp :=
  .walSetLen 0 :: (if tail.isEmpty then [] else [.walAppend tail]) ++ [.walSync]

def flushPhaseC (H : Sha256) (cfg : Config) (st : State) (build : FlushBuild)
    (walTruncateLen : Nat) (wal : Bytes) (ckp : Option (List DirectoryFile)) : Publication :=
  match placeAnchors st.dirs build.anchors.toList with
  | (dirs, some e) =>
    ⟨[], { st with segmentRecords := st.segmentRecords ++ build.records, dirs := dirs }, .error e⟩
  | (dirs, none) =>
    let placed := { st with
      segmentRecords := st.segmentRecords ++ build.records
      dirs := dirs
      generation := st.generation + 1 }
    let identity := publishIdentity H placed
    let replica := publishReplica H identity.2
    let placement := publishPlacement H replica.2
    let published := placement.2
    let commit := identity.1 ++ replica.1 ++ placement.1 ++
      [(published, .manifest (manifestOf published)), (published, .current published.generation)]
    match archiveOps H cfg (wal.take walTruncateLen) with
    | .error e => ⟨commit, published, .error e⟩
    | .ok archive =>
      let attached := { published with segments := published.segments ++ build.newSegments }
      ⟨commit ++ (archive ++ truncateOps (wal.drop walTruncateLen)).map (fun op => (published, op))
        ++ (ckp.map (writeCheckpoint attached)).getD [], attached, .ok ()⟩

end Aikoql.Storage
