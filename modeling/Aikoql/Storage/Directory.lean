import Aikoql.Lib.MergeMaps
import Aikoql.Storage.Segment

/-!
# The Object Directories

The three maps that find an object's rows: object to logical id, logical id to
replica, and replica to placement.

The maps live in memory. They are made durable as delta logs, one file per
family and generation, and from time to time as a checkpoint of all three. What
a database finds at open is the newest checkpoint, the logs published after it
and the creates still in the write-ahead log, so a record may arrive more than
once. The merge rules make that harmless. Identity and replica records are
write-once: a repeat is accepted and a contradiction refused. A placement
carries a generation, the larger one wins, and two placements of one generation
must be equal.

The checkpoint prunes the logs it subsumes, so a missing log would go unnoticed
without the publication chain: the checkpoint and the manifest carry the fold of
all published generations, and open folds the files it finds from one to the
other.
-/

namespace Aikoql.Storage

/-- A node of the cluster; this build knows only one. -/
abbrev NodeId := U64

def localNodeId : NodeId := 1

/-- The row a placement names. -/
structure PhysicalLocation where
  segmentId : Nat
  blockId : Nat
  entryOffset : Nat
  generation : Nat
  deriving DecidableEq

/-- Where a replica's newest row lives. -/
inductive Placement where
  | memtable (generation : Nat)
  | segment (loc : PhysicalLocation)
  | retired (generation : Nat)
  deriving DecidableEq

def Placement.generation : Placement → Nat
  | .memtable generation => generation
  | .segment loc => loc.generation
  | .retired generation => generation

def Placement.isMemtable : Placement → Bool
  | .memtable _ => true
  | .segment _ => false
  | .retired _ => false

structure IdentityRecord where
  oid : ObjectId
  lid : LogicalId
  deriving DecidableEq

structure ReplicaRecord where
  lid : LogicalId
  node : NodeId
  rid : ReplicaId
  deriving DecidableEq

structure PlacementRecord where
  rid : ReplicaId
  placement : Placement
  deriving DecidableEq

abbrev IdentityMap := Std.ExtTreeMap ObjectId LogicalId
abbrev ReplicaMap := Std.ExtTreeMap LogicalId ReplicaId
abbrev PlacementMap := Std.ExtTreeMap ReplicaId Placement

/-! ## The merge gates -/

def mergeIdentity (identity : IdentityMap) (oid : ObjectId) (lid : LogicalId) :
    Except FormatError IdentityMap :=
  putOnce (fun old =>
    let name := ObjectId.display oid
    let held := old.val
    let incoming := lid.val
    .corrupt s!"identity directory: ObjectId {name} maps to both {held} and {incoming}")
    identity oid lid

def mergeReplica (replicas : ReplicaMap) (lid : LogicalId) (node : NodeId) (rid : ReplicaId) :
    Except FormatError ReplicaMap := do
  let named := node.val
  let known := localNodeId.val
  ensure (node = localNodeId) (.corrupt
    s!"replica directory: record names NodeId({named}), this build only knows NodeId({known})")
  putOnce (fun old =>
    let name := lid.val
    let held := old.val
    let incoming := rid.val
    .corrupt s!"replica directory: LogicalId {name} maps to both {held} and {incoming}")
    replicas lid rid

def mergePlacement (placements : PlacementMap) (rid : ReplicaId) (placement : Placement) :
    Except FormatError PlacementMap :=
  let name := rid.val
  let incoming := placement.generation
  putNewer Placement.generation
    (.corrupt s!"placement for replica ReplicaId({name}) changed at the same generation {incoming}")
    placements rid placement

def mergeIdentities (identity : IdentityMap) (records : List IdentityRecord) :
    Except FormatError IdentityMap :=
  records.foldlM (fun m r => mergeIdentity m r.oid r.lid) identity

def mergeReplicas (replicas : ReplicaMap) (records : List ReplicaRecord) :
    Except FormatError ReplicaMap :=
  records.foldlM (fun m r => mergeReplica m r.lid r.node r.rid) replicas

def mergePlacements (placements : PlacementMap) (records : List PlacementRecord) :
    Except FormatError PlacementMap :=
  records.foldlM (fun m r => mergePlacement m r.rid r.placement) placements

/-! ## The directories in memory -/

/-- The directories of a running database: the three maps, the records the next
    publication owes each family, and the allocators. -/
structure Directories where
  identity : IdentityMap
  replicas : ReplicaMap
  placements : PlacementMap
  pendingIdentity : List IdentityRecord
  pendingReplicas : List ReplicaRecord
  pendingPlacements : List PlacementRecord
  nextLogicalId : Nat
  nextReplicaId : Nat
  nextPlacementGeneration : Nat

def draw (next : Nat) : Except FormatError U64 :=
  if h : next < 18446744073709551616 then .ok ⟨next, h⟩
  else .error (.invalid "attempt to add with overflow")

/-- Reserve the three ids of a new object. -/
def reserveIdentity (dirs : Directories) :
    Except FormatError ((LogicalId × ReplicaId × U64) × Directories) := do
  let lid ← draw dirs.nextLogicalId
  let rid ← draw dirs.nextReplicaId
  let pgen ← draw dirs.nextPlacementGeneration
  return ((lid, rid, pgen), { dirs with
    nextLogicalId := dirs.nextLogicalId + 1
    nextReplicaId := dirs.nextReplicaId + 1
    nextPlacementGeneration := dirs.nextPlacementGeneration + 1 })

def place (dirs : Directories) (rid : ReplicaId) (placed : Nat → Placement) :
    Directories × Option FormatError :=
  let placement := placed dirs.nextPlacementGeneration
  let dirs := { dirs with nextPlacementGeneration := dirs.nextPlacementGeneration + 1 }
  match mergePlacement dirs.placements rid placement with
  | .error e => (dirs, some e)
  | .ok placements =>
    ({ dirs with
      placements := placements
      pendingPlacements := dirs.pendingPlacements ++ [⟨rid, placement⟩] }, none)

def applyObjectPlacement (dirs : Directories) (rid : ReplicaId) :
    Directories × Option FormatError :=
  place dirs rid .memtable

def replayObjectPlacement (dirs : Directories) (rid : ReplicaId) :
    Directories × Option FormatError :=
  if dirs.placements[rid]?.any Placement.isMemtable then (dirs, none)
  else applyObjectPlacement dirs rid

/-- A create passes the three gates in turn; what passed before a refusal
    stays. -/
def applyCreate (dirs : Directories) (oid : ObjectId) (lid : LogicalId) (rid : ReplicaId)
    (pgen : U64) : Directories × Option FormatError :=
  match mergeIdentity dirs.identity oid lid with
  | .error e => (dirs, some e)
  | .ok identity =>
    let dirs := { dirs with
      identity := identity
      pendingIdentity := dirs.pendingIdentity ++ [⟨oid, lid⟩] }
    match mergeReplica dirs.replicas lid localNodeId rid with
    | .error e => (dirs, some e)
    | .ok replicas =>
      let dirs := { dirs with
        replicas := replicas
        pendingReplicas := dirs.pendingReplicas ++ [⟨lid, localNodeId, rid⟩] }
      let placement := Placement.memtable pgen.val
      match mergePlacement dirs.placements rid placement with
      | .error e => (dirs, some e)
      | .ok placements =>
        ({ dirs with
          placements := placements
          pendingPlacements := dirs.pendingPlacements ++ [⟨rid, placement⟩] }, none)

def allocatePast (dirs : Directories) (lid : LogicalId) (rid : ReplicaId) (pgen : U64) :
    Directories :=
  { dirs with
    nextLogicalId := max dirs.nextLogicalId (lid.val + 1)
    nextReplicaId := max dirs.nextReplicaId (rid.val + 1)
    nextPlacementGeneration := max dirs.nextPlacementGeneration (pgen.val + 1) }

/-- The part of an operation that concerns the directories. A write of its own
    allocates past the ids of a create once its identity is accepted; a group
    commit does not. -/
def gate (grouped : Bool) (dirs : Directories) : Op → Directories × Option FormatError
  | .put _ _ => (dirs, none)
  | .delete _ => (dirs, none)
  | .putObject rid _ _ => applyObjectPlacement dirs rid
  | .deleteObject rid _ => applyObjectPlacement dirs rid
  | .createObject oid lid rid pgen =>
    let allocate :=
      !grouped && (mergeIdentity dirs.identity oid lid).toBool
    applyCreate (if allocate then allocatePast dirs lid rid pgen else dirs) oid lid rid pgen

def replayGate (dirs : Directories) : Op → Directories × Option FormatError
  | .put _ _ => (dirs, none)
  | .delete _ => (dirs, none)
  | .putObject rid _ _ => replayObjectPlacement dirs rid
  | .deleteObject rid _ => replayObjectPlacement dirs rid
  | .createObject oid lid rid pgen => applyCreate dirs oid lid rid pgen

/-! ## Delta logs and checkpoints -/

/-- The log files of a family by generation. -/
abbrev DeltaLogs (α : Type) := Std.ExtTreeMap Nat (List α)

def DeltaLogs.generations {α : Type} (logs : DeltaLogs α) (after upto : Nat) : List Nat :=
  logs.keys.filter fun g => after < g ∧ g ≤ upto

/-- The records of those logs, oldest first. -/
def DeltaLogs.records {α : Type} (logs : DeltaLogs α) (after upto : Nat) : List α :=
  (logs.generations after upto).flatMap fun g => logs[g]?.getD []

def orphanPlacementMaxGeneration (logs : DeltaLogs PlacementRecord) (current : Nat) : Nat :=
  ((logs.keys.filter fun g => current < g).flatMap fun g =>
    (logs[g]?.getD []).map fun r => r.placement.generation).foldl max 0

/-- A checkpoint of the directories: the three maps, the allocators and the
    publication chains. -/
structure DirectoryCheckpoint where
  generation : Nat
  identities : List IdentityRecord
  replicas : List ReplicaRecord
  placements : List PlacementRecord
  nextLogicalId : Nat
  nextReplicaId : Nat
  nextPlacementGeneration : Nat
  identityChain : Nat
  replicaChain : Nat
  placementChain : Nat
  deriving DecidableEq

def loadNewest (checkpoints : Std.ExtTreeMap Nat DirectoryCheckpoint) (current : Nat) :
    Option DirectoryCheckpoint :=
  (checkpoints.keys.filter fun g => g ≤ current).getLast?.bind fun g => checkpoints[g]?

/-- A number with at least six digits, as file names have it. -/
def pad6 (n : Nat) : String :=
  let digits := toString n
  "".pushn '0' (6 - digits.length) ++ digits

/-- The coverage check of one family: the logs between the checkpoint and the
    current generation fold from one chain to the other, and the newest is the
    one the manifest names. -/
def validateFamilyCoverage (H : Sha256) {α : Type} (logs : DeltaLogs α) (family : String)
    (checkpointGeneration currentGeneration baseChain : Nat) (current : FamilyMark) :
    Except FormatError Unit := do
  let gens := logs.generations checkpointGeneration currentGeneration
  let floor := pad6 current.floor
  ensure (¬(checkpointGeneration < current.floor ∧ gens.getLast? ≠ some current.floor)) (.corrupt
    s!"required authoritative delta {family}-{floor}.log missing (post-checkpoint coverage broken)")
  ensure (gens.foldl (chainExtend H) baseChain = current.chain) (.corrupt
    s!"post-checkpoint {family} delta coverage incomplete (a published log is missing)")

def validateDeltaCoverage (H : Sha256) (identity : DeltaLogs IdentityRecord)
    (replica : DeltaLogs ReplicaRecord) (placement : DeltaLogs PlacementRecord)
    (checkpoint : Option DirectoryCheckpoint) (manifest : Manifest) : Except FormatError Unit :=
  match checkpoint with
  | none => .ok ()
  | some ckp =>
    if manifest.generation ≤ ckp.generation then
      .ok ()
    else do
      validateFamilyCoverage H identity "IDENTITY" ckp.generation manifest.generation
        ckp.identityChain manifest.identity
      validateFamilyCoverage H replica "REPLICA" ckp.generation manifest.generation
        ckp.replicaChain manifest.replica
      validateFamilyCoverage H placement "PLACEMENT" ckp.generation manifest.generation
        ckp.placementChain manifest.placement

def validateSegmentLocation (loc : PhysicalLocation) (manifestSegmentIds : List Nat)
    (blockEntries : Option Nat) : Except FormatError Unit :=
  let segment := loc.segmentId
  let block := loc.blockId
  let entry := loc.entryOffset
  if ¬manifestSegmentIds.contains loc.segmentId then
    .error (.corrupt s!"placement references segment {segment} absent from the manifest")
  else
    match blockEntries with
    | none => .error (.corrupt s!"placement block {block} past segment {segment}'s blocks")
    | some entries =>
      if entries ≤ loc.entryOffset then
        .error (.corrupt s!"placement entry {entry} past block {block}'s {entries} entries")
      else
        .ok ()

end Aikoql.Storage
