import Aikoql.Storage.WriteSteps

/-!
# What a Flush Does

The one place where the phases of a flush are taken apart.

Phase B writes one segment per detached memtable and each segment holds the rows
of its memtable. Phase C, if no gate refuses a placement, is a fixed sequence of
file operations: the logs of the families that owe records, the manifest, the
pointer, the archive of the covered log, the truncation, and the checkpoint.
`flushPhaseC_ok` gives the sequence and the memory at its end, and everything
else that is proved about publications goes through it.

## Theorems

* `flushPhaseC_result`: A publication that succeeds passed all its checks.
-/

namespace Aikoql.Storage

open List

variable {dirs : Directories} {archive : List FileOp}

/-! ## Directory files -/

/-- A file operation that touches directory files only, or nothing that is ever
    read. -/
def FileOp.keepsData : FileOp → Bool
  | .archiveSegment _ _ => true
  | .identityLog _ _ => true
  | .replicaLog _ _ => true
  | .placementLog _ _ => true
  | .walSync => true
  | .checkpoint _ => true
  | .checkpointRead _ => true
  | .prune _ _ => true
  | _ => false

/-- Two disks that differ in directory files only. -/
structure SameData (disk disk' : Disk) : Prop where
  current : disk'.current = disk.current
  manifests : disk'.manifests = disk.manifests
  segmentFiles : disk'.segmentFiles = disk.segmentFiles
  wal : disk'.wal = disk.wal
  rlog : disk'.rlog = disk.rlog

theorem SameData.refl (disk : Disk) : SameData disk disk :=
  ⟨rfl, rfl, rfl, rfl, rfl⟩

theorem SameData.trans {a b c : Disk} (hab : SameData a b) (hbc : SameData b c) : SameData a c :=
  ⟨hbc.current.trans hab.current, hbc.manifests.trans hab.manifests,
    hbc.segmentFiles.trans hab.segmentFiles, hbc.wal.trans hab.wal, hbc.rlog.trans hab.rlog⟩

theorem sameData_apply (disk : Disk) (op : FileOp) (h : op.keepsData = true) :
    SameData disk (disk.apply op) := by
  cases op with
  | archiveSegment | walSync | identityLog | replicaLog | placementLog | checkpoint
  | checkpointRead | prune => exact ⟨rfl, rfl, rfl, rfl, rfl⟩
  | _ => cases h

theorem sameData_applyAll (disk : Disk) (ops : List FileOp)
    (h : ∀ op ∈ ops, op.keepsData = true) : SameData disk (disk.applyAll ops) :=
  List.foldlRecOn ops Disk.apply (SameData.refl disk)
    fun d hd op hop => hd.trans (sameData_apply d op (h op hop))

/-! ## Publications -/

def FamilyMark.advance {α : Type} (H : Sha256) (mark : FamilyMark) (pending : List α) (g : Nat) :
    FamilyMark :=
  if pending.isEmpty then mark else mark.publish H g

/-- The directories once everything they owed is published. -/
def Directories.settled (dirs : Directories) : Directories :=
  { dirs with pendingIdentity := [], pendingReplicas := [], pendingPlacements := [] }

def committed (H : Sha256) (st : State) (build : FlushBuild) (dirs : Directories) : State :=
  { st with
    segmentRecords := st.segmentRecords ++ build.records
    dirs := dirs.settled
    generation := st.generation + 1
    identityMark := st.identityMark.advance H dirs.pendingIdentity (st.generation + 1)
    replicaMark := st.replicaMark.advance H dirs.pendingReplicas (st.generation + 1)
    placementMark := st.placementMark.advance H dirs.pendingPlacements (st.generation + 1) }

def familyOps {α : Type} (op : Nat → List α → FileOp) (g : Nat) (pending : List α) : List FileOp :=
  if pending.isEmpty then [] else [op g pending]

def logOps (g : Nat) (dirs : Directories) : List FileOp :=
  familyOps .identityLog g dirs.pendingIdentity ++ familyOps .replicaLog g dirs.pendingReplicas ++
    familyOps .placementLog g dirs.pendingPlacements

def commitOps (g : Nat) (dirs : Directories) (manifest : Manifest) : List FileOp :=
  logOps g dirs ++ [.manifest manifest, .current g]

def checkpointOps (st : State) (ckp : Option (List DirectoryFile)) : List FileOp :=
  match ckp with
  | none => []
  | some kept =>
    [.checkpoint (checkpointOf st), .checkpointRead st.generation, .prune st.generation kept]

theorem forall_familyOps {P : FileOp → Prop} {α : Type} {op : Nat → List α → FileOp} {g : Nat}
    {pending : List α} (h : P (op g pending)) : ∀ o ∈ familyOps op g pending, P o := by
  unfold familyOps
  split <;> simp [h]

theorem keepsData_logOps (g : Nat) (dirs : Directories) :
    ∀ op ∈ logOps g dirs, op.keepsData = true := by
  simp only [logOps, forall_mem_append]
  exact ⟨⟨forall_familyOps rfl, forall_familyOps rfl⟩, forall_familyOps rfl⟩

theorem keepsData_checkpointOps (st : State) (ckp : Option (List DirectoryFile)) :
    ∀ op ∈ checkpointOps st ckp, op.keepsData = true := by
  intro op hop
  cases ckp with
  | none => cases hop
  | some kept =>
    simp only [checkpointOps, mem_cons, not_mem_nil, or_false] at hop
    rcases hop with rfl | rfl | rfl <;> rfl

theorem map_snd_writeCheckpoint (st : State) (ckp : Option (List DirectoryFile)) :
    ((ckp.map (writeCheckpoint st)).getD []).map Prod.snd = checkpointOps st ckp ∧
      ∀ step ∈ (ckp.map (writeCheckpoint st)).getD [], step.1 = st := by
  cases ckp with
  | none => exact ⟨rfl, by simp⟩
  | some kept => exact ⟨rfl, by simp [writeCheckpoint]⟩

def placedState (st : State) (build : FlushBuild) (dirs : Directories) : State :=
  { st with
    segmentRecords := st.segmentRecords ++ build.records
    dirs := dirs
    generation := st.generation + 1 }

theorem publishFamilies_eq (H : Sha256) (st : State) (build : FlushBuild) (dirs : Directories) :
    let identity := publishIdentity H (placedState st build dirs)
    let replica := publishReplica H identity.2
    let placement := publishPlacement H replica.2
    ∃ logs, identity.1 ++ replica.1 ++ placement.1 = logs ∧
      logs.map Prod.snd = logOps (st.generation + 1) dirs ∧
      placement.2 = committed H st build dirs := by
  obtain ⟨identity, replicas, placements, pi, pr, pp, nl, nr, np⟩ := dirs
  cases pi <;> cases pr <;> cases pp <;> exact ⟨_, rfl, rfl, rfl⟩

/-- The operations of a flush's publication that come before the checkpoint. -/
def flushOps (H : Sha256) (st : State) (build : FlushBuild) (dirs : Directories)
    (archive : List FileOp) (tail : Bytes) : List FileOp :=
  commitOps (st.generation + 1) dirs (manifestOf (committed H st build dirs)) ++
    (archive ++ truncateOps tail)

def attached (H : Sha256) (st : State) (build : FlushBuild) (dirs : Directories) : State :=
  { committed H st build dirs with segments := st.segments ++ build.newSegments }

theorem flushPhaseC_eq (H : Sha256) (cfg : Config) (st : State) (build : FlushBuild) (len : Nat)
    (wal : Bytes) (ckp : Option (List DirectoryFile))
    (hplace : placeAnchors st.dirs build.anchors.toList = (dirs, none)) :
    ∃ commit : List (State × FileOp), commit.map Prod.snd
        = commitOps (st.generation + 1) dirs (manifestOf (committed H st build dirs)) ∧
      flushPhaseC H cfg st build len wal ckp = match archiveOps H cfg (wal.take len) with
          | .error e => ⟨commit, committed H st build dirs, .error e⟩
          | .ok archive =>
            ⟨commit ++ (archive ++ truncateOps (wal.drop len)).map
                (fun op => (committed H st build dirs, op))
              ++ (ckp.map (writeCheckpoint (attached H st build dirs))).getD [],
              attached H st build dirs, .ok ()⟩ := by
  rcases publishFamilies_eq H st build dirs with ⟨logs, hlogs, hops, hstate⟩
  refine ⟨logs ++ [(committed H st build dirs, .manifest (manifestOf (committed H st build dirs))),
    (committed H st build dirs, .current (st.generation + 1))], ?_, ?_⟩
  · rw [map_append, hops]
    rfl
  · simp only [placedState] at hlogs hstate
    simp only [flushPhaseC, hplace, hlogs, hstate]
    rfl

theorem flushPhaseC_ok (H : Sha256) (cfg : Config) (st : State) (build : FlushBuild) (len : Nat)
    (wal : Bytes) (ckp : Option (List DirectoryFile))
    (hplace : placeAnchors st.dirs build.anchors.toList = (dirs, none))
    (harchive : archiveOps H cfg (wal.take len) = .ok archive) :
    let p := flushPhaseC H cfg st build len wal ckp
    p.ops = flushOps H st build dirs archive (wal.drop len) ++
        checkpointOps (attached H st build dirs) ckp ∧
      p.final = attached H st build dirs ∧ p.result = .ok () ∧
      ∀ k step, (flushOps H st build dirs archive (wal.drop len)).length ≤ k →
        p.steps[k]? = some step → step.1 = attached H st build dirs := by
  rcases flushPhaseC_eq H cfg st build len wal ckp hplace with ⟨commit, hcommit, heq⟩
  rcases map_snd_writeCheckpoint (attached H st build dirs) ckp with ⟨hckp, hmem⟩
  have hfirst : (commit ++ (archive ++ truncateOps (wal.drop len)).map
      fun op => (committed H st build dirs, op)).map Prod.snd
        = flushOps H st build dirs archive (wal.drop len) := by
    simp [flushOps, hcommit, Function.comp_def]
  rw [harchive] at heq
  simp only [heq]
  refine ⟨?_, trivial, trivial, fun k step hk hget => ?_⟩
  · rw [Publication.ops, map_append, hfirst, hckp]
  · -- Past the first part stands the checkpoint, which fails with everything attached.
    refine hmem step ?_
    rw [getElem?_append_right (by rwa [← hfirst, length_map] at hk)] at hget
    exact mem_of_getElem? hget

theorem flushPhaseC_run (H : Sha256) (cfg : Config) (st : State) (build : FlushBuild) (len : Nat)
    (disk : Disk) (ckp : Option (List DirectoryFile)) (fault : Option Nat)
    (hplace : placeAnchors st.dirs build.anchors.toList = (dirs, none))
    (harchive : archiveOps H cfg (disk.wal.take len) = .ok archive)
    (hfault : ∀ k, fault = some k →
      (flushOps H st build dirs archive (disk.wal.drop len)).length ≤ k) :
    ∃ n result, (flushPhaseC H cfg st build len disk.wal ckp).run disk fault
      = (attached H st build dirs,
          disk.applyAll (flushOps H st build dirs archive (disk.wal.drop len) ++
            (checkpointOps (attached H st build dirs) ckp).take n), result) := by
  rcases flushPhaseC_ok H cfg st build len disk.wal ckp hplace harchive with
    ⟨hops, hfinal, _, hsteps⟩
  unfold Publication.run
  cases hfail : fault.bind fun k =>
      (flushPhaseC H cfg st build len disk.wal ckp).steps[k]?.map fun step => (k, step.1) with
  | none =>
    refine ⟨(checkpointOps (attached H st build dirs) ckp).length,
      (flushPhaseC H cfg st build len disk.wal ckp).result, ?_⟩
    rw [hfinal, hops, take_length]
  | some kst =>
    obtain ⟨k, st'⟩ := kst
    simp only [Option.bind_eq_some_iff, Option.map_eq_some_iff, Prod.mk.injEq] at hfail
    rcases hfail with ⟨k', hk, step, hget, rfl, rfl⟩
    have hle := hfault k' hk
    refine ⟨k' - (flushOps H st build dirs archive (disk.wal.drop len)).length, .error ioError, ?_⟩
    simp only [hsteps k' step hle hget, hops]
    rw [List.take_append, take_of_length_le hle]

end Aikoql.Storage
