import Aikoql.Storage.Flush

/-!
# Compacting

The phases that replace all segments by their merge.

Phase A captures the segments and the generation under the lock. The merge runs
without it. Phase C takes the lock and gives up if another publication has moved
the generation. Otherwise it moves the merged segments into place, relocates
every replica placed in a segment, publishes the placements together with what
the family owed, the manifest and the pointer, and then swaps the segments in
memory and removes the old files.
-/

namespace Aikoql.Storage

/-- What a compaction captures. -/
structure CompactCapture where
  inputs : List Segment
  generation : Nat
  policy : RetentionPolicy

def compactPhaseA (st : State) (policy : RetentionPolicy) : Option CompactCapture :=
  if st.segments.isEmpty then none else some ⟨st.segments, st.generation, policy⟩

def relocations (out : MergeOutput) (ids : List Nat) (rid : ReplicaId) : Option (Option Anchor) :=
  let anchors : Anchors := (out.chunks.zip ids).foldl
    (fun anchors sa => addAnchors sa.2 anchors sa.1.2) ∅
  if out.seen.contains rid then some anchors[rid]? else none

def relocated (anchor : Option Anchor) (pgen : Nat) : Placement :=
  match anchor with
  | some a => .segment ⟨a.segmentId, a.blockId, a.entryOffset, pgen⟩
  | none => .retired pgen

def segmentRids (placements : PlacementMap) : List ReplicaId :=
  (placements.toList.filter fun rp =>
    match rp.2 with
    | .segment _ => true
    | .memtable _ => false
    | .retired _ => false).map Prod.fst

def relocate (relocs : ReplicaId → Option (Option Anchor)) :
    Nat → List ReplicaId → Nat × Except FormatError (List PlacementRecord)
  | pgen, [] => (pgen, .ok [])
  | pgen, rid :: rids =>
    match relocs rid with
    | none =>
      let name := rid.val
      (pgen + 1, .error (.corrupt
        s!"segment-placed replica ReplicaId({name}) absent from the relocation set"))
    | some anchor =>
      let rest := relocate relocs (pgen + 1) rids
      (rest.1, rest.2.map fun records => ⟨rid, relocated anchor pgen⟩ :: records)

def mergeRecords : PlacementMap → List PlacementRecord → PlacementMap × Option FormatError
  | placements, [] => (placements, none)
  | placements, r :: records =>
    match mergePlacement placements r.rid r.placement with
    | .error e => (placements, some e)
    | .ok placements => mergeRecords placements records

def archiveIds (archived : List Segment) : Nat :=
  if archived.isEmpty then 0 else 1

def renameOps (st : State) (chunks archived : List Segment) : List (State × FileOp) :=
  let drawn := fun i => { st with nextSegmentId := st.nextSegmentId + i + 1 }
  chunks.zipIdx.map (fun si => (drawn si.2, .segment (st.nextSegmentId + si.2) si.1)) ++
    archived.zipIdx.map fun si =>
      (drawn chunks.length, .archiveSegment ⟨st.nextSegmentId + chunks.length, si.2⟩ si.1)

/-- Publish a compaction. `kept` are the segment files whose removal is skipped;
    `ckp` is given if the publication ends with a checkpoint. -/
def compactPhaseC (H : Sha256) (cfg : Config) (st : State) (capture : CompactCapture)
    (kept : List Nat) (ckp : Option (List DirectoryFile)) : Publication :=
  match merge H cfg.blockTarget cfg.mergeChunkBytes capture.policy capture.inputs with
  | .error e => ⟨[], st, .error e⟩
  | .ok out =>
    if st.generation ≠ capture.generation then
      ⟨[], st, .ok ()⟩
    else
      let chunks := out.chunks.map Prod.fst
      let ids := (List.range chunks.length).map fun i => st.nextSegmentId + i
      let renames := renameOps st chunks out.archive
      let moved := relocate (relocations out ids) st.dirs.nextPlacementGeneration
        (segmentRids st.dirs.placements)
      let taken := { st with
        nextSegmentId := st.nextSegmentId + chunks.length + archiveIds out.archive
        dirs := { st.dirs with
          pendingPlacements := []
          nextPlacementGeneration := moved.1 } }
      match moved.2 with
      | .error e => ⟨renames, taken, .error e⟩
      | .ok moves =>
        let records := st.dirs.pendingPlacements ++ moves
        let newRecords := (chunks.zip ids).map fun si => segmentRecord si.2 1 si.1
        let begun := { taken with generation := st.generation + 1 }
        let placement := publishFamily records id
          (fun st => { st with placementMark := st.placementMark.publish H st.generation })
          .placementLog begun
        let published := placement.2
        let manifest := { manifestOf published with segments := newRecords }
        let merged := mergeRecords published.dirs.placements records
        let swapped := { published with
          segments := chunks
          segmentRecords := newRecords
          dirs := { published.dirs with placements := merged.1 } }
        let commit := renames ++ placement.1 ++
          [(published, .manifest manifest), (published, .current published.generation)]
        match merged.2 with
        | some e => ⟨commit, swapped, .error e⟩
        | none =>
          ⟨commit ++
            [(swapped, .removeSegments (st.segmentRecords.map SegmentRecord.segmentId) kept)]
            ++ (ckp.map (writeCheckpoint swapped)).getD [], swapped, .ok ()⟩

end Aikoql.Storage
