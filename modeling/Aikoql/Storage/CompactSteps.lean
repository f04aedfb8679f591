import Aikoql.Storage.Stored
import Aikoql.Storage.Generations

/-!
# What a Compaction Does

The one place where the publication of a compaction is taken apart.

A compaction publishes nothing if its capture is stale. Otherwise it draws ids
for the merged segments and puts them into place, takes the owed placements,
draws a generation for every relocation, and commits a manifest that names the
merged segments only. Then it swaps the segments in memory and merges what it
published into the placements. A relocation that is missing stops it before the
commit, and a placement the gate refuses stops it after the swap.
-/

namespace Aikoql.Storage

open List

def MergeOutput.segments (out : MergeOutput) : List Segment :=
  out.chunks.map Prod.fst

def drawnIds (st : State) (out : MergeOutput) : List Nat :=
  (List.range out.segments.length).map fun i => st.nextSegmentId + i

def outputRecords (st : State) (out : MergeOutput) : List SegmentRecord :=
  (out.segments.zip (drawnIds st out)).map fun si => segmentRecord si.2 1 si.1

def movesOf (st : State) (out : MergeOutput) : Nat × Except FormatError (List PlacementRecord) :=
  relocate (relocations out (drawnIds st out)) st.dirs.nextPlacementGeneration
    (segmentRids st.dirs.placements)

def mergedPairs (st : State) (out : MergeOutput) : List (Nat × Segment) :=
  out.segments.zipIdx.map fun si => (st.nextSegmentId + si.2, si.1)

def archivePairs (st : State) (out : MergeOutput) : List (ArchiveName × Segment) :=
  out.archive.zipIdx.map fun si => (⟨st.nextSegmentId + out.segments.length, si.2⟩, si.1)

def mergedOps (st : State) (out : MergeOutput) : List FileOp :=
  (mergedPairs st out).map (fun p => .segment p.1 p.2) ++
    (archivePairs st out).map fun p => .archiveSegment p.1 p.2

def drawnState (st : State) (out : MergeOutput) : State :=
  { st with
    nextSegmentId := st.nextSegmentId + out.segments.length + archiveIds out.archive
    dirs := { st.dirs with
      pendingPlacements := []
      nextPlacementGeneration := (movesOf st out).1 } }

def compacted (H : Sha256) (st : State) (out : MergeOutput) (records : List PlacementRecord) :
    State :=
  { drawnState st out with
    generation := st.generation + 1
    placementMark := st.placementMark.advance H records (st.generation + 1)
    segments := out.segments
    segmentRecords := outputRecords st out
    dirs := { (drawnState st out).dirs with
      placements := (mergeRecords st.dirs.placements records).1 } }

def compactOps (H : Sha256) (st : State) (out : MergeOutput) (records : List PlacementRecord) :
    List FileOp :=
  mergedOps st out ++ (familyOps .placementLog (st.generation + 1) records ++
    publishOps (manifestOf (compacted H st out records)))

/-- The operations behind the commit: the replaced files go, and a checkpoint may
    follow. -/
def cleanupOps (st swapped : State) (kept : List Nat) (ckp : Option (List DirectoryFile)) :
    List FileOp :=
  .removeSegments (st.segmentRecords.map SegmentRecord.segmentId) kept :: checkpointOps swapped ckp

theorem map_snd_renameOps (st : State) (out : MergeOutput) :
    (renameOps st out.segments out.archive).map Prod.snd = mergedOps st out := by
  simp [renameOps, mergedOps, mergedPairs, archivePairs, Function.comp_def]

theorem compactPhaseC_commit (H : Sha256) (cfg : Config) (st : State) (capture : CompactCapture)
    (kept : List Nat) (ckp : Option (List DirectoryFile)) {out : MergeOutput}
    {moves : List PlacementRecord}
    (hmerge : merge H cfg.blockTarget cfg.mergeChunkBytes capture.policy capture.inputs = .ok out)
    (hgen : st.generation = capture.generation) (hmoves : (movesOf st out).2 = .ok moves) :
    let records := st.dirs.pendingPlacements ++ moves
    let swapped := compacted H st out records
    ∃ commit : List (State × FileOp), commit.map Prod.snd = compactOps H st out records ∧
      compactPhaseC H cfg st capture kept ckp
        = match (mergeRecords st.dirs.placements records).2 with
          | some e => ⟨commit, swapped, .error e⟩
          | none =>
            ⟨commit ++ [(swapped, .removeSegments
                (st.segmentRecords.map SegmentRecord.segmentId) kept)]
              ++ (ckp.map (writeCheckpoint swapped)).getD [], swapped, .ok ()⟩ := by
  have hren := map_snd_renameOps st out
  simp only [movesOf, drawnIds, MergeOutput.segments] at hmoves hren
  simp only [compactPhaseC, hmerge, if_neg (not_not_intro hgen), hmoves]
  cases hrecords : st.dirs.pendingPlacements ++ moves with
  | nil =>
    refine ⟨_, ?_, rfl⟩
    simp only [publishFamily, append_nil, map_append, hren]
    rfl
  | cons r records =>
    refine ⟨_, ?_, rfl⟩
    simp only [publishFamily, map_append, append_assoc, hren]
    rfl

theorem compactPhaseC_cases (H : Sha256) (cfg : Config) (st : State) (capture : CompactCapture)
    (kept : List Nat) (ckp : Option (List DirectoryFile)) :
    let p := compactPhaseC H cfg st capture kept ckp
    -- Nothing is published.
    (p.ops = [] ∧ p.final = st) ∨
    ∃ out, merge H cfg.blockTarget cfg.mergeChunkBytes capture.policy capture.inputs = .ok out ∧
      st.generation = capture.generation ∧
      -- A relocation is missing.
      ((∃ e, (movesOf st out).2 = .error e ∧ p.ops = mergedOps st out ∧
          p.final = drawnState st out ∧ p.result = .error e) ∨
      -- The manifest is committed and the segments are swapped.
      ∃ moves, (movesOf st out).2 = .ok moves ∧
        p.final = compacted H st out (st.dirs.pendingPlacements ++ moves) ∧
        ((∃ e, (mergeRecords st.dirs.placements (st.dirs.pendingPlacements ++ moves)).2 = some e ∧
            p.ops = compactOps H st out (st.dirs.pendingPlacements ++ moves) ∧
            p.result = .error e) ∨
          ((mergeRecords st.dirs.placements (st.dirs.pendingPlacements ++ moves)).2 = none ∧
            p.ops = compactOps H st out (st.dirs.pendingPlacements ++ moves) ++
              cleanupOps st p.final kept ckp ∧ p.result = .ok ()))) := by
  intro p
  cases hmerge : merge H cfg.blockTarget cfg.mergeChunkBytes capture.policy capture.inputs with
  | error e => exact .inl (by simp [p, compactPhaseC, hmerge, Publication.ops])
  | ok out =>
    by_cases hgen : st.generation = capture.generation
    · refine .inr ⟨out, rfl, hgen, ?_⟩
      have hren := map_snd_renameOps st out
      cases hmoves : (movesOf st out).2 with
      | error e =>
        have hp : p = ⟨renameOps st out.segments out.archive, drawnState st out, .error e⟩ := by
          simp only [movesOf, drawnIds, MergeOutput.segments] at hmoves
          simp only [p, compactPhaseC, hmerge, if_neg (not_not_intro hgen), hmoves]
          rfl
        exact .inl ⟨e, rfl, by rw [hp, Publication.ops, hren], by rw [hp], by rw [hp]⟩
      | ok moves =>
        rcases compactPhaseC_commit H cfg st capture kept ckp hmerge hgen hmoves with
          ⟨commit, hcommit, hp⟩
        refine .inr ⟨moves, rfl, by rw [show p = _ from hp]; split <;> rfl, ?_⟩
        simp only [show p = _ from hp]
        cases hrefused : (mergeRecords st.dirs.placements
            (st.dirs.pendingPlacements ++ moves)).2 with
        | some e => exact .inl ⟨e, rfl, hcommit, rfl⟩
        | none =>
          refine .inr ⟨rfl, ?_, rfl⟩
          simp [Publication.ops, hcommit, cleanupOps, (map_snd_writeCheckpoint _ ckp).1]
    · exact .inl (by simp [p, compactPhaseC, hmerge, hgen, Publication.ops])

/-! ## The disk -/

section

variable {H : Sha256} {cfg : Config} {sys sys' : Sys}

def archived (files new : List (ArchiveName × Segment)) : List (ArchiveName × Segment) :=
  new.foldl (fun files p => files.filter (fun file => file.1 ≠ p.1) ++ [p]) files

def withMerged (disk : Disk) (st : State) (out : MergeOutput) : Disk :=
  { disk with
    segmentFiles := (mergedPairs st out).foldl (fun files p => files.insert p.1 p.2)
      disk.segmentFiles
    archiveFiles := archived disk.archiveFiles (archivePairs st out) }

theorem applyAll_mergedOps (disk : Disk) (st : State) (out : MergeOutput) :
    disk.applyAll (mergedOps st out) = withMerged disk st out := by
  have harchive : ∀ (new : List (ArchiveName × Segment)) (d : Disk),
      d.applyAll (new.map fun p => .archiveSegment p.1 p.2)
        = { d with archiveFiles := archived d.archiveFiles new } := by
    intro new
    induction new with
    | nil => exact fun d => rfl
    | cons p new ih => exact fun d => ih _
  rw [mergedOps, Disk.applyAll_append, applyAll_segments, harchive, withMerged]

theorem map_fst_mergedPairs (st : State) (out : MergeOutput) :
    (mergedPairs st out).map Prod.fst = drawnIds st out := by
  rw [mergedPairs, drawnIds, map_map, range_eq_range', ← zipIdx_map_snd, map_map]
  rfl

theorem mem_drawnIds {st : State} {out : MergeOutput} {id : Nat} (h : id ∈ drawnIds st out) :
    st.nextSegmentId ≤ id ∧ id < st.nextSegmentId + out.segments.length := by
  rcases mem_map.mp h with ⟨i, hi, rfl⟩
  have := mem_range.mp hi
  omega

theorem nodup_drawnIds (st : State) (out : MergeOutput) : (drawnIds st out).Nodup :=
  Nodup.map (fun i j hij => by omega) nodup_range

theorem map_segmentId_outputRecords (st : State) (out : MergeOutput) :
    (outputRecords st out).map SegmentRecord.segmentId = drawnIds st out := by
  rw [outputRecords, map_map]
  exact map_snd_zip (by simp [drawnIds])

theorem withMerged_old (disk : Disk) (st : State) (out : MergeOutput) {id : Nat}
    (h : id < st.nextSegmentId) :
    (withMerged disk st out).segmentFiles[id]? = disk.segmentFiles[id]? := by
  refine getElem?_foldl_insert_of_notMem _ _ _ fun hmem => ?_
  rw [map_fst_mergedPairs] at hmem
  have := mem_drawnIds hmem
  omega

theorem withMerged_storedAs (disk : Disk) (st : State) (out : MergeOutput) :
    Forall₂ (StoredAs (withMerged disk st out)) (outputRecords st out) out.segments := by
  have hpairs : mergedPairs st out = (out.segments.zip (drawnIds st out)).map Prod.swap := by
    rw [mergedPairs, drawnIds, zip_map_right, map_map, range_eq_range', ← zipIdx_eq_zip_range']
    rfl
  have hsegs : out.segments = (out.segments.zip (drawnIds st out)).map Prod.fst :=
    (map_fst_zip (by simp [drawnIds])).symm
  rw [outputRecords]
  conv => rw [hsegs]
  rw [forall₂_map_left_iff, forall₂_map_right_iff, ← hsegs, forall₂_same]
  intro si hsi
  refine ⟨?_, rfl, le_rfl⟩
  refine getElem?_foldl_insert_of_mem _ _ si.swap ?_ ?_
  · rw [hpairs]
    exact mem_map_of_mem hsi
  · rw [map_fst_mergedPairs]
    exact nodup_drawnIds st out

theorem Stored.drawn (h : Stored sys) (out : MergeOutput) (hst : sys'.st = drawnState sys.st out)
    (hdisk : sys'.disk = withMerged sys.disk sys.st out) (hflush : sys'.flush = sys.flush) :
    Stored sys' := by
  have hfresh := h.fresh
  have hkeep : ∀ id ∈ sys.st.segmentRecords.map SegmentRecord.segmentId ++ flushIds sys.flush,
      sys'.disk.segmentFiles[id]? = sys.disk.segmentFiles[id]? := by
    intro id hid
    rw [hdisk]
    exact withMerged_old sys.disk sys.st out (hfresh id hid)
  refine ⟨?_, ?_, ?_, fun build len hf => ?_, ?_, ?_⟩
  · rw [hdisk, hst]
    exact h.current
  · rw [hdisk, hst]
    exact h.manifest
  · rw [hst]
    exact storedAs_keep h.files fun r hr =>
      hkeep _ (mem_append_left _ (mem_map_of_mem hr))
  · rw [hflush] at hf
    refine storedAs_keep (h.flushFiles build len hf) fun r hr =>
      hkeep _ (mem_append_right _ ?_)
    rw [hf]
    exact mem_map_of_mem hr
  · rw [hst, hflush]
    exact h.nodup
  · rw [hst, hflush]
    intro id hid
    have := hfresh id hid
    simp only [drawnState]
    omega

theorem compactOps_data (disk : Disk) (st : State) (out : MergeOutput)
    (records : List PlacementRecord) {rest : List FileOp} {swapped : State} {kept : List Nat}
    {ckp : Option (List DirectoryFile)} (hrest : rest = [] ∨ rest = cleanupOps st swapped kept ckp) :
    let disk' := disk.applyAll (compactOps H st out records ++ rest)
    disk'.current = some (st.generation + 1) ∧ disk'.manifests
        = disk.manifests.insert (st.generation + 1) (manifestOf (compacted H st out records)) ∧
      disk'.wal = disk.wal ∧ disk'.rlog = disk.rlog ∧
      ∀ id, id ∉ st.segmentRecords.map SegmentRecord.segmentId →
        disk'.segmentFiles[id]? = (withMerged disk st out).segmentFiles[id]? := by
  have hlog : ∀ op ∈ familyOps .placementLog (st.generation + 1) records, op.keepsData = true := by
    intro op hop
    unfold familyOps at hop
    split at hop
    · cases hop
    · rw [mem_singleton.mp hop]
      rfl
  -- The log of the placements touches no data.
  have hsame : SameData ((withMerged disk st out).applyAll
        (publishOps (manifestOf (compacted H st out records)) ++ rest))
      (disk.applyAll (compactOps H st out records ++ rest)) := by
    rw [compactOps, append_assoc, Disk.applyAll_append _ (mergedOps _ _), applyAll_mergedOps,
      append_assoc, Disk.applyAll_append _ (familyOps _ _ _)]
    exact (sameData_applyAll _ _ hlog).applyAll _
  rcases hrest with rfl | rfl
  · exact ⟨hsame.current, hsame.manifests, hsame.wal, hsame.rlog,
      fun id _ => by rw [hsame.segmentFiles]; rfl⟩
  · have hckp := sameData_applyAll
      ((withMerged disk st out).applyAll (publishOps (manifestOf (compacted H st out records)) ++
        [.removeSegments (st.segmentRecords.map SegmentRecord.segmentId) kept]))
      _ (keepsData_checkpointOps swapped ckp)
    rw [← Disk.applyAll_append, append_assoc, singleton_append] at hckp
    have hall := hckp.trans hsame
    refine ⟨hall.current, hall.manifests, hall.wal, hall.rlog, fun id hid => ?_⟩
    rw [hall.segmentFiles]
    simp only [publishOps, Disk.applyAll, foldl_append, foldl_cons, foldl_nil,
      Disk.apply, Std.ExtTreeMap.getElem?_filter']
    -- The id is not one of those removed.
    cases (withMerged disk st out).segmentFiles[id]? with
    | none => rfl
    | some s => exact Option.filter_some_pos (by simpa using Or.inl hid)

theorem Stored.compactC (h : Stored sys) {out : MergeOutput} {records : List PlacementRecord}
    (hst : sys'.st = compacted H sys.st out records)
    (hcurrent : sys'.disk.current = some (sys.st.generation + 1))
    (hmanifests : sys'.disk.manifests = sys.disk.manifests.insert (sys.st.generation + 1)
      (manifestOf (compacted H sys.st out records)))
    (hfiles : ∀ id, id ∉ sys.st.segmentRecords.map SegmentRecord.segmentId →
      sys'.disk.segmentFiles[id]? = (withMerged sys.disk sys.st out).segmentFiles[id]?)
    (hflush : sys'.flush = sys.flush) : Stored sys' := by
  have hnodup := nodup_append.mp h.nodup
  have hnew : ∀ id ∈ drawnIds sys.st out,
      id ∉ sys.st.segmentRecords.map SegmentRecord.segmentId := by
    intro id hid hold
    have := h.fresh id (mem_append_left _ hold)
    have := (mem_drawnIds hid).1
    omega
  refine ⟨by rw [hst]; exact hcurrent, ?_, ?_, fun build len hf => ?_, ?_, ?_⟩
  · rw [hst, hmanifests]
    exact Std.ExtTreeMap.getElem?_insert_self
  · rw [hst]
    refine storedAs_keep (withMerged_storedAs sys.disk sys.st out) fun r hr => hfiles _ (hnew _ ?_)
    rw [← map_segmentId_outputRecords]
    exact mem_map_of_mem hr
  · -- The files of the flush in progress are neither replaced nor removed.
    rw [hflush] at hf
    refine storedAs_keep (h.flushFiles build len hf) fun r hr => ?_
    have hmem : r.segmentId ∈ flushIds sys.flush := by
      rw [hf]
      exact mem_map_of_mem hr
    rw [hfiles _ fun hold => hnodup.2.2 _ hold _ hmem rfl]
    exact withMerged_old _ _ _ (h.fresh _ (mem_append_right _ hmem))
  · rw [hst, hflush]
    simp only [compacted, map_segmentId_outputRecords]
    refine nodup_append.mpr ⟨nodup_drawnIds _ _, hnodup.2.1, fun a ha b hb hab => ?_⟩
    have := (mem_drawnIds ha).1
    have := h.fresh b (mem_append_right _ hb)
    omega
  · rw [hst, hflush]
    simp only [compacted, drawnState, map_segmentId_outputRecords]
    intro id hid
    rcases mem_append.mp hid with hid | hid
    · have := (mem_drawnIds hid).2
      omega
    · have := h.fresh id (mem_append_right _ hid)
      omega

end

end Aikoql.Storage
