import Aikoql.Storage.Intact
import Aikoql.Storage.OpenSteps

/-!
# Reopening

What an open makes of the files a running database leaves.

The manifest is the one of the memory that is lost, the segments are the same
ones, and the log gives the batches that are not flushed. A batch that a gate
refused, or that was logged and never applied, has its whole effect after the
replay, if the replay accepts it. Nothing else changes, so an open that succeeds
leaves a database in which nothing is lost, whatever was in progress.
-/

namespace Aikoql.Storage

open List

variable {dirs : Directories} {rid : ReplicaId}

/-! ## Largest numbers -/

theorem le_foldl_max (ns : List Nat) (n : Nat) :
    n ≤ ns.foldl max n ∧ ∀ m ∈ ns, m ≤ ns.foldl max n := by
  induction ns generalizing n with
  | nil => exact ⟨le_rfl, forall_mem_nil _⟩
  | cons k ns ih =>
    rcases ih (max n k) with ⟨hstart, hall⟩
    refine ⟨(le_max_left n k).trans hstart, ?_⟩
    exact forall_mem_cons.mpr ⟨(le_max_right n k).trans hstart, hall⟩

theorem le_maxOf {ns : List Nat} {n : Nat} (h : n ∈ ns) : n ≤ maxOf ns :=
  (le_foldl_max ns 0).2 n h

theorem maxOf_lt {ns : List Nat} {bound : Nat} (hbound : 0 < bound) (h : ∀ n ∈ ns, n < bound) :
    maxOf ns < bound := by
  suffices hfold : ∀ start, start < bound → ns.foldl max start < bound from hfold 0 hbound
  induction ns with
  | nil => exact fun start hstart => hstart
  | cons n ns ih =>
    rw [forall_mem_cons] at h
    exact fun start hstart => ih h.2 _ (max_lt hstart h.1)

theorem le_maxGeneration {placements : PlacementMap} {p : Placement} (h : placements[rid]? = some p) :
    p.generation ≤ maxGeneration placements := by
  refine le_maxOf (mem_map.mpr ⟨(rid, p), ?_, rfl⟩)
  exact Std.ExtTreeMap.mem_toList_iff_getElem?_eq_some.mpr h

/-! ## The owed placements -/

def PendingHeld (dirs : Directories) : Prop :=
  ∀ r ∈ dirs.pendingPlacements, Absorbs Placement.generation dirs.placements r.rid r.placement

theorem PendingHeld.kept : Kept (fun _ _ => True) PendingHeld where
  allocated := fun h hmaps _ => by
    rw [PendingHeld, hmaps.placements, hmaps.pendingPlacements]
    exact h
  identity := fun h _ => h
  replica := fun h _ => h
  placement := fun h _ hmerge => by
    exact forall_mem_append.mpr ⟨fun r hr => (h r hr).putNewer hmerge,
      forall_mem_singleton.mpr (absorbs_putNewer hmerge)⟩

theorem recoverAllocators_below (h : PendingHeld dirs) (orphanMax : Nat) (floors : Nat × Nat × Nat) :
    (recoverAllocators dirs orphanMax floors).Below := by
  have hlt : ∀ p : Placement, p.generation ≤ maxGeneration dirs.placements →
      p.generation < (recoverAllocators dirs orphanMax floors).nextPlacementGeneration := by
    intro p hp
    simp only [recoverAllocators]
    omega
  refine ⟨fun rid p hget => hlt p (le_maxGeneration hget), fun r hr => ?_⟩
  rcases h r hr with ⟨q, hq, hle | rfl⟩
  · exact hlt _ (hle.le.trans (le_maxGeneration hq))
  · exact hlt _ (le_maxGeneration hq)

/-! ## The open -/

def Batch.replayed (b : Batch) : Batch :=
  { b with effect := b.frame.ops }

/-- The groups after an open. -/
def Layers.replayed (l : Layers) : Layers :=
  ⟨l.flushed, [], [], l.unflushed.map Batch.replayed⟩

theorem Layers.unflushed_replayed (l : Layers) :
    l.replayed.unflushed = l.unflushed.map Batch.replayed := rfl

theorem Layers.acked_replayed (l : Layers) : ackedOf l.replayed.history = ackedOf l.history := by
  have hmap : ∀ batches : List Batch, ackedOf (batches.map Batch.replayed) = ackedOf batches := by
    intro batches
    rw [ackedOf, filter_map, map_map]
    rfl
  rw [Layers.history, Layers.history, ackedOf_append, ackedOf_append, l.unflushed_replayed, hmap]
  rfl

theorem loggedOf_replayed (batches : List Batch) :
    loggedOf (batches.map Batch.replayed) = loggedOf batches := by
  rw [loggedOf, map_map]
  rfl

theorem memOfGroup_replayed (batches : List Batch) :
    memOfGroup (batches.map Batch.replayed) = memOf (loggedOf batches) := by
  rw [memOfGroup, appliedOf, map_map]
  rfl

section

variable {H : Sha256} {cfg : Config} {sys : Sys} {l : Layers}

theorem mapM_openSegment {disk : Disk} {records : List SegmentRecord} {segs : List Segment}
    (h : Forall₂ (StoredAs disk) records segs) :
    records.mapM (openSegment disk) = .ok segs := by
  induction h with
  | nil => rfl
  | @cons r s records segs hr _ ih =>
    have hopen : openSegment disk r = .ok s := by
      simp [openSegment, hr.file, hr.record]
    rw [mapM_cons, hopen, ok_bind, ih, ok_bind]
    rfl

theorem freshDisk_of_current {disk : Disk} {g : Nat} (h : disk.current = some g) :
    freshDisk disk = disk := by
  rw [freshDisk, h]

theorem Stored.map_seqHi (h : Stored sys) :
    sys.st.segmentRecords.map SegmentRecord.seqHi = sys.st.segments.map Segment.seqHi := by
  have hfiles := h.files
  generalize sys.st.segmentRecords = records at hfiles
  generalize sys.st.segments = segs at hfiles
  induction hfiles with
  | nil => rfl
  | @cons r s records segs hr _ ih =>
    rw [map_cons, map_cons, ih, ← hr.record]
    rfl

theorem Stored.seqHi (h : Stored sys) {s : Segment} (hs : s ∈ sys.st.segments) :
    s.seqHi ∈ sys.st.segmentRecords.map SegmentRecord.seqHi :=
  h.map_seqHi ▸ mem_map_of_mem hs

/-- What is published stays published, and the ids of the segments are the ones
    in use. -/
theorem Stored.reopen (h : Stored sys) {sys' : Sys} (hdisk : sys'.disk = sys.disk)
    (hmanifest : manifestOf sys'.st = manifestOf sys.st)
    (hsegs : sys'.st.segments = sys.st.segments) (hflush : sys'.flush = none)
    (hnext : sys'.st.nextSegmentId
      = maxOf (sys.st.segmentRecords.map SegmentRecord.segmentId) + 1) : Stored sys' := by
  have hgen : sys'.st.generation = sys.st.generation := congrArg Manifest.generation hmanifest
  have hrecords : sys'.st.segmentRecords = sys.st.segmentRecords :=
    congrArg Manifest.segments hmanifest
  refine ⟨?_, ?_, ?_, fun build len hf => ?_, ?_, ?_⟩
  · rw [hdisk, hgen]
    exact h.current
  · rw [hdisk, hgen, hmanifest]
    exact h.manifest
  · rw [hdisk, hrecords, hsegs]
    exact h.files
  · rw [hflush] at hf
    cases hf
  · rw [hflush, hrecords, flushIds, append_nil]
    exact (nodup_append.mp h.nodup).1
  · rw [hflush, hrecords, flushIds, append_nil, hnext]
    exact fun id hid => Nat.lt_succ_of_le (le_maxOf hid)

theorem Intact.opens (h : Intact H cfg sys l) {r : Recovery} (hopens : Opens H cfg sys.disk r) :
    r.manifest = manifestOf sys.st ∧ r.segments = sys.st.segments ∧ r.disk sys.disk = sys.disk ∧
      (loggedOf l.unflushed).foldlM (replayFrame replayOp)
        (replayStart r.recovered (orphanMaxOf sys.disk)) = .ok r.replayed := by
  have hfresh := freshDisk_of_current h.stored.current
  have hcurrent : currentOf sys.disk = sys.st.generation := by
    rw [currentOf, hfresh, h.stored.current]
    rfl
  have hmanifest := hopens.manifest
  rw [hfresh, hcurrent, h.stored.manifest] at hmanifest
  have hsegments := hopens.segments
  rw [hfresh, ← Option.some.inj hmanifest] at hsegments
  have hsegs := (mapM_openSegment h.stored.files).symm.trans hsegments
  have hreplay := hopens.replay
  rw [hfresh, h.wal.wal] at hreplay
  rcases replay_log (h.wal.logOk h.layout) hreplay with ⟨hends, hfold⟩
  refine ⟨(Option.some.inj hmanifest).symm, (Except.ok.inj hsegs).symm, ?_, hfold⟩
  rw [Recovery.disk, if_neg (not_not_intro hends), hfresh]

/-- The sequence allocator an open recovers. -/
structure Renumbered (sys sys' : Sys) (l : Layers) (replayMax : Nat) : Prop where
  nextSeq : sys'.st.nextSeq
    = max replayMax (maxOf (sys.st.segmentRecords.map SegmentRecord.seqHi)) + 1
  le : ∀ b ∈ l.unflushed, b.frame.seq.val ≤ replayMax
  mem : replayMax = 0 ∨ ∃ b ∈ l.unflushed, b.frame.seq.val = replayMax

theorem Intact.recover (h : Intact H cfg sys l) {sys' : Sys}
    (hopen : sys.recover H cfg = some sys') :
    Intact H cfg sys' l.replayed ∧ sys'.disk = sys.disk ∧ manifestOf sys'.st = manifestOf sys.st ∧
      sys'.st.segments = sys.st.segments ∧ sys'.history = sys.history ∧ sys'.flush = none ∧
      ∃ replayMax, Renumbered sys sys' l replayMax := by
  obtain ⟨r, hopens, rfl⟩ := recover_eq_some hopen
  rcases h.opens hopens with ⟨hmanifest, hsegments, hdisk, hfold⟩
  rcases foldlM_replayOp hfold with ⟨hactive, _, hle, hmem⟩
  have hrecords : r.manifest.segments = sys.st.segmentRecords := by rw [hmanifest]; rfl
  have hsound : ∀ b ∈ l.unflushed, b.Sound := fun b hb =>
    h.layout.sound b (mem_append_right _ hb)
  have hnum : ∀ b ∈ l.unflushed, b.frame.seq.val ≤ r.replayed.replayMax := fun b hb =>
    hle b.frame (mem_map_of_mem hb) (checkBatch_ok (hsound b hb).checked).1
  have hpublished : manifestOf (r.state sys.disk) = manifestOf sys.st := by
    rw [← hmanifest]
    rfl
  have hnext : (r.state sys.disk).nextSeq = max r.replayed.replayMax
      (maxOf (sys.st.segmentRecords.map SegmentRecord.seqHi)) + 1 := by
    rw [← hrecords]
    rfl
  have hstate : (r.state sys.disk).segments = sys.st.segments := hsegments
  refine ⟨?_, hdisk, hpublished, hstate, rfl, rfl, r.replayed.replayMax, hnext, hnum, ?_⟩
  · exact {
      acked := l.acked_replayed.trans h.acked
      layout := {
        increasing := pairwise_map.mpr h.layout.increasing
        below := by
          rw [l.unflushed_replayed, hnext]
          intro b hb
          rcases mem_map.mp hb with ⟨b', hb', rfl⟩
          have : b'.replayed.frame.seq.val ≤ _ := hnum b' hb'
          omega
        sound := by
          refine forall_mem_append.mpr ⟨fun b hb => h.layout.sound b (mem_append_left _ hb), ?_⟩
          rw [l.unflushed_replayed]
          exact forall_mem_map.mpr fun b hb =>
            ⟨(hsound b hb).checked, prefix_rfl, fun _ => rfl⟩
        active := hactive.trans (memOfGroup_replayed l.unflushed).symm
        retired := rfl
        detached := rfl
        nonempty := forall_mem_nil _ }
      rows := hstate.symm ▸ h.rows
      older := by
        rw [l.unflushed_replayed, hstate]
        intro s hs e he b hb
        rcases mem_map.mp hb with ⟨b', hb', rfl⟩
        exact h.older s hs e he b' hb'
      rowsBelow := by
        rw [hstate, hnext]
        intro s hs e he
        have hhi := (h.rows.ok s hs).seqHi e he
        have hmax := le_maxOf (h.stored.seqHi hs)
        omega
      stored := h.stored.reopen hdisk hpublished hstate rfl (by rw [← hrecords]; rfl)
      wal := by
        refine ⟨?_, ?_, fun len hlen => by cases hlen⟩
        · rw [l.unflushed_replayed, loggedOf_replayed, hdisk]
          exact h.wal.wal
        · rw [l.unflushed_replayed]
          exact forall_mem_map.mpr h.wal.encodable
      below := by
        refine recoverAllocators_below ?_ _ _
        exact PendingHeld.kept.foldlM_replayOp (fun _ _ => trivial) hfold (forall_mem_nil _)
      captures := forall_mem_nil _ }
  · exact hmem.imp id fun ⟨f, hf, hseq⟩ => by
      rcases mem_map.mp hf with ⟨b, hb, rfl⟩
      exact ⟨b, hb, hseq⟩

end

end Aikoql.Storage
