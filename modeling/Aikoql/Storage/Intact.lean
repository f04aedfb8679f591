import Aikoql.Storage.CompactSteps

/-!
# Runs in Which Nothing Is Lost

Everything at once: the memtables hold their groups, the segments the flushed
batches, the disk what is published, the log the rest, and the allocator of
placement generations is ahead.

Writes that leave nothing torn keep this, also if a gate refuses them, and so do
rotations, flushes and compactions. A flush whose file operations succeed is not
refused for any other reason: its memtables can be written, its placements are
accepted and its covered log can be archived. If it fails in the checkpoint at
its end then everything it was for is done, and it keeps this too. So does a
compaction that is refused before or after its commit.

## Theorems

* `Intact.failed`, `Intact.wrote`, `Intact.rotate`, `Intact.flushA`,
  `Intact.flushB`, `Intact.flushC`, `Intact.compactA`, `Intact.compactC`: The steps
  keep it.
-/

namespace Aikoql.Storage

open List

variable {build : FlushBuild} {len : Nat}
variable {frames : List WalFrame} {capture : CompactCapture}

/-- The acknowledged frames among given batches. -/
def ackedOf (batches : List Batch) : List WalFrame :=
  (batches.filter Batch.acked).map Batch.frame

theorem ackedOf_append (a b : List Batch) : ackedOf (a ++ b) = ackedOf a ++ ackedOf b := by
  rw [ackedOf, filter_append, map_append]
  rfl

theorem ackedOf_unapplied (frames : List WalFrame) : ackedOf (frames.map Batch.unapplied) = [] := by
  rw [ackedOf, map_eq_nil_iff, filter_eq_nil_iff]
  exact forall_mem_map.mpr fun _ _ => Bool.false_ne_true

/-- Nothing is lost: every layer holds its part of the batches. -/
structure Intact (H : Sha256) (cfg : Config) (sys : Sys) (l : Layers) : Prop where
  acked : ackedOf l.history = sys.acked
  layout : Layout H cfg sys l
  rows : SegmentRows H sys.st.segments l.flushed
  older : RowsOlder sys.st.segments l.unflushed
  rowsBelow : RowsBelow sys.st.segments sys.st.nextSeq
  stored : Stored sys
  wal : WalHolds H sys l
  below : sys.st.dirs.Below
  captures : ∀ c ∈ sys.compactions, c.generation ≤ sys.st.generation ∧
    (c.generation = sys.st.generation → c.inputs = sys.st.segments)

section

variable {H : Sha256} {cfg : Config} {sys : Sys} {l : Layers}

theorem intact_initial (H : Sha256) (cfg : Config) : Intact H cfg Sys.initial ⟨[], [], [], []⟩ where
  acked := rfl
  layout := layout_initial H cfg
  rows := segmentRows_nil H
  older := forall_mem_nil _
  rowsBelow := forall_mem_nil _
  stored := stored_initial
  wal := walHolds_initial H
  below := by
    refine ⟨fun rid p h => ?_, forall_mem_nil _⟩
    exact absurd h (by simp [Sys.initial, State.fresh])
  captures := forall_mem_nil _

section

variable (h : Intact H cfg sys l)
include h

theorem Intact.mem_acked {f : WalFrame} (hf : f ∈ sys.acked) :
    ∃ b ∈ l.history, b.frame = f ∧ b.applied = f ∧ b.acked = true := by
  rw [← h.acked] at hf
  rcases mem_map.mp hf with ⟨b, hb, rfl⟩
  rw [mem_filter] at hb
  refine ⟨b, hb.1, rfl, ?_, hb.2⟩
  rw [Batch.applied, (h.layout.sound b hb.1).acked hb.2]

theorem Intact.failed {sys' : Sys} {drawn : Nat} (hfail : Failed H sys drawn frames [] sys') :
    Intact H cfg sys' { l with active := l.active ++ frames.map Batch.unapplied } where
  acked := by
    rw [l.history_snoc, ackedOf_append, ackedOf_unapplied, append_nil, h.acked, hfail.sys]
    rfl
  layout := h.layout.failed hfail
  rows := by
    rw [hfail.sys]
    exact h.rows
  older := by
    rw [l.unflushed_snoc, hfail.sys]
    exact h.older.drawn h.rowsBelow (forall_mem_map.mpr fun f hf => (hfail.numbered.mem f hf).1)
  rowsBelow := by
    rw [hfail.sys]
    exact h.rowsBelow.mono (Nat.le_add_right _ _)
  stored := h.stored.failed hfail
  wal := h.wal.failed hfail
  below := by
    rw [hfail.sys]
    exact h.below
  captures := by
    rw [hfail.sys]
    exact h.captures

theorem Intact.wrote {sys' : Sys} {grouped : Bool} (hwrote : Wrote H grouped sys frames sys')
    (hdrawn : grouped = true → ∀ f ∈ frames, ∀ op ∈ f.ops, Drawn sys.st.dirs op) :
    ∃ new, sys'.history = sys.history ++ new ∧ loggedOf new = frames ∧
      Intact H cfg sys' { l with active := l.active ++ new } := by
  rcases h.layout.wrote hwrote with ⟨new, hhistory, hframe, happlied, hacked, hlayout⟩
  refine ⟨new, hhistory, hframe, ?_, hlayout, ?_, ?_, ?_, h.stored.wrote hwrote,
    h.wal.wrote hwrote hframe, ?_, ?_⟩
  · rw [l.history_snoc, ackedOf_append, h.acked]
    exact (ackedOf_append _ _).symm.trans (congrArg ackedOf hhistory.symm)
  · rw [hwrote.st]
    exact h.rows
  · rw [l.unflushed_snoc, hwrote.st]
    exact h.older.drawn h.rowsBelow fun b hb => ((hwrote.new_seq hframe).2 b hb).1
  · rw [hwrote.st]
    exact h.rowsBelow.mono (Nat.le_add_right _ _)
  · rw [hwrote.st]
    exact (gatesAll_below frames h.below hdrawn).1
  · rw [hwrote.st, hwrote.compactions]
    exact h.captures

theorem Intact.rotate : Intact H cfg { sys with st := Storage.rotate sys.st } l.rotate where
  acked := by
    rw [Layers.history, l.unflushed_rotate.1, l.unflushed_rotate.2.1]
    exact h.acked
  layout := h.layout.rotate
  rows := by
    rw [l.unflushed_rotate.2.1]
    exact (rotate_segments sys.st).symm ▸ h.rows
  older := by
    rw [l.unflushed_rotate.1]
    exact (rotate_segments sys.st).symm ▸ h.older
  rowsBelow := by
    simp only [rotate_segments, rotate_nextSeq]
    exact h.rowsBelow
  stored := h.stored.rotate
  wal := h.wal.rotate
  below := (rotate_dirs sys.st).symm ▸ h.below
  captures := by
    simp only [rotate_segments, rotate_generation]
    exact h.captures

theorem Intact.flushA (hidle : sys.flush = none) :
    let planned := flushPhaseA sys.st sys.disk.wal.length
    ∃ l', l'.flushed = l.flushed ∧ l'.unflushed = l.unflushed ∧
      Intact H cfg { sys with st := planned.1, flush := planned.2.map .planned } l' := by
  intro planned
  -- Everything but the groups is as it was.
  have hkeep : ∀ l' : Layers, l'.history = l.history → l'.unflushed = l.unflushed →
      l'.flushed = l.flushed →
      Layout H cfg ⟨planned.1, sys.disk, planned.2.map .planned, sys.compactions, sys.calls,
        sys.history⟩ l' →
      WalHolds H ⟨planned.1, sys.disk, planned.2.map .planned, sys.compactions, sys.calls,
        sys.history⟩ l' →
      Intact H cfg { sys with st := planned.1, flush := planned.2.map .planned } l' := by
    intro l' hhistory hun hfl hlayout hwal
    refine ⟨hhistory ▸ h.acked, hlayout, ?_, ?_, ?_, h.stored.flushA hidle, hwal, ?_, ?_⟩
    · simp only [planned, flushPhaseA_segments, hfl]
      exact h.rows
    · simp only [planned, flushPhaseA_segments, hun]
      exact h.older
    · simp only [planned, flushPhaseA_segments, flushPhaseA_nextSeq]
      exact h.rowsBelow
    · simp only [planned, flushPhaseA_dirs]
      exact h.below
    · simp only [planned, flushPhaseA_segments, flushPhaseA_generation]
      exact h.captures
  rcases h.layout.flushA hidle with ⟨hnone, hlayout⟩ | ⟨plan, groups, hsome, hlen, hgroups, _, hlayout⟩
  · rcases l.unflushed_rotate with ⟨hun, hfl, _⟩
    refine ⟨l.rotate, hfl, hun, hkeep l.rotate ?_ hun hfl ?_ ?_⟩
    · rw [Layers.history, hun, hfl, Layers.history]
    · simp only [planned, hnone]
      exact hlayout
    · refine ⟨by rw [hun]; exact h.wal.wal, by rw [hun]; exact h.wal.encodable, fun len hf => ?_⟩
      simp only [planned, hnone] at hf
      cases hf
  · have hun : (⟨l.flushed, groups, [], []⟩ : Layers).unflushed = l.unflushed := by
      simp [Layers.unflushed, hgroups]
    refine ⟨⟨l.flushed, groups, [], []⟩, rfl, hun, hkeep _ ?_ hun rfl ?_ ?_⟩
    · rw [Layers.history, hun, Layers.history]
    · simp only [planned, hsome]
      exact hlayout
    · simp only [planned, hsome]
      exact h.wal.flushA hlen hgroups

theorem Intact.flushB (hcfg : cfg.blockTarget ≠ 0) {plan : FlushPlan}
    (hflush : sys.flush = some (.planned plan)) : Intact H cfg (sys.flushB H cfg plan none) l := by
  rcases h.layout.flushB_ok hcfg hflush with ⟨build, hbuilt⟩
  have hplan := h.layout.detached
  rw [hflush] at hplan
  have hids : plan.segmentIds.length = plan.immutables.length := by rw [hplan.2, hplan.1]
  rcases Sys.flushB_built hbuilt with ⟨published, _, heq⟩
  have hlayout := h.layout.flushB hflush hbuilt
  have hstored := h.stored.flushB hflush hids hbuilt
  have hwal := h.wal.flushB hflush hbuilt
  rw [heq] at hlayout hstored hwal ⊢
  exact ⟨h.acked, hlayout, h.rows, h.older, h.rowsBelow, hstored, hwal, h.below, h.captures⟩

theorem Intact.split_wal (hflush : sys.flush = some (.built build len)) :
    sys.disk.wal.take len = encodeAll H (loggedOf l.detached.flatten) ∧
      sys.disk.wal.drop len = encodeAll H (loggedOf (l.retired.flatten ++ l.active)) := by
  have hlen := h.wal.covered len (by rw [hflush]; rfl)
  rw [h.wal.wal, Layers.unflushed, loggedOf_append, encodeAll_append, hlen]
  exact ⟨take_left' rfl, drop_left' rfl⟩

end

theorem archiveOps_encodeAll (H : Sha256) (cfg : Config) (frames : List WalFrame)
    (henc : ∀ f ∈ frames, Encodable f.ops) :
    ∃ archive, archiveOps H cfg (encodeAll H frames) = .ok archive := by
  unfold archiveOps
  split
  · cases frames with
    | nil => exact ⟨[], by simp_all⟩
    | cons f frames =>
      rw [encodeAll_cons, decodeFrame_append H f _ (henc f mem_cons_self), ok_bind]
      exact ⟨_, rfl⟩
  · exact ⟨[], rfl⟩

theorem Intact.publication (h : Intact H cfg sys l) (hflush : sys.flush = some (.built build len)) :
    ∃ dirs archive, placeAnchors sys.st.dirs build.anchors.toList = (dirs, none) ∧ dirs.Below ∧
      archiveOps H cfg (sys.disk.wal.take len) = .ok archive := by
  have hplace := placeAnchors_below build.anchors.toList h.below
  rcases hdirs : placeAnchors sys.st.dirs build.anchors.toList with ⟨dirs, refused⟩
  rw [hdirs] at hplace
  obtain rfl : refused = none := hplace.1
  have henc : ∀ f ∈ loggedOf l.detached.flatten, Encodable f.ops :=
    forall_mem_map.mpr fun b hb => h.wal.encodable b (mem_append_left _ hb)
  rcases archiveOps_encodeAll H cfg _ henc with ⟨archive, harchive⟩
  rw [(h.split_wal hflush).1]
  exact ⟨dirs, archive, rfl, hplace.2.1, harchive⟩

theorem Intact.flushC (h : Intact H cfg sys l) (hflush : sys.flush = some (.built build len))
    (fault : Option Nat) (ckp : Option (List DirectoryFile))
    (hfault : ∀ k, fault = some k → (sys.flushPublication H cfg build len none).ops.length ≤ k) :
    let r := (sys.flushPublication H cfg build len ckp).run sys.disk fault
    ∃ published archive, GroupSegments H cfg l.detached published ∧
      r.1.segments = sys.st.segments ++ published.map Prod.fst ∧ r.1.nextSeq = sys.st.nextSeq ∧
      archiveOps H cfg (encodeAll H (loggedOf l.detached.flatten)) = .ok archive ∧
      r.2.1.rlog = (sys.disk.applyAll archive).rlog ∧
      Intact H cfg { sys with st := r.1, disk := r.2.1, flush := none } l.publish := by
  rcases h.publication hflush with ⟨dirs, archive, hplace, hbelow, harchive⟩
  rcases flushPhaseC_ok H cfg sys.st build len sys.disk.wal none hplace harchive with ⟨hshort, _⟩
  rw [checkpointOps, append_nil] at hshort
  simp only [Sys.flushPublication] at hfault ⊢
  rw [hshort] at hfault
  rcases flushPhaseC_run H cfg sys.st build len sys.disk ckp fault hplace harchive hfault with
    ⟨n, result, hrun⟩
  rw [hrun]
  rcases flushOps_data sys.disk sys.st build dirs (sys.disk.wal.drop len) harchive _
    (fun op hop => keepsData_checkpointOps _ ckp op (mem_of_mem_take (i := n) hop))
    with ⟨hcurrent, hmanifests, hfiles, hwal, hrlog⟩
  have hdetached := h.layout.detached
  rw [hflush] at hdetached
  rcases hdetached with ⟨ids, published, hids, hbuilt⟩
  have hgroups := hbuilt.groupSegments hids
  have hcovered := harchive
  rw [(h.split_wal hflush).1] at hcovered
  refine ⟨published, archive, hgroups, ?_, rfl, hcovered, hrlog, ?_⟩
  · simp only [attached, hbuilt.newSegments]
  · have hinc := h.layout.increasing
    have hgroupsBelow := h.layout.below
    have holder := h.older
    rw [l.unflushed_publish] at hinc hgroupsBelow holder
    rcases h.rows.flush holder h.rowsBelow hgroups hinc
      (fun b hb => hgroupsBelow b (mem_append_left _ hb)) with ⟨hrows, holder', hbelow'⟩
    refine ⟨l.history_publish.symm ▸ h.acked, h.layout.flushC rfl rfl rfl rfl, ?_, ?_, ?_,
      h.stored.flushC hflush rfl hcurrent hmanifests hfiles rfl, h.wal.flushC hflush hwal rfl,
      ⟨hbelow.placements, forall_mem_nil _⟩, fun c hc => ?_⟩
    · simp only [attached, hbuilt.newSegments]
      exact hrows
    · simp only [attached, hbuilt.newSegments]
      exact holder'
    · simp only [attached, hbuilt.newSegments]
      exact hbelow'
    · -- The generation is a new one, so no capture is of it.
      have := (h.captures c hc).1
      simp only [attached, committed]
      exact ⟨by omega, fun heq => by omega⟩

/-! ## Compactions -/

theorem Intact.compactA (h : Intact H cfg sys l) {policy : RetentionPolicy}
    (hcapture : compactPhaseA sys.st policy = some capture) :
    Intact H cfg { sys with compactions := sys.compactions ++ [capture] } l := by
  unfold compactPhaseA at hcapture
  split at hcapture
  · cases hcapture
  · cases hcapture
    exact ⟨h.acked, h.layout.congr le_rfl rfl rfl rfl, h.rows, h.older, h.rowsBelow,
      h.stored.congr rfl rfl rfl rfl rfl rfl rfl, ⟨h.wal.wal, h.wal.encodable, h.wal.covered⟩,
      h.below, forall_mem_append.mpr ⟨h.captures, forall_mem_singleton.mpr ⟨le_rfl, fun _ => rfl⟩⟩⟩

theorem Intact.drawn_below (h : Intact H cfg sys l) (out : MergeOutput) :
    sys.st.dirs.nextPlacementGeneration ≤ (movesOf sys.st out).1 ∧
      (drawnState sys.st out).dirs.Below ∧
      ∀ moves, (movesOf sys.st out).2 = .ok moves →
        (compacted H sys.st out (sys.st.dirs.pendingPlacements ++ moves)).dirs.Below := by
  rcases relocate_below (relocations out (drawnIds sys.st out))
    (segmentRids sys.st.dirs.placements) sys.st.dirs.nextPlacementGeneration with ⟨hle, hmoves⟩
  refine ⟨hle, ⟨(h.below.mono hle).placements, forall_mem_nil _⟩,
    fun moves hok => ⟨?_, forall_mem_nil _⟩⟩
  refine mergeRecords_below _ (h.below.mono hle).placements ?_
  exact forall_mem_append.mpr
    ⟨fun r hr => (h.below.pending r hr).trans_le hle, fun r hr => (hmoves moves hok r hr).2⟩

theorem Intact.compactC (h : Intact H cfg sys l) {i : Nat}
    (hcapture : sys.compactions[i]? = some capture) (kept : List Nat)
    (ckp : Option (List DirectoryFile)) :
    let r := (compactPhaseC H cfg sys.st capture kept ckp).run sys.disk none
    Intact H cfg
        { sys with st := r.1, disk := r.2.1, compactions := sys.compactions.eraseIdx i } l ∧
      r.1.nextSeq = sys.st.nextSeq ∧ r.2.1.rlog = sys.disk.rlog ∧
      ((r.1.segments = sys.st.segments ∧ r.1.segmentRecords = sys.st.segmentRecords) ∨
        ∃ out, merge H cfg.blockTarget cfg.mergeChunkBytes capture.policy sys.st.segments = .ok out ∧
          capture.generation = sys.st.generation ∧ r.1.segments = out.segments) := by
  have hrest : ∀ c ∈ sys.compactions.eraseIdx i, c ∈ sys.compactions :=
    fun c hc => mem_of_mem_eraseIdx hc
  simp only [Publication.run_none]
  rcases compactPhaseC_cases H cfg sys.st capture kept ckp with
    ⟨hops, hfinal⟩ | ⟨out, hmerge, hgen, houtcome⟩
  · rw [hops, hfinal]
    exact ⟨⟨h.acked, h.layout.congr le_rfl rfl rfl rfl, h.rows, h.older, h.rowsBelow,
      h.stored.congr rfl rfl rfl rfl rfl rfl rfl, ⟨h.wal.wal, h.wal.encodable, h.wal.covered⟩,
      h.below, fun c hc => h.captures c (hrest c hc)⟩, rfl, rfl, .inl ⟨rfl, rfl⟩⟩
  · rcases h.drawn_below out with ⟨_, hdrawn, hcompacted⟩
    have hinputs := (h.captures capture (mem_of_getElem? hcapture)).2 hgen.symm
    rw [hinputs] at hmerge
    rcases houtcome with ⟨e, hmoves, hops, hfinal, _⟩ | ⟨moves, hmoves, hfinal, hend⟩
    · rw [hops, hfinal, applyAll_mergedOps]
      exact ⟨⟨h.acked, h.layout.congr le_rfl rfl rfl rfl, h.rows, h.older, h.rowsBelow,
        h.stored.drawn out rfl rfl rfl, ⟨h.wal.wal, h.wal.encodable, h.wal.covered⟩, hdrawn,
        fun c hc => h.captures c (hrest c hc)⟩, rfl, rfl, .inl ⟨rfl, rfl⟩⟩
    · obtain ⟨rest, hops, hrest'⟩ : ∃ rest, (compactPhaseC H cfg sys.st capture kept ckp).ops
            = compactOps H sys.st out (sys.st.dirs.pendingPlacements ++ moves) ++ rest ∧
          (rest = [] ∨ rest = cleanupOps sys.st
            (compactPhaseC H cfg sys.st capture kept ckp).final kept ckp) := by
        rcases hend with ⟨e, _, hops, _⟩ | ⟨_, hops, _⟩
        · exact ⟨[], by rw [hops, append_nil], .inl rfl⟩
        · exact ⟨_, hops, .inr rfl⟩
      rcases compactOps_data (H := H) sys.disk sys.st out (sys.st.dirs.pendingPlacements ++ moves)
        hrest' with ⟨hcurrent, hmanifests, hwal, hrlog, hfiles⟩
      have hsubset := merge_subset hmerge
      rw [hfinal, hops]
      refine ⟨⟨h.acked, h.layout.congr le_rfl rfl rfl rfl, h.rows.merge hmerge, ?_, ?_,
        h.stored.compactC rfl hcurrent hmanifests hfiles rfl,
        ⟨hwal.trans h.wal.wal, h.wal.encodable, h.wal.covered⟩, hcompacted moves hmoves, ?_⟩,
        rfl, hrlog, .inr ⟨out, hmerge, hgen.symm, rfl⟩⟩
      · intro s hs e he
        rcases hsubset s hs e he with ⟨s', hs', he'⟩
        exact h.older s' hs' e he'
      · intro s hs e he
        rcases hsubset s hs e he with ⟨s', hs', he'⟩
        exact h.rowsBelow s' hs' e he'
      · -- The generation is a new one, so no other capture is of it.
        intro c hc
        have := (h.captures c (hrest c hc)).1
        simp only [compacted]
        exact ⟨by omega, fun heq => by omega⟩

end

end Aikoql.Storage
