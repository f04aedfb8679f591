import Aikoql.Storage.DirsSteps

/-!
# The Directories and Their Files

In a clean run the directory files and the records that are owed make up the maps.

Every record a gate accepts is merged into a map and owed to its family, in one
order, so merging the authoritative records and then the owed ones yields the maps.
A publication moves records from one list to the other. `Catalogued` adds that no
file is ahead of the current generation and that placements in segments name rows
of their replicas, both in memory and on disk. It is what lets a compaction find a
relocation for every replica, and an open recover the maps.
-/

namespace Aikoql.Storage

open List Runs

variable {m : ReplicaMap} {st : State} {disk disk' : Disk}

/-- The maps are made up of given records and the owed ones. -/
structure Directories.From (identities : List IdentityRecord) (replicas : List ReplicaRecord)
    (placements : List PlacementRecord) (dirs : Directories) : Prop where
  identity : mergeIdentities ∅ (identities ++ dirs.pendingIdentity) = .ok dirs.identity
  replicas : mergeReplicas ∅ (replicas ++ dirs.pendingReplicas) = .ok dirs.replicas
  placements : mergePlacements ∅ (placements ++ dirs.pendingPlacements) = .ok dirs.placements

section

variable {identities : List IdentityRecord} {replicas : List ReplicaRecord}
  {placements : List PlacementRecord} {dirs dirs' : Directories}

theorem Directories.From.congr (h : dirs.From identities replicas placements)
    (hmaps : SameMaps dirs dirs') : dirs'.From identities replicas placements := by
  refine ⟨?_, ?_, ?_⟩
  · rw [hmaps.identity, hmaps.pendingIdentity]
    exact h.identity
  · rw [hmaps.replicas, hmaps.pendingReplicas]
    exact h.replicas
  · rw [hmaps.placements, hmaps.pendingPlacements]
    exact h.placements

theorem mergeIdentities_snoc {records : List IdentityRecord} {m m' : IdentityMap}
    {r : IdentityRecord} (h : mergeIdentities ∅ records = .ok m)
    (hr : mergeIdentity m r.oid r.lid = .ok m') : mergeIdentities ∅ (records ++ [r]) = .ok m' := by
  rw [mergeIdentities, foldlM_append, ← mergeIdentities, h, ok_bind, foldlM_cons, hr]
  rfl

theorem mergeReplicas_snoc {records : List ReplicaRecord} {m' : ReplicaMap} {r : ReplicaRecord}
    (h : mergeReplicas ∅ records = .ok m) (hr : mergeReplica m r.lid r.node r.rid = .ok m') :
    mergeReplicas ∅ (records ++ [r]) = .ok m' := by
  rw [mergeReplicas, foldlM_append, ← mergeReplicas, h, ok_bind, foldlM_cons, hr]
  rfl

theorem mergePlacements_snoc {records : List PlacementRecord} {m m' : PlacementMap}
    {r : PlacementRecord} (h : mergePlacements ∅ records = .ok m)
    (hr : mergePlacement m r.rid r.placement = .ok m') :
    mergePlacements ∅ (records ++ [r]) = .ok m' := by
  rw [mergePlacements, foldlM_append, ← mergePlacements, h, ok_bind, foldlM_cons, hr]
  rfl

theorem Directories.From.kept :
    Kept (fun _ _ => True) (Directories.From identities replicas placements) where
  allocated := fun h hmaps _ => h.congr hmaps
  identity := fun h hmerge => by
    refine ⟨?_, h.replicas, h.placements⟩
    rw [← append_assoc]
    exact mergeIdentities_snoc h.identity hmerge
  replica := fun h hmerge => by
    refine ⟨h.identity, ?_, h.placements⟩
    rw [← append_assoc]
    exact mergeReplicas_snoc h.replicas hmerge
  placement := fun h _ hmerge => by
    refine ⟨h.identity, h.replicas, ?_⟩
    rw [← append_assoc]
    exact mergePlacements_snoc h.placements hmerge

theorem Directories.From.held (h : dirs.From identities replicas placements) :
    PendingHeld dirs := by
  have hfold := h.placements
  unfold mergePlacements mergePlacement at hfold
  have := absorbs_foldlM _ _ _ _ _ _ _ hfold
  exact fun r hr => this r (mem_append_right _ hr)

theorem Directories.From.settled (h : dirs.From identities replicas placements) :
    dirs.settled.From (identities ++ dirs.pendingIdentity) (replicas ++ dirs.pendingReplicas)
      (placements ++ dirs.pendingPlacements) := by
  refine ⟨?_, ?_, ?_⟩ <;> simp only [Directories.settled, append_nil]
  · exact h.identity
  · exact h.replicas
  · exact h.placements

end

/-! ## Checkpoints -/

theorem mergeIdentities_held {records : List IdentityRecord} {m : IdentityMap}
    (h : mergeIdentities ∅ records = .ok m) : ∀ r ∈ records, m[r.oid]? = some r.lid := by
  unfold mergeIdentities mergeIdentity at h
  exact (held_of_foldlM_putOnce _ _ _ _ h).1

theorem mergeReplicas_held {records : List ReplicaRecord} {start : ReplicaMap}
    (h : mergeReplicas start records = .ok m) :
    ∀ r ∈ records, r.node = localNodeId ∧ m[r.lid]? = some r.rid := by
  refine (foldlM_leaves (fun (m : ReplicaMap) r => r.node = localNodeId ∧ m[r.lid]? = some r.rid)
    id _ records ?_ ?_ start m h).1
  · intro m m' r hput
    simp only [mergeReplica, bind_eq_ok, ensure_eq_ok, exists_const] at hput
    exact ⟨hput.1, ((putOnce_ok hput.2).2 _ _).mpr (.inr ⟨rfl, rfl⟩)⟩
  · intro m m' r r' hput hr'
    simp only [mergeReplica, bind_eq_ok, ensure_eq_ok, exists_const] at hput
    exact ⟨hr'.1, ((putOnce_ok hput.2).2 _ _).mpr (.inl hr'.2)⟩

theorem mergeReplicas_of_held {records : List ReplicaRecord}
    (h : ∀ r ∈ records, r.node = localNodeId ∧ m[r.lid]? = some r.rid) :
    mergeReplicas m records = .ok m := by
  refine foldlM_fixed _ records m fun r hr => ?_
  rcases h r hr with ⟨hnode, hget⟩
  rw [mergeReplica, ensure_pos hnode, ok_bind, putOnce, hget]
  exact if_pos rfl

theorem checkpoint_from {identities : List IdentityRecord} {replicas : List ReplicaRecord}
    {placements : List PlacementRecord} (h : st.dirs.From identities replicas placements) :
    st.dirs.From (checkpointOf st).identities (checkpointOf st).replicas
      (checkpointOf st).placements := by
  refine ⟨?_, ?_, ?_⟩
  · have hmap := foldlM_toList mergeIdentity
      (fun m k v hk => by simp [mergeIdentity, putOnce, hk]) st.dirs.identity
    rw [mergeIdentities, checkpointOf, foldlM_append, foldlM_map, hmap, ok_bind]
    unfold mergeIdentity
    refine foldlM_putOnce_of_held _ _ _ _ _ fun r hr => ?_
    exact mergeIdentities_held h.identity r (mem_append_right _ hr)
  · have hmap := foldlM_toList (fun m lid rid => mergeReplica m lid localNodeId rid)
      (fun m k v hk => by rw [mergeReplica, ensure_pos rfl, ok_bind]; simp [putOnce, hk])
      st.dirs.replicas
    rw [mergeReplicas, checkpointOf, foldlM_append, foldlM_map, hmap, ok_bind]
    refine mergeReplicas_of_held fun r hr => ?_
    exact mergeReplicas_held h.replicas r (mem_append_right _ hr)
  · have hmap := foldlM_toList mergePlacement
      (fun m k v hk => by simp [mergePlacement, putNewer, hk]) st.dirs.placements
    rw [mergePlacements, checkpointOf, foldlM_append, foldlM_map, hmap, ok_bind]
    unfold mergePlacement
    exact foldlM_of_absorbs _ _ _ _ _ _ h.held

/-! ## Placements in segments -/

section

variable {segs segs' : List (Nat × Segment)}

theorem Rooted.mono {placements : PlacementMap} (h : Rooted segs placements) (hsub : segs ⊆ segs') :
    Rooted segs' placements := by
  intro rid loc hloc
  rcases h rid loc hloc with ⟨hz, s, hs, e, he⟩
  exact ⟨hz, s, hsub hs, e, he⟩

theorem Rooted.merge {placements placements' : PlacementMap} {rid : ReplicaId} {p : Placement}
    (h : Rooted segs placements) (hmerge : mergePlacement placements rid p = .ok placements')
    (hp : ∀ loc, p = .segment loc → RootedAt segs rid loc) : Rooted segs placements' := by
  rcases putNewer_ok hmerge with ⟨_, rfl⟩ | ⟨_, rfl⟩
  · exact h
  · intro rid' loc hloc
    rw [getElem?_insert_replica] at hloc
    split at hloc
    · rename_i hrid
      exact hrid ▸ hp loc (Option.some.inj hloc)
    · exact h rid' loc hloc

theorem Rooted.kept : Kept (fun rid p => ∀ loc, p = .segment loc → RootedAt segs rid loc)
    (fun dirs => Rooted segs dirs.placements) where
  allocated := fun h hmaps _ => hmaps.placements ▸ h
  identity := fun h _ => h
  replica := fun h _ => h
  placement := fun h hplaced hmerge => h.merge hmerge hplaced

end

/-! ## The system -/

/-- The directories are those of the files and what is pending, and the segment placements
    name rows, those in the files alone too. -/
structure Catalogued (sys : Sys) : Prop where
  files : FilesUpTo sys.st.generation sys.disk
  made : sys.st.dirs.From (identityRecords sys.disk sys.st.generation)
    (replicaRecords sys.disk sys.st.generation) (placementRecords sys.disk sys.st.generation)
  rooted : Rooted sys.st.segmentsById sys.st.dirs.placements
  published : ∀ placements, mergePlacements ∅ (placementRecords sys.disk sys.st.generation)
    = .ok placements → Rooted sys.st.segmentsById placements

theorem catalogued_initial : Catalogued Sys.initial where
  files := by
    refine ⟨?_, ?_, ?_, ?_, ?_⟩ <;> simp [Sys.initial, freshDisk, Disk.empty, Disk.apply]
  made := ⟨rfl, rfl, rfl⟩
  rooted := fun rid loc h => by simp [Sys.initial, State.fresh] at h
  published := by
    intro placements h rid loc hloc
    cases h
    simp at hloc

section

variable {H : Sha256} {cfg : Config} {sys sys' : Sys}

theorem Catalogued.of_settled (hfiles : FilesUpTo st.generation disk)
    (hmade : st.dirs.From (identityRecords disk st.generation) (replicaRecords disk st.generation)
      (placementRecords disk st.generation)) (howed : st.dirs.pendingPlacements = [])
    (hrooted : Rooted st.segmentsById st.dirs.placements) {sys' : Sys} (hst : sys'.st = st)
    (hdisk : sys'.disk = disk) : Catalogued sys' := by
  subst hst
  subst hdisk
  refine ⟨hfiles, hmade, hrooted, fun placements hpub => ?_⟩
  have hall := hmade.placements
  rw [howed, append_nil, hpub] at hall
  cases hall
  exact hrooted

theorem Catalogued.publish (h : Catalogued sys) {mid : Disk} {identities : List IdentityRecord}
    {replicas : List ReplicaRecord} {placements : List PlacementRecord}
    (hlogged : LoggedDirs (sys.st.generation + 1) identities replicas placements sys.disk mid)
    (hgen : st.generation = sys.st.generation + 1)
    (hmade : st.dirs.From (identityRecords sys.disk sys.st.generation ++ identities)
      (replicaRecords sys.disk sys.st.generation ++ replicas)
      (placementRecords sys.disk sys.st.generation ++ placements))
    (hplacements : st.dirs.pendingPlacements = [])
    (hrooted : Rooted st.segmentsById st.dirs.placements) {ckp : Option (List DirectoryFile)}
    {n : Nat} (hst : sys'.st = st)
    (hdisk : sys'.disk = mid.applyAll ((checkpointOps st ckp).take n)) : Catalogued sys' := by
  rcases hlogged.records h.files with ⟨hfiles, hi, hr, hp⟩
  rw [← hgen] at hfiles hi hr hp
  rcases checkpointOps_records st ckp n hfiles with ⟨hfiles', hrecords⟩
  refine Catalogued.of_settled hfiles' ?_ hplacements hrooted hst hdisk
  rcases hrecords with ⟨hi', hr', hp'⟩ | ⟨hi', hr', hp'⟩
  · rw [hi', hr', hp', hi, hr, hp]
    exact hmade
  · rw [hi', hr', hp']
    exact checkpoint_from hmade

theorem SameDirs.records (h : SameDirs disk disk') (g : Nat) :
    identityRecords disk' g = identityRecords disk g ∧
      replicaRecords disk' g = replicaRecords disk g ∧
      placementRecords disk' g = placementRecords disk g := by
  unfold identityRecords replicaRecords placementRecords
  rw [h.identity, h.replica, h.placement, h.checkpoints]
  exact ⟨rfl, rfl, rfl⟩

theorem SameDirs.filesUpTo (h : SameDirs disk disk') {g : Nat} (hfiles : FilesUpTo g disk) :
    FilesUpTo g disk' :=
  ⟨h.identity ▸ hfiles.identity, h.replica ▸ hfiles.replica, h.placement ▸ hfiles.placement,
    h.checkpoints ▸ hfiles.checkpoints, h.checkpoints ▸ hfiles.named⟩

theorem SameFiles.segmentsById (h : SameFiles sys sys') :
    sys'.st.segmentsById = sys.st.segmentsById := by
  rw [State.segmentsById, h.records, h.segments, State.segmentsById]

theorem Catalogued.keep (h : Catalogued sys) (hfiles : SameFiles sys sys')
    (hmade : sys'.st.dirs.From (identityRecords sys.disk sys.st.generation)
      (replicaRecords sys.disk sys.st.generation) (placementRecords sys.disk sys.st.generation))
    (hrooted : Rooted sys.st.segmentsById sys'.st.dirs.placements) : Catalogued sys' := by
  rcases hfiles.dirs.records sys.st.generation with ⟨hi, hr, hp⟩
  refine ⟨?_, ?_, ?_, ?_⟩
  · rw [hfiles.generation]
    exact hfiles.dirs.filesUpTo h.files
  · rw [hfiles.generation, hi, hr, hp]
    exact hmade
  · rw [hfiles.segmentsById]
    exact hrooted
  · rw [hfiles.generation, hp, hfiles.segmentsById]
    exact h.published

theorem mergePlacements_of_accepted (records : List PlacementRecord) {m : PlacementMap}
    (h : (mergeRecords m records).2 = none) :
    mergePlacements m records = .ok (mergeRecords m records).1 := by
  induction records generalizing m with
  | nil => rfl
  | cons r records ih =>
    rw [mergeRecords] at h ⊢
    rw [mergePlacements, foldlM_cons]
    cases hput : mergePlacement m r.rid r.placement with
    | error e =>
      rw [hput] at h
      cases h
    | ok m' =>
      rw [hput] at h
      exact ih h

theorem Built.rooted {mems : List Memtable} {ids : List Nat} {build : FlushBuild}
    {published : List (Segment × Std.ExtTreeMap ReplicaId SegmentAnchor)}
    (h : Built H cfg (mems.zip ids) build published) :
    ∀ ra ∈ build.anchors.toList, ∀ g, RootedAt
      ((build.records.map SegmentRecord.segmentId).zip build.newSegments) ra.1
      ⟨ra.2.segmentId, ra.2.blockId, ra.2.entryOffset, g⟩ := by
  have hlen : (mems.zip ids).length = published.length := h.each.length_eq
  have hnames := namesNewest_foldl ((mems.zip ids).zip published) (fun x => x.1.2)
    (fun x => x.2.1) (fun x => x.2.2) fun x hx => by
      have hpub : publishMemtable H cfg x.1.1 = .ok x.2 := forall₂_iff_zip.mp h.each |>.2 hx
      rcases publishMemtable_ok hpub with ⟨hok, _, htable⟩
      rw [htable]
      exact anchorsOk_table hok
  have hids : build.records.map SegmentRecord.segmentId
      = ((mems.zip ids).zip published).map fun x => x.1.2 := by
    rw [h.records, map_map]
    rfl
  have hsegs : build.newSegments = ((mems.zip ids).zip published).map fun x => x.2.1 := by
    rw [h.newSegments]
    conv_lhs => rw [← map_snd_zip hlen.ge, map_map]
    rfl
  rw [hids, hsegs, zip_map', h.anchors]
  intro ra hra g
  exact (hnames.names ra.1 ra.2 (Std.ExtTreeMap.mem_toList_iff_getElem?_eq_some.mp hra)).rootedAt g

theorem Catalogued.step {l : Layers} (h : Catalogued sys) (hintact : Intact H cfg sys l)
    (hchange : DirsChange H cfg sys sys') : Catalogued sys' := by
  cases hchange with
  | quiet hmaps hfiles =>
    refine h.keep hfiles (h.made.congr hmaps) ?_
    rw [hmaps.placements]
    exact h.rooted
  | @wrote grouped frames hdirs hfiles =>
    refine h.keep hfiles ?_ ?_
    · rw [hdirs]
      exact Directories.From.kept.gatesAll (fun _ _ => trivial) grouped frames h.made
    · rw [hdirs]
      exact Rooted.kept.gatesAll (fun _ _ _ hloc => nomatch hloc) grouped frames h.rooted
  | @flushed build len dirs mid ckp n hflush hplaced hst hlogged hdisk =>
    have hmade := Directories.From.kept.placeAnchors build.anchors.toList
      (fun _ _ _ => trivial) h.made
    rw [hplaced] at hmade
    have hdetached := hintact.layout.detached
    rw [hflush] at hdetached
    rcases hdetached with ⟨ids, published, _, hbuilt⟩
    have hlen : (sys.st.segmentRecords.map SegmentRecord.segmentId).length
        = sys.st.segments.length := by
      rw [length_map, hintact.stored.files.length_eq]
    have hsegs : (attached H sys.st build dirs).segmentsById = sys.st.segmentsById ++
        (build.records.map SegmentRecord.segmentId).zip build.newSegments := by
      simp only [State.segmentsById, attached, committed, map_append]
      exact zip_append hlen
    have hrooted := Rooted.kept.placeAnchors build.anchors.toList (fun ra hra g loc hloc => by
        cases hloc
        rcases hbuilt.rooted ra hra g with ⟨hz, s, hs, e, he⟩
        exact ⟨hz, s, mem_append_right _ hs, e, he⟩)
      (h.rooted.mono (subset_append_left _
        ((build.records.map SegmentRecord.segmentId).zip build.newSegments)))
    rw [hplaced, ← hsegs] at hrooted
    rw [hst] at hdisk
    exact h.publish hlogged rfl hmade.settled rfl hrooted hst hdisk
  | @compacted policy out moves mid ckp n hmerged hmoved haccepted hst hlogged hdisk =>
    rcases h.rooted.compacted hintact.below h.made.held hmerged with
      ⟨moves', hmoves, _, habsorbed, hplaced⟩
    rw [hmoved] at hmoves
    cases hmoves
    rw [hst] at hdisk
    refine h.publish hlogged rfl ⟨?_, ?_, ?_⟩ rfl ?_ hst hdisk
    · rw [append_nil]
      exact h.made.identity
    · rw [append_nil]
      exact h.made.replicas
    · -- What was owed is in the map already, so only the moves change it.
      have hmoves := mergePlacements_of_accepted moves (habsorbed ▸ haccepted)
      simp only [Storage.compacted, drawnState, append_nil]
      rw [← append_assoc, mergePlacements, foldlM_append, ← mergePlacements,
        h.made.placements, ok_bind, habsorbed]
      exact hmoves
    · rw [segmentsById_compacted]
      intro rid loc hloc
      rcases (hplaced rid loc hloc).2 with ⟨seq, hrow⟩
      exact hrow.rootedAt loc.generation
  | stopped hmerged hreason =>
    -- Every replica that is placed in a segment has a relocation, and the gate takes it.
    rcases h.rooted.compacted hintact.below h.made.held hmerged with
      ⟨moves, hmoves, haccepted, _⟩
    rcases hreason with herror | ⟨moves', hmoves', hrefused⟩
    · rw [hmoves] at herror
      cases herror
    · rw [hmoves] at hmoves'
      cases hmoves'
      rw [haccepted] at hrefused
      cases hrefused
  | @recovered r hopens hst hdisk =>
    rcases hintact.opens hopens with ⟨hmanifest, hsegments, _, hfold⟩
    have hfresh := freshDisk_of_current hintact.stored.current
    have hcurrent : currentOf sys.disk = sys.st.generation := by
      rw [currentOf, hfresh, hintact.stored.current]
      rfl
    have hidentity := hopens.identity
    have hreplicas := hopens.replicas
    have hplacements := hopens.placements
    rw [hfresh, hcurrent] at hidentity hreplicas hplacements
    have hgen : (r.state sys.disk).generation = sys.st.generation := by
      rw [Recovery.state, hmanifest]
      rfl
    have hsegs : (r.state sys.disk).segmentsById = sys.st.segmentsById := by
      simp only [State.segmentsById, Recovery.state, hmanifest, hsegments]
      rfl
    have hmade : r.replayed.dirs.From (identityRecords sys.disk sys.st.generation)
        (replicaRecords sys.disk sys.st.generation)
        (placementRecords sys.disk sys.st.generation) := by
      refine Directories.From.kept.foldlM_replayOp (fun _ _ => trivial) hfold ?_
      refine ⟨?_, ?_, ?_⟩ <;> simp only [replayStart, append_nil]
      · exact hidentity
      · exact hreplicas
      · exact hplacements
    have hrooted : Rooted sys.st.segmentsById r.replayed.dirs.placements :=
      Rooted.kept.foldlM_replayOp (fun _ _ _ hloc => nomatch hloc) hfold (h.published _ hplacements)
    have hmaps : SameMaps r.replayed.dirs (r.state sys.disk).dirs :=
      ⟨rfl, rfl, rfl, rfl, rfl, rfl⟩
    refine ⟨?_, ?_, ?_, ?_⟩ <;> rw [hst]
    · rw [hgen, hdisk]
      exact h.files
    · rw [hgen, hdisk]
      exact hmade.congr hmaps
    · rw [hsegs, hmaps.placements]
      exact hrooted
    · rw [hgen, hdisk, hsegs]
      exact h.published

end

/-- In every clean run the directories are those of the published logs and what is pending, and
    every segment placement names a row of its replica. -/
theorem directories_catalogued (H : Sha256) (cfg : Config) (hcfg : cfg.blockTarget ≠ 0) (sys : Sys)
    (hreach : Reaches (step H cfg) (Clean H cfg) Sys.initial sys) : Catalogued sys := by
  have hinv : ∃ l, Intact H cfg sys l ∧ Catalogued sys := by
    refine hreach.invariant (P := fun sys => ∃ l, Intact H cfg sys l ∧ Catalogued sys)
      ⟨_, intact_initial H cfg, catalogued_initial⟩ ?_
    rintro sys e sys' ⟨l, hintact, hcatalogued⟩ hclean hstep
    obtain ⟨l', hintact', -⟩ := hintact.step hcfg hclean hstep
    exact ⟨l', hintact', hcatalogued.step hintact (hintact.dirsStep hcfg hclean hstep)⟩
  obtain ⟨-, -, hcatalogued⟩ := hinv
  exact hcatalogued

/-- An object is created and flushed, and the process ends. -/
def flushedObject : List Event :=
  [.write [.createObject 7 1 1 1, .putObject 1 [1] [2]] .done, .flushA, .flushB none,
    .flushC none none, .crash]

theorem directories_catalogued_flushed :
    ∃ sys, run (step Sha256.fips180 Config.new) Sys.initial flushedObject = some sys ∧
      sys.st.dirs.placements[(1 : ReplicaId)]? = some (.segment ⟨1, 0, 0, 3⟩) ∧
      RootedAt sys.st.segmentsById 1 ⟨1, 0, 0, 3⟩ := by
  have hend : ∃ sys, run (step Sha256.fips180 Config.new) Sys.initial flushedObject = some sys ∧
      sys.st.dirs.placements[(1 : ReplicaId)]? = some (.segment ⟨1, 0, 0, 3⟩) := by
    decide +kernel
  obtain ⟨sys, hsys, hloc⟩ := hend
  have hcatalogued := directories_catalogued Sha256.fips180 Config.new (by decide) sys
    (reaches_of_forall flushedObject (by simp [flushedObject, Clean, AppendIo.Whole]) hsys)
  exact ⟨sys, hsys, hloc, hcatalogued.rooted 1 _ hloc⟩

end Aikoql.Storage
