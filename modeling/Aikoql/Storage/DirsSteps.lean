import Aikoql.Storage.Catalog
import Aikoql.Storage.CleanRuns
import Aikoql.Storage.Relocation

/-!
# What a Step Does to the Directories

The steps of a clean run, by what they do to the directories and their files.

A step leaves the directories alone, passes batches through the gates, publishes a
flush or a compaction, or recovers the database. A compaction can also stop half way,
when it finds no relocation for a replica or the gate refuses one. What is proved of
the directories in clean runs goes through these kinds.
-/

namespace Aikoql.Storage

/-- What does not change in a step that publishes nothing. -/
structure SameFiles (sys sys' : Sys) : Prop where
  generation : sys'.st.generation = sys.st.generation
  segments : sys'.st.segments = sys.st.segments
  records : sys'.st.segmentRecords = sys.st.segmentRecords
  dirs : SameDirs sys.disk sys'.disk

/-- What a step can do to the directories. -/
inductive DirsChange (H : Sha256) (cfg : Config) (sys : Sys) : Sys → Prop
  /-- The directories stay, allocators apart. -/
  | quiet {sys' : Sys} (maps : SameMaps sys.st.dirs sys'.st.dirs) (files : SameFiles sys sys') :
      DirsChange H cfg sys sys'
  /-- Batches pass the gates. -/
  | wrote {sys' : Sys} {grouped : Bool} {frames : List WalFrame}
      (dirs : sys'.st.dirs = gatesAll grouped sys.st.dirs frames) (files : SameFiles sys sys') :
      DirsChange H cfg sys sys'
  /-- A flush is published. -/
  | flushed {sys' : Sys} {build : FlushBuild} {len : Nat} {dirs : Directories} {mid : Disk}
      {ckp : Option (List DirectoryFile)} {n : Nat}
      (flush : sys.flush = some (.built build len))
      (placed : placeAnchors sys.st.dirs build.anchors.toList = (dirs, none))
      (st : sys'.st = attached H sys.st build dirs)
      (logged : LoggedDirs (sys.st.generation + 1) dirs.pendingIdentity dirs.pendingReplicas
        dirs.pendingPlacements sys.disk mid)
      (disk : sys'.disk = mid.applyAll ((checkpointOps sys'.st ckp).take n)) :
      DirsChange H cfg sys sys'
  /-- A compaction is published. -/
  | compacted {sys' : Sys} {policy : RetentionPolicy} {out : MergeOutput}
      {moves : List PlacementRecord} {mid : Disk} {ckp : Option (List DirectoryFile)} {n : Nat}
      (merged : merge H cfg.blockTarget cfg.mergeChunkBytes policy sys.st.segments = .ok out)
      (moved : (movesOf sys.st out).2 = .ok moves)
      (accepted : (mergeRecords sys.st.dirs.placements
        (sys.st.dirs.pendingPlacements ++ moves)).2 = none)
      (st : sys'.st = Storage.compacted H sys.st out (sys.st.dirs.pendingPlacements ++ moves))
      (logged : LoggedDirs (sys.st.generation + 1) [] [] (sys.st.dirs.pendingPlacements ++ moves)
        sys.disk mid)
      (disk : sys'.disk = mid.applyAll ((checkpointOps sys'.st ckp).take n)) :
      DirsChange H cfg sys sys'
  /-- A compaction stops half way. -/
  | stopped {sys' : Sys} {policy : RetentionPolicy} {out : MergeOutput} {e : FormatError}
      (merged : merge H cfg.blockTarget cfg.mergeChunkBytes policy sys.st.segments = .ok out)
      (reason : (movesOf sys.st out).2 = .error e ∨ ∃ moves, (movesOf sys.st out).2 = .ok moves ∧
        (mergeRecords sys.st.dirs.placements (sys.st.dirs.pendingPlacements ++ moves)).2 = some e) :
      DirsChange H cfg sys sys'
  /-- The database is opened again. -/
  | recovered {sys' : Sys} {r : Recovery} (opens : Opens H cfg sys.disk r)
      (st : sys'.st = r.state sys.disk) (disk : sys'.disk = sys.disk) : DirsChange H cfg sys sys'

section

variable {H : Sha256} {cfg : Config} {sys : Sys} {l : Layers}

theorem Sys.Written.dirs (calls : List Call) {sys' : Sys}
    (h : Sys.Written H { sys with calls := calls } sys') : DirsChange H cfg sys sys' := by
  cases h with
  | failed hf =>
    refine .quiet ?_ ⟨?_, ?_, ?_, ?_⟩ <;> rw [hf.sys]
    · exact SameMaps.refl _
    · exact ⟨rfl, rfl, rfl, rfl⟩
  | wrote hw =>
    refine .wrote (by rw [hw.st]) ⟨by rw [hw.st], by rw [hw.st], by rw [hw.st], ?_⟩
    rw [hw.disk]
    exact ⟨rfl, rfl, rfl, rfl⟩

theorem reserveIdentity_maps {dirs dirs' : Directories} {ids : LogicalId × ReplicaId × U64}
    (h : reserveIdentity dirs = .ok (ids, dirs')) : SameMaps dirs dirs' := by
  simp only [reserveIdentity, bind_eq_ok, pure_eq_ok] at h
  rcases h with ⟨lid, _, rid, _, pgen, _, heq⟩
  obtain ⟨_, rfl⟩ := Prod.mk.inj heq
  exact ⟨rfl, rfl, rfl, rfl, rfl, rfl⟩

theorem Intact.compactC_dirs (h : Intact H cfg sys l) {i : Nat} {capture : CompactCapture}
    (hcapture : sys.compactions[i]? = some capture) (kept : List Nat)
    (ckp : Option (List DirectoryFile)) :
    let r := (compactPhaseC H cfg sys.st capture kept ckp).run sys.disk none
    DirsChange H cfg sys
      { sys with st := r.1, disk := r.2.1, compactions := sys.compactions.eraseIdx i } := by
  simp only [Publication.run_none]
  rcases compactPhaseC_cases H cfg sys.st capture kept ckp with
    ⟨hops, hfinal⟩ | ⟨out, hmerge, hgen, houtcome⟩
  · rw [hops, hfinal]
    exact .quiet (SameMaps.refl _) ⟨rfl, rfl, rfl, SameDirs.refl _⟩
  · rw [(h.captures capture (List.mem_of_getElem? hcapture)).2 hgen.symm] at hmerge
    rcases houtcome with ⟨e, hmoves, _⟩ | ⟨moves, hmoves, hfinal, ⟨e, hrefused, _⟩ |
      ⟨haccepted, hops, _⟩⟩
    · exact .stopped hmerge (.inl hmoves)
    · exact .stopped hmerge (.inr ⟨moves, hmoves, hrefused⟩)
    · rw [hops, Disk.applyAll_append, cleanupOps, Disk.applyAll_cons]
      refine .compacted (n := (checkpointOps (compactPhaseC H cfg sys.st capture kept ckp).final
        ckp).length) hmerge hmoves haccepted hfinal
        (SameDirs.logged (compactOps_logged H sys.disk sys.st out _) ?_) (by rw [List.take_length])
      exact ⟨rfl, rfl, rfl, rfl⟩

theorem Intact.dirsStep (h : Intact H cfg sys l) (hcfg : cfg.blockTarget ≠ 0) {e : Event} {sys' : Sys}
    (hclean : Clean H cfg sys e) (hstep : Storage.step H cfg sys e = some sys') :
    DirsChange H cfg sys sys' := by
  cases step_stepped hstep with
  | write => exact (Sys.written_write H sys _ _).dirs sys.calls
  | group hchecked => exact (Sys.written_commit H sys _ _ hchecked).dirs sys.calls
  | call hdrawn =>
    refine .quiet ?_ ⟨rfl, rfl, rfl, SameDirs.refl _⟩
    rcases hdrawn with rfl | ⟨ids, hreserve⟩
    · exact SameMaps.refl _
    · exact reserveIdentity_maps hreserve
  | submit => exact (Sys.written_write H _ _ _).dirs _
  | rotate =>
    exact .quiet (rotate_dirs _ ▸ SameMaps.refl _) ⟨rotate_generation _, rotate_segments _,
      rotate_segmentRecords _, SameDirs.refl _⟩
  | flushA =>
    exact .quiet (flushPhaseA_dirs _ _ ▸ SameMaps.refl _) ⟨flushPhaseA_generation _ _,
      flushPhaseA_segments _ _, flushPhaseA_segmentRecords _ _, SameDirs.refl _⟩
  | @flushB plan fault hflush =>
    obtain rfl : fault = none := hclean
    rcases h.layout.flushB_ok hcfg hflush with ⟨build, hbuilt⟩
    rcases Sys.flushB_built hbuilt with ⟨published, _, heq⟩
    rw [heq, builtOps_eq, applyAll_segments]
    exact .quiet (SameMaps.refl _) ⟨rfl, rfl, rfl, ⟨rfl, rfl, rfl, rfl⟩⟩
  | @flushC build len fault ckp _ hflush hrun =>
    rcases h.publication hflush with ⟨dirs, archive, hplace, _, harchive⟩
    rcases flushPhaseC_ok H cfg sys.st build len sys.disk.wal none hplace harchive with
      ⟨hshort, _⟩
    rw [checkpointOps, List.append_nil] at hshort
    have hfault : ∀ k, fault = some k →
        (flushOps H sys.st build dirs archive (sys.disk.wal.drop len)).length ≤ k := by
      intro k hk
      have := hclean k build len hk hflush
      rwa [Sys.flushPublication, hshort] at this
    rcases flushPhaseC_run H cfg sys.st build len sys.disk ckp fault hplace harchive hfault with
      ⟨n, result, hphase⟩
    rw [Sys.flushPublication, hphase] at hrun
    subst hrun
    exact .flushed hflush hplace rfl (flushOps_logged sys.disk sys.st build dirs harchive _)
      (Disk.applyAll_append _ _ _)
  | compactA => exact .quiet (SameMaps.refl _) ⟨rfl, rfl, rfl, SameDirs.refl _⟩
  | @compactC i kept ckp _ _ hcapture hrun =>
    subst hrun
    exact h.compactC_dirs hcapture kept ckp
  | reopened hevent hrecover =>
    have hdisk := (h.recover hrecover).2.1
    obtain ⟨r, hopens, rfl⟩ := recover_eq_some hrecover
    exact .recovered hopens rfl hdisk
  | crashed hevent =>
    rcases hevent with ⟨_, _, _, rfl, _⟩ | ⟨_, _, _, _, rfl, _⟩ <;> exact hclean.elim

end

end Aikoql.Storage
