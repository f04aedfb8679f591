import Aikoql.Storage.CompactSteps
import Aikoql.Storage.OpenSteps
import Aikoql.Storage.Snapshot

/-!
# What the Pins Protect

Whether a running snapshot finds the files it captured.

A snapshot pins the names of its files and copies them without a lock. The two
places that delete files, the prune behind a checkpoint and the removal behind a
compaction, skip the pinned names. The pins are one set, though, and a snapshot
that ends takes its names out of it. If another snapshot of the same generation
is still running, its files are then fair game (`ended_snapshot_unpins`). As long
as no snapshot ends while another one shares a file with it, nothing that was
captured is deleted (`captured_files_survive`).

## Main definitions

* `EndsAlone`: No snapshot ends while another one shares a file with it.
* `Armed`: The captured files are pinned.

## Main theorems

* `captured_files_survive`: Captured files in every run of such steps.
* `ended_snapshot_unpins`: A captured file that is deleted.
-/

namespace Aikoql.Storage

open List Option

variable {ckp : Option (List DirectoryFile)} {file : SnapshotFile} {pins : List SnapshotFile}
  (st : State) {disk : Disk}
variable {sys sys' : Sys} {op : FileOp} {V : Type} {snapshot : Snapshot} {e : SnapEvent}

def SnapshotFile.deletable : SnapshotFile → Bool
  | .segment _ => true
  | .directory _ => true
  | _ => false

def FileOp.deletes : FileOp → Bool
  | .prune _ _ => true
  | .removeSegments _ _ => true
  | _ => false

/-- An operation that does not delete a file. -/
def FileOp.Spares (file : SnapshotFile) : FileOp → Prop
  | .prune _ kept => ∀ f, file = .directory f → f ∈ kept
  | .removeSegments _ kept => ∀ id, file = .segment id → id ∈ kept
  | _ => True

/-! ## Operations -/

theorem spares_of_keeps (h : op.deletes = false) : op.Spares file := by
  cases op <;> trivial

theorem contains_insert_of_contains {m : Std.ExtTreeMap Nat V} {k : Nat} (h : m.contains k = true)
    (k' : Nat) (v : V) : (m.insert k' v).contains k = true := by
  rw [Std.ExtTreeMap.contains_insert, h, Bool.or_true]

theorem contains_filter_of_contains {m : Std.ExtTreeMap Nat V} {k : Nat} {p : Nat → V → Bool}
    (h : m.contains k = true) (hp : ∀ v, p k v = true) :
    (m.filter p).contains k = true := by
  rw [Std.ExtTreeMap.contains_eq_isSome_getElem?, isSome_iff_exists] at h ⊢
  rcases h with ⟨v, hv⟩
  exact ⟨v, by rw [Std.ExtTreeMap.getElem?_filter', hv, filter_some_pos (hp v)]⟩

theorem has_apply (hspares : op.Spares file) (hhas : disk.has file = true) :
    (disk.apply op).has file = true := by
  cases op with
  | prune g kept =>
    -- A pinned log or checkpoint is among the files that are kept.
    rcases file with _ | _ | _ | (g' | g' | g' | g') | _ <;> try exact hhas
    all_goals
      have hkept := hspares _ rfl
      exact contains_filter_of_contains hhas fun _ => by simp [hkept]
  | removeSegments ids kept =>
    rcases file with _ | _ | id | (_ | _ | _ | _) | _ <;> try exact hhas
    have hkept := hspares _ rfl
    exact contains_filter_of_contains hhas fun _ => by simp [hkept]
  | _ =>
    -- The others add a file or change the log.
    rcases file with _ | _ | _ | (_ | _ | _ | _) | _ <;> first
      | exact hhas
      | exact contains_insert_of_contains hhas _ _
      | rfl

theorem has_applyAll (ops : List FileOp) (hspares : ∀ op ∈ ops, op.Spares file)
    (hhas : disk.has file = true) : (disk.applyAll ops).has file = true :=
  List.foldlRecOn (motive := fun d => d.has file = true) ops Disk.apply hhas
    fun _ hd op hop => has_apply (hspares op hop) hd

theorem has_setWal (disk : Disk) (wal : Bytes) (file : SnapshotFile) :
    ({ disk with wal := wal } : Disk).has file = disk.has file := by
  cases file with
  | directory f => cases f <;> rfl
  | _ => rfl

/-! ## Steps of the database -/

section

variable {H : Sha256} {cfg : Config} {file : SnapshotFile}

theorem spares_checkpointOps (hckp : ∀ kept ∈ ckp, ∀ f, file = .directory f → f ∈ kept) :
    ∀ op ∈ checkpointOps st ckp, op.Spares file := by
  intro op hop
  cases ckp with
  | none => cases hop
  | some kept =>
    simp only [checkpointOps, mem_cons, not_mem_nil, or_false] at hop
    rcases hop with rfl | rfl | rfl
    · trivial
    · trivial
    · exact hckp kept rfl

theorem deletes_commitOps (g : Nat) (dirs : Directories) (m : Manifest) :
    ∀ op ∈ commitOps g dirs m, op.deletes = false := by
  rw [commitOps, logOps]
  simp only [forall_mem_append]
  exact ⟨⟨⟨forall_familyOps rfl, forall_familyOps rfl⟩, forall_familyOps rfl⟩,
    by simp [FileOp.deletes]⟩

theorem spares_flushPhaseB (build : FlushBuild) (plan : List (Memtable × Nat)) :
    ∀ op ∈ (flushPhaseB H cfg build plan).1, op.Spares file := by
  induction plan generalizing build with
  | nil => exact forall_mem_nil _
  | cons mi plan ih =>
    rw [flushPhaseB]
    split
    · exact forall_mem_nil _
    · exact forall_mem_cons.mpr ⟨trivial, ih _⟩

theorem spares_flushPhaseC (build : FlushBuild) (len : Nat) (wal : Bytes)
    (hckp : ∀ kept ∈ ckp, ∀ f, file = .directory f → f ∈ kept) :
    ∀ op ∈ (flushPhaseC H cfg st build len wal ckp).ops, op.Spares file := by
  cases hplace : placeAnchors st.dirs build.anchors.toList with
  | mk dirs refused =>
    cases refused with
    | some e =>
      rw [flushPhaseC, hplace]
      exact forall_mem_nil _
    | none =>
      rcases flushPhaseC_eq H cfg st build len wal ckp hplace with ⟨commit, hcommit, heq⟩
      cases harchive : archiveOps H cfg (wal.take len) with
      | error e =>
        rw [heq, harchive, Publication.ops, hcommit]
        exact fun op hop => spares_of_keeps (deletes_commitOps _ _ _ op hop)
      | ok archive =>
        rw [(flushPhaseC_ok H cfg st build len wal ckp hplace harchive).1, flushOps]
        simp only [forall_mem_append]
        exact ⟨⟨fun op hop => spares_of_keeps (deletes_commitOps _ _ _ op hop),
          forall_archiveOps harchive fun _ _ => trivial,
          forall_truncateOps _ trivial trivial trivial⟩, spares_checkpointOps _ hckp⟩

theorem deletes_compactOps (out : MergeOutput) (records : List PlacementRecord) :
    ∀ op ∈ compactOps H st out records, op.deletes = false := by
  rw [compactOps, mergedOps, publishOps]
  simp only [forall_mem_append, List.forall_mem_map]
  exact ⟨⟨fun _ _ => rfl, fun _ _ => rfl⟩, forall_familyOps rfl, by simp [FileOp.deletes]⟩

theorem spares_compactPhaseC (capture : CompactCapture) {kept : List Nat}
    (hkept : ∀ id, file = .segment id → id ∈ kept)
    (hckp : ∀ kept ∈ ckp, ∀ f, file = .directory f → f ∈ kept) :
    ∀ op ∈ (compactPhaseC H cfg st capture kept ckp).ops, op.Spares file := by
  rcases compactPhaseC_cases H cfg st capture kept ckp with
    ⟨hops, _⟩ | ⟨out, _, _, ⟨_, _, hops, _⟩ | ⟨moves, _, _, ⟨_, _, hops, _⟩ | ⟨_, hops, _⟩⟩⟩
  · rw [hops]
    exact forall_mem_nil _
  · rw [hops]
    intro op hop
    refine spares_of_keeps (deletes_compactOps (H := H) st out [] op ?_)
    exact mem_append_left _ hop
  · rw [hops]
    exact fun op hop => spares_of_keeps (deletes_compactOps st out _ op hop)
  · rw [hops, forall_mem_append, cleanupOps, forall_mem_cons]
    exact ⟨fun op hop => spares_of_keeps (deletes_compactOps st out _ op hop), hkept,
      spares_checkpointOps _ hckp⟩

theorem has_run {p : Publication} (hspares : ∀ op ∈ p.ops, op.Spares file)
    (hhas : disk.has file = true) (fault : Option Nat) :
    (p.run disk fault).2.1.has file = true := by
  unfold Publication.run
  split
  · exact has_applyAll _ (fun op hop => hspares op (mem_of_mem_take hop)) hhas
  · exact has_applyAll _ hspares hhas

theorem has_recover (hopen : sys.recover H cfg = some sys') (hhas : sys.disk.has file = true) :
    sys'.disk.has file = true := by
  obtain ⟨r, -, rfl⟩ := recover_eq_some hopen
  have hfresh : (freshDisk sys.disk).has file = true := by
    unfold freshDisk
    split
    · exact hhas
    · exact @has_apply _ _ (.current 1) trivial (@has_apply _ _ (.manifest _) trivial hhas)
  show (r.disk sys.disk).has file = true
  unfold Recovery.disk
  split
  · exact @has_apply _ _ (.walSetLen _) trivial hfresh
  · exact hfresh

theorem Sys.Written.has (h : sys.Written H sys') : sys'.disk.has file = sys.disk.has file := by
  cases h with
  | failed h => rw [h.sys, has_setWal]
  | wrote h => rw [h.disk, has_setWal]

section

variable (hpin : file.deletable = true → file ∈ pins)
include hpin

theorem mem_pinnedDirectory :
    ∀ kept ∈ ckp.map (· ++ pinnedDirectory pins), ∀ f, file = .directory f → f ∈ kept := by
  rintro kept hkept f rfl
  rcases Option.mem_map.mp hkept with ⟨kept', _, rfl⟩
  refine mem_append_right _ (mem_filterMap.mpr ⟨_, hpin rfl, rfl⟩)

theorem mem_pinnedSegments (kept : List Nat) :
    ∀ id, file = .segment id → id ∈ kept ++ pinnedSegments pins := by
  rintro id rfl
  exact mem_append_right _ (mem_filterMap.mpr ⟨_, hpin rfl, rfl⟩)

theorem step_spares {e : Event} (hstep : step H cfg sys (e.sparing pins) = some sys')
    (hhas : sys.disk.has file = true) : sys'.disk.has file = true := by
  generalize he : e.sparing pins = e' at hstep
  cases step_stepped hstep with
  | write | submit =>
    rw [(Sys.written_write H _ _ _).has]
    exact hhas
  | group hchecked =>
    rw [(Sys.written_commit H _ _ _ hchecked).has]
    exact hhas
  | call | rotate | flushA | compactA => exact hhas
  | @flushB plan fault _ =>
    have hspares := @spares_flushPhaseB H cfg file FlushBuild.empty
      (plan.immutables.zip plan.segmentIds)
    simp only [Sys.flushB]
    split
    · exact has_applyAll _ (fun op hop => hspares op (mem_of_mem_take hop)) hhas
    · exact has_applyAll _ hspares hhas
    · exact has_applyAll _ hspares hhas
  | flushC _ hrun =>
    cases e <;> cases he
    rw [← hrun]
    exact has_run (spares_flushPhaseC _ _ _ _ (mem_pinnedDirectory hpin)) hhas _
  | compactC _ hrun =>
    cases e <;> cases he
    rw [← hrun]
    exact has_run (spares_compactPhaseC _ _ (mem_pinnedSegments hpin _)
      (mem_pinnedDirectory hpin)) hhas _
  | reopened _ hrecover => exact has_recover hrecover hhas
  | crashed hevent hrecover =>
    refine has_recover hrecover (has_applyAll _ (fun op hop => ?_) hhas)
    have hop' := mem_of_mem_take hop
    rcases hevent with ⟨ckp, _, _, rfl, _, rfl⟩ | ⟨i, kept, ckp, _, rfl, _, rfl⟩
    · cases e <;> cases he
      exact spares_flushPhaseC _ _ _ _ (mem_pinnedDirectory hpin) op hop'
    · cases e <;> cases he
      exact spares_compactPhaseC _ _ (mem_pinnedSegments hpin _) (mem_pinnedDirectory hpin) op hop'

end

end

/-! ## Snapshots -/

/-- A snapshot that ends at a place shares no file that may be deleted with another running one.
    -/
def Alone (s : SnapSys) (i : Nat) : Prop :=
  ∀ snapshot, s.running[i]? = some snapshot → ∀ j other, j ≠ i → s.running[j]? = some other →
    ∀ file ∈ snapshot.files, file.deletable = true → file ∉ other.files

/-- No snapshot ends, well or not, while another one shares a file with it. -/
def EndsAlone (s : SnapSys) : SnapEvent → Prop
  | .copy i => (∃ snapshot e, s.running[i]? = some snapshot ∧ snapshot.copy s.sys.disk = .error e) →
      Alone s i
  | .finish i => Alone s i
  | .fail i => Alone s i
  | _ => True

def Armed (s : SnapSys) : Prop :=
  ∀ snapshot ∈ s.running, ∀ file ∈ snapshot.files, file.deletable = true → file ∈ s.pins

theorem Armed.disarm {s : SnapSys} (h : Armed s) {i : Nat} (hget : s.running[i]? = some snapshot)
    (halone : Alone s i) : Armed (s.disarm i snapshot) := by
  intro other hother file hfile hdel
  rcases mem_eraseIdx_iff_getElem?.mp hother with ⟨j, hj, hother⟩
  refine mem_filter.mpr ⟨h other (mem_of_getElem? hother) file hfile hdel, ?_⟩
  have hnot : file ∉ snapshot.files := fun hmem =>
    halone snapshot hget j other hj hother file hmem hdel hfile
  simpa using hnot

theorem Snapshot.copy_files {s s' : Snapshot} (h : s.copy disk = .ok s') : s'.files = s.files := by
  unfold Snapshot.copy at h
  split at h
  · cases h
    rfl
  · cases h
    rfl
  · cases h
    rfl
  · simp only at h
    split at h
    · cases h
      rfl
    · cases h

section

variable {H : Sha256} {cfg : Config} {s s' : SnapSys}

theorem Armed.step (h : Armed s) (hc : EndsAlone s e) (hstep : snapStep H cfg s e = some s') :
    Armed s' := by
  cases e <;> simp only [snapStep] at hstep
  case db e =>
    split at hstep
    · split at hstep
      · split at hstep
        · rename_i hidle
          rcases map_eq_some_iff.mp hstep with ⟨sys, _, rfl⟩
          intro snapshot hmem
          rw [List.isEmpty_iff.mp hidle] at hmem
          cases hmem
        · cases hstep
      · rcases map_eq_some_iff.mp hstep with ⟨sys, _, rfl⟩
        exact forall_mem_nil _
    · rcases map_eq_some_iff.mp hstep with ⟨sys, _, rfl⟩
      exact h
  case capture =>
    split at hstep
    · cases hstep
      exact h
    · cases hstep
      refine forall_mem_append.mpr ⟨fun snapshot hmem file hfile hdel => ?_, ?_⟩
      · exact mem_append_left _ (h snapshot hmem file hfile hdel)
      · exact forall_mem_singleton.mpr fun file hfile _ => mem_append_right _ hfile
  case copy i =>
    split at hstep
    · cases hstep
    · rename_i snapshot hget
      split at hstep
      · rename_i err herr
        cases hstep
        exact h.disarm hget (hc ⟨snapshot, err, hget, herr⟩)
      · rename_i copied hcopy
        cases hstep
        -- The copy has the files of the snapshot it goes on from.
        intro other hother
        rcases mem_or_eq_of_mem_set hother with hmem | rfl
        · exact h other hmem
        · rw [Snapshot.copy_files hcopy]
          exact h snapshot (mem_of_getElem? hget)
  case finish i =>
    split at hstep
    · cases hstep
    · rename_i snapshot hget
      split at hstep
      · cases hstep
      · cases hstep
        exact h.disarm hget hc
  case fail i =>
    split at hstep
    · cases hstep
    · rename_i snapshot hget
      cases hstep
      exact h.disarm hget hc

theorem Armed.spares (h : Armed s) (hstep : snapStep H cfg s e = some s')
    (hmem : snapshot ∈ s.running) (hfile : file ∈ snapshot.files)
    (hhas : s.sys.disk.has file = true) : s'.sys.disk.has file = true := by
  cases e <;> simp only [snapStep] at hstep
  case db e =>
    split at hstep
    · split at hstep
      · split at hstep
        · rcases map_eq_some_iff.mp hstep with ⟨sys, hsys, rfl⟩
          exact step_spares (e := .reopen) (h snapshot hmem file hfile) hsys hhas
        · cases hstep
      · rcases map_eq_some_iff.mp hstep with ⟨sys, hsys, rfl⟩
        exact step_spares (h snapshot hmem file hfile) hsys hhas
    · rcases map_eq_some_iff.mp hstep with ⟨sys, hsys, rfl⟩
      exact step_spares (h snapshot hmem file hfile) hsys hhas
  case capture =>
    split at hstep <;> cases hstep <;> exact hhas
  case copy i =>
    split at hstep
    · cases hstep
    · split at hstep <;> cases hstep <;> exact hhas
  case finish i =>
    split at hstep
    · cases hstep
    · split at hstep <;> cases hstep
      exact hhas
  case fail i =>
    split at hstep <;> cases hstep
    exact hhas

end

/-- Nothing that was captured is deleted: in every run in which no snapshot ends
    while another one shares a file with it, no step deletes a captured file of a
    running snapshot. -/
theorem captured_files_survive (H : Sha256) (cfg : Config) (s s' : SnapSys) (e : SnapEvent)
    (hreach : Runs.Reaches (snapStep H cfg) EndsAlone SnapSys.initial s)
    (hstep : snapStep H cfg s e = some s') :
    ∀ snapshot ∈ s.running, ∀ file ∈ snapshot.files,
      s.sys.disk.has file = true → s'.sys.disk.has file = true := by
  have h : Armed s := hreach.invariant (forall_mem_nil _) fun _ _ _ h hc hstep => h.step hc hstep
  exact fun snapshot hmem file hfile hhas => h.spares hstep hmem hfile hhas

def flushedRun : List SnapEvent :=
  [.db (.write [.put [1] [2]] .done), .db .flushA, .db (.flushB none), .db (.flushC none none)]

/-- A compaction while a snapshot runs. -/
theorem captured_files_survive_compaction : ∃ s s' snapshot,
      Runs.run (snapStep Sha256.fips180 Config.new) SnapSys.initial
        (flushedRun ++ [.capture, .db (.compactA keepAll)]) = some s ∧
      snapStep Sha256.fips180 Config.new s (.db (.compactC 0 [] none)) = some s' ∧
      s.running = [snapshot] ∧ .segment 1 ∈ snapshot.files ∧
      s.sys.disk.has (.segment 1) = true ∧ s'.sys.disk.has (.segment 1) = true := by
  have hend : ∃ s, Runs.run (snapStep Sha256.fips180 Config.new) SnapSys.initial
      (flushedRun ++ [.capture, .db (.compactA keepAll)]) = some s ∧
      ∃ s', snapStep Sha256.fips180 Config.new s (.db (.compactC 0 [] none)) = some s' ∧
        s.running.map Snapshot.files = [[.current, .manifest 2, .segment 1, .wal]] ∧
        s.sys.disk.has (.segment 1) = true := by
    decide +kernel
  obtain ⟨s, hs, s', hs', hfiles, hhas⟩ := hend
  rcases map_eq_singleton_iff.mp hfiles with ⟨snapshot, hrunning, hsnapshot⟩
  have hmem : .segment 1 ∈ snapshot.files := by rw [hsnapshot]; decide
  refine ⟨s, s', snapshot, hs, hs', hrunning, hmem, hhas, ?_⟩
  refine captured_files_survive Sha256.fips180 Config.new s s' _ ?_ hs' snapshot
    (hrunning ▸ mem_singleton.mpr rfl) (.segment 1) hmem hhas
  refine Runs.reaches_of_run _ (Runs.meets_of_forall _ ?_ _) hs
  simp [flushedRun, EndsAlone]

/-- Two snapshots of one generation: the first one ends and takes the names of
    both out of the pins, and a compaction deletes the segment the second one has
    not copied yet. -/
theorem ended_snapshot_unpins : ∃ s s' snapshot,
      Runs.run (snapStep Sha256.fips180 Config.new) SnapSys.initial
        (flushedRun ++ [.capture, .capture, .copy 0, .copy 0, .copy 0, .copy 0, .finish 0,
          .db (.compactA keepAll)]) = some s ∧
      snapStep Sha256.fips180 Config.new s (.db (.compactC 0 [] none)) = some s' ∧
      s.running = [snapshot] ∧ s'.running = [snapshot] ∧ .segment 1 ∈ snapshot.files ∧
      .segment 1 ∈ snapshot.todo ∧
      s.sys.disk.has (.segment 1) = true ∧ s'.sys.disk.has (.segment 1) = false := by
  have hend : ∃ s, Runs.run (snapStep Sha256.fips180 Config.new) SnapSys.initial
      (flushedRun ++ [.capture, .capture, .copy 0, .copy 0, .copy 0, .copy 0, .finish 0,
        .db (.compactA keepAll)]) = some s ∧
      ∃ s', snapStep Sha256.fips180 Config.new s (.db (.compactC 0 [] none)) = some s' ∧
        s.running.map (fun r => (r.files, r.todo)) = [([.current, .manifest 2, .segment 1, .wal],
              [.current, .manifest 2, .segment 1, .wal])] ∧
        s.sys.disk.has (.segment 1) = true ∧ s'.sys.disk.has (.segment 1) = false := by
    decide +kernel
  obtain ⟨s, hs, s', hs', hfiles, hhas⟩ := hend
  rcases map_eq_singleton_iff.mp hfiles with ⟨snapshot, hrunning, hsnapshot⟩
  obtain ⟨hcaptured, htodo⟩ := Prod.mk.inj hsnapshot
  refine ⟨s, s', snapshot, hs, hs', hrunning, ?_, by rw [hcaptured]; decide,
    by rw [htodo]; decide, hhas⟩
  -- The step of the database leaves the snapshots running.
  rcases map_eq_some_iff.mp hs' with ⟨sys, _, rfl⟩
  exact hrunning

end Aikoql.Storage
