import Aikoql.Storage.DirsMoves

/-!
# What an Open Does

The one place where the open is taken apart.

An open succeeds exactly if all of its checks do, and `dbOpen_eq_ok` lists them
with what they compute. The replay of a log that ends with a whole frame folds
the operations of its frames, so the memtable it builds is the one the frames
make, and the largest sequence number it sees is that of some frame.
-/

namespace Aikoql.Storage

open List

variable {H : Sha256} {frames : List WalFrame} {start : Replayed}

/-- What an open computes on the way. -/
structure Recovery where
  manifest : Manifest
  recovered : Recovered
  segments : List Segment
  ends : Nat × Nat
  replayed : Replayed

def currentOf (disk : Disk) : Nat :=
  (freshDisk disk).current.getD 1

def orphanMaxOf (disk : Disk) : Nat :=
  orphanPlacementMaxGeneration (freshDisk disk).placementLogs (currentOf disk)

structure Opens (H : Sha256) (cfg : Config) (disk : Disk) (r : Recovery) : Prop where
  target : cfg.blockTarget ≠ 0
  manifest : (freshDisk disk).manifests[currentOf disk]? = some r.manifest
  pair : r.manifest.generation = currentOf disk
  valid : validateManifest r.manifest (freshDisk disk) = .ok ()
  coverage : validateDeltaCoverage H (freshDisk disk).identityLogs (freshDisk disk).replicaLogs
    (freshDisk disk).placementLogs (loadNewest (freshDisk disk).checkpoints (currentOf disk))
    r.manifest = .ok ()
  identity : mergeIdentities ∅ (identityRecords (freshDisk disk) (currentOf disk))
    = .ok r.recovered.identity
  replicas : mergeReplicas ∅ (replicaRecords (freshDisk disk) (currentOf disk))
    = .ok r.recovered.replicas
  segments : r.manifest.segments.mapM (openSegment (freshDisk disk)) = .ok r.segments
  placements : mergePlacements ∅ (placementRecords (freshDisk disk) (currentOf disk))
    = .ok r.recovered.placements
  placed : ∃ units, r.recovered.placements.toList.mapM
    (validatePlacement r.manifest r.segments) = .ok units
  replay : replayReader H (freshDisk disk).wal replayOp (replayStart r.recovered (orphanMaxOf disk))
    = .ok (r.ends, r.replayed)

/-- The memory an open leaves. -/
def Recovery.state (r : Recovery) (disk : Disk) : State where
  active := r.replayed.active
  immutables := []
  segments := r.segments
  segmentRecords := r.manifest.segments
  nextSeq := max r.replayed.replayMax (maxOf (r.manifest.segments.map SegmentRecord.seqHi)) + 1
  nextSegmentId := maxOf (r.manifest.segments.map SegmentRecord.segmentId) + 1
  generation := r.manifest.generation
  dirs := recoverAllocators r.replayed.dirs (orphanMaxOf disk)
    (checkpointFloors (loadNewest (freshDisk disk).checkpoints (currentOf disk)))
  identityMark := r.manifest.identity
  replicaMark := r.manifest.replica
  placementMark := r.manifest.placement

/-- The disk an open leaves: a torn tail of the log is cut off. -/
def Recovery.disk (r : Recovery) (disk : Disk) : Disk :=
  if r.ends.1 ≠ r.ends.2 then (freshDisk disk).apply (.walSetLen r.ends.1) else freshDisk disk

theorem verifyPair_eq_ok {current : Nat} {m : Manifest} :
    verifyPair current m = .ok () ↔ m.generation = current := by
  simp only [verifyPair]
  split
  · rename_i h
    exact ⟨nofun, fun h' => absurd h'.symm h⟩
  · rename_i h
    exact ⟨fun _ => (not_not.mp h).symm, fun _ => rfl⟩

theorem dbOpen_eq_ok {cfg : Config} {disk : Disk} {opened : State × Disk} :
    dbOpen H cfg disk = .ok opened ↔
      ∃ r, Opens H cfg disk r ∧ opened = (r.state disk, r.disk disk) := by
  constructor
  · intro h
    cases hm : (freshDisk disk).manifests[currentOf disk]? with
    | none =>
      rw [currentOf] at hm
      simp only [dbOpen, hm, bind_eq_ok, ensure_eq_ok, exists_const] at h
      rcases h with ⟨_, m, hnone, _⟩
      cases hnone
    | some m =>
      rw [currentOf] at hm
      simp only [dbOpen, hm, bind_eq_ok, ensure_eq_ok, exists_const, pure_eq_ok] at h
      rcases h with ⟨htarget, _, hsome, _, hpair, _, hvalid, _, hcoverage, identity, hidentity,
        replicas, hreplicas, segments, hsegments, placements, hplacements, units, hplaced,
        ⟨ends, replayed⟩, hreplay, rfl⟩
      cases hsome
      exact ⟨⟨m, ⟨identity, replicas, placements⟩, segments, ends, replayed⟩,
        ⟨htarget, hm, verifyPair_eq_ok.mp hpair, hvalid, hcoverage, hidentity, hreplicas,
          hsegments, hplacements, ⟨units, hplaced⟩, hreplay⟩, rfl⟩
  · rintro ⟨r, h, rfl⟩
    rcases h.placed with ⟨units, hplaced⟩
    have hm := h.manifest
    have hpair := verifyPair_eq_ok.mpr h.pair
    have hvalid := h.valid
    have hcoverage := h.coverage
    have hidentity := h.identity
    have hreplicas := h.replicas
    have hplacements := h.placements
    have hreplay := h.replay
    unfold currentOf at hm hpair hcoverage hidentity hreplicas hplacements
    unfold orphanMaxOf currentOf at hreplay
    simp only [dbOpen, ensure_pos h.target, ok_bind, hm, hpair, hvalid, hcoverage, hidentity,
      hreplicas, h.segments, hplacements, hplaced, hreplay]
    rfl

theorem recover_eq_some {cfg : Config} {sys sys' : Sys} (h : sys.recover H cfg = some sys') :
    ∃ r, Opens H cfg sys.disk r ∧ sys' = { sys with
      st := r.state sys.disk, disk := r.disk sys.disk, flush := none, compactions := []
      calls := [] } := by
  unfold Sys.recover at h
  split at h
  · cases h
  · rename_i st disk hok
    obtain ⟨r, hopens, heq⟩ := dbOpen_eq_ok.mp hok
    cases heq
    cases h
    exact ⟨r, hopens, rfl⟩

/-! ## The replay -/

theorem foldlM_replayOp {r : Replayed} (h : frames.foldlM (replayFrame replayOp) start = .ok r) :
    r.active = frames.foldl applyFrame start.active ∧ start.replayMax ≤ r.replayMax ∧
      (∀ f ∈ frames, f.ops ≠ [] → f.seq.val ≤ r.replayMax) ∧
      (r.replayMax = start.replayMax ∨ ∃ f ∈ frames, f.seq.val = r.replayMax) := by
  have hframe : ∀ (seq : U64) (ops : List Op) (s t : Replayed),
      ops.foldlM (replayOp seq) s = .ok t → t.active = ops.foldl (applyRow seq.val) s.active ∧
        t.replayMax = if ops = [] then s.replayMax else max s.replayMax seq.val := by
    intro seq ops
    induction ops with
    | nil =>
      intro s t hs
      cases hs
      exact ⟨rfl, rfl⟩
    | cons op ops ih =>
      intro s t hs
      rw [foldlM_cons, bind_eq_ok] at hs
      rcases hs with ⟨mid, hmid, hrest⟩
      rcases ih mid t hrest with ⟨hactive, hmax⟩
      unfold replayOp at hmid
      split at hmid
      · cases hmid
      · cases hmid
        refine ⟨hactive, ?_⟩
        rw [hmax, if_neg (cons_ne_nil op ops)]
        split
        · rfl
        · exact max_eq_left (le_max_right _ _)
  induction frames generalizing start with
  | nil =>
    cases h
    exact ⟨rfl, le_rfl, forall_mem_nil _, .inl rfl⟩
  | cons f frames ih =>
    rw [foldlM_cons, bind_eq_ok] at h
    rcases h with ⟨mid, hmid, hrest⟩
    rcases hframe f.seq f.ops start mid hmid with ⟨hactive, hmax⟩
    rcases ih hrest with ⟨hr, hle, hall, hsome⟩
    have hstart : start.replayMax ≤ mid.replayMax := by
      rw [hmax]
      split
      · exact le_rfl
      · exact le_max_left _ _
    refine ⟨by rw [hr, hactive]; rfl, hstart.trans hle, ?_, ?_⟩
    · refine forall_mem_cons.mpr ⟨fun hne => le_trans ?_ hle, hall⟩
      rw [hmax, if_neg hne]
      exact le_max_right _ _
    · rcases hsome with hsome | ⟨g, hg, hsome⟩
      · rw [hsome, hmax]
        split
        · exact .inl rfl
        · rcases le_total start.replayMax f.seq.val with hcmp | hcmp
          · exact .inr ⟨f, mem_cons_self, (max_eq_right hcmp).symm⟩
          · exact .inl (max_eq_left hcmp)
      · exact .inr ⟨g, mem_cons_of_mem f hg, hsome⟩

theorem Kept.foldlM_replayOp {placed : ReplicaId → Placement → Prop} {P : Directories → Prop}
    (hkept : Kept placed P) (hmemtable : ∀ rid g, placed rid (.memtable g)) {r : Replayed}
    (h : frames.foldlM (replayFrame replayOp) start = .ok r) (hstart : P start.dirs) :
    P r.dirs := by
  refine foldlM_ok_invariant (fun s => P s.dirs) _ frames ?_ start r hstart h
  intro s s' f _ hs hframe
  refine foldlM_ok_invariant (fun s => P s.dirs) _ f.ops ?_ s s' hs hframe
  intro t t' op _ ht hop
  have hgated := hkept.replayGate hmemtable op ht
  unfold replayOp at hop
  split at hop
  · cases hop
  · rename_i dirs hgate
    cases hop
    rwa [hgate] at hgated

theorem replay_log {result : (Nat × Nat) × Replayed} (hlog : LogOk frames)
    (h : replayReader H (encodeAll H frames) replayOp start = .ok result) :
    result.1.1 = result.1.2 ∧ frames.foldlM (replayFrame replayOp) start = .ok result.2 := by
  rw [replayReader_log H frames _ _ hlog] at h
  cases hfold : frames.foldlM (replayFrame replayOp) start with
  | error e =>
    rw [hfold] at h
    cases h
  | ok r =>
    rw [hfold] at h
    cases h
    exact ⟨rfl, rfl⟩

end Aikoql.Storage
