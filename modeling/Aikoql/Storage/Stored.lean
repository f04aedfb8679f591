import Aikoql.Storage.SegmentLayers

/-!
# What the Disk Holds

The disk of a running database, against its memory.

The pointer names the generation the memory is at, its manifest says what the
memory says, and every segment of it is in the file its record names. The
segments a flush in progress is writing have ids of their own, so they do not
disturb the published ones. The log holds the frames of the batches that are not
flushed, and the flush in progress covers those of its detached groups.

## Theorems

* `Stored.flushA`, `Stored.flushB`, `Stored.flushC`: What a flush does.
-/

namespace Aikoql.Storage

open List

variable {build : FlushBuild} (pairs : List (Nat × Segment)) {frames : List WalFrame}
  {plan : FlushPlan} {len : Nat}
variable {archive : List FileOp} {new : List Batch}
  {published : List (Segment × Std.ExtTreeMap ReplicaId SegmentAnchor)} {fault : Option Nat}
variable {grouped : Bool} {a b : Disk} {P : FileOp → Prop}

/-- A manifest record with the segment in the file it names. -/
structure StoredAs (disk : Disk) (r : SegmentRecord) (s : Segment) : Prop where
  file : disk.segmentFiles[r.segmentId]? = some s
  record : segmentRecord r.segmentId r.level s = r
  level : r.level ≤ 1

def flushIds : Option FlushStage → List Nat
  | none => []
  | some (.planned plan) => plan.segmentIds
  | some (.built build _) => build.records.map SegmentRecord.segmentId

/-- The published files agree with the memory. -/
structure Stored (sys : Sys) : Prop where
  current : sys.disk.current = some sys.st.generation
  manifest : sys.disk.manifests[sys.st.generation]? = some (manifestOf sys.st)
  files : Forall₂ (StoredAs sys.disk) sys.st.segmentRecords sys.st.segments
  flushFiles : ∀ build len, sys.flush = some (.built build len) →
    Forall₂ (StoredAs sys.disk) build.records build.newSegments
  nodup : (sys.st.segmentRecords.map SegmentRecord.segmentId ++ flushIds sys.flush).Nodup
  fresh : ∀ id ∈ sys.st.segmentRecords.map SegmentRecord.segmentId ++ flushIds sys.flush,
    id < sys.st.nextSegmentId

def flushLen : Option FlushStage → Option Nat
  | none => none
  | some (.planned plan) => some plan.walTruncateLen
  | some (.built _ len) => some len

/-- The log holds the batches that are not flushed. -/
structure WalHolds (H : Sha256) (sys : Sys) (l : Layers) : Prop where
  wal : sys.disk.wal = encodeAll H (loggedOf l.unflushed)
  encodable : ∀ b ∈ l.unflushed, Encodable b.frame.ops
  covered : ∀ len, flushLen sys.flush = some len →
    len = (encodeAll H (loggedOf l.detached.flatten)).length

section

variable {H : Sha256} {cfg : Config} {sys sys' : Sys} {l : Layers}

theorem stored_initial : Stored Sys.initial where
  current := rfl
  manifest := rfl
  files := .nil
  flushFiles := by
    intro build len h
    cases h
  nodup := nodup_nil
  fresh := by
    intro id hid
    cases hid

theorem walHolds_initial (H : Sha256) : WalHolds H Sys.initial ⟨[], [], [], []⟩ where
  wal := rfl
  encodable := forall_mem_nil _
  covered := by
    intro len h
    cases h

theorem loggedOf_append (a b : List Batch) : loggedOf (a ++ b) = loggedOf a ++ loggedOf b :=
  map_append

theorem WalHolds.logOk (h : WalHolds H sys l) (hlayout : Layout H cfg sys l) :
    LogOk (loggedOf l.unflushed) := by
  exact ⟨forall_mem_map.mpr h.encodable, (pairwise_map (f := Batch.frame)).mpr hlayout.increasing⟩

theorem storedAs_keep {disk disk' : Disk} {records : List SegmentRecord} {segs : List Segment}
    (h : Forall₂ (StoredAs disk) records segs)
    (hkeep : ∀ r ∈ records, disk'.segmentFiles[r.segmentId]? = disk.segmentFiles[r.segmentId]?) :
    Forall₂ (StoredAs disk') records segs := by
  induction h with
  | nil => exact .nil
  | @cons r s records segs hr _ ih =>
    refine .cons ⟨(hkeep r mem_cons_self).trans hr.file, hr.record, hr.level⟩ (ih ?_)
    exact fun r' hr' => hkeep r' (mem_cons_of_mem r hr')

/-! ## Writes -/

theorem Stored.congr (h : Stored sys) (hcurrent : sys'.disk.current = sys.disk.current)
    (hmanifests : sys'.disk.manifests = sys.disk.manifests)
    (hfiles : sys'.disk.segmentFiles = sys.disk.segmentFiles)
    (hmanifest : manifestOf sys'.st = manifestOf sys.st)
    (hsegs : sys'.st.segments = sys.st.segments)
    (hnext : sys'.st.nextSegmentId = sys.st.nextSegmentId)
    (hflush : sys'.flush = sys.flush) : Stored sys' := by
  have hgen : sys'.st.generation = sys.st.generation := congrArg Manifest.generation hmanifest
  have hrecords : sys'.st.segmentRecords = sys.st.segmentRecords :=
    congrArg Manifest.segments hmanifest
  have hstored : ∀ r s, StoredAs sys.disk r s → StoredAs sys'.disk r s := fun r s hr =>
    ⟨by rw [hfiles]; exact hr.file, hr.record, hr.level⟩
  exact {
    current := by rw [hcurrent, hgen]; exact h.current
    manifest := by rw [hmanifests, hgen, hmanifest]; exact h.manifest
    files := by rw [hrecords, hsegs]; exact h.files.imp hstored
    flushFiles := fun build len hf => (h.flushFiles build len (hflush ▸ hf)).imp hstored
    nodup := by rw [hrecords, hflush]; exact h.nodup
    fresh := by rw [hrecords, hflush, hnext]; exact h.fresh }

theorem Stored.wrote (h : Stored sys) (hwrote : Wrote H grouped sys frames sys') : Stored sys' := by
  refine h.congr ?_ ?_ ?_ ?_ ?_ ?_ hwrote.flush
  · rw [hwrote.disk]
  · rw [hwrote.disk]
  · rw [hwrote.disk]
  · rw [hwrote.st]
    rfl
  · rw [hwrote.st]
  · rw [hwrote.st]

theorem Stored.failed (h : Stored sys) {drawn : Nat} {torn : Bytes}
    (hfail : Failed H sys drawn frames torn sys') : Stored sys' := by
  rw [hfail.sys]
  exact h.congr rfl rfl rfl rfl rfl rfl rfl

theorem WalHolds.snoc (h : WalHolds H sys l)
    (hwal : sys'.disk.wal = sys.disk.wal ++ encodeAll H (loggedOf new))
    (henc : ∀ b ∈ new, Encodable b.frame.ops) (hflush : sys'.flush = sys.flush) :
    WalHolds H sys' { l with active := l.active ++ new } := by
  refine ⟨?_, ?_, ?_⟩
  · rw [l.unflushed_snoc, loggedOf_append, encodeAll_append, hwal, h.wal]
  · rw [l.unflushed_snoc]
    exact forall_mem_append.mpr ⟨h.encodable, henc⟩
  · rw [hflush]
    exact h.covered

theorem WalHolds.wrote (h : WalHolds H sys l) (hwrote : Wrote H grouped sys frames sys')
    (hframe : new.map Batch.frame = frames) :
    WalHolds H sys' { l with active := l.active ++ new } := by
  subst hframe
  refine h.snoc (by rw [hwrote.disk]; rfl) (fun b hb => ?_) hwrote.flush
  exact hwrote.encodable b.frame (mem_map_of_mem hb)

theorem WalHolds.failed (h : WalHolds H sys l) {drawn : Nat}
    (hfail : Failed H sys drawn frames [] sys') :
    WalHolds H sys' { l with active := l.active ++ frames.map Batch.unapplied } := by
  refine h.snoc ?_ (fun b hb => ?_) (by rw [hfail.sys])
  · have hlogged : loggedOf (frames.map Batch.unapplied) = frames := by
      rw [loggedOf, map_map]
      exact map_id _
    rw [hfail.sys, hlogged, append_nil]
  · rcases mem_map.mp hb with ⟨f, hf, rfl⟩
    exact hfail.encodable f hf

/-! ## Segment files -/

theorem applyAll_segments (disk : Disk) : disk.applyAll (pairs.map fun p => .segment p.1 p.2)
      = { disk with
          segmentFiles := pairs.foldl (fun files p => files.insert p.1 p.2) disk.segmentFiles } := by
  induction pairs generalizing disk with
  | nil => rfl
  | cons p pairs ih =>
    rw [map_cons, Disk.applyAll_cons, ih]
    rfl

theorem getElem?_foldl_insert_of_notMem (files : Std.ExtTreeMap Nat Segment) (id : Nat)
    (h : id ∉ pairs.map Prod.fst) :
    (pairs.foldl (fun files p => files.insert p.1 p.2) files)[id]? = files[id]? := by
  induction pairs generalizing files with
  | nil => rfl
  | cons p pairs ih =>
    rw [map_cons, mem_cons, not_or] at h
    rw [foldl_cons, ih _ h.2, Std.ExtTreeMap.getElem?_insert,
      if_neg fun hc => h.1 (Std.LawfulEqOrd.eq_of_compare hc).symm]

theorem getElem?_foldl_insert_of_mem (files : Std.ExtTreeMap Nat Segment) (p : Nat × Segment)
    (hmem : p ∈ pairs) (hnodup : (pairs.map Prod.fst).Nodup) :
    (pairs.foldl (fun files p => files.insert p.1 p.2) files)[p.1]? = some p.2 := by
  induction pairs generalizing files with
  | nil => cases hmem
  | cons q pairs ih =>
    rw [map_cons, nodup_cons] at hnodup
    rw [foldl_cons]
    rcases mem_cons.mp hmem with rfl | hmem
    · rw [getElem?_foldl_insert_of_notMem pairs _ _ hnodup.1]
      exact Std.ExtTreeMap.getElem?_insert_self
    · exact ih _ hmem hnodup.2

/-! ## Rotation and phase A -/

theorem Stored.rotate (h : Stored sys) : Stored { sys with st := Storage.rotate sys.st } :=
  h.congr rfl rfl rfl (manifestOf_rotate _) (rotate_segments _) (rotate_nextSegmentId _) rfl

theorem WalHolds.rotate (h : WalHolds H sys l) :
    WalHolds H { sys with st := Storage.rotate sys.st } l.rotate := by
  rcases l.unflushed_rotate with ⟨hun, _, hdet⟩
  exact ⟨by rw [hun]; exact h.wal, by rw [hun]; exact h.encodable, by rw [hdet]; exact h.covered⟩

@[simp] theorem flushPhaseA_segments (st : State) (walLen : Nat) :
    (flushPhaseA st walLen).1.segments = st.segments := by
  simp only [flushPhaseA]
  split <;> exact rotate_segments st

@[simp] theorem flushPhaseA_segmentRecords (st : State) (walLen : Nat) :
    (flushPhaseA st walLen).1.segmentRecords = st.segmentRecords := by
  simp only [flushPhaseA]
  split <;> exact rotate_segmentRecords st

@[simp] theorem flushPhaseA_nextSeq (st : State) (walLen : Nat) :
    (flushPhaseA st walLen).1.nextSeq = st.nextSeq := by
  simp only [flushPhaseA]
  split <;> exact rotate_nextSeq st

@[simp] theorem flushPhaseA_generation (st : State) (walLen : Nat) :
    (flushPhaseA st walLen).1.generation = st.generation := by
  simp only [flushPhaseA]
  split <;> exact rotate_generation st

@[simp] theorem flushPhaseA_dirs (st : State) (walLen : Nat) :
    (flushPhaseA st walLen).1.dirs = st.dirs := by
  simp only [flushPhaseA]
  split <;> exact rotate_dirs st

@[simp] theorem manifestOf_flushPhaseA (st : State) (walLen : Nat) :
    manifestOf (flushPhaseA st walLen).1 = manifestOf st := by
  simp only [flushPhaseA]
  split <;> exact manifestOf_rotate st

theorem flushPhaseA_ids (st : State) (walLen : Nat) : ((flushPhaseA st walLen).2 = none ∧
        (flushPhaseA st walLen).1.nextSegmentId = st.nextSegmentId) ∨
      ∃ plan, (flushPhaseA st walLen).2 = some plan ∧
        plan.segmentIds = (List.range plan.immutables.length).map (fun i => st.nextSegmentId + i) ∧
        (flushPhaseA st walLen).1.nextSegmentId = st.nextSegmentId + plan.immutables.length := by
  simp only [flushPhaseA]
  split
  · exact .inl ⟨rfl, rotate_nextSegmentId st⟩
  · exact .inr ⟨_, rfl, by simp only [rotate_nextSegmentId], by simp only [rotate_nextSegmentId]⟩

theorem Stored.flushA (h : Stored sys) (hidle : sys.flush = none) :
    let planned := flushPhaseA sys.st sys.disk.wal.length
    Stored { sys with st := planned.1, flush := planned.2.map .planned } := by
  have hids := h.fresh
  have hnodup := h.nodup
  simp only [hidle, flushIds, append_nil] at hids hnodup
  have hmanifest := manifestOf_flushPhaseA sys.st sys.disk.wal.length
  rcases flushPhaseA_ids sys.st sys.disk.wal.length with ⟨hnone, hnext⟩ | ⟨plan, hsome, hplan, hnext⟩
  · simp only [hnone, Option.map_none]
    exact h.congr rfl rfl rfl hmanifest (flushPhaseA_segments _ _) hnext hidle.symm
  · simp only [hsome, Option.map_some]
    have hnew : ∀ id ∈ plan.segmentIds, sys.st.nextSegmentId ≤ id ∧
        id < sys.st.nextSegmentId + plan.immutables.length := by
      intro id hid
      rw [hplan, mem_map] at hid
      rcases hid with ⟨i, hi, rfl⟩
      have := mem_range.mp hi
      omega
    refine ⟨?_, ?_, ?_, fun build len hf => (by cases hf), ?_, ?_⟩
    · exact h.current.trans (congrArg some (congrArg Manifest.generation hmanifest).symm)
    · have hgen : (flushPhaseA sys.st sys.disk.wal.length).1.generation = sys.st.generation :=
        congrArg Manifest.generation hmanifest
      simp only [hmanifest, hgen]
      exact h.manifest
    · rw [flushPhaseA_segments, flushPhaseA_segmentRecords]
      exact h.files
    · -- The new ids lie past all there are.
      rw [flushPhaseA_segmentRecords]
      refine nodup_append.mpr ⟨hnodup, ?_, fun a ha b hb hab => ?_⟩
      · rw [flushIds, hplan]
        exact Nodup.map (fun i j hij => by omega) nodup_range
      · have := hids a ha
        have := hnew b hb
        omega
    · intro id hid
      simp only [flushPhaseA_segmentRecords, hnext] at hid ⊢
      rcases mem_append.mp hid with hid | hid
      · exact (hids id hid).trans_le (Nat.le_add_right _ _)
      · exact (hnew id hid).2

theorem WalHolds.flushA (h : WalHolds H sys l) {groups : List (List Batch)} {st : State}
    (hlen : plan.walTruncateLen = sys.disk.wal.length) (hgroups : groups.flatten = l.unflushed) :
    WalHolds H { sys with st := st, flush := some (.planned plan) } ⟨l.flushed, groups, [], []⟩ := by
  have hun : (⟨l.flushed, groups, [], []⟩ : Layers).unflushed = l.unflushed := by
    simp [Layers.unflushed, hgroups]
  refine ⟨by rw [hun]; exact h.wal, by rw [hun]; exact h.encodable, fun len hf => ?_⟩
  simp only [flushLen, Option.some.injEq] at hf
  rw [← hf, hlen, h.wal, hgroups]

/-! ## Phase B -/

/-- The files of phase B by id. -/
def builtPairs (plan : List (Memtable × Nat))
    (published : List (Segment × Std.ExtTreeMap ReplicaId SegmentAnchor)) : List (Nat × Segment) :=
  (plan.zip published).map fun x => (x.1.2, x.2.1)

theorem builtOps_eq (plan : List (Memtable × Nat))
    (published : List (Segment × Std.ExtTreeMap ReplicaId SegmentAnchor)) :
    builtOps plan published = (builtPairs plan published).map fun p => .segment p.1 p.2 := by
  rw [builtOps, builtPairs, map_map]
  rfl

theorem Built.ids {plan : List (Memtable × Nat)} (h : Built H cfg plan build published) :
    build.records.map SegmentRecord.segmentId = plan.map Prod.snd ∧
      (builtPairs plan published).map Prod.fst = plan.map Prod.snd := by
  have hlen := h.each.length_eq
  have hzip : (plan.zip published).map Prod.fst = plan := map_fst_zip hlen.le
  constructor
  · rw [h.records, map_map]
    conv_rhs => rw [← hzip, map_map]
    rfl
  · rw [builtPairs, map_map]
    conv_rhs => rw [← hzip, map_map]
    rfl

theorem Built.storedAs {plan : List (Memtable × Nat)} (h : Built H cfg plan build published)
    (hnodup : (plan.map Prod.snd).Nodup) (disk : Disk) :
    Forall₂ (StoredAs (disk.applyAll (builtOps plan published))) build.records
      build.newSegments := by
  have hsegs : build.newSegments = (plan.zip published).map fun x => x.2.1 := by
    rw [h.newSegments]
    conv_lhs => rw [← map_snd_zip h.each.length_eq.ge, map_map]
    rfl
  rw [hsegs, h.records, forall₂_map_left_iff, forall₂_map_right_iff, forall₂_same]
  intro x hx
  refine ⟨?_, rfl, Nat.zero_le _⟩
  rw [builtOps_eq, applyAll_segments]
  refine getElem?_foldl_insert_of_mem _ _ (x.1.2, x.2.1) ?_ (h.ids.2 ▸ hnodup)
  exact mem_map_of_mem (f := fun x => (x.1.2, x.2.1)) hx

theorem Stored.flushB (h : Stored sys) (hflush : sys.flush = some (.planned plan))
    (hids : plan.segmentIds.length = plan.immutables.length)
    (hbuilt : (sys.flushB H cfg plan fault).flush = some (.built build len)) :
    Stored (sys.flushB H cfg plan fault) := by
  rcases Sys.flushB_built hbuilt with ⟨published, hpub, heq⟩
  have hsnd : (plan.immutables.zip plan.segmentIds).map Prod.snd = plan.segmentIds :=
    map_snd_zip hids.le
  have hnodup := h.nodup
  have hfresh := h.fresh
  rw [hflush, flushIds] at hnodup hfresh
  have hrecords := hpub.ids.1
  rw [hsnd] at hrecords
  rw [heq]
  refine ⟨?_, ?_, ?_, fun build' len' hf => ?_, ?_, ?_⟩
  · rw [builtOps_eq, applyAll_segments]
    exact h.current
  · rw [builtOps_eq, applyAll_segments]
    exact h.manifest
  · -- The new files have ids of their own.
    refine storedAs_keep h.files fun r hr => ?_
    rw [builtOps_eq, applyAll_segments]
    refine getElem?_foldl_insert_of_notMem _ _ _ fun hmem => ?_
    rw [hpub.ids.2, hsnd] at hmem
    exact (nodup_append.mp hnodup).2.2 _ (mem_map_of_mem hr) _ hmem rfl
  · cases hf
    exact hpub.storedAs (by rw [hsnd]; exact (nodup_append.mp hnodup).2.1) sys.disk
  · rw [flushIds, hrecords]
    exact hnodup
  · rw [flushIds, hrecords]
    exact hfresh

theorem WalHolds.flushB (h : WalHolds H sys l) (hflush : sys.flush = some (.planned plan))
    (hbuilt : (sys.flushB H cfg plan fault).flush = some (.built build len)) :
    WalHolds H (sys.flushB H cfg plan fault) l := by
  rcases Sys.flushB_built hbuilt with ⟨published, _, heq⟩
  rw [heq]
  refine ⟨?_, h.encodable, fun len' hf => h.covered len' ?_⟩
  · rw [builtOps_eq, applyAll_segments]
    exact h.wal
  · rw [hflush]
    exact hf

/-! ## Publications -/

def publishOps (m : Manifest) : List FileOp :=
  [.manifest m, .current m.generation]

theorem take_publication (front rest : List FileOp) (m : Manifest) (k : Nat) :
    (∃ j, (front ++ publishOps m ++ rest).take k = front.take j) ∨
      (front ++ publishOps m ++ rest).take k = front ++ [FileOp.manifest m] ∨
      ∃ j, (front ++ publishOps m ++ rest).take k = front ++ publishOps m ++ rest.take j := by
  rcases Nat.lt_trichotomy k (front.length + 1) with hk | rfl | hk
  · refine .inl ⟨k, ?_⟩
    rw [append_assoc, take_append_of_le_length (by omega)]
  · refine .inr (.inl ?_)
    rw [append_assoc, take_length_add_append]
    rfl
  · refine .inr (.inr ⟨k - (front.length + 2), ?_⟩)
    rw [List.take_append, take_of_length_le (by simp [publishOps]; omega)]
    simp [publishOps]

theorem SameData.apply (h : SameData a b) (op : FileOp) : SameData (a.apply op) (b.apply op) := by
  rcases h with ⟨hcurrent, hmanifests, hfiles, hwal, hrlog⟩
  cases op <;> constructor <;> simp only [Disk.apply, hcurrent, hmanifests, hfiles, hwal, hrlog]

theorem SameData.applyAll (h : SameData a b) (ops : List FileOp) :
    SameData (a.applyAll ops) (b.applyAll ops) := by
  induction ops generalizing a b with
  | nil => exact h
  | cons op ops ih => exact ih (h.apply op)

theorem archiveOps_ok {covered : Bytes} (h : archiveOps H cfg covered = .ok archive) :
    (archive = [] ∧ (cfg.retainLog = false ∨ covered = [])) ∨
      ∃ frame n, cfg.retainLog = true ∧ decodeFrame H covered = .ok (frame, n) ∧
        archive = [.archive frame.seq.val covered] := by
  rw [archiveOps] at h
  by_cases hkeep : cfg.retainLog && decide (0 < covered.length)
  · rw [if_pos hkeep] at h
    simp only [bind_eq_ok, pure_eq_ok] at h
    rcases h with ⟨⟨frame, n⟩, hframe, rfl⟩
    rw [Bool.and_eq_true] at hkeep
    exact .inr ⟨frame, n, hkeep.1, hframe, rfl⟩
  · rw [if_neg hkeep, pure_eq_ok] at h
    refine .inl ⟨h.symm, ?_⟩
    rw [Bool.and_eq_true, decide_eq_true_eq, not_and_or, Bool.not_eq_true] at hkeep
    exact hkeep.imp id fun hlen => length_eq_zero_iff.mp (by omega)

theorem forall_archiveOps {covered : Bytes} (h : archiveOps H cfg covered = .ok archive)
    (hfile : ∀ n bytes, P (.archive n bytes)) :
    ∀ op ∈ archive, P op := by
  rcases archiveOps_ok h with ⟨rfl, _⟩ | ⟨frame, n, _, _, rfl⟩
  · exact forall_mem_nil P
  · exact forall_mem_singleton.mpr (hfile _ _)

theorem forall_truncateOps (tail : Bytes) (hset : P (.walSetLen 0))
    (happend : P (.walAppend tail)) (hsync : P .walSync) : ∀ op ∈ truncateOps tail, P op := by
  unfold truncateOps
  split <;> simp [hset, happend, hsync]

theorem flushOps_data (disk : Disk) (st : State) (build : FlushBuild) (dirs : Directories)
    (tail : Bytes) {covered : Bytes} (harchive : archiveOps H cfg covered = .ok archive)
    (ckpOps : List FileOp) (hckp : ∀ op ∈ ckpOps, op.keepsData = true) :
    let disk' := disk.applyAll (flushOps H st build dirs archive tail ++ ckpOps)
    disk'.current = some (st.generation + 1) ∧ disk'.manifests
        = disk.manifests.insert (st.generation + 1) (manifestOf (committed H st build dirs)) ∧
      disk'.segmentFiles = disk.segmentFiles ∧ disk'.wal = tail ∧
      disk'.rlog = (disk.applyAll archive).rlog := by
  have hsame : SameData (disk.applyAll (publishOps (manifestOf (committed H st build dirs)) ++
        (archive ++ truncateOps tail)))
      (disk.applyAll (flushOps H st build dirs archive tail ++ ckpOps)) := by
    rw [flushOps, commitOps, Disk.applyAll_append _ _ ckpOps, append_assoc,
      Disk.applyAll_append _ (logOps _ _)]
    refine SameData.trans ?_ (sameData_applyAll _ _ hckp)
    exact (sameData_applyAll disk _ (keepsData_logOps _ _)).applyAll _
  have hdata : ∀ d : Disk, (d.applyAll (truncateOps tail)) = { d with wal := tail } := by
    intro d
    cases tail with
    | nil => rfl
    | cons b tail => rfl
  rcases archiveOps_ok harchive with ⟨rfl, _⟩ | ⟨frame, n, _, _, rfl⟩
  · rw [nil_append, Disk.applyAll_append, hdata] at hsame
    exact ⟨hsame.current, hsame.manifests, hsame.segmentFiles, hsame.wal, hsame.rlog⟩
  · rw [Disk.applyAll_append, Disk.applyAll_append, hdata] at hsame
    exact ⟨hsame.current, hsame.manifests, hsame.segmentFiles, hsame.wal, hsame.rlog⟩

theorem Stored.flushC (h : Stored sys) {build : FlushBuild} {len : Nat} {dirs : Directories}
    (hflush : sys.flush = some (.built build len)) (hst : sys'.st = attached H sys.st build dirs)
    (hcurrent : sys'.disk.current = some (sys.st.generation + 1))
    (hmanifests : sys'.disk.manifests = sys.disk.manifests.insert (sys.st.generation + 1)
      (manifestOf (committed H sys.st build dirs)))
    (hfiles : sys'.disk.segmentFiles = sys.disk.segmentFiles) (hnone : sys'.flush = none) :
    Stored sys' := by
  have hkeep : ∀ r s, StoredAs sys.disk r s → StoredAs sys'.disk r s := fun r s hr =>
    ⟨by rw [hfiles]; exact hr.file, hr.record, hr.level⟩
  have hnodup := h.nodup
  have hfresh := h.fresh
  rw [hflush, flushIds, ← map_append] at hnodup hfresh
  refine ⟨by rw [hst]; exact hcurrent, ?_, ?_, fun build' len' hf => ?_, ?_, ?_⟩
  · rw [hst, hmanifests]
    exact Std.ExtTreeMap.getElem?_insert_self
  · rw [hst]
    exact rel_append (h.files.imp hkeep) ((h.flushFiles build len hflush).imp hkeep)
  · rw [hnone] at hf
    cases hf
  · rw [hnone, flushIds, append_nil, hst]
    exact hnodup
  · rw [hnone, flushIds, append_nil, hst]
    exact hfresh

theorem WalHolds.flushC (h : WalHolds H sys l) (hflush : sys.flush = some (.built build len))
    (hwal : sys'.disk.wal = sys.disk.wal.drop len) (hnone : sys'.flush = none) :
    WalHolds H sys' l.publish := by
  have hlen := h.covered len (by rw [hflush]; rfl)
  have hun : l.publish.unflushed = l.retired.flatten ++ l.active := by
    simp [Layers.publish, Layers.unflushed]
  refine ⟨?_, fun b hb => ?_, fun len' hf => ?_⟩
  · rw [hwal, h.wal, hun, Layers.unflushed, loggedOf_append, encodeAll_append, hlen]
    exact drop_left' rfl
  · rw [hun] at hb
    exact h.encodable b (mem_append_right _ hb)
  · rw [hnone] at hf
    cases hf

end

end Aikoql.Storage
