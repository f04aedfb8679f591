import Aikoql.Storage.CleanRuns

/-!
# Crashes While a Flush Is Published

What is on disk if the process dies between two file operations of a flush's
publication.

The publication commits its segments first and then drops the log they cover.
Writers may have appended behind the covered part, and the engine keeps those
frames by truncating the log to nothing and appending them again. Between the
two, they are in memory only. A crash there loses every batch acknowledged since
the flush started (`truncation_loses_tail`). At every other point the segments
and the log hold every acknowledged batch between them
(`flush_crash_contains_iff`).

## Main definitions

* `Contains`: A disk holds a batch.
* `AckedSince`: A batch was acknowledged behind a length of the log.
* `CutAtTruncation`: The truncation is the last operation carried out.

## Main theorems

* `flush_crash_contains_iff`: When a crash loses nothing.
* `truncation_loses_tail`: A crash right behind the truncation.
-/

namespace Aikoql.Storage

open List Runs

variable {build : FlushBuild} {segs : List Segment} {disk : Disk} {f : WalFrame} {len : Nat}

/-- Writes, rotations and flushes, with no file operation failing. -/
def SyncFlush : Event → Prop
  | .write _ io => io = .done
  | .rotate => True
  | .flushA => True
  | .flushB fault => fault = none
  | .flushC fault _ => fault = none
  | _ => False

/-- The segments of the manifest the pointer names. -/
def manifestSegments (disk : Disk) : List Segment :=
  match disk.current.bind fun g => disk.manifests[g]? with
  | none => []
  | some m => m.segments.filterMap fun r => disk.segmentFiles[r.segmentId]?

/-- A disk holds a batch: replay yields its operations, or the segments hold the
    rows it leaves. -/
def Contains (H : Sha256) (disk : Disk) (f : WalFrame) : Prop :=
  (∃ ends ops, replayedOps H disk.wal = .ok (ends, ops) ∧ f.numbered <:+: ops) ∨
    ∀ k v, f.version k = some v → ∃ s ∈ manifestSegments disk, segmentEntry (k, v) ∈ s.entries

/-- The log behind a length holds a batch that makes a row and was
    acknowledged. -/
def AckedSince (H : Sha256) (sys : Sys) (len : Nat) : Prop :=
  ∃ frames n, replayFrames H (sys.disk.wal.drop len) = .ok (frames, n) ∧
    ∃ f ∈ frames, f ∈ sys.acked ∧ LeavesRow f

def Sys.crashedDisk (H : Sha256) (cfg : Config) (sys : Sys) (build : FlushBuild) (len : Nat)
    (ckp : Option (List DirectoryFile)) (done : Nat) : Disk :=
  sys.disk.applyAll ((sys.flushPublication H cfg build len ckp).ops.take done)

/-- The last operation carried out is the truncation of the log. -/
def CutAtTruncation (H : Sha256) (cfg : Config) (sys : Sys) (build : FlushBuild) (len : Nat)
    (ckp : Option (List DirectoryFile)) (done : Nat) : Prop :=
  ((sys.flushPublication H cfg build len ckp).ops.take done).getLast? = some (.walSetLen 0)

/-! ## What the segments of a manifest hold -/

theorem filterMap_storedAs {records : List SegmentRecord}
    (h : Forall₂ (StoredAs disk) records segs) :
    (records.filterMap fun r => disk.segmentFiles[r.segmentId]?) = segs := by
  induction h with
  | nil => rfl
  | cons hr _ ih => rw [filterMap_cons, hr.file, ih]

theorem manifestSegments_eq {g : Nat} {m : Manifest} (hcurrent : disk.current = some g)
    (hmanifest : disk.manifests[g]? = some m)
    (hfiles : Forall₂ (StoredAs disk) m.segments segs) : manifestSegments disk = segs := by
  rw [manifestSegments, hcurrent, Option.bind_some, hmanifest]
  exact filterMap_storedAs hfiles

section

variable {H : Sha256} {cfg : Config} {sys : Sys} {l : Layers}

/-- The segments hold every row the flushed batches leave. -/
def Full (segs : List Segment) (flushed : List Batch) : Prop :=
  ∀ b ∈ flushed, ∀ e, LeftBy b e → ∃ s ∈ segs, e ∈ s.entries

theorem Full.flush {flushed : List Batch} (h : Full segs flushed) {groups : List (List Batch)}
    {published : List (Segment × Std.ExtTreeMap ReplicaId SegmentAnchor)}
    (hpub : GroupSegments H cfg groups published)
    (hinc : groups.flatten.Pairwise fun a b => a.frame.seq < b.frame.seq) :
    Full (segs ++ published.map Prod.fst) (flushed ++ groups.flatten) := by
  induction hpub generalizing segs flushed with
  | nil => simpa using h
  | @cons group sa groups published hgroup _ ih =>
    rw [flatten_cons, pairwise_append] at hinc
    have hnext : Full (segs ++ [sa.1]) (flushed ++ group) := by
      intro b hb e he
      rcases mem_append.mp hb with hb | hb
      · rcases h b hb e he with ⟨s, hs, hmem⟩
        exact ⟨s, mem_append_left _ hs, hmem⟩
      · exact ⟨sa.1, by simp, (mem_segment_group hinc.1 hgroup e).mpr ⟨b, hb, he⟩⟩
    have := ih hnext hinc.2.1
    rwa [append_assoc, append_assoc] at this

/-! ## Where the publication is cut -/

theorem take_append_cons {α : Type} (front behind : List α) (x : α) (k : Nat) :
    (front ++ x :: behind).take k = front.take k ∨ (front ++ x :: behind).take k = front ++ [x] ∨
      ∃ j, (front ++ x :: behind).take k = front ++ x :: behind.take (j + 1) := by
  rcases Nat.lt_trichotomy k (front.length + 1) with hk | rfl | hk
  · exact .inl (take_append_of_le_length (by omega))
  · refine .inr (.inl ?_)
    rw [take_length_add_append]
    rfl
  · refine .inr (.inr ⟨k - (front.length + 2), ?_⟩)
    rw [List.take_append, take_of_length_le (by omega)]
    obtain ⟨i, hi⟩ : ∃ i, k - front.length = i + 2 := ⟨k - front.length - 2, by omega⟩
    have hi' : k - (front.length + 2) = i := by omega
    rw [hi, hi', take_succ_cons]

/-- The operations of a publication up to the truncation. -/
def frontOps (H : Sha256) (st : State) (build : FlushBuild) (dirs : Directories)
    (archive : List FileOp) : List FileOp :=
  logOps (st.generation + 1) dirs ++ publishOps (manifestOf (committed H st build dirs)) ++ archive

/-- The operations behind the truncation. -/
def behindOps (tail : Bytes) (ckpOps : List FileOp) : List FileOp :=
  (if tail.isEmpty then [] else [.walAppend tail]) ++ (.walSync :: ckpOps)

theorem flushOps_split (st : State) (build : FlushBuild) (dirs : Directories)
    (archive ckpOps : List FileOp) (tail : Bytes) :
    flushOps H st build dirs archive tail ++ ckpOps
      = frontOps H st build dirs archive ++ .walSetLen 0 :: behindOps tail ckpOps := by
  simp [flushOps, frontOps, behindOps, commitOps, truncateOps, publishOps, manifestOf, committed]

/-- The operations that touch the log. -/
def FileOp.touchesWal : FileOp → Bool
  | .walSetLen _ => true
  | .walAppend _ => true
  | _ => false

theorem applyAll_wal (disk : Disk) (ops : List FileOp) (h : ∀ op ∈ ops, op.touchesWal = false) :
    (disk.applyAll ops).wal = disk.wal := by
  refine List.foldlRecOn (motive := fun d => d.wal = disk.wal) ops Disk.apply rfl
    fun d hd op hop => Eq.trans ?_ hd
  have hkeep := h op hop
  cases op <;> first | rfl | cases hkeep

/-- The operations that touch the published segments. -/
def FileOp.touchesSegments : FileOp → Bool
  | .segment _ _ => true
  | .manifest _ => true
  | .current _ => true
  | .removeSegments _ _ => true
  | _ => false

theorem manifestSegments_applyAll (disk : Disk) (ops : List FileOp)
    (h : ∀ op ∈ ops, op.touchesSegments = false) :
    manifestSegments (disk.applyAll ops) = manifestSegments disk := by
  refine List.foldlRecOn (motive := fun d => manifestSegments d = manifestSegments disk) ops
    Disk.apply rfl fun d hd op hop => Eq.trans ?_ hd
  have hkeep := h op hop
  cases op <;> first | rfl | cases hkeep

theorem touches_of_keepsData {op : FileOp} (h : op.keepsData = true) :
    op.touchesWal = false ∧ op.touchesSegments = false := by
  cases op <;> first | exact ⟨rfl, rfl⟩ | cases h

theorem touchesWal_front (st : State) (build : FlushBuild) (dirs : Directories) {covered : Bytes}
    {archive : List FileOp} (h : archiveOps H cfg covered = .ok archive) :
    ∀ op ∈ frontOps H st build dirs archive, op.touchesWal = false := by
  simp only [frontOps, forall_mem_append]
  exact ⟨⟨fun op hop => (touches_of_keepsData (keepsData_logOps _ _ op hop)).1,
    by simp [publishOps, FileOp.touchesWal]⟩, forall_archiveOps h fun _ _ => rfl⟩

theorem behindOps_eq (tail : Bytes) {ckpOps : List FileOp}
    (hckp : ∀ op ∈ ckpOps, op.keepsData = true) :
    (∀ op ∈ behindOps tail ckpOps, op ≠ .walSetLen 0 ∧ op.touchesSegments = false) ∧
      behindOps tail ckpOps ≠ [] ∧
      ∀ (disk : Disk) (j : Nat), disk.wal = [] →
        (disk.applyAll ((behindOps tail ckpOps).take (j + 1))).wal = tail := by
  have hquiet : ∀ op ∈ FileOp.walSync :: ckpOps, op.keepsData = true :=
    forall_mem_cons.mpr ⟨rfl, hckp⟩
  have hrest : ∀ op ∈ FileOp.walSync :: ckpOps, op ≠ .walSetLen 0 ∧ op.touchesSegments = false := by
    intro op hop
    refine ⟨fun h => ?_, (touches_of_keepsData (hquiet op hop)).2⟩
    have := hquiet op hop
    rw [h] at this
    cases this
  have hwal : ∀ (disk : Disk) (j : Nat),
      (disk.applyAll ((FileOp.walSync :: ckpOps).take j)).wal = disk.wal := fun disk j =>
    applyAll_wal disk _ fun op hop =>
      (touches_of_keepsData (hquiet op (mem_of_mem_take hop))).1
  unfold behindOps
  cases tail with
  | nil => exact ⟨hrest, by simp, fun disk j hdisk => (hwal disk (j + 1)).trans hdisk⟩
  | cons b tail =>
    refine ⟨forall_mem_cons.mpr ⟨by simp [FileOp.touchesSegments], hrest⟩, by simp,
      fun disk j hdisk => ?_⟩
    refine (hwal (disk.apply (.walAppend (b :: tail))) j).trans ?_
    simp [Disk.apply, hdisk]

theorem Intact.manifestSegments (h : Intact H cfg sys l) :
    Storage.manifestSegments sys.disk = sys.st.segments :=
  manifestSegments_eq h.stored.current h.stored.manifest h.stored.files

theorem Intact.crash_segments (h : Intact H cfg sys l)
    (hflush : sys.flush = some (.built build len)) (dirs : Directories) (rest : List FileOp)
    (hrest : ∀ op ∈ rest, op.touchesSegments = false) (k : Nat) :
    let ops := (logOps (sys.st.generation + 1) dirs ++
      publishOps (manifestOf (committed H sys.st build dirs)) ++ rest).take k
    (Storage.manifestSegments (sys.disk.applyAll ops) = sys.st.segments ∧
        FileOp.walSetLen 0 ∉ ops) ∨
      Storage.manifestSegments (sys.disk.applyAll ops) = sys.st.segments ++ build.newSegments := by
  set logs := logOps (sys.st.generation + 1) dirs with hlogs
  set m := manifestOf (committed H sys.st build dirs) with hm
  have hquiet : ∀ op ∈ logs, op.touchesSegments = false ∧ op ≠ .walSetLen 0 := by
    intro op hop
    have hkeep := keepsData_logOps _ _ op hop
    refine ⟨(touches_of_keepsData hkeep).2, fun heq => ?_⟩
    rw [heq] at hkeep
    cases hkeep
  rcases take_publication logs rest m k with ⟨j, htake⟩ | htake | ⟨j, htake⟩
  · refine .inl ⟨?_, fun hmem => ?_⟩
    · rw [htake, manifestSegments_applyAll _ _ fun op hop =>
        (hquiet op (mem_of_mem_take hop)).1, h.manifestSegments]
    · rw [htake] at hmem
      exact (hquiet _ (mem_of_mem_take hmem)).2 rfl
  · refine .inl ⟨?_, fun hmem => ?_⟩
    · -- The manifest is there and the pointer does not name it yet.
      have hsame := (sameData_applyAll sys.disk logs (keepsData_logOps _ _)).apply (.manifest m)
      have hne : ¬compare (sys.st.generation + 1) sys.st.generation = .eq := by
        rw [Std.compare_eq_iff_eq]
        omega
      have hold : (sys.disk.manifests.insert (sys.st.generation + 1) m)[sys.st.generation]?
          = some (manifestOf sys.st) := by
        rw [Std.ExtTreeMap.getElem?_insert, if_neg hne]
        exact h.stored.manifest
      have hfiles : Forall₂ (StoredAs ((sys.disk.applyAll logs).apply (.manifest m)))
          (manifestOf sys.st).segments sys.st.segments :=
        storedAs_keep h.stored.files fun r _ => by rw [hsame.segmentFiles]; rfl
      rw [htake, Disk.applyAll_append]
      refine manifestSegments_eq (hsame.current.trans h.stored.current) ?_ hfiles
      exact (congrArg (·[sys.st.generation]?) hsame.manifests).trans hold
    · rw [htake, mem_append, mem_singleton] at hmem
      rcases hmem with hmem | hmem
      · exact (hquiet _ hmem).2 rfl
      · cases hmem
  · refine .inr ?_
    have hsame := (sameData_applyAll sys.disk logs (keepsData_logOps _ _)).applyAll (publishOps m)
    rw [htake, Disk.applyAll_append, manifestSegments_applyAll _ _ fun op hop =>
      hrest op (mem_of_mem_take hop), Disk.applyAll_append]
    refine manifestSegments_eq hsame.current (m := m) ?_ (rel_append ?_ ?_)
    · rw [hsame.manifests]
      exact Std.ExtTreeMap.getElem?_insert_self
    · exact storedAs_keep h.stored.files fun r _ => by rw [hsame.segmentFiles]; rfl
    · exact storedAs_keep (h.stored.flushFiles build len hflush) fun r _ => by
        rw [hsame.segmentFiles]; rfl

theorem crash_wal (disk : Disk) {front behind : List FileOp} {tail : Bytes}
    (hfront : ∀ op ∈ front, op.touchesWal = false)
    (hbehind : ∀ op ∈ behind, op ≠ .walSetLen 0) (hne : behind ≠ [])
    (hrestore : ∀ (d : Disk) (j : Nat), d.wal = [] →
      (d.applyAll (behind.take (j + 1))).wal = tail) (k : Nat) :
    let ops := (front ++ .walSetLen 0 :: behind).take k
    (FileOp.walSetLen 0 ∉ ops ∧ (disk.applyAll ops).wal = disk.wal) ∨
      (FileOp.walSetLen 0 ∈ ops ∧ ops.getLast? = some (.walSetLen 0) ∧
        (disk.applyAll ops).wal = []) ∨
      (FileOp.walSetLen 0 ∈ ops ∧ ops.getLast? ≠ some (.walSetLen 0) ∧
        (disk.applyAll ops).wal = tail) := by
  have hcut : ∀ d : Disk, (d.apply (.walSetLen 0)).wal = [] := fun d => rfl
  rcases take_append_cons front behind (.walSetLen 0) k with htake | htake | ⟨j, htake⟩
  · have hquiet : ∀ op ∈ front.take k, op.touchesWal = false := fun op hop =>
      hfront op (mem_of_mem_take hop)
    refine .inl ⟨fun hmem => ?_, by rw [htake]; exact applyAll_wal disk _ hquiet⟩
    rw [htake] at hmem
    cases hquiet _ hmem
  · refine .inr (.inl ⟨by simp [htake], by simp [htake], ?_⟩)
    rw [htake, Disk.applyAll_append]
    exact hcut _
  · refine .inr (.inr ⟨by simp [htake], fun hlast => ?_, ?_⟩)
    · -- The last operation stands behind the truncation.
      have hne' : behind.take (j + 1) ≠ [] := by simpa using hne
      rw [htake, getLast?_append_of_ne_nil _ (by simp), getLast?_cons_of_ne_nil hne'] at hlast
      exact hbehind _ (mem_of_mem_take (mem_of_getLast? hlast)) rfl
    · rw [htake, Disk.applyAll_append, Disk.applyAll_cons]
      exact hrestore _ j (hcut _)

theorem contains_of_logged {frames : List WalFrame} (hlog : LogOk frames)
    (hwal : disk.wal = encodeAll H frames) (hf : f ∈ frames) : Contains H disk f := by
  have hreplay := replayedOps_encodeAll H frames [] hlog (Torn.of_length_le H _ _ (by simp))
  rw [append_nil, ← hwal] at hreplay
  exact .inl ⟨_, _, hreplay, numbered_infix hf⟩

theorem contains_of_left {b : Batch} (hb : b.applied = f)
    (h : ∀ e, LeftBy b e → ∃ s ∈ Storage.manifestSegments disk, e ∈ s.entries) :
    Contains H disk f := by
  subst hb
  exact .inr fun k v hv => h _ ⟨k, v, hv, rfl⟩

theorem not_contains (hwal : disk.wal = []) (hrow : LeavesRow f)
    (hold : ∀ s ∈ Storage.manifestSegments disk, ∀ e ∈ s.entries, e.seq < f.seq.val) :
    ¬Contains H disk f := by
  rintro (⟨ends, ops, hreplay, hinfix⟩ | hsegs)
  · have hempty := replayedOps_encodeAll H [] [] ⟨by simp, List.Pairwise.nil⟩
      (Torn.of_length_le H _ _ (by simp))
    rw [encodeAll_nil, append_nil, ← hwal, hreplay] at hempty
    cases hempty
    rcases hrow with ⟨op, hop, _⟩
    have hnil : f.numbered = [] := infix_nil.mp hinfix
    rw [WalFrame.numbered, map_eq_nil_iff] at hnil
    rw [hnil] at hop
    cases hop
  · rcases exists_version hrow with ⟨k, v, hv⟩
    rcases hsegs k v hv with ⟨s, hs, he⟩
    have hlt := hold s hs _ he
    rcases Option.map_eq_some_iff.mp hv with ⟨e, _, rfl⟩
    exact absurd hlt (lt_irrefl f.seq.val)

/-! ## The crash -/

section

variable (h : Intact H cfg sys l)
include h

theorem Intact.replayFrames_tail (hflush : sys.flush = some (.built build len)) :
    LogOk (loggedOf (l.retired.flatten ++ l.active)) ∧ replayFrames H (sys.disk.wal.drop len)
        = .ok (loggedOf (l.retired.flatten ++ l.active), (sys.disk.wal.drop len).length) := by
  have hlog := h.wal.logOk h.layout
  rw [Layers.unflushed, loggedOf_append] at hlog
  have htail : LogOk (loggedOf (l.retired.flatten ++ l.active)) :=
    ⟨fun f hf => hlog.encodable f (mem_append_right _ hf), (pairwise_append.mp hlog.increasing).2.1⟩
  rw [(h.split_wal hflush).2]
  exact ⟨htail, replayFrames_log H _ htail⟩

theorem Intact.crash (hflush : sys.flush = some (.built build len))
    (ckp : Option (List DirectoryFile)) (done : Nat) :
    let disk := sys.crashedDisk H cfg build len ckp done
    (¬CutAtTruncation H cfg sys build len ckp done ∧ disk.wal = sys.disk.wal ∧
        sys.st.segments ⊆ Storage.manifestSegments disk) ∨
      (CutAtTruncation H cfg sys build len ckp done ∧ disk.wal = [] ∧
        Storage.manifestSegments disk = sys.st.segments ++ build.newSegments) ∨
      (¬CutAtTruncation H cfg sys build len ckp done ∧ disk.wal = sys.disk.wal.drop len ∧
        Storage.manifestSegments disk = sys.st.segments ++ build.newSegments) := by
  rcases h.publication hflush with ⟨dirs, archive, hplace, _, harchive⟩
  rcases flushPhaseC_ok H cfg sys.st build len sys.disk.wal ckp hplace harchive with ⟨hops, _⟩
  rw [flushOps_split] at hops
  rcases behindOps_eq (sys.disk.wal.drop len)
    (keepsData_checkpointOps (attached H sys.st build dirs) ckp) with ⟨hbehind, hne, hrestore⟩
  have hrest : ∀ op ∈ archive ++ .walSetLen 0 ::
      behindOps (sys.disk.wal.drop len) (checkpointOps (attached H sys.st build dirs) ckp),
      op.touchesSegments = false := by
    rw [forall_mem_append, forall_mem_cons]
    exact ⟨forall_archiveOps harchive fun _ _ => rfl, rfl, fun op hop => (hbehind op hop).2⟩
  have hsegments := h.crash_segments hflush dirs _ hrest done
  have hwal := crash_wal sys.disk (touchesWal_front sys.st build dirs harchive)
    (fun op hop => (hbehind op hop).1) hne hrestore done
  rw [← append_assoc, ← frontOps, ← hops] at hsegments
  rw [← hops] at hwal
  rcases hwal with ⟨hnot, hwal⟩ | ⟨hmem, hcut, hwal⟩ | ⟨hmem, hcut, hwal⟩
  · refine .inl ⟨fun hcut => hnot (mem_of_getLast? hcut), hwal, ?_⟩
    rcases hsegments with ⟨hsegments, _⟩ | hsegments
    · exact hsegments ▸ List.Subset.refl _
    · exact hsegments ▸ subset_append_left _ _
  · exact .inr (.inl ⟨hcut, hwal, hsegments.resolve_left fun h => h.2 hmem⟩)
  · exact .inr (.inr ⟨hcut, hwal, hsegments.resolve_left fun h => h.2 hmem⟩)

theorem Intact.published_rows (hfull : Full sys.st.segments l.flushed)
    (hflush : sys.flush = some (.built build len)) :
    RowsOlder (sys.st.segments ++ build.newSegments) (l.retired.flatten ++ l.active) ∧
      Full (sys.st.segments ++ build.newSegments) (l.flushed ++ l.detached.flatten) := by
  have hdetached := h.layout.detached
  rw [hflush] at hdetached
  rcases hdetached with ⟨ids, published, hids, hbuilt⟩
  have hgroups := hbuilt.groupSegments hids
  have hinc := h.layout.increasing
  have hbelow := h.layout.below
  have holder := h.older
  rw [Layers.unflushed] at hinc hbelow holder
  rw [hbuilt.newSegments]
  exact ⟨(h.rows.flush holder h.rowsBelow hgroups hinc
      fun b hb => hbelow b (mem_append_left _ hb)).2.1,
    hfull.flush hgroups (pairwise_append.mp hinc).1⟩

theorem Intact.crash_contains_iff (hfull : Full sys.st.segments l.flushed)
    (hflush : sys.flush = some (.built build len)) (ckp : Option (List DirectoryFile))
    (done : Nat) :
    (∀ f ∈ sys.acked, Contains H (sys.crashedDisk H cfg build len ckp done) f) ↔
      ¬(CutAtTruncation H cfg sys build len ckp done ∧ AckedSince H sys len) := by
  rcases h.replayFrames_tail hflush with ⟨htail, hframes⟩
  rcases h.published_rows hfull hflush with ⟨holder, hall⟩
  have hcrash := h.crash hflush ckp done
  constructor
  · rintro hcontains ⟨hcut, frames, n, hreplay, f, hf, hacked, hrow⟩
    rcases hcrash with ⟨hnot, _⟩ | ⟨_, hnil, hsegs⟩ | ⟨hnot, _⟩
    · exact hnot hcut
    · rw [hframes] at hreplay
      cases hreplay
      rcases mem_map.mp hf with ⟨b', hb', rfl⟩
      exact not_contains hnil hrow (hsegs ▸ fun s hs e he => holder s hs e he b' hb')
        (hcontains _ hacked)
    · exact hnot hcut
  · intro hnot f hf
    rcases h.mem_acked hf with ⟨b, hb, rfl, happlied, _⟩
    rcases hcrash with ⟨_, hwal, hsegs⟩ | ⟨hcut, _, hsegs⟩ | ⟨_, hwal, hsegs⟩
    · -- The log is whole.
      rcases mem_append.mp hb with hb | hb
      · refine contains_of_left happlied fun e he => ?_
        rcases hfull b hb e he with ⟨s, hs, hmem⟩
        exact ⟨s, hsegs hs, hmem⟩
      · exact contains_of_logged (h.wal.logOk h.layout) (hwal.trans h.wal.wal) (mem_map_of_mem hb)
    · -- The log is gone, and what it held on its own has no rows.
      rw [Layers.history, Layers.unflushed, ← append_assoc, mem_append] at hb
      rcases hb with hb | hb
      · exact contains_of_left happlied (hsegs ▸ hall b hb)
      · refine .inr fun k v hv => ?_
        rcases exists_op_of_version hv with ⟨op, hop, hentry⟩
        have hsince : AckedSince H sys len :=
          ⟨_, _, hframes, b.frame, mem_map_of_mem hb, hf, op, hop, by simp [hentry]⟩
        exact absurd ⟨hcut, hsince⟩ hnot
    · -- The part behind the flush is back.
      rw [Layers.history, Layers.unflushed, ← append_assoc, mem_append] at hb
      rcases hb with hb | hb
      · exact contains_of_left happlied (hsegs ▸ hall b hb)
      · exact contains_of_logged htail (hwal.trans (h.split_wal hflush).2) (mem_map_of_mem hb)

end

/-! ## Runs -/

theorem SyncFlush.clean {e : Event} (h : SyncFlush e) : Clean H cfg sys e := by
  cases e with
  | write ops io =>
    obtain rfl : io = .done := h
    exact fun n hn => by cases hn
  | flushB fault => exact h
  | flushC fault ckp =>
    obtain rfl : fault = none := h
    exact fun k build len hk => by cases hk
  | rotate => trivial
  | flushA => trivial
  | _ => exact h.elim

theorem SyncFlush.step (hcfg : cfg.blockTarget ≠ 0) {sys' : Sys} {e : Event}
    (h : ∃ l, Intact H cfg sys l ∧ Full sys.st.segments l.flushed) (hc : SyncFlush e)
    (hstep : Storage.step H cfg sys e = some sys') :
    ∃ l, Intact H cfg sys' l ∧ Full sys'.st.segments l.flushed := by
  rcases h with ⟨l, h, hfull⟩
  rcases h.step hcfg hc.clean hstep with ⟨l', hnext, hchange⟩
  refine ⟨l', hnext, ?_⟩
  cases hchange with
  | quiet hfl _ hsegs =>
    rw [hfl, hsegs]
    exact hfull
  | appended drawn hsegs =>
    rw [hsegs]
    exact hfull
  | published _ hgroups hsegs =>
    rw [hsegs]
    exact hfull.flush hgroups (pairwise_append.mp h.layout.increasing).1
  | compacted => exact hc.elim
  | reopened hevent => rcases hevent with rfl | rfl <;> exact hc.elim

end

/-- When a crash loses nothing: in every run of writes, rotations and flushes
    whose file operations succeed, a crash after any number of the operations of
    the flush in progress leaves every acknowledged batch in the segments or in
    the log, exactly if it does not fall right behind the truncation of the log
    while a batch with rows was acknowledged since the flush started. -/
theorem flush_crash_contains_iff (H : Sha256) (cfg : Config) (hcfg : cfg.blockTarget ≠ 0)
    (sys : Sys) (hreach : Reaches (step H cfg) (fun _ e => SyncFlush e) Sys.initial sys)
    (build : FlushBuild) (len : Nat) (hflush : sys.flush = some (.built build len))
    (ckp : Option (List DirectoryFile)) (done : Nat) :
    (∀ f ∈ sys.acked, Contains H (sys.crashedDisk H cfg build len ckp done) f) ↔
      ¬(CutAtTruncation H cfg sys build len ckp done ∧ AckedSince H sys len) := by
  have h := hreach.invariant
    (P := fun sys => ∃ l, Intact H cfg sys l ∧ Full sys.st.segments l.flushed)
    ⟨_, intact_initial H cfg, forall_mem_nil _⟩
    fun _ _ _ hP hc hstep => SyncFlush.step hcfg hP hc hstep
  rcases h with ⟨l, h, hfull⟩
  exact h.crash_contains_iff hfull hflush ckp done

def flushRun : List Event :=
  [.write [.put [1] [2]] .done, .flushA, .write [.put [3] [4]] .done, .flushB none]

/-- The flush in progress, if its segments are written. -/
def Sys.built? (sys : Sys) : Option (FlushBuild × Nat) :=
  match sys.flush with
  | some (.built build len) => some (build, len)
  | _ => none

theorem Sys.flush_of_built? {sys : Sys} {b : FlushBuild × Nat} (h : sys.built? = some b) :
    sys.flush = some (.built b.1 b.2) := by
  unfold Sys.built? at h
  split at h <;> cases h
  assumption

/-- A crash before the truncation loses nothing: two operations of the
    publication are done. -/
theorem flush_crash_before_truncation :
    ∃ sys build len, run (step Sha256.fips180 Config.new) Sys.initial flushRun = some sys ∧
      sys.flush = some (.built build len) ∧
      ∀ f ∈ sys.acked, Contains Sha256.fips180
        (sys.crashedDisk Sha256.fips180 Config.new build len none 2) f := by
  obtain ⟨sys, hsys, b, hb, hlast⟩ : ∃ sys,
      run (step Sha256.fips180 Config.new) Sys.initial flushRun = some sys ∧
      ∃ b, sys.built? = some b ∧
        ((sys.flushPublication Sha256.fips180 Config.new b.1 b.2 none).ops.take 2).getLast?.any
          FileOp.touchesWal = false := by
    decide +kernel
  have hreach := reaches_of_forall (C := fun _ => SyncFlush) flushRun
    (by simp [flushRun, SyncFlush]) hsys
  have hflush := Sys.flush_of_built? hb
  refine ⟨sys, b.1, b.2, hsys, hflush,
    (flush_crash_contains_iff _ _ (by decide) sys hreach _ _ hflush none 2).mpr ?_⟩
  rintro ⟨hcut, _⟩
  rw [CutAtTruncation] at hcut
  rw [hcut] at hlast
  cases hlast

/-- A crash right behind the truncation loses the batch acknowledged since the
    flush started: three operations of the publication are done. -/
theorem truncation_loses_tail :
    ∃ sys build len, run (step Sha256.fips180 Config.new) Sys.initial flushRun = some sys ∧
      sys.flush = some (.built build len) ∧ (⟨2, [.put [3] [4]]⟩ : WalFrame) ∈ sys.acked ∧
      ¬Contains Sha256.fips180 (sys.crashedDisk Sha256.fips180 Config.new build len none 3)
        ⟨2, [.put [3] [4]]⟩ := by
  obtain ⟨sys, hsys, hacked, b, hb, hwal, hkeys⟩ : ∃ sys,
      run (step Sha256.fips180 Config.new) Sys.initial flushRun = some sys ∧
        (⟨2, [.put [3] [4]]⟩ : WalFrame) ∈ sys.acked ∧ ∃ b, sys.built? = some b ∧
          let disk := sys.crashedDisk Sha256.fips180 Config.new b.1 b.2 none 3
          disk.wal = [] ∧ ∀ s ∈ manifestSegments disk, ∀ e ∈ s.entries, e.seq < 2 := by
    decide +kernel
  refine ⟨sys, b.1, b.2, hsys, Sys.flush_of_built? hb, hacked, ?_⟩
  exact not_contains hwal ⟨_, mem_singleton_self _, by simp [Op.entry]⟩ hkeys

end Aikoql.Storage
