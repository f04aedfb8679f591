import Aikoql.Storage.Catalogued

/-!
# Compactions Do Not Get Stuck

When a compaction succeeds, under any retention policy.

A merge archives every version of an archived key, and the writer refuses two rows
of one key and one number. A flush that stops between the publication of its
manifest and the truncation of the log leaves rows both in a segment and in the log.
The next open replays them, the next flush writes them again, and from then on every
compaction that archives their key fails, since nothing but a compaction removes a
row.

In clean runs no row is held twice. The rows of a flush are newer than those of
the segments there are, and a merge leaves of its inputs each row at most once. Then
the writer takes what the merge leaves and what it archives, every replica placed
in a segment has its relocation, and the gate accepts the relocations.

## Main definitions

* `CompactsAlways`: Every compaction succeeds and archives every version.
* `Mergeable`: Segments that can be merged under any policy.

## Main theorems

* `clean_compactsAlways`: Compactions in every clean run.
* `reflushed_stuck`: A row in two segments that cannot be archived.
-/

namespace Aikoql.Storage

open List Runs

variable {e : Event} {sys' : Sys}

/-- Every compaction that is in progress or could be started succeeds, and what it
    archives is every version of every archived key. -/
def CompactsAlways (H : Sha256) (cfg : Config) (sys : Sys) : Prop :=
  ∀ capture, (capture ∈ sys.compactions ∨ ∃ policy, compactPhaseA sys.st policy = some capture) →
    (∀ kept ckp, (compactPhaseC H cfg sys.st capture kept ckp).result = .ok ()) ∧
    ∃ out, merge H cfg.blockTarget cfg.mergeChunkBytes capture.policy capture.inputs = .ok out ∧
      ∀ e, e ∈ rowsOf out.archive ↔ e ∈ rowsOf capture.inputs ∧ capture.policy e.key = .archive

/-- Segments that can be merged under any policy. -/
structure Mergeable (H : Sha256) (segs : List Segment) : Prop where
  ok : ∀ s ∈ segs, s.Ok H
  keyLen : ∀ s ∈ segs, ∀ e ∈ s.entries, e.key.length ≤ maxKeyLen
  apart : NoRepeat segs

section

variable {H : Sha256} {cfg : Config} {segs : List Segment}

theorem Mergeable.merge (h : Mergeable H segs) (hcfg : cfg.blockTarget ≠ 0)
    (policy : RetentionPolicy) :
    ∃ out, merge H cfg.blockTarget cfg.mergeChunkBytes policy segs = .ok out ∧
      ∀ e, e ∈ rowsOf out.archive ↔ e ∈ rowsOf segs ∧ policy e.key = .archive := by
  rcases merge_isOk_of_noRepeat cfg.mergeChunkBytes policy hcfg h.ok h.keyLen h.apart with
    ⟨out, hout⟩
  refine ⟨out, hout, fun e => ?_⟩
  rw [merge_archived hout, mem_archivedEntries, rowsOf, mem_flatMap]

/-! ## The rows of a flush -/

theorem NoRepeat.snoc {group : List Batch} {s : Segment}
    {anchors : Std.ExtTreeMap ReplicaId SegmentAnchor} (h : NoRepeat segs)
    (holder : RowsOlder segs group)
    (hinc : group.Pairwise fun a b => a.frame.seq < b.frame.seq)
    (hpub : publishMemtable H cfg (memOfGroup group) = .ok (s, anchors)) :
    NoRepeat (segs ++ [s]) := by
  have hsegment := noRepeat_of_sorted (publishMemtable_ok hpub).1.sorted
  rw [NoRepeat, rowsOf, flatMap_append, flatMap_singleton, pairwise_append]
  refine ⟨h, hsegment, fun a ha e he heq => ?_⟩
  rcases mem_flatMap.mp ha with ⟨s', hs', has'⟩
  rcases (mem_segment_group hinc hpub e).mp he with ⟨b, hb, hleft⟩
  -- The row that was there is older than the batch that left the new one.
  have hlt := holder s' hs' a has' b hb
  rw [← hleft.seq] at hlt
  exact hlt.ne heq.2

theorem NoRepeat.flush {groups : List (List Batch)}
    {made : List (Segment × Std.ExtTreeMap ReplicaId SegmentAnchor)} (h : NoRepeat segs)
    (holder : RowsOlder segs groups.flatten) (hpub : GroupSegments H cfg groups made)
    (hinc : groups.flatten.Pairwise fun a b => a.frame.seq < b.frame.seq) :
    NoRepeat (segs ++ made.map Prod.fst) := by
  induction hpub generalizing segs with
  | nil => simpa using h
  | @cons group sa groups made hgroup _ ih =>
    rw [flatten_cons] at hinc holder
    have hfirst := (pairwise_append.mp hinc).1
    have hnext := h.snoc (s := sa.1)
      (fun s hs e he b hb => holder s hs e he b (mem_append_left _ hb)) hfirst hgroup
    have := ih hnext (holder.snoc hinc hgroup) (pairwise_append.mp hinc).2.1
    simpa using this

end

/-! ## Clean runs -/

section

variable {H : Sha256} {cfg : Config} {sys : Sys} {l : Layers}

theorem Intact.keyLen (h : Intact H cfg sys l) :
    ∀ s ∈ sys.st.segments, ∀ e ∈ s.entries, e.key.length ≤ maxKeyLen := by
  intro s hs e he
  rcases h.rows.left s hs e he with ⟨b, hb, k, v, hv, rfl⟩
  have hsound := h.layout.sound b (mem_append_left _ hb)
  rcases exists_op_of_version hv with ⟨op, hop, hentry⟩
  have hkey := (checkBatch_ok hsound.checked).2 op (hsound.effect.subset hop)
  rwa [key_of_entry hentry] at hkey

theorem Intact.mergeable (h : Intact H cfg sys l) (hrows : NoRepeat sys.st.segments) :
    Mergeable H sys.st.segments :=
  ⟨h.rows.ok, h.keyLen, hrows⟩

theorem NoRepeat.change (h : NoRepeat sys.st.segments) (hintact : Intact H cfg sys l)
    {l' : Layers} (hchange : Change H cfg sys l e sys' l') :
    NoRepeat sys'.st.segments := by
  cases hchange with
  | quiet _ _ hsegs => rwa [hsegs]
  | appended _ hsegs => rwa [hsegs]
  | published _ hgroups hsegs =>
    rw [hsegs]
    have holder := hintact.older
    have hinc := hintact.layout.increasing
    rw [l.unflushed_publish] at holder hinc
    exact h.flush (fun s hs x hx b hb => holder s hs x hx b (mem_append_left _ hb)) hgroups
      (pairwise_append.mp hinc).1
  | compacted _ _ hmerge hsegs =>
    rw [hsegs]
    exact h.merge hintact.rows.ok hmerge
  | reopened _ hsegs => rwa [hsegs]

theorem mem_compactions_step (hstep : step H cfg sys e = some sys') :
    ∀ c ∈ sys'.compactions, c ∈ sys.compactions ∨ c.inputs = sys.st.segments := by
  have hrecover : ∀ {from' : Sys}, from'.recover H cfg = some sys' → sys'.compactions = [] := by
    intro from' h
    obtain ⟨_, -, rfl⟩ := recover_eq_some h
    rfl
  intro c hc
  cases step_stepped hstep with
  | write | group | call | submit | rotate | flushA | flushC => exact .inl hc
  | flushB =>
    unfold Sys.flushB at hc
    simp only at hc
    split at hc <;> exact .inl hc
  | compactA hcapture =>
    rcases mem_append.mp hc with hc | hc
    · exact .inl hc
    · rw [mem_singleton.mp hc]
      unfold compactPhaseA at hcapture
      split at hcapture <;> cases hcapture
      exact .inr rfl
  | compactC => exact .inl (mem_of_mem_eraseIdx hc)
  | reopened _ hopen | crashed _ hopen =>
    rw [hrecover hopen] at hc
    cases hc

/-- Nothing is lost, the directories are made up of their files, and what is there
    or captured can be merged. -/
structure Compactable (H : Sha256) (cfg : Config) (sys : Sys) (l : Layers) : Prop where
  intact : Intact H cfg sys l
  catalogued : Catalogued sys
  rows : NoRepeat sys.st.segments
  captured : ∀ c ∈ sys.compactions, Mergeable H c.inputs

theorem Compactable.step (h : Compactable H cfg sys l) (hcfg : cfg.blockTarget ≠ 0)
    (hclean : Clean H cfg sys e) (hstep : step H cfg sys e = some sys') :
    ∃ l', Compactable H cfg sys' l' := by
  rcases h.intact.step hcfg hclean hstep with ⟨l', hintact, hchange⟩
  refine ⟨l', hintact, ?_, h.rows.change h.intact hchange, fun c hc => ?_⟩
  · exact h.catalogued.step h.intact (h.intact.dirsStep hcfg hclean hstep)
  · rcases mem_compactions_step hstep c hc with hold | hinputs
    · exact h.captured c hold
    · rw [hinputs]
      exact h.intact.mergeable h.rows

theorem Compactable.compacts (h : Compactable H cfg sys l) (hcfg : cfg.blockTarget ≠ 0) :
    CompactsAlways H cfg sys := by
  intro capture hcapture
  have hinputs : Mergeable H capture.inputs ∧ (sys.st.generation = capture.generation →
      capture.inputs = sys.st.segments) := by
    rcases hcapture with hmem | ⟨policy, hphase⟩
    · exact ⟨h.captured capture hmem, fun hgen => (h.intact.captures capture hmem).2 hgen.symm⟩
    · unfold compactPhaseA at hphase
      split at hphase <;> cases hphase
      exact ⟨h.intact.mergeable h.rows, fun _ => rfl⟩
  rcases hinputs.1.merge hcfg capture.policy with ⟨out, hmerge, harchive⟩
  refine ⟨fun kept ckp => ?_, out, hmerge, harchive⟩
  by_cases hgen : sys.st.generation = capture.generation
  · -- The publication goes through: relocations exist and the gate takes them.
    have hmerge' := hmerge
    rw [hinputs.2 hgen] at hmerge'
    rcases h.catalogued.rooted.compacted h.intact.below h.catalogued.made.held hmerge' with
      ⟨moves, hmoves, haccepted, _⟩
    rcases compactPhaseC_commit H cfg sys.st capture kept ckp hmerge hgen hmoves with
      ⟨commit, _, hphase⟩
    rw [hphase, haccepted]
  · -- Another publication was faster, and the compaction gives up.
    rw [compactPhaseC, hmerge]
    simp only [if_pos hgen]

end

/-- In every state a clean run reaches, every compaction succeeds under every policy
    and archives all versions of the archived keys. -/
theorem clean_compactsAlways (H : Sha256) (cfg : Config) (hcfg : cfg.blockTarget ≠ 0) (sys : Sys)
    (hreach : Reaches (step H cfg) (Clean H cfg) Sys.initial sys) : CompactsAlways H cfg sys := by
  have hinv : ∃ l, Compactable H cfg sys l := by
    refine hreach.invariant (P := fun sys => ∃ l, Compactable H cfg sys l) ?_ ?_
    · refine ⟨_, intact_initial H cfg, catalogued_initial, List.Pairwise.nil, fun c hc => ?_⟩
      cases hc
    · rintro sys e sys' ⟨l, h⟩ hclean hstep
      exact h.step hcfg hclean hstep
  rcases hinv with ⟨l, h⟩
  exact h.compacts hcfg

def versionsRun : List Event :=
  [.write [.put [1] [2]] .done, .flushA, .flushB none, .flushC none none,
    .write [.put [1] [3]] .done, .flushA, .flushB none, .flushC none none]

/-- Two versions of a key in two segments can be archived. -/
theorem versions_archived :
    ∃ sys, run (step Sha256.fips180 Config.new) Sys.initial versionsRun = some sys ∧
      sys.st.segments.length = 2 ∧ CompactsAlways Sha256.fips180 Config.new sys := by
  have hend : ∃ sys, run (step Sha256.fips180 Config.new) Sys.initial versionsRun = some sys ∧
      sys.st.segments.length = 2 := by
    decide +kernel
  obtain ⟨sys, hsys, hlength⟩ := hend
  refine ⟨sys, hsys, hlength, clean_compactsAlways _ _ (by decide) sys ?_⟩
  refine reaches_of_forall versionsRun ?_ hsys
  simp [versionsRun, Clean, AppendIo.Whole]

/-- A run whose flush is cut short behind its pointer: the manifest and the pointer
    are published, and the log is not truncated. The next flush writes the row
    again. -/
def reflushRun : List Event :=
  [.write [.put [1] [2]] .done, .flushA, .flushB none, .flushCrash 2 none,
    .flushA, .flushB none, .flushC none none]

/-- Two segments hold the row, and no compaction can archive its key. -/
theorem reflushed_stuck : ∃ sys,
    run (step Sha256.fips180 Config.new) Sys.initial reflushRun = some sys ∧
      ¬CompactsAlways Sha256.fips180 Config.new sys := by
  have hend : ∃ sys, run (step Sha256.fips180 Config.new) Sys.initial reflushRun = some sys ∧
      ∃ capture, (compactPhaseA sys.st fun _ => .archive) = some capture ∧
        (compactPhaseC Sha256.fips180 Config.new sys.st capture [] none).result.isOk = false := by
    decide +kernel
  obtain ⟨sys, hsys, capture, hcapture, hfails⟩ := hend
  refine ⟨sys, hsys, fun halways => ?_⟩
  rw [(halways capture (.inr ⟨_, hcapture⟩)).1 [] none] at hfails
  cases hfails

end Aikoql.Storage
