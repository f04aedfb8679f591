import Aikoql.Storage.CleanRuns

/-!
# Sequence Numbers Across Reopens

Whether a reopen puts the sequence allocator past every acknowledged batch.

The allocator is not stored. An open recovers it from the frames of the log and
from the largest number among the rows of each segment. A flush truncates the
log, so a batch that leaves no row then has nothing to show for its number, and a
compaction drops tombstones and whatever its policy does not keep. If that takes
the newest number with it, a reopen hands the number out again
(`compaction_reuses_seq`). As long as the log keeps a frame, or the newest
acknowledged batch keeps a row, it does not (`acked_numbers_increase`).

## Main definitions

* `KeepsNewest`: A publication leaves a trace of the newest number.
* `Numbers`: No acknowledged number is past the allocator.

## Main theorems

* `acked_numbers_increase`: Numbers in every clean run that leaves such traces.
* `compaction_reuses_seq`: A reopen that hands out a number again.
-/

namespace Aikoql.Storage

open List Runs

/-- A publication leaves a trace of the newest number: a flush truncates the whole
    log only if the newest acknowledged batch makes a row, and a compaction finds
    a frame in the log or keeps a newest row, one that is live and whose key its
    policy keeps. -/
def KeepsNewest (sys : Sys) : Event → Prop
  | .flushC _ _ => ∀ build len, sys.flush = some (.built build len) →
      sys.disk.wal.drop len ≠ [] ∨ ∀ f ∈ sys.acked.getLast?, LeavesRow f
  | .compactC i _ _ => ∀ capture, sys.compactions[i]? = some capture →
      capture.generation = sys.st.generation → sys.disk.wal ≠ [] ∨
        ∃ s ∈ sys.st.segments, ∃ e ∈ s.entries, e.isDelete = false ∧ capture.policy e.key = .keep ∧
          ∀ s' ∈ sys.st.segments, ∀ e' ∈ s'.entries, e'.seq ≤ e.seq
  | _ => True

/-- The acknowledged batches are numbered in order, below the allocator. A flushed one is older
    than the frames of the log, and the log or a row is at least as new as it. -/
structure Numbers (sys : Sys) (l : Layers) : Prop where
  below : ∀ f ∈ sys.acked, f.seq.val < sys.st.nextSeq
  ordered : sys.acked.Pairwise fun a b => a.seq < b.seq
  ahead : ∀ b ∈ l.flushed, b.acked = true → ∀ b' ∈ l.unflushed, b.frame.seq < b'.frame.seq
  held : ∀ b ∈ l.flushed, b.acked = true →
    l.unflushed ≠ [] ∨ RowFrom sys.st.segments b.frame.seq.val

theorem numbers_initial : Numbers Sys.initial ⟨[], [], [], []⟩ where
  below := forall_mem_nil _
  ordered := List.Pairwise.nil
  ahead := forall_mem_nil _
  held := forall_mem_nil _

section

variable {H : Sha256} {cfg : Config} {sys sys' : Sys} {l : Layers}

theorem mem_ackedOf {batches : List Batch} {b : Batch} (hb : b ∈ batches) (hacked : b.acked = true) :
    b.frame ∈ ackedOf batches :=
  mem_map_of_mem (mem_filter.mpr ⟨hb, hacked⟩)

theorem Intact.acked_of_mem (h : Intact H cfg sys l) {b : Batch} (hb : b ∈ l.history)
    (hacked : b.acked = true) : b.frame ∈ sys.acked :=
  h.acked ▸ mem_ackedOf hb hacked

/-! ## Steps -/

theorem Numbers.appended (h : Numbers sys l) (hi : Intact H cfg sys l) {new applied : List Batch}
    {drawn : Nat} (hnext : sys'.st.nextSeq = sys.st.nextSeq + drawn) (hlen : new.length ≤ drawn)
    (hnum : Numbered sys.st.nextSeq (loggedOf new)) (hsegs : sys'.st.segments = sys.st.segments)
    (hhistory : sys'.history = sys.history ++ applied)
    (heffect : applied = new ∨ applied = [] ∧ ∀ b ∈ new, b.effect = [] ∧ b.acked = false) :
    Numbers sys' { l with active := l.active ++ new } := by
  have hnew : ∀ f ∈ loggedOf new, sys.st.nextSeq ≤ f.seq.val ∧ f.seq.val < sys'.st.nextSeq := by
    intro f hf
    have hmem := hnum.mem f hf
    rw [loggedOf, length_map] at hmem
    rw [hnext]
    omega
  have hacked : sys'.acked = sys.acked ++ ackedOf applied :=
    (congrArg ackedOf hhistory).trans (ackedOf_append _ _)
  -- The acknowledged ones are among the new ones, in order.
  have hsub : (ackedOf applied).Sublist (loggedOf new) := by
    rcases heffect with rfl | ⟨rfl, _⟩
    · exact filter_sublist.map _
    · exact nil_sublist _
  refine ⟨?_, ?_, fun b hb hbacked => ?_, fun b hb hbacked => ?_⟩
  · rw [hacked]
    refine forall_mem_append.mpr ⟨fun f hf => ?_, fun f hf => (hnew f (hsub.subset hf)).2⟩
    have := h.below f hf
    omega
  · rw [hacked, pairwise_append]
    exact ⟨h.ordered, hnum.pairwise.sublist hsub, fun a ha b hb =>
      (h.below a ha).trans_le (hnew b (hsub.subset hb)).1⟩
  · rw [l.unflushed_snoc]
    refine forall_mem_append.mpr ⟨h.ahead b hb hbacked, fun b' hb' => ?_⟩
    have hbelow := h.below b.frame (hi.acked_of_mem (mem_append_left _ hb) hbacked)
    exact hbelow.trans_le (hnew b'.frame (mem_map_of_mem hb')).1
  · rw [l.unflushed_snoc, hsegs]
    exact (h.held b hb hbacked).imp (fun hne hnil => hne (append_eq_nil_iff.mp hnil).1) id

theorem le_of_getLast? {frames : List WalFrame} (h : frames.Pairwise fun a b => a.seq < b.seq)
    {last : WalFrame} (hlast : frames.getLast? = some last) :
    ∀ f ∈ frames, f.seq.val ≤ last.seq.val := by
  intro f hf
  rcases getLast?_eq_some_iff.mp hlast with ⟨front, rfl⟩
  rcases mem_append.mp hf with hf | hf
  · have hlt : f.seq.val < last.seq.val :=
      (pairwise_append.mp h).2.2 f hf last mem_cons_self
    exact hlt.le
  · rw [mem_singleton.mp hf]

theorem Numbers.published (h : Numbers sys l) (hi : Intact H cfg sys l)
    {made : List (Segment × Std.ExtTreeMap ReplicaId SegmentAnchor)}
    (hgroups : GroupSegments H cfg l.detached made)
    (hsegs : sys'.st.segments = sys.st.segments ++ made.map Prod.fst)
    (hnext : sys'.st.nextSeq = sys.st.nextSeq) (hhistory : sys'.history = sys.history)
    (hkeep : l.publish.unflushed ≠ [] ∨ ∀ f ∈ sys.acked.getLast?, LeavesRow f) :
    Numbers sys' l.publish := by
  have hacked : sys'.acked = sys.acked := congrArg ackedOf hhistory
  have hinc := hi.layout.increasing
  rw [l.unflushed_publish] at hinc
  have hflat := (pairwise_append.mp hinc).1
  refine ⟨by rw [hacked, hnext]; exact h.below, hacked.symm ▸ h.ordered, ?_, fun b hb hbacked => ?_⟩
  · refine fun b hb hbacked b' hb' => ?_
    rcases mem_append.mp hb with hb | hb
    · exact h.ahead b hb hbacked b' (l.unflushed_publish ▸ mem_append_right _ hb')
    · exact (pairwise_append.mp hinc).2.2 b hb b' hb'
  · by_cases hun : l.publish.unflushed = []
    · -- The log is empty, so the newest acknowledged batch must have left a row.
      refine .inr ?_
      have hmem : b.frame ∈ sys.acked :=
        hi.acked_of_mem (l.history_publish ▸ mem_append_left _ hb) hbacked
      obtain ⟨last, hlast⟩ : ∃ last, sys.acked.getLast? = some last :=
        ⟨_, getLast?_eq_some_getLast (ne_nil_of_mem hmem)⟩
      have hrow := hkeep.resolve_left (not_not_intro hun) last hlast
      suffices hfrom : RowFrom sys'.st.segments last.seq.val from
        hfrom.mono (List.Subset.refl _) (le_of_getLast? h.ordered hlast _ hmem)
      rw [hsegs]
      have hnew : ∀ seq, RowFrom (made.map Prod.fst) seq →
          RowFrom (sys.st.segments ++ made.map Prod.fst) seq :=
        fun _ hfrom => hfrom.mono (subset_append_right _ _) le_rfl
      rcases hi.mem_acked (mem_of_getLast? hlast) with ⟨c, hc, rfl, happlied, hcacked⟩
      rw [Layers.history, l.unflushed_publish, hun, append_nil] at hc
      rcases mem_append.mp hc with hc | hc
      · rcases h.held c hc hcacked with hne | hfrom
        · -- It was flushed before, and this flush has rows of newer batches.
          rw [l.unflushed_publish, hun, append_nil] at hne
          rcases exists_mem_of_ne_nil _ hne with ⟨b', hb'⟩
          rcases mem_flatten.mp hb' with ⟨group, hgroup, _⟩
          rcases exists_leavesRow (hi.layout.nonempty group (mem_append_left _ hgroup)) with
            ⟨d, hd, hdrow⟩
          have hlt : c.frame.seq.val < d.frame.seq.val := by
            refine h.ahead c hc hcacked d ?_
            rw [l.unflushed_publish]
            exact mem_append_left _ (mem_flatten.mpr ⟨group, hgroup, hd⟩)
          exact hnew _ ((rowFrom_made hgroups hflat hgroup hd hdrow).mono
            (List.Subset.refl _) hlt.le)
        · exact hfrom.mono (subset_append_left _ _) le_rfl
      · rcases mem_flatten.mp hc with ⟨group, hgroup, hcg⟩
        exact hnew _ (rowFrom_made hgroups hflat hgroup hcg (happlied.symm ▸ hrow))
    · exact .inl hun

theorem Numbers.compacted (h : Numbers sys l) (hi : Intact H cfg sys l) {policy : RetentionPolicy}
    {out : MergeOutput}
    (hmerge : merge H cfg.blockTarget cfg.mergeChunkBytes policy sys.st.segments = .ok out)
    (hsegs : sys'.st.segments = out.segments) (hnext : sys'.st.nextSeq = sys.st.nextSeq)
    (hhistory : sys'.history = sys.history)
    (hkeep : l.unflushed ≠ [] ∨ ∃ s ∈ sys.st.segments, ∃ e ∈ s.entries, e.isDelete = false ∧
      policy e.key = .keep ∧ ∀ s' ∈ sys.st.segments, ∀ e' ∈ s'.entries, e'.seq ≤ e.seq) :
    Numbers sys' l := by
  have hacked : sys'.acked = sys.acked := congrArg ackedOf hhistory
  refine ⟨by rw [hacked, hnext]; exact h.below, hacked.symm ▸ h.ordered, h.ahead,
    fun b hb hbacked => ?_⟩
  rcases hkeep with hne | ⟨s, hs, e, he, hlive, hpolicy, hnewest⟩
  · exact .inl hne
  · refine (h.held b hb hbacked).imp id fun ⟨s', hs', e', he', hle⟩ => ?_
    -- The newest row stays, and it is at least as new as any other.
    rcases mem_liveEntries_of_newest hi.rows.ok hi.rows.stacked hs he hlive hpolicy hnewest with
      ⟨x, hx, hseq⟩
    rw [← (merge_ok hmerge).2.1] at hx
    rcases mem_flatMap.mp hx with ⟨t, ht, hxt⟩
    refine ⟨t, hsegs.symm ▸ ht, x, hxt, ?_⟩
    rw [hseq]
    exact hle.trans (hnewest s' hs' e' he')

theorem Numbers.reopened (h : Numbers sys l) (hi : Intact H cfg sys l) {replayMax : Nat}
    (hnum : Renumbered sys sys' l replayMax) (hsegs : sys'.st.segments = sys.st.segments)
    (hhistory : sys'.history = sys.history) : Numbers sys' l.replayed := by
  have hacked : sys'.acked = sys.acked := congrArg ackedOf hhistory
  refine ⟨fun f hf => ?_, hacked.symm ▸ h.ordered, fun b hb hbacked b' hb' => ?_,
    fun b hb hbacked => ?_⟩
  · rw [hacked] at hf
    rw [hnum.nextSeq]
    rcases hi.mem_acked hf with ⟨b, hb, rfl, _, hbacked⟩
    rcases mem_append.mp hb with hb | hb
    · rcases h.held b hb hbacked with hne | ⟨s, hs, e, he, hle⟩
      · rcases exists_mem_of_ne_nil _ hne with ⟨b', hb'⟩
        have hlt : b.frame.seq.val < b'.frame.seq.val := h.ahead b hb hbacked b' hb'
        have := hnum.le b' hb'
        omega
      · have := (hi.rows.ok s hs).seqHi e he
        have := le_maxOf (hi.stored.seqHi hs)
        omega
    · have := hnum.le b hb
      omega
  · rw [l.unflushed_replayed] at hb'
    rcases mem_map.mp hb' with ⟨c, hc, rfl⟩
    exact h.ahead b hb hbacked c hc
  · rw [l.unflushed_replayed, hsegs]
    exact (h.held b hb hbacked).imp (fun hne hnil => hne (map_eq_nil_iff.mp hnil)) id

theorem Numbers.step (h : Numbers sys l) (hi : Intact H cfg sys l) {e : Event} {l' : Layers}
    (hkeep : KeepsNewest sys e) (hchange : Change H cfg sys l e sys' l') : Numbers sys' l' := by
  cases hchange with
  | quiet hfl hun hsegs _ hnum _ hhistory =>
    have hacked : sys'.acked = sys.acked := congrArg ackedOf hhistory
    refine ⟨by rw [hacked, hnum]; exact h.below, hacked.symm ▸ h.ordered, ?_, ?_⟩
    · rw [hfl, hun]
      exact h.ahead
    · rw [hfl, hun, hsegs]
      exact h.held
  | appended drawn hsegs _ hnum hlen hnumbered _ hhistory heffect =>
    exact h.appended hi hnum hlen hnumbered hsegs hhistory heffect
  | published hflush hgroups hsegs hnum _ _ hhistory =>
    refine h.published hi hgroups hsegs hnum hhistory ((hkeep _ _ hflush).imp ?_ id)
    intro hne hnil
    rw [(hi.split_wal hflush).2] at hne
    refine hne (encodeAll_eq_nil.mpr ?_)
    have hun : l.retired.flatten ++ l.active = [] := hnil
    rw [hun]
    rfl
  | compacted hcapture hgen hmerge hsegs hnum _ hhistory =>
    refine h.compacted hi hmerge hsegs hnum hhistory ((hkeep _ hcapture hgen).imp ?_ id)
    intro hne hnil
    rw [hi.wal.wal, hnil] at hne
    exact hne rfl
  | reopened _ hsegs hnum _ hhistory => exact h.reopened hi hnum hsegs hhistory

end

/-- No number is used twice: in every run whose steps are clean and leave a trace
    of the newest number, no acknowledged batch is past the allocator, also right
    after a reopen, and so every acknowledged batch has a larger number than all
    before it. -/
theorem acked_numbers_increase (H : Sha256) (cfg : Config) (hcfg : cfg.blockTarget ≠ 0) (sys : Sys)
    (hreach : Reaches (step H cfg) (fun sys e => Clean H cfg sys e ∧ KeepsNewest sys e)
      Sys.initial sys) :
    (∀ f ∈ sys.acked, f.seq.val ≤ sys.st.lastSeq) ∧
      sys.acked.Pairwise fun a b => a.seq < b.seq := by
  have h := hreach.invariant (P := fun sys => ∃ l, Intact H cfg sys l ∧ Numbers sys l)
    ⟨_, intact_initial H cfg, numbers_initial⟩ (by
      rintro sys e sys' ⟨l, hi, h⟩ ⟨hclean, hkeep⟩ hstep
      rcases hi.step hcfg hclean hstep with ⟨l', hi', hchange⟩
      exact ⟨l', hi', h.step hi hkeep hchange⟩)
  rcases h with ⟨l, _, h⟩
  refine ⟨fun f hf => ?_, h.ordered⟩
  have := h.below f hf
  rw [State.lastSeq]
  omega

/-- A flush whose newest batch makes a row. -/
def keptRun : List Event :=
  [.write [.put [1] [2]] .done, .write [.put [3] [4]] .done, .flushA, .flushB none]

/-- After the flush the log is empty, and the reopen recovers the number from the
    segment. -/
theorem acked_numbers_increase_flush :
    ∃ sys, run (step Sha256.fips180 Config.new) Sys.initial (keptRun ++ [.flushC none none, .reopen])
        = some sys ∧ sys.disk.wal = [] ∧ sys.acked.map (fun f => f.seq.val) = [1, 2] ∧
      (∀ f ∈ sys.acked, f.seq.val ≤ sys.st.lastSeq) ∧
      sys.acked.Pairwise fun a b => a.seq < b.seq := by
  obtain ⟨sys, hsys, hwal, hacked⟩ : ∃ sys, run (step Sha256.fips180 Config.new) Sys.initial
      (keptRun ++ [.flushC none none, .reopen]) = some sys ∧ sys.disk.wal = [] ∧
        sys.acked.map (fun f => f.seq.val) = [1, 2] := by
    decide +kernel
  obtain ⟨mid, hmid, hlast⟩ : ∃ mid,
      run (step Sha256.fips180 Config.new) Sys.initial keptRun = some mid ∧
      mid.acked.getLast?.map WalFrame.ops = some [.put [3] [4]] := by
    decide +kernel
  refine ⟨sys, hsys, hwal, hacked, ?_⟩
  refine acked_numbers_increase Sha256.fips180 Config.new (by decide) sys ?_
  -- Only the publication has something to meet.
  have hfirst : Reaches (step Sha256.fips180 Config.new)
      (fun sys e => Clean Sha256.fips180 Config.new sys e ∧ KeepsNewest sys e) Sys.initial mid := by
    refine reaches_of_forall keptRun ?_ hmid
    simp [keptRun, Clean, KeepsNewest, AppendIo.Whole]
  rw [run_append, hmid] at hsys
  refine hfirst.trans (reaches_of_run [.flushC none none, .reopen] ⟨⟨?_, ?_⟩, fun _ _ =>
    ⟨⟨trivial, trivial⟩, fun _ _ => trivial⟩⟩ hsys)
  · intro k build len hk
    cases hk
  · intro build len _
    refine .inr fun f hf => ?_
    rw [Option.mem_def.mp hf] at hlast
    exact ⟨.put [3] [4], by rw [Option.some.inj hlast]; exact mem_cons_self, by simp [Op.entry]⟩

/-- A reopen hands out numbers again: the compaction drops the tombstone with the
    newest number, the log is empty, and the allocator starts over. -/
theorem compaction_reuses_seq : ∃ sys, run (step Sha256.fips180 Config.new) Sys.initial
        [.write [.put [1] [2]] .done, .write [.delete [1]] .done, .flushA, .flushB none,
          .flushC none none, .compactA keepAll, .compactC 0 [] none, .reopen,
          .write [.put [3] [4]] .done] = some sys ∧
      sys.acked.map (fun f => f.seq.val) = [1, 2, 1] ∧ sys.st.lastSeq = 1 ∧
      ¬(∀ f ∈ sys.acked, f.seq.val ≤ sys.st.lastSeq) ∧
      ¬sys.acked.Pairwise (fun a b => a.seq < b.seq) := by
  decide +kernel

end Aikoql.Storage
