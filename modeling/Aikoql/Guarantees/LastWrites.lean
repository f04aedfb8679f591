import Aikoql.Guarantees.ReadPaths
import Aikoql.Storage.CleanRuns

/-!
# Reads Find the Last Write

What a point read answers in a database that has been running for a while.

The rows of a key are spread over the memtables and the segments, and flushes, compactions
and reopens move them. Against the acknowledged batches all that is invisible: while no flush
is under way, a key that is only written as bytes has the value of the last batch that wrote
it. The segments stand for the flushed batches, a flush puts the segments of its groups on
top, and a compaction that keeps the key keeps its newest row.

## Main definitions

* `valueOf`: The value the last write of a key left.
* `Accounts`: The layers account for every batch.

## Main theorems

* `Accounts.step`: A step keeps the account.
* `get_last_write`: A point read finds the last acknowledged write.
-/

namespace Aikoql.Storage

open List Runs

variable {key : Bytes} {frames : List WalFrame} {segs : List Segment} {flushed group : List Batch}

def writesOf (frames : List WalFrame) : List (Bytes × MemEntry) :=
  frames.flatMap WalFrame.entries

/-- The value the last write of a key left. -/
def valueOf (frames : List WalFrame) (key : Bytes) : Option Bytes :=
  (lastWrite (writesOf frames) key).bind MemEntry.value

def ByteKey (key : Bytes) (frames : List WalFrame) : Prop :=
  ∀ e, (key, e) ∈ writesOf frames → ∃ value, e = .byte value

/-- A compaction that is published keeps a key. -/
def KeepsKey (key : Bytes) (sys : Sys) : Event → Prop
  | .compactC i _ _ => ∀ capture, sys.compactions[i]? = some capture → capture.policy key = .keep
  | _ => True

/-! ## The last write of a list of batches -/

theorem ByteKey.subset {frames' : List WalFrame} (h : ByteKey key frames')
    (hsub : frames ⊆ frames') : ByteKey key frames := by
  intro e he
  obtain ⟨f, hf, hmem⟩ := mem_flatMap.mp he
  exact h e (mem_flatMap.mpr ⟨f, hsub hf, hmem⟩)

theorem ByteKey.version (h : ByteKey key frames) {f : WalFrame} (hf : f ∈ frames) {seq : Nat}
    {e : MemEntry} (hversion : f.version key = some (seq, e)) :
    lastWrite f.entries key = some e ∧ seq = f.seq.val ∧ ∃ value, e = .byte value := by
  obtain ⟨e', he', heq⟩ := Option.map_eq_some_iff.mp hversion
  cases heq
  exact ⟨he', rfl, h e (mem_flatMap.mpr ⟨f, hf, mem_of_lastWrite he'⟩)⟩

theorem lastWrite_appliedOf_flatten (groups : List (List Batch)) (key : Bytes) :
    lastWrite (writesOf (appliedOf groups.flatten)) key
      = firstHit groups fun group => lastWrite (writesOf (appliedOf group)) key := by
  rw [← lastWrite_flatMap]
  congr 1
  induction groups with
  | nil => rfl
  | cons group groups ih =>
    rw [flatten_cons, appliedOf, map_append, writesOf, flatMap_append, flatMap_cons, ← ih]
    rfl

theorem appliedOf_append (a b : List Batch) : appliedOf (a ++ b) = appliedOf a ++ appliedOf b :=
  map_append

theorem lastWrite_writesOf_append (a b : List WalFrame) (key : Bytes) :
    lastWrite (writesOf (a ++ b)) key
      = (lastWrite (writesOf b) key).or (lastWrite (writesOf a) key) := by
  rw [writesOf, flatMap_append, lastWrite_append]
  rfl

/-! ## Memtables -/

theorem get_memOf (hinc : frames.Pairwise fun a b => a.seq < b.seq) (hbyte : ByteKey key frames) :
    (memOf frames).get key = (lastWrite (writesOf frames) key).map MemEntry.value := by
  rw [Memtable.get_eq_byteHead, VersionChain.byteHead, chain_memOf frames key hinc, writesOf,
    lastWrite_flatMap, map_firstHit, ← firstHit, firstHit_filterMap]
  refine firstHit_congr _ _ _ fun f hf => ?_
  cases hversion : f.version key with
  | none =>
    have hnone : lastWrite f.entries key = none := Option.map_eq_none_iff.mp hversion
    rw [hnone]
    rfl
  | some v =>
    obtain ⟨hlast, -, value, hvalue⟩ := hbyte.version hf hversion
    rw [hlast, Option.bind_some, hvalue]
    rfl

/-- What the memtables say of a key: the last write of the batches they hold. -/
theorem memGet_last {H : Sha256} {cfg : Config} {sys : Sys} {l : Layers}
    (h : Layout H cfg sys l) (hbyte : ByteKey key (appliedOf (l.retired.flatten ++ l.active))) :
    memGet sys.st key
      = (lastWrite (writesOf (appliedOf (l.retired.flatten ++ l.active))) key).map
          MemEntry.value := by
  have hinc := (pairwise_append.mp h.increasing).2.1
  have hmem : ∀ group, (∀ b ∈ group, b ∈ l.retired.flatten ++ l.active) → group.Pairwise
      (fun a b => a.frame.seq < b.frame.seq) → (memOfGroup group).get key
        = (lastWrite (writesOf (appliedOf group)) key).map MemEntry.value := fun group hsub hgroup =>
    get_memOf (pairwise_map.mpr hgroup) (hbyte.subset (map_subset _ hsub))
  have hactive := hmem l.active (fun b hb => mem_append_right _ hb) (pairwise_append.mp hinc).2.1
  have hretired : firstHit sys.st.immutables (fun mem => mem.get key)
      = (lastWrite (writesOf (appliedOf l.retired.flatten)) key).map MemEntry.value := by
    rw [h.retired, firstHit_map, lastWrite_appliedOf_flatten, map_firstHit]
    refine firstHit_congr _ _ _ fun group hgroup => hmem group ?_ ?_
    · exact fun b hb => mem_append_left _ (mem_flatten.mpr ⟨group, hgroup, hb⟩)
    · exact (pairwise_flatten.mp (pairwise_append.mp hinc).1).1 group hgroup
  rw [appliedOf_append, lastWrite_writesOf_append, memGet, h.active, hactive, hretired]
  cases lastWrite (writesOf (appliedOf l.active)) key <;> rfl

/-! ## Segments -/

theorem live_segmentEntry (seq : Nat) (value : Option Bytes) :
    (segmentEntry (key, seq, .byte value)).live = value := by
  cases value <;> simp [SegmentEntry.live, SegmentEntry.isDelete, segmentEntry, MemEntry.value,
    flagPut, flagDelete]

/-- A stacked read of batches in the order of their numbers finds the latest that answers. -/
theorem firstHit_latest {A : Type} {read : WalFrame → Option A} {a : A}
    (hinc : frames.Pairwise fun a b => a.seq < b.seq) (h : firstHit frames read = some a) :
    ∃ f ∈ frames, read f = some a ∧ ∀ g ∈ frames, read g ≠ none → g.seq.val ≤ f.seq.val := by
  obtain ⟨later, f, earlier, hsplit, hf, hnone⟩ := findSome?_eq_some_iff.mp h
  obtain rfl : frames = earlier.reverse ++ f :: later.reverse := by
    rw [← reverse_reverse frames, hsplit]
    simp
  refine ⟨f, by simp, hf, fun g hg hread => ?_⟩
  rcases mem_append.mp hg with hearlier | hrest
  · exact Nat.le_of_lt ((pairwise_append.mp hinc).2.2 g hearlier f mem_cons_self)
  · rcases mem_cons.mp hrest with rfl | hlater
    · exact Nat.le_refl _
    · exact absurd (hnone g (mem_reverse.mp hlater)) hread

section

variable {H : Sha256} {cfg : Config} {s : Segment}
  {anchors : Std.ExtTreeMap ReplicaId SegmentAnchor}

theorem LeftBy.byte {b : Batch} {e : SegmentEntry} (h : LeftBy b e) (hb : b ∈ group)
    (hbyte : ByteKey key (appliedOf group)) (hkey : e.key = key) :
    ∃ value, lastWrite b.applied.entries key = some (.byte value) ∧
      e = segmentEntry (key, b.frame.seq.val, .byte value) := by
  obtain ⟨k, ⟨seq, me⟩, hversion, rfl⟩ := h
  obtain rfl : k = key := hkey
  obtain ⟨hlast, rfl, value, rfl⟩ := hbyte.version (mem_map_of_mem hb) hversion
  exact ⟨value, hlast, rfl⟩

/-- The segment of a memtable answers with the last write of the batches in it. -/
theorem read_group (hinc : group.Pairwise fun a b => a.frame.seq < b.frame.seq)
    (hpub : publishMemtable H cfg (memOfGroup group) = .ok (s, anchors))
    (hbyte : ByteKey key (appliedOf group)) : (s.read (key, 0)).map SegmentEntry.live
      = (lastWrite (writesOf (appliedOf group)) key).map MemEntry.value := by
  have hok := (publishMemtable_ok hpub).1
  have hrows := mem_segment_group hinc hpub
  have hframes : (appliedOf group).Pairwise fun a b => a.seq < b.seq := pairwise_map.mpr hinc
  rw [writesOf, lastWrite_flatMap]
  cases hlast : firstHit (appliedOf group) fun f => lastWrite f.entries key with
  | none =>
    rw [Option.map_none, Option.map_eq_none_iff, Segment.read, find?_eq_none]
    intro e he hon
    obtain ⟨b, hb, hleft⟩ := (hrows e).mp he
    obtain ⟨value, hwrite, -⟩ := hleft.byte hb hbyte (of_decide_eq_true hon).1
    have hnone := findSome?_eq_none_iff.mp hlast b.applied (mem_reverse.mpr (mem_map_of_mem hb))
    rw [hnone] at hwrite
    cases hwrite
  | some me =>
    obtain ⟨f, hf, hwrite, hlatest⟩ := firstHit_latest hframes hlast
    obtain ⟨b, hb, rfl⟩ := mem_map.mp hf
    obtain ⟨value, rfl⟩ := hbyte me (mem_flatMap.mpr ⟨_, hf, mem_of_lastWrite hwrite⟩)
    have hversion : b.applied.version key = some (b.frame.seq.val, .byte value) :=
      Option.map_eq_some_iff.mpr ⟨_, hwrite, rfl⟩
    -- Its row is in the segment, and no batch of the group left a newer one.
    have hnewest : newest s.rows (key, 0)
        = some (segmentEntry (key, b.frame.seq.val, .byte value)).row := by
      refine (newest_eq_some_iff _ _ _ (Segment.distinct_rows hok)).mpr
        ⟨mem_map_of_mem ((hrows _).mpr ⟨b, hb, key, _, hversion, rfl⟩), rfl, fun r hr hon => ?_⟩
      obtain ⟨e, he, rfl⟩ := mem_map.mp hr
      obtain ⟨b', hb', hleft⟩ := (hrows e).mp he
      obtain ⟨value', hwrite', rfl⟩ := hleft.byte hb' hbyte (congrArg Prod.fst hon)
      exact hlatest b'.applied (mem_map_of_mem hb') (by rw [hwrite']; simp)
    rw [← Segment.read_newest hok] at hnewest
    obtain ⟨e, he, hrow⟩ := Option.map_eq_some_iff.mp hnewest
    rw [he, Option.map_some, Option.map_some]
    exact congrArg some ((congrArg Row.value hrow).trans (live_segmentEntry _ value))

variable {groups : List (List Batch)}
  {made : List (Segment × Std.ExtTreeMap ReplicaId SegmentAnchor)}

theorem firstHit_made (hgroups : GroupSegments H cfg groups made)
    (hinc : groups.flatten.Pairwise fun a b => a.frame.seq < b.frame.seq)
    (hbyte : ByteKey key (appliedOf groups.flatten)) :
    (firstHit (made.map Prod.fst) fun s => s.read (key, 0)).map SegmentEntry.live
      = (lastWrite (writesOf (appliedOf groups.flatten)) key).map MemEntry.value := by
  rw [lastWrite_appliedOf_flatten, map_firstHit, map_firstHit, firstHit_map]
  have hgroup : ∀ group ∈ groups, (group.Pairwise fun a b => a.frame.seq < b.frame.seq) ∧
      ByteKey key (appliedOf group) := fun group hmem =>
    ⟨(pairwise_flatten.mp hinc).1 group hmem,
      hbyte.subset (map_subset _ fun b hb => mem_flatten.mpr ⟨group, hmem, hb⟩)⟩
  clear hinc hbyte
  induction hgroups with
  | nil => rfl
  | @cons group sa groups made hpub _ ih =>
    rw [← singleton_append, ← @singleton_append _ group, firstHit_append, firstHit_append,
      firstHit_singleton, firstHit_singleton, ih fun g hg => hgroup g (mem_cons_of_mem _ hg),
      read_group (hgroup group mem_cons_self).1 hpub (hgroup group mem_cons_self).2]

/-- Segments answer with the last write of the batches that were flushed. -/
def Held (key : Bytes) (segs : List Segment) (flushed : List Batch) : Prop :=
  ByteKey key (appliedOf flushed) →
    (firstHit segs fun s => s.read (key, 0)).bind SegmentEntry.live
      = valueOf (appliedOf flushed) key

theorem Held.flush (h : Held key segs flushed) (hgroups : GroupSegments H cfg groups made)
    (hinc : groups.flatten.Pairwise fun a b => a.frame.seq < b.frame.seq) :
    Held key (segs ++ made.map Prod.fst) (flushed ++ groups.flatten) := by
  intro hbyte
  rw [appliedOf_append] at hbyte
  have hold := h (hbyte.subset (subset_append_left _ _))
  have hmade := firstHit_made hgroups hinc (hbyte.subset (subset_append_right _ _))
  rw [appliedOf_append, valueOf, lastWrite_writesOf_append, firstHit_append]
  cases hlast : lastWrite (writesOf (appliedOf groups.flatten)) key with
  | none =>
    rw [hlast, Option.map_none, Option.map_eq_none_iff] at hmade
    rw [hmade, Option.none_or, Option.none_or]
    exact hold
  | some me =>
    rw [hlast] at hmade
    obtain ⟨e, he, hlive⟩ := Option.map_eq_some_iff.mp hmade
    rw [he]
    exact hlive

theorem Held.merge (h : Held key segs flushed) (hrows : SegmentRows H segs flushed)
    {policy : RetentionPolicy} {out : MergeOutput} {target cap : Nat}
    (hmerge : Storage.merge H target cap policy segs = .ok out) (hkeep : policy key = .keep) :
    Held key out.segments flushed := by
  intro hbyte
  rw [← h hbyte, bind_live_eq segs hrows.ok hrows.stacked,
    ← find?_drained segs hrows.ok hrows.stacked, Option.bind_map]
  exact firstHit_merged hrows.ok hmerge (key, 0) hkeep

/-- A probe finds the byte row of a key that has no other rows. -/
theorem probe_eq_read (hok : s.Ok H) (hbyte : ∀ e ∈ s.entries, e.key = key → e.replicaId = 0) :
    probe H key s = s.read (key, 0) := by
  have hapart : ¬s.Straddles key := by
    rintro ⟨front, block, behind, hblocks, -, ⟨e, he, hkey⟩, hobject, -⟩
    refine hobject e he hkey (hbyte e ?_ hkey)
    rw [Segment.entries, hblocks]
    exact mem_flatten.mpr ⟨block, by simp, he⟩
  rw [probe_eq, Segment.get_eq_read hok hapart]
  split_ifs with hmay
  · rfl
  · symm
    rw [Segment.read, find?_eq_none]
    intro e he hon
    obtain rfl : e.key = key := (of_decide_eq_true hon).1
    refine hmay ?_
    rw [Segment.mayHold, hok.bloom e he]
    simp [hok.keyMin e he, hok.keyMax e he]

end

/-! ## Runs -/

section

variable {H : Sha256} {cfg : Config} {sys sys' : Sys} {l l' : Layers} {e : Event}

/-- The layers account for every batch, and the segments for those that were flushed. -/
structure Accounts (key : Bytes) (sys : Sys) (l : Layers) : Prop where
  length : l.history.length = sys.history.length
  held : Held key sys.st.segments l.flushed

theorem Accounts.step (h : Accounts key sys l) (hi : Intact H cfg sys l)
    (hchange : Change H cfg sys l e sys' l') (hgap : NoGap sys e) (hkeep : KeepsKey key sys e) :
    Accounts key sys' l' := by
  cases hchange with
  | quiet hflushed hunflushed hsegs _ _ _ hhistory =>
    refine ⟨?_, hsegs ▸ hflushed ▸ h.held⟩
    rw [Layers.history, hflushed, hunflushed, ← Layers.history, h.length, hhistory]
  | appended drawn hsegs _ _ _ _ _ hhistory _ hwhole =>
    refine ⟨?_, hsegs ▸ h.held⟩
    rw [Layers.history_snoc, length_append, hhistory, length_append, h.length, (hwhole hgap).2]
  | published _ hgroups hsegs _ _ _ hhistory =>
    refine ⟨?_, hsegs ▸ h.held.flush hgroups (pairwise_append.mp hi.layout.increasing).1⟩
    rw [Layers.history_publish, h.length, hhistory]
  | compacted hcaptured _ hmerged hsegs _ _ hhistory =>
    refine ⟨by rw [h.length, hhistory], hsegs ▸ h.held.merge hi.rows hmerged ?_⟩
    exact hkeep _ hcaptured
  | reopened _ hsegs _ _ hhistory =>
    refine ⟨?_, hsegs ▸ h.held⟩
    rw [hhistory, ← h.length, Layers.history, Layers.unflushed_replayed, length_append, length_map,
      ← length_append]
    rfl

/-- If all batches were acknowledged then the layers hold just these. -/
theorem Accounts.applied (h : Accounts key sys l) (hi : Intact H cfg sys l)
    (hacked : ∀ b ∈ sys.history, b.acked = true) : appliedOf l.history = sys.acked := by
  have hlength : (l.history.filter Batch.acked).length = l.history.length := by
    have hcount := congrArg List.length hi.acked
    rw [ackedOf, Sys.acked, length_map, length_map, filter_eq_self.mpr hacked] at hcount
    rw [hcount, h.length]
  have hall := length_filter_eq_length_iff.mp hlength
  rw [← hi.acked, ackedOf, filter_eq_self.mpr hall, appliedOf]
  refine map_congr_left fun b hb => ?_
  rw [Batch.applied, (hi.layout.sound b hb).acked (hall b hb)]

/-- In every clean run in which the log keeps every batch and compactions keep a key, a point
    read of the key finds the last acknowledged write, if all batches that took effect were
    acknowledged, the key is only written as bytes, and no flush is under way. -/
theorem get_last_write (H : Sha256) (cfg : Config) (hcfg : cfg.blockTarget ≠ 0) (key : Bytes)
    (sys : Sys) (hreach : Reaches (step H cfg) (fun sys e => Clean H cfg sys e ∧ NoGap sys e ∧
      KeepsKey key sys e) Sys.initial sys) (hidle : sys.flush = none)
    (hacked : ∀ b ∈ sys.history, b.acked = true) (hbyte : ByteKey key sys.acked) :
    get H sys.st key = valueOf sys.acked key := by
  obtain ⟨l, hi, haccounts⟩ : ∃ l, Intact H cfg sys l ∧ Accounts key sys l := by
    have hinitial : Accounts key Sys.initial ⟨[], [], [], []⟩ := ⟨rfl, fun _ => rfl⟩
    refine hreach.invariant (P := fun sys => ∃ l, Intact H cfg sys l ∧ Accounts key sys l)
      ⟨_, intact_initial H cfg, hinitial⟩ ?_
    rintro sys e sys' ⟨l, hi, h⟩ ⟨hclean, hgap, hkeep⟩ hstep
    obtain ⟨l', hi', hchange⟩ := hi.step hcfg hclean hstep
    exact ⟨l', hi', h.step hi hchange hgap hkeep⟩
  have hdetached : l.detached = [] := by
    have hmems := hi.layout.detached
    rw [hidle] at hmems
    exact map_eq_nil_iff.mp hmems
  have hhistory : sys.acked
      = appliedOf l.flushed ++ appliedOf (l.retired.flatten ++ l.active) := by
    rw [← haccounts.applied hi hacked, Layers.history, Layers.unflushed, hdetached, appliedOf_append]
    rfl
  rw [hhistory] at hbyte ⊢
  have hflushed : ByteKey key (appliedOf l.flushed) := hbyte.subset (subset_append_left _ _)
  rw [valueOf, lastWrite_writesOf_append, get,
    memGet_last hi.layout (hbyte.subset (subset_append_right _ _))]
  cases lastWrite (writesOf (appliedOf (l.retired.flatten ++ l.active))) key with
  | some me => rfl
  | none =>
    rw [Option.none_or, Option.map_none]
    -- No memtable has the key, and each segment has byte rows of it only.
    refine Eq.trans ?_ (haccounts.held hflushed)
    refine congrArg (fun hit => Option.bind hit SegmentEntry.live) ?_
    refine firstHit_congr _ _ _ fun s hs => probe_eq_read (hi.rows.ok s hs) fun e he hkey => ?_
    obtain ⟨b, hb, hleft⟩ := hi.rows.left s hs e he
    obtain ⟨value, -, rfl⟩ := hleft.byte hb hflushed hkey
    rfl

/-- A key is flushed, and deleted afterwards, and another one is written again; then the
    process ends. -/
def flushedThenDeleted : List Event :=
  [.write [.put [1] [2], .put [3] [4]] .done, .flushA, .flushB none, .flushC none none,
    .write [.delete [1], .put [3] [5]] .done, .crash]

theorem get_last_write_recovered :
    ∃ sys, run (step Sha256.fips180 Config.new) Sys.initial flushedThenDeleted = some sys ∧
      get Sha256.fips180 sys.st [1] = none ∧ get Sha256.fips180 sys.st [3] = some [5] := by
  obtain ⟨sys, hrun, hidle, hacked, hops⟩ : ∃ sys,
      run (step Sha256.fips180 Config.new) Sys.initial flushedThenDeleted = some sys ∧
        sys.flush.isNone ∧ (∀ b ∈ sys.history, b.acked = true) ∧ sys.acked.map WalFrame.ops
          = [[.put [1] [2], .put [3] [4]], [.delete [1], .put [3] [5]]] := by
    decide +kernel
  have hwrites : writesOf sys.acked = [([1], .byte (some [2])), ([3], .byte (some [4])),
      ([1], .byte none), ([3], .byte (some [5]))] := by
    have hentries : writesOf sys.acked
        = (sys.acked.map WalFrame.ops).flatMap (filterMap Op.entry) := by
      rw [flatMap_map]
      rfl
    rw [hentries, hops]
    rfl
  have hread : ∀ key, get Sha256.fips180 sys.st key = valueOf sys.acked key := by
    intro key
    refine get_last_write Sha256.fips180 Config.new (by decide) key sys
      (reaches_of_forall flushedThenDeleted ?_ hrun) (Option.isNone_iff_eq_none.mp hidle) hacked ?_
    · have hfirst : Encodable [.put [1] [2], .put [3] [4]] := ⟨by simp, by decide⟩
      have hsecond : Encodable [.delete [1], .put [3] [5]] := ⟨by simp, by decide⟩
      simp [flushedThenDeleted, Clean, NoGap, KeepsKey, AppendIo.Whole, hfirst, hsecond]
    · intro e he
      simp only [hwrites, mem_cons, Prod.mk.injEq, not_mem_nil, or_false] at he
      rcases he with ⟨-, rfl⟩ | ⟨-, rfl⟩ | ⟨-, rfl⟩ | ⟨-, rfl⟩ <;> exact ⟨_, rfl⟩
  refine ⟨sys, hrun, ?_, ?_⟩
  · rw [hread, valueOf, hwrites]
    rfl
  · rw [hread, valueOf, hwrites]
    rfl

end

end Aikoql.Storage
