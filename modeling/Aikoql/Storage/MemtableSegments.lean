import Aikoql.Storage.Flush

/-!
# Segments of Memtables

What a flush writes: a segment with the rows of a memtable.

The writer puts the versions of each key in reverse, so a segment has its newest
row first where the memtable has it last. A memtable without identities is
written in the format that stores no replica ids, which loses nothing, since its
rows have none. So the segment holds the memtable's rows and answers every
surface as the memtable does.

## Theorems

* `read_publishMemtable`: The segment answers as the memtable does.
* `flushPhaseB_ok`: What phase B leaves.
-/

namespace Aikoql.Storage

open List

variable (m : Memtable) {H : Sha256} {cfg : Config}

theorem Memtable.mem_entries (k : Bytes) (seq : Nat) (e : MemEntry) :
    (k, seq, e) ∈ m.entries ↔ (seq, e) ∈ (m.chain k).versions := by
  unfold Memtable.entries Memtable.chain
  simp only [mem_flatMap, mem_map, Prod.mk.injEq]
  constructor
  · rintro ⟨⟨k', chain⟩, hmem, v, hv, rfl, rfl, rfl⟩
    rw [Std.ExtTreeMap.mem_toList_iff_getElem?_eq_some] at hmem
    rw [hmem]
    exact hv
  · intro h
    cases hk : m.map[k]? with
    | none =>
      rw [hk] at h
      exact absurd h not_mem_nil
    | some chain =>
      rw [hk] at h
      exact ⟨(k, chain), Std.ExtTreeMap.mem_toList_iff_getElem?_eq_some.mpr hk, (seq, e), h,
        rfl, rfl, rfl⟩

theorem mem_flatMap_reverse_runsOf (es : List SegmentEntry) (e : SegmentEntry) :
    e ∈ (runsOf es.length es).flatMap List.reverse ↔ e ∈ es := by
  conv_rhs => rw [← (cutByKey_runsOf es.length es le_rfl).flatten]
  simp [mem_flatMap, mem_flatten]

theorem storedEntry_memtable (e : SegmentEntry) (he : e ∈ m.entries.map segmentEntry) :
    storedEntry (if m.hasIdentity then newV4 else newV2) e = e := by
  by_cases h : m.hasIdentity = true
  · rw [if_pos h]
    rfl
  · rw [if_neg h]
    rcases mem_map.mp he with ⟨⟨k, seq, me⟩, hmem, rfl⟩
    have hnone : me.isIdentity = false := by
      rw [Memtable.hasIdentity, any_eq_true] at h
      exact Bool.eq_false_iff.mpr fun hid => h ⟨_, hmem, hid⟩
    have hrid : me.replicaId = 0 := by
      cases me with
      | byte v => rfl
      | object v rid => simpa [MemEntry.isIdentity, MemEntry.replicaId] using hnone
    simp [storedEntry, newV2, segmentEntry, hrid]

theorem publishMemtable_ok {m : Memtable} {s : Segment}
    {anchors : Std.ExtTreeMap ReplicaId SegmentAnchor}
    (h : publishMemtable H cfg m = .ok (s, anchors)) :
    s.Ok H ∧ (∀ e, e ∈ s.entries ↔ e ∈ m.entries.map segmentEntry) ∧
      anchors = if s.v4 then anchorsOf s.blocks else ∅ := by
  rw [publishMemtable, publishWithAnchorsSorted] at h
  have hw : (if m.hasIdentity then newV4 else newV2).v3
      = (if m.hasIdentity then newV4 else newV2).v4 := by
    split <;> rfl
  rcases publishSortedEntries_ok hw h with ⟨hok, hentries, hanchors⟩
  refine ⟨hok, fun e => ?_, hanchors⟩
  rw [hentries, mem_map]
  constructor
  · rintro ⟨e', he', rfl⟩
    rw [mem_flatMap_reverse_runsOf] at he'
    rwa [storedEntry_memtable m e' he']
  · intro he
    exact ⟨e, (mem_flatMap_reverse_runsOf _ e).mpr he, storedEntry_memtable m e he⟩

/-! ## The writer accepts memtables -/

/-- The order of a memtable's entries: by key and then by sequence number. -/
def FlushLt (a b : SegmentEntry) : Prop :=
  a.key < b.key ∨ a.key = b.key ∧ a.seq < b.seq

theorem Memtable.sorted_entries : (m.entries.map segmentEntry).Pairwise FlushLt := by
  rw [Memtable.entries, map_flatMap, pairwise_flatMap]
  constructor
  · intro kc _
    rw [map_map, pairwise_map]
    exact kc.2.sorted.imp fun {a b} hab => .inr ⟨rfl, hab⟩
  · have hkeys : m.map.toList.Pairwise fun a b => compare a.1 b.1 = .lt :=
      Std.ExtTreeMap.ordered_keys_toList
    refine hkeys.imp fun {a b} hab x hx y hy => .inl ?_
    simp only [map_map, mem_map, Function.comp_apply] at hx hy
    rcases hx with ⟨v, _, rfl⟩
    rcases hy with ⟨w, _, rfl⟩
    exact (compare_eq_lt_iff _ _).mp hab

theorem sorted_reverse_runsOf (es : List SegmentEntry) (h : es.Pairwise FlushLt) :
    ((runsOf es.length es).flatMap List.reverse).Pairwise EntryLt := by
  have hcut := cutByKey_runsOf es.length es le_rfl
  have hkeys : es.Pairwise fun a b => a.key ≤ b.key :=
    h.imp fun {a b} hab => hab.elim le_of_lt fun hab => le_of_eq hab.1
  refine pairwise_flatMap.mpr
    ⟨fun run hrun => ?_, (hcut.later hkeys).imp fun {a b} hab x hx y hy => ?_⟩
  · -- Within the run the keys agree, so the order is that of the numbers.
    have hsub : run.Sublist es := hcut.flatten ▸ sublist_flatten_of_mem hrun
    rw [pairwise_reverse]
    refine (h.sublist hsub).imp_of_mem fun {a b} ha hb hab => ?_
    have hkey : a.key = b.key := (hcut.key run hrun a ha).trans (hcut.key run hrun b hb).symm
    rcases hab with hlt | ⟨_, hseq⟩
    · exact absurd hkey hlt.ne
    · exact .inr ⟨hkey.symm, hseq⟩
  · exact .inl (hab x (mem_reverse.mp hx) y (mem_reverse.mp hy))

theorem allAdjacent_of_sorted (p : SegmentEntry → SegmentEntry → Bool) (es : List SegmentEntry)
    (h : es.Pairwise EntryLt) (hp : ∀ a b, EntryLt a b → p a b = true) :
    allAdjacent p es = true := by
  induction es with
  | nil => rfl
  | cons a es ih =>
    cases es with
    | nil => rfl
    | cons b es =>
      rw [pairwise_cons] at h
      rw [allAdjacent, hp a b (h.1 b mem_cons_self), ih h.2, Bool.and_true]

theorem checkEntries_of_sorted (target : Nat) (es : List SegmentEntry) (htarget : target ≠ 0)
    (hne : es ≠ []) (hlen : ∀ e ∈ es, e.key.length ≤ maxKeyLen) (h : es.Pairwise EntryLt) :
    checkEntries target es = .ok () := by
  have hkeys : checkKeyLens es = .ok () := by
    rw [checkKeyLens, find?_eq_none.mpr fun e he => ?_]
    simpa using hlen e he
  have hdup : allAdjacent (fun a b => !(decide (a.key = b.key) && decide (a.seq = b.seq))) es
      = true := by
    refine allAdjacent_of_sorted _ es h fun a b hab => ?_
    rcases hab with hlt | ⟨_, hseq⟩
    · simp [hlt.ne]
    · simp [hseq.ne']
  have hord : allAdjacent inOrder es = true := by
    refine allAdjacent_of_sorted _ es h fun a b hab => ?_
    rcases hab with hlt | ⟨hkey, hseq⟩
    · simp [inOrder, hlt.ne, hlt.le]
    · simp [inOrder, hkey, hseq.le]
  rw [checkEntries, ensure_pos htarget, ok_bind, ensure_pos hne, ok_bind, hkeys, ok_bind,
    ensure_pos hdup, ok_bind, ensure_pos hord]

theorem publishMemtable_isOk (H : Sha256) (cfg : Config) (m : Memtable)
    (htarget : cfg.blockTarget ≠ 0) (hne : m.entries ≠ [])
    (hlen : ∀ e ∈ m.entries, e.1.length ≤ maxKeyLen) : ∃ sa, publishMemtable H cfg m = .ok sa := by
  have hcheck : checkEntries cfg.blockTarget
      ((runsOf (m.entries.map segmentEntry).length (m.entries.map segmentEntry)).flatMap
        List.reverse) = .ok () := by
    refine checkEntries_of_sorted _ _ htarget ?_ (fun e he => ?_)
      (sorted_reverse_runsOf _ m.sorted_entries)
    · intro hnil
      rcases exists_mem_of_ne_nil _ hne with ⟨e, he⟩
      have := (mem_flatMap_reverse_runsOf _ _).mpr (mem_map_of_mem (f := segmentEntry) he)
      rw [hnil] at this
      cases this
    · rw [mem_flatMap_reverse_runsOf, mem_map] at he
      rcases he with ⟨e', he', rfl⟩
      exact hlen e' he'
  rw [publishMemtable, publishWithAnchorsSorted, publishSortedEntries, hcheck, ok_bind]
  exact ⟨_, rfl⟩

/-! ## Phase B -/

structure Built (H : Sha256) (cfg : Config) (plan : List (Memtable × Nat)) (build : FlushBuild)
    (published : List (Segment × Std.ExtTreeMap ReplicaId SegmentAnchor)) : Prop where
  each : Forall₂ (fun mi sa => publishMemtable H cfg mi.1 = .ok sa) plan published
  newSegments : build.newSegments = published.map Prod.fst
  records : build.records = (plan.zip published).map fun x => segmentRecord x.1.2 0 x.2.1
  anchors : build.anchors
    = (plan.zip published).foldl (fun anchors x => addAnchors x.1.2 anchors x.2.2) ∅

/-- The files phase B writes. -/
def builtOps (plan : List (Memtable × Nat))
    (published : List (Segment × Std.ExtTreeMap ReplicaId SegmentAnchor)) : List FileOp :=
  (plan.zip published).map fun x => .segment x.1.2 x.2.1

theorem flushPhaseB_loop {plan : List (Memtable × Nat)} {start build : FlushBuild}
    (h : (flushPhaseB H cfg start plan).2 = .ok build) :
    ∃ published, Forall₂ (fun mi sa => publishMemtable H cfg mi.1 = .ok sa) plan published ∧
      (flushPhaseB H cfg start plan).1 = builtOps plan published ∧
      build.newSegments = start.newSegments ++ published.map Prod.fst ∧
      build.records
        = start.records ++ (plan.zip published).map (fun x => segmentRecord x.1.2 0 x.2.1) ∧
      build.anchors = (plan.zip published).foldl (fun anchors x => addAnchors x.1.2 anchors x.2.2)
            start.anchors := by
  induction plan generalizing start with
  | nil =>
    cases h
    exact ⟨[], .nil, rfl, by simp, by simp, rfl⟩
  | cons mi plan ih =>
    obtain ⟨mem, id⟩ := mi
    rw [flushPhaseB] at h ⊢
    cases hpub : publishMemtable H cfg mem with
    | error e =>
      rw [hpub] at h
      cases h
    | ok sa =>
      obtain ⟨s, anchors⟩ := sa
      rw [hpub] at h
      rcases ih h with ⟨published, heach, hops, hsegs, hrecords, hanchors⟩
      refine ⟨(s, anchors) :: published, .cons hpub heach, ?_, ?_, ?_, hanchors⟩
      · simp only [hops]
        rfl
      · rw [hsegs, append_assoc]
        rfl
      · rw [hrecords, append_assoc]
        rfl

theorem flushPhaseB_ok {plan : List (Memtable × Nat)} {build : FlushBuild}
    (h : (flushPhaseB H cfg FlushBuild.empty plan).2 = .ok build) :
    ∃ published, Built H cfg plan build published ∧
      (flushPhaseB H cfg FlushBuild.empty plan).1 = builtOps plan published := by
  rcases flushPhaseB_loop h with ⟨published, heach, hops, hsegs, hrecords, hanchors⟩
  exact ⟨published, ⟨heach, hsegs, hrecords, hanchors⟩, hops⟩

theorem flushPhaseB_isOk (H : Sha256) (cfg : Config) (plan : List (Memtable × Nat))
    (start : FlushBuild) (h : ∀ mi ∈ plan, ∃ sa, publishMemtable H cfg mi.1 = .ok sa) :
    ∃ build, (flushPhaseB H cfg start plan).2 = .ok build := by
  induction plan generalizing start with
  | nil => exact ⟨start, rfl⟩
  | cons mi plan ih =>
    obtain ⟨mem, id⟩ := mi
    rcases h (mem, id) mem_cons_self with ⟨⟨s, anchors⟩, hpub⟩
    rw [flushPhaseB, hpub]
    exact ih _ fun mi hmi => h mi (mem_cons_of_mem _ hmi)

end Aikoql.Storage
