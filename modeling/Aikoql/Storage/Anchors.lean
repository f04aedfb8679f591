import Aikoql.Storage.Flush

/-!
# Anchors

Where the newest rows of replicas stand among the segments a flush or a merge
publishes.

Each writer hands out one anchor per replica of its segment. A flush and a merge
fold these tables into one, under the ids of the segments, and keep of each replica
the newest. `NamesNewest` is what the fold achieves: an anchor names a row of its
replica that no row of the replica in any of the segments is newer than, and no
replica with a row is left out.
-/

namespace Aikoql.Storage

open List Std.ExtTreeMap

variable {segs : List (Nat × Segment)} {s : Segment} {id : Nat}

/-- A location names a row of a replica that is as new as any in the segments. -/
structure NamesRow (segs : List (Nat × Segment)) (rid : ReplicaId) (id block offset seq : Nat) :
    Prop where
  identity : rid ≠ 0
  row : ∃ s, (id, s) ∈ segs ∧ ∃ e, (e, block, offset) ∈ positions s.blocks ∧
    e.replicaId = rid ∧ e.seq = seq
  newest : ∀ p ∈ segs, ∀ e ∈ p.2.entries, e.replicaId = rid → e.seq ≤ seq

def RootedAt (segs : List (Nat × Segment)) (rid : ReplicaId) (loc : PhysicalLocation) : Prop :=
  rid ≠ 0 ∧ ∃ s, (loc.segmentId, s) ∈ segs ∧
    ∃ e, (e, loc.blockId, loc.entryOffset) ∈ positions s.blocks ∧ e.replicaId = rid

def Rooted (segs : List (Nat × Segment)) (placements : PlacementMap) : Prop :=
  ∀ (rid : ReplicaId) (loc : PhysicalLocation), placements[rid]? = some (.segment loc) →
    RootedAt segs rid loc

theorem NamesRow.rootedAt {rid : ReplicaId} {block offset seq : Nat}
    (h : NamesRow segs rid id block offset seq) (g : Nat) :
    RootedAt segs rid ⟨id, block, offset, g⟩ := by
  rcases h.row with ⟨s, hs, e, hpos, hrid, _⟩
  exact ⟨h.identity, s, hs, e, hpos, hrid⟩

/-- The anchors name the newest rows of the replicas of segments. -/
structure NamesNewest (segs : List (Nat × Segment)) (anchors : Anchors) : Prop where
  names : ∀ (rid : ReplicaId) (a : Anchor), anchors[rid]? = some a →
    NamesRow segs rid a.segmentId a.blockId a.entryOffset a.seq
  covers : ∀ p ∈ segs, ∀ e ∈ p.2.entries, e.replicaId ≠ 0 → ∃ a, anchors[e.replicaId]? = some a

theorem namesNewest_empty : NamesNewest [] ∅ :=
  ⟨fun rid a ha => by simp at ha, fun p hp => by cases hp⟩

def newerAnchor (id : Nat) (best : Option Anchor) (a : SegmentAnchor) : Anchor :=
  match best with
  | some b => if a.seq ≤ b.seq then b else ⟨a.seq, id, a.blockId, a.entryOffset⟩
  | none => ⟨a.seq, id, a.blockId, a.entryOffset⟩

theorem getElem?_keepNewest (id : Nat) (anchors : Anchors) (a : SegmentAnchor) (rid : ReplicaId) :
    (keepNewest id anchors a)[rid]?
      = if a.replicaId = rid then some (newerAnchor id anchors[rid]? a) else anchors[rid]? := by
  unfold keepNewest
  by_cases hrid : a.replicaId = rid
  · rw [if_pos hrid, hrid]
    cases hbest : anchors[rid]? with
    | none => simp [newerAnchor]
    | some best =>
      simp only [newerAnchor]
      split
      · exact hbest
      · simp
  · rw [if_neg hrid]
    cases anchors[a.replicaId]? with
    | none => simp [getElem?_insert_replica, hrid]
    | some best =>
      simp only
      split
      · rfl
      · simp [getElem?_insert_replica, hrid]

theorem getElem?_foldl_keepNewest (id : Nat) (as : List SegmentAnchor) (anchors : Anchors)
    (hnodup : (as.map SegmentAnchor.replicaId).Nodup) (rid : ReplicaId) :
    (as.foldl (keepNewest id) anchors)[rid]? = match as.find? fun a => a.replicaId = rid with
        | some a => some (newerAnchor id anchors[rid]? a)
        | none => anchors[rid]? := by
  induction as generalizing anchors with
  | nil => rfl
  | cons a as ih =>
    rw [map_cons, nodup_cons] at hnodup
    rw [foldl_cons, ih _ hnodup.2, getElem?_keepNewest, find?_cons]
    by_cases hrid : a.replicaId = rid
    · -- No later anchor is of this replica.
      have hnone : as.find? (fun a => a.replicaId = rid) = none := by
        refine find?_eq_none.mpr fun x hx => ?_
        intro h
        exact hnodup.1 (List.mem_map.mpr ⟨x, hx, by simpa [hrid] using h⟩)
      simp [hnone, hrid]
    · simp [hrid]

theorem getElem?_addAnchors {anchors : Anchors} {table : Std.ExtTreeMap ReplicaId SegmentAnchor}
    (htable : ∀ (rid : ReplicaId) (a : SegmentAnchor), table[rid]? = some a → a.replicaId = rid)
    (rid : ReplicaId) : (addAnchors id anchors table)[rid]? = match table[rid]? with
        | some a => some (newerAnchor id anchors[rid]? a)
        | none => anchors[rid]? := by
  have hmem : ∀ p ∈ table.toList, p.2.replicaId = p.1 := fun p hp =>
    htable p.1 p.2 (mem_toList_iff_getElem?_eq_some.mp hp)
  have hkeys : (table.toList.map Prod.snd).map SegmentAnchor.replicaId = table.toList.map Prod.fst := by
    rw [List.map_map]
    exact map_congr_left fun p hp => hmem p hp
  have hnodup : (table.toList.map Prod.fst).Nodup := by
    rw [nodup_iff_pairwise_ne, pairwise_map]
    exact ordered_keys_toList.imp fun {a b} hab h => by simp [h] at hab
  rw [addAnchors, getElem?_foldl_keepNewest id _ anchors (hkeys ▸ hnodup)]
  cases hfind : (table.toList.map Prod.snd).find? fun a => a.replicaId = rid with
  | none =>
    cases hget : table[rid]? with
    | none => rfl
    | some a =>
      have ha : a ∈ table.toList.map Prod.snd :=
        List.mem_map.mpr ⟨(rid, a), mem_toList_iff_getElem?_eq_some.mpr hget, rfl⟩
      exact absurd (by simpa using htable rid a hget) (find?_eq_none.mp hfind a ha)
  | some a =>
    rcases List.mem_map.mp (mem_of_find?_eq_some hfind) with ⟨p, hp, rfl⟩
    have hrid : p.2.replicaId = rid := by simpa using find?_some hfind
    have hget : table[rid]? = some p.2 := by
      rw [← hrid, hmem p hp]
      exact mem_toList_iff_getElem?_eq_some.mp hp
    rw [hget]

theorem anchorsOk_table {H : Sha256} (h : s.Ok H) :
    AnchorsOk (if s.v4 then anchorsOf s.blocks else ∅) (positions s.blocks) := by
  cases hv : s.v4 with
  | true => exact anchorsOf_ok s.blocks
  | false =>
    refine ⟨fun rid a ha => by simp at ha, fun row hrow hz => absurd ?_ hz⟩
    exact h.plain hv row.1 (mem_entries_iff_positions.mpr ⟨row.2.1, row.2.2, hrow⟩)

theorem NamesRow.snoc {rid : ReplicaId} {block offset seq id' : Nat}
    (h : NamesRow segs rid id block offset seq)
    (hs : ∀ e ∈ s.entries, e.replicaId = rid → e.seq ≤ seq) :
    NamesRow (segs ++ [(id', s)]) rid id block offset seq := by
  rcases h.row with ⟨t, ht, e, he⟩
  exact ⟨h.identity, ⟨t, mem_append_left _ ht, e, he⟩,
    forall_mem_append.mpr ⟨h.newest, forall_mem_singleton.mpr hs⟩⟩

theorem NamesNewest.addAnchors {anchors : Anchors} {table : Std.ExtTreeMap ReplicaId SegmentAnchor}
    (h : NamesNewest segs anchors) (htable : AnchorsOk table (positions s.blocks)) :
    NamesNewest (segs ++ [(id, s)]) (addAnchors id anchors table) := by
  have hget := @getElem?_addAnchors id anchors table fun rid a ha => (htable.1 rid a ha).2.1
  have hrows : ∀ e ∈ s.entries, ∃ b o, (e, b, o) ∈ positions s.blocks := fun e he =>
    mem_entries_iff_positions.mp he
  refine ⟨fun rid a ha => ?_, fun p hp e he hz => ?_⟩
  · rw [hget] at ha
    cases hrid : table[rid]? with
    | none =>
      -- The segment has no row of the replica.
      rw [hrid] at ha
      refine (h.names rid a ha).snoc fun e he herid => ?_
      rcases hrows e he with ⟨b, o, hpos⟩
      rcases htable.2 _ hpos (herid ▸ (h.names rid a ha).identity) with ⟨a', ha'⟩
      rw [show e.replicaId = rid from herid, hrid] at ha'
      cases ha'
    | some t =>
      rw [hrid] at ha
      cases ha
      rcases htable.1 rid t hrid with ⟨hz, rfl, ⟨e, hpos, herid, heseq⟩, hmax⟩
      have hseg : ∀ x ∈ s.entries, x.replicaId = t.replicaId → x.seq ≤ t.seq := by
        intro x hx hxrid
        rcases hrows x hx with ⟨b, o, hxpos⟩
        exact hmax _ hxpos hxrid
      have hnew : (∀ p ∈ segs, ∀ x ∈ p.2.entries, x.replicaId = t.replicaId → x.seq ≤ t.seq) →
          NamesRow (segs ++ [(id, s)]) t.replicaId id t.blockId t.entryOffset t.seq := by
        intro hold
        exact ⟨hz, ⟨s, by simp, e, hpos, herid, heseq⟩,
          forall_mem_append.mpr ⟨hold, forall_mem_singleton.mpr hseg⟩⟩
      cases hbest : anchors[t.replicaId]? with
      | none =>
        refine hnew fun p hp x hx hxrid => ?_
        rcases h.covers p hp x hx (hxrid ▸ hz) with ⟨b, hb⟩
        rw [hxrid, hbest] at hb
        cases hb
      | some best =>
        have hb := h.names _ best hbest
        rw [newerAnchor]
        by_cases hle : t.seq ≤ best.seq
        · rw [if_pos hle]
          exact hb.snoc fun x hx hxrid => (hseg x hx hxrid).trans hle
        · rw [if_neg hle]
          refine hnew fun p hp x hx hxrid => ?_
          have := hb.newest p hp x hx hxrid
          omega
  · rw [hget]
    rcases mem_append.mp hp with hp | hp
    · rcases h.covers p hp e he hz with ⟨a, ha⟩
      cases table[e.replicaId]? with
      | none => exact ⟨a, ha⟩
      | some t => exact ⟨_, rfl⟩
    · rw [mem_singleton.mp hp] at he
      rcases hrows e he with ⟨b, o, hpos⟩
      rcases htable.2 _ hpos hz with ⟨t, ht⟩
      rw [show table[e.replicaId]? = some t from ht]
      exact ⟨_, rfl⟩

theorem namesNewest_foldl {β : Type} (items : List β) (id : β → Nat) (seg : β → Segment)
    (table : β → Std.ExtTreeMap ReplicaId SegmentAnchor)
    (h : ∀ b ∈ items, AnchorsOk (table b) (positions (seg b).blocks)) :
    NamesNewest (items.map fun b => (id b, seg b))
      (items.foldl (fun anchors b => Storage.addAnchors (id b) anchors (table b)) ∅) := by
  induction items using List.reverseRecOn with
  | nil => exact namesNewest_empty
  | append_singleton items b ih =>
    rw [map_append, foldl_append]
    exact (ih fun x hx => h x (mem_append_left _ hx)).addAnchors (h b (by simp))

end Aikoql.Storage
