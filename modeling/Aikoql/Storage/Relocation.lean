import Aikoql.Storage.Anchors
import Aikoql.Storage.MergeRows
import Aikoql.Storage.Reopen

/-!
# Placements After a Compaction

A compaction moves every replica that is placed in a segment.

It draws a fresh placement generation for each, so its records supersede whatever
the map holds, and what the map already holds or has superseded is absorbed. The
anchors of the merge say where the newest row of a replica now stands, and a replica
that lost its last row is retired.
-/

namespace Aikoql.Storage

open List

variable {H : Sha256}
variable {placements : PlacementMap}

/-- The segments with the ids the manifest has for them. -/
def State.segmentsById (st : State) : List (Nat × Segment) :=
  (st.segmentRecords.map SegmentRecord.segmentId).zip st.segments

theorem relocate_ok (relocs : ReplicaId → Option (Option Anchor)) (rids : List ReplicaId)
    (h : ∀ rid ∈ rids, ∃ anchor, relocs rid = some anchor) (pgen : Nat) :
    ∃ moves, (relocate relocs pgen rids).2 = .ok moves ∧ moves.map PlacementRecord.rid = rids ∧
      ∀ r ∈ moves, ∃ anchor g, relocs r.rid = some anchor ∧ r.placement = relocated anchor g := by
  induction rids generalizing pgen with
  | nil => exact ⟨[], rfl, rfl, fun r hr => by cases hr⟩
  | cons rid rids ih =>
    rcases h rid mem_cons_self with ⟨anchor, hanchor⟩
    rcases ih (fun x hx => h x (mem_cons_of_mem rid hx)) (pgen + 1)
      with ⟨moves, hmoves, hrids, hall⟩
    refine ⟨⟨rid, relocated anchor pgen⟩ :: moves, ?_, by rw [map_cons, hrids], ?_⟩
    · rw [relocate, hanchor]
      simp only [hmoves]
      rfl
    · exact forall_mem_cons.mpr ⟨⟨anchor, pgen, hanchor, rfl⟩, hall⟩

theorem mergeRecords_absorbed (records rest : List PlacementRecord)
    (h : ∀ r ∈ records, Absorbs Placement.generation placements r.rid r.placement) :
    mergeRecords placements (records ++ rest) = mergeRecords placements rest := by
  induction records with
  | nil => rfl
  | cons r records ih =>
    rw [cons_append, mergeRecords, mergePlacement, putNewer_of_absorbs (h r mem_cons_self)]
    exact ih fun x hx => h x (mem_cons_of_mem r hx)

theorem mergeRecords_newer (records : List PlacementRecord)
    (hnodup : (records.map PlacementRecord.rid).Nodup)
    (hnewer : ∀ r ∈ records, ∀ q, placements[r.rid]? = some q →
      q.generation < r.placement.generation) :
    (mergeRecords placements records).2 = none ∧
      ∀ rid : ReplicaId, (mergeRecords placements records).1[rid]?
        = match records.find? fun r => r.rid = rid with
          | some r => some r.placement
          | none => placements[rid]? := by
  induction records generalizing placements with
  | nil => exact ⟨rfl, fun _ => rfl⟩
  | cons r records ih =>
    rw [map_cons, nodup_cons] at hnodup
    have hother : ∀ x ∈ records, r.rid ≠ x.rid := fun x hx heq =>
      hnodup.1 (heq ▸ mem_map_of_mem hx)
    have hrest := @ih (placements.insert r.rid r.placement) hnodup.2 (by
      intro x hx q hq
      rw [getElem?_insert_replica, if_neg (hother x hx)] at hq
      exact hnewer x (mem_cons_of_mem r hx) q hq)
    rw [mergeRecords, mergePlacement_newer (hnewer r mem_cons_self)]
    refine ⟨hrest.1, fun rid => (hrest.2 rid).trans ?_⟩
    rw [find?_cons, getElem?_insert_replica]
    by_cases hrid : r.rid = rid
    · have hnone : records.find? (fun r => r.rid = rid) = none :=
        find?_eq_none.mpr fun x hx => by simpa [← hrid] using (hother x hx).symm
      simp [hnone, hrid]
    · simp [hrid]

theorem nodup_segmentRids (placements : PlacementMap) : (segmentRids placements).Nodup := by
  rw [segmentRids, nodup_iff_pairwise_ne, pairwise_map]
  refine (Std.ExtTreeMap.ordered_keys_toList.imp ?_).filter _
  intro a b hab h
  simp [h] at hab

theorem mem_segmentRids {rid : ReplicaId} :
    rid ∈ segmentRids placements ↔ ∃ loc, placements[rid]? = some (.segment loc) := by
  simp only [segmentRids, mem_map, mem_filter]
  constructor
  · rintro ⟨⟨rid', p⟩, ⟨hmem, hseg⟩, rfl⟩
    rw [Std.ExtTreeMap.mem_toList_iff_getElem?_eq_some] at hmem
    cases p with
    | segment loc => exact ⟨loc, hmem⟩
    | memtable g => cases hseg
    | retired g => cases hseg
  · rintro ⟨loc, hloc⟩
    exact ⟨(rid, .segment loc), ⟨Std.ExtTreeMap.mem_toList_iff_getElem?_eq_some.mpr hloc, rfl⟩, rfl⟩

/-! ## The merged segments -/

section

variable {target cap : Nat} {policy : RetentionPolicy} {inputs : List Segment} {out : MergeOutput}

theorem merge_namesNewest (h : merge H target cap policy inputs = .ok out) (ids : List Nat) :
    NamesNewest (ids.zip out.segments) ((out.chunks.zip ids).foldl
      (fun anchors sa => addAnchors sa.2 anchors sa.1.2) ∅) := by
  have hfold := namesNewest_foldl (out.chunks.zip ids) Prod.snd (fun p => p.1.1) (fun p => p.1.2)
    fun p hp => by
      rcases (merge_ok h).1 p.1 (of_mem_zip hp).1 with ⟨hok, htable⟩
      rw [htable]
      exact anchorsOk_table hok
  have hzip : (out.chunks.zip ids).map (fun p => (p.2, p.1.1)) = ids.zip out.segments := by
    rw [MergeOutput.segments, zip_map_right, ← zip_swap, map_map]
    rfl
  rwa [hzip] at hfold

end

section

variable {st : State} {target cap : Nat} {policy : RetentionPolicy} {out : MergeOutput}

theorem segmentsById_compacted (records : List PlacementRecord) :
    (compacted H st out records).segmentsById = (drawnIds st out).zip out.segments := by
  rw [State.segmentsById, compacted]
  simp only [map_segmentId_outputRecords]

theorem Rooted.compacted (h : Rooted st.segmentsById st.dirs.placements)
    (hbelow : st.dirs.Below) (hheld : PendingHeld st.dirs)
    (hmerge : merge H target cap policy st.segments = .ok out) :
    ∃ moves, (movesOf st out).2 = .ok moves ∧
      (mergeRecords st.dirs.placements (st.dirs.pendingPlacements ++ moves)).2 = none ∧
      mergeRecords st.dirs.placements (st.dirs.pendingPlacements ++ moves)
        = mergeRecords st.dirs.placements moves ∧
      ∀ (rid : ReplicaId) (loc : PhysicalLocation),
        (mergeRecords st.dirs.placements (st.dirs.pendingPlacements ++ moves)).1[rid]?
          = some (.segment loc) →
        (∃ old, st.dirs.placements[rid]? = some (.segment old)) ∧
          ∃ seq, NamesRow ((drawnIds st out).zip out.segments) rid loc.segmentId loc.blockId
            loc.entryOffset seq := by
  have hnames := merge_namesNewest hmerge (drawnIds st out)
  -- A replica placed in a segment has a row there, so the merge has seen it.
  have hseen : ∀ rid ∈ segmentRids st.dirs.placements,
      ∃ anchor, relocations out (drawnIds st out) rid = some anchor := by
    intro rid hrid
    rcases mem_segmentRids.mp hrid with ⟨loc, hloc⟩
    rcases h rid loc hloc with ⟨hz, s, hs, e, hpos, rfl⟩
    have hmem : e.replicaId ∈ out.seen := by
      rw [(merge_ok hmerge).2.2, mem_filter]
      refine ⟨mem_map_of_mem (mem_drained.mpr ⟨s, (of_mem_zip hs).2, ?_⟩), by simpa⟩
      exact mem_entries_iff_positions.mpr ⟨_, _, hpos⟩
    exact ⟨_, by rw [relocations, if_pos (by simpa using hmem)]⟩
  rcases relocate_ok _ _ hseen st.dirs.nextPlacementGeneration with ⟨moves, hmoves, hrids, hall⟩
  have hnodup : (moves.map PlacementRecord.rid).Nodup := hrids ▸ nodup_segmentRids _
  have hnewer : ∀ r ∈ moves, ∀ q, st.dirs.placements[r.rid]? = some q →
      q.generation < r.placement.generation := by
    intro r hr q hq
    have hfresh := (relocate_below _ _ _).2 moves hmoves r hr
    exact (hbelow.placements r.rid q hq).trans_le hfresh.1
  have hmap := mergeRecords_newer moves hnodup hnewer
  have habsorbed := mergeRecords_absorbed st.dirs.pendingPlacements moves hheld
  rw [← habsorbed] at hmap
  refine ⟨moves, hmoves, hmap.1, habsorbed, fun rid loc hloc => ?_⟩
  rw [hmap.2 rid] at hloc
  cases hfind : moves.find? fun r => r.rid = rid with
  | none =>
    -- It was placed in a segment, so it has moved.
    rw [hfind] at hloc
    have hmem : rid ∈ moves.map PlacementRecord.rid := hrids ▸ mem_segmentRids.mpr ⟨loc, hloc⟩
    rcases mem_map.mp hmem with ⟨r, hr, hrid⟩
    exact absurd (by simpa using hrid) (find?_eq_none.mp hfind r hr)
  | some r =>
    rw [hfind] at hloc
    have hmoved : r.placement = .segment loc := Option.some.inj hloc
    have hr := mem_of_find?_eq_some hfind
    have hrid : r.rid = rid := by simpa using find?_some hfind
    subst hrid
    refine ⟨mem_segmentRids.mp (hrids ▸ mem_map_of_mem hr), ?_⟩
    rcases hall r hr with ⟨anchor, g, hreloc, hplace⟩
    cases anchor with
    | none => cases hplace.symm.trans hmoved
    | some a =>
      cases hplace.symm.trans hmoved
      have ha : ((out.chunks.zip (drawnIds st out)).foldl
          (fun anchors sa => addAnchors sa.2 anchors sa.1.2) (∅ : Anchors))[r.rid]? = some a := by
        rw [relocations] at hreloc
        split at hreloc
        · exact Option.some.inj hreloc
        · cases hreloc
      exact ⟨a.seq, hnames.names r.rid a ha⟩

end

end Aikoql.Storage
