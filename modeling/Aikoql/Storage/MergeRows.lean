import Aikoql.Storage.CompactSteps

/-!
# What a Merge Leaves and Archives

The rows of a merge, for any inputs the writers published.

The rows it drains are sorted, and what stays and what is archived are taken from them
in order. A recovery can flush a row a second time, and then the archive would hold it
twice, which the writer refuses. If no row is held twice (`NoRepeat`), the output passes
every check of the writer.

## Theorems

* `mem_archivedEntries`: Which rows are archived.
* `merge_isOk_of_noRepeat`: A merge that succeeds.
* `NoRepeat.merge`: No row is held twice behind it.
-/

namespace Aikoql.Storage

open List

variable {e : SegmentEntry} {es : List SegmentEntry} {policy : RetentionPolicy} {out : MergeOutput}
  {cap target : Nat} {s : Segment} {srf : Surface}

def rowsOf (segs : List Segment) : List SegmentEntry :=
  segs.flatMap Segment.entries

section

variable {H : Sha256} {inputs : List Segment}

theorem find?_on_max (h : es.Pairwise fun a b => mergeLe a b = true)
    (hfind : es.find? (SegmentEntry.on srf) = some e) : (e.key = srf.1 ∧ e.replicaId = srf.2) ∧
      ∀ e' ∈ es, e'.key = srf.1 → e'.replicaId = srf.2 → e'.seq ≤ e.seq := by
  have hon : e.key = srf.1 ∧ e.replicaId = srf.2 := by
    simpa [SegmentEntry.on] using find?_some hfind
  refine ⟨hon, fun e' he' hkey hrid => ?_⟩
  rcases find?_eq_some_iff_append.mp hfind with ⟨_, front, rest, rfl, hfront⟩
  rcases mem_append.mp he' with he' | he'
  · -- Nothing in front is of the surface.
    have hnot := hfront e' he'
    simp [SegmentEntry.on, hkey, hrid] at hnot
  · rcases mem_cons.mp he' with rfl | he'
    · exact le_rfl
    · have hle := (pairwise_cons.mp (pairwise_append.mp h).2.1).1 e' he'
      rcases (mergeLe_iff _ _).mp hle with hlt | ⟨_, hseq⟩
      · exact absurd (hon.1.trans hkey.symm) hlt.ne
      · exact hseq

theorem Segment.read_max (h : s.Ok H) (hread : s.read srf = some e) :
    (e.key = srf.1 ∧ e.replicaId = srf.2) ∧
      ∀ e' ∈ s.entries, e'.key = srf.1 → e'.replicaId = srf.2 → e'.seq ≤ e.seq :=
  find?_on_max (mergeLe_of_entryLt h.sorted) hread

/-! ## Publishing -/

theorem chunkEntries_nonempty (cap len : Nat) (buf es : List SegmentEntry)
    (hlen : buf = [] → len = 0) : ∀ chunk ∈ chunkEntries cap len buf es, chunk ≠ [] := by
  induction es generalizing len buf with
  | nil =>
    intro chunk hchunk
    cases buf with
    | nil => cases hchunk
    | cons b buf =>
      rw [chunkEntries, mem_singleton] at hchunk
      simp [hchunk]
  | cons e es ih =>
    intro chunk hchunk
    rw [chunkEntries] at hchunk
    split at hchunk
    · rename_i hfull
      rcases mem_cons.mp hchunk with rfl | hchunk
      · intro hnil
        have := hlen (reverse_eq_nil_iff.mp hnil)
        omega
      · exact ih _ _ (fun h => by cases h) chunk hchunk
    · exact ih _ _ (fun h => by cases h) chunk hchunk

theorem publishChunks_isOk (htarget : target ≠ 0) (hlen : ∀ e ∈ es, e.key.length ≤ maxKeyLen)
    (hsorted : es.Pairwise EntryLt) : ∃ out, publishChunks H target cap es = .ok out := by
  unfold publishChunks
  refine mapM_isOk _ _ fun wc hwc => ?_
  have hmem : wc.2 ∈ chunkEntries cap 0 [] es := by
    rw [← chunkVersions_snd false (chunkEntries cap 0 [] es)]
    exact mem_map_of_mem hwc
  have hflat : (chunkEntries cap 0 [] es).flatten = es := chunkEntries_flatten cap 0 [] es
  have hchunk : wc.2.Sublist es := hflat ▸ sublist_flatten_of_mem hmem
  have hcheck := checkEntries_of_sorted target wc.2 htarget
    (chunkEntries_nonempty cap 0 [] es (fun _ => rfl) wc.2 hmem)
    (fun e he => hlen e (hchunk.subset he)) (hsorted.sublist hchunk)
  rw [publishSortedEntries, hcheck, ok_bind]
  exact ⟨_, rfl⟩

/-! ## Archiving -/

def NoRepeat (segs : List Segment) : Prop :=
  (rowsOf segs).Pairwise fun a b => ¬(a.key = b.key ∧ a.seq = b.seq)

theorem noRepeat_of_sorted (h : es.Pairwise EntryLt) :
    es.Pairwise fun a b => ¬(a.key = b.key ∧ a.seq = b.seq) := by
  refine h.imp fun {a b} hab heq => ?_
  rcases hab with hlt | ⟨_, hlt⟩
  · exact hlt.ne heq.1
  · exact hlt.ne heq.2.symm

theorem NoRepeat.drained (h : NoRepeat inputs) (hok : ∀ s ∈ inputs, s.Ok H) :
    (drained inputs).Pairwise EntryLt := by
  have hapart := (drained_perm inputs).symm.pairwise h fun hab hba =>
    hab ⟨hba.1.symm, hba.2.symm⟩
  refine ((drained_sorted inputs hok).and hapart).imp fun {a b} hab => ?_
  rcases (mergeLe_iff a b).mp hab.1 with hlt | ⟨hkey, hseq⟩
  · exact .inl hlt
  · exact .inr ⟨hkey, lt_of_le_of_ne hseq fun heq => hab.2 ⟨hkey, heq.symm⟩⟩

theorem archiveRun_sublist (policy : RetentionPolicy) (run : List SegmentEntry) :
    (archiveRun policy run).Sublist run := by
  unfold archiveRun
  split
  · exact nil_sublist run
  · exact nil_sublist run
  · exact Sublist.refl run

theorem mem_archivedEntries : e ∈ archivedEntries policy inputs ↔
      (∃ s ∈ inputs, e ∈ s.entries) ∧ policy e.key = .archive := by
  have hcut := cutByKey_drained inputs
  have hrun : ∀ run ∈ runsOf (drained inputs).length (drained inputs),
      e ∈ archiveRun policy run ↔ e ∈ run ∧ policy e.key = .archive := by
    intro run hrun
    unfold archiveRun
    by_cases he : e ∈ run
    · rw [hcut.key run hrun e he]
      cases policy (firstKey run) <;> simp [he]
    · cases policy (firstKey run) <;> simp [he]
  rw [← mem_drained, ← hcut.flatten, archivedEntries, mem_flatMap, mem_flatten]
  constructor
  · rintro ⟨run, hmem, he⟩
    rw [hrun run hmem] at he
    exact ⟨⟨run, hmem, he.1⟩, he.2⟩
  · rintro ⟨⟨run, hmem, he⟩, harchive⟩
    exact ⟨run, hmem, (hrun run hmem).mpr ⟨he, harchive⟩⟩

theorem merge_archived (h : merge H target cap policy inputs = .ok out) :
    rowsOf out.archive = archivedEntries policy inputs := by
  simp only [merge, bind_eq_ok, pure_eq_ok] at h
  rcases h with ⟨chunks, _, archive, harchive, rfl⟩
  rw [rowsOf, flatMap_map]
  exact (publishChunks_ok harchive).2

theorem NoRepeat.merge (h : NoRepeat inputs) (hok : ∀ s ∈ inputs, s.Ok H)
    (hmerge : merge H target cap policy inputs = .ok out) : NoRepeat out.segments := by
  have hlive : rowsOf out.segments = liveEntries policy inputs := (merge_ok hmerge).2.1
  rw [NoRepeat, hlive]
  exact noRepeat_of_sorted ((h.drained hok).sublist (liveEntries_sublist policy inputs))

theorem merge_isOk_of_noRepeat (cap : Nat) (policy : RetentionPolicy) (htarget : target ≠ 0)
    (hok : ∀ s ∈ inputs, s.Ok H) (hlen : ∀ s ∈ inputs, ∀ e ∈ s.entries, e.key.length ≤ maxKeyLen)
    (hrows : NoRepeat inputs) : ∃ out, merge H target cap policy inputs = .ok out := by
  have hsorted := hrows.drained hok
  -- What stays and what is archived are both taken from the drained rows.
  have hpublish : ∀ es : List SegmentEntry, es.Sublist (Storage.drained inputs) →
      ∃ out, publishChunks H target cap es = .ok out := by
    intro es hes
    refine publishChunks_isOk htarget (fun e he => ?_) (hsorted.sublist hes)
    rcases mem_drained.mp (hes.subset he) with ⟨s, hs, hes'⟩
    exact hlen s hs e hes'
  rcases hpublish _ (liveEntries_sublist policy inputs) with ⟨live, hlive⟩
  rcases hpublish (archivedEntries policy inputs)
    ((cutByKey_drained inputs).sublist (archiveRun_sublist policy)) with ⟨archive, harchive⟩
  rw [merge, hlive, ok_bind, harchive, ok_bind]
  exact ⟨_, rfl⟩

end

end Aikoql.Storage
