import Aikoql.Lib.KWayMerge
import Aikoql.Storage.SegmentReads

/-!
# Compaction

Merging all segments of a database into a new set of them.

The merge drains the segments through a priority queue, lowest key first and
newest version first within a key, so the rows of one key arrive together. Of
such a run the first row of each replica survives, unless it is a tombstone;
the merged output is the bottom level, so nothing older is left for it to hide.
A retention policy may instead drop a key's run or move it to an archive. What
survives is cut into chunks of a bounded size, and each chunk is published as a
segment.

The result that matters to readers is `firstHit_merge`: on a surface whose key
the policy keeps, the merged segments answer as the inputs did.

## Theorems

* `firstHit_merge`: The merged segments answer as the inputs did.
-/

namespace Aikoql.Storage

open List

variable {H : Sha256} (policy : RetentionPolicy) {inputs : List Segment} {es : List SegmentEntry}
  {e : SegmentEntry} {out : MergeOutput} {cap target : Nat}

/-- What becomes of the rows of a key. -/
inductive Retention where
  | keep
  | drop
  | archive
  deriving DecidableEq

abbrev RetentionPolicy := Bytes → Retention

def keepAll : RetentionPolicy := fun _ => .keep

def mergeLe (a b : SegmentEntry) : Bool :=
  decide (a.key < b.key) || (decide (a.key = b.key) && decide (b.seq ≤ a.seq))

def runsOf : Nat → List SegmentEntry → List (List SegmentEntry)
  | 0, _ => []
  | _, [] => []
  | fuel + 1, e :: es =>
    (e :: es.takeWhile fun x => x.key = e.key) :: runsOf fuel (es.dropWhile fun x => x.key = e.key)

/-- The first row of each replica, `seen` being those already met. -/
def freshPerReplica : List ReplicaId → List SegmentEntry → List SegmentEntry
  | _, [] => []
  | seen, e :: es =>
    if seen.contains e.replicaId then freshPerReplica seen es
    else e :: freshPerReplica (e.replicaId :: seen) es

/-- The same with a set, which a long run uses. -/
def freshBySet : Std.ExtTreeSet ReplicaId → List SegmentEntry → List SegmentEntry
  | _, [] => []
  | seen, e :: es =>
    if seen.contains e.replicaId then freshBySet seen es
    else e :: freshBySet (seen.insert e.replicaId) es

/-- The length of a run past which the set is used. -/
def dedupCrossover : Nat := 64

def survivors (run : List SegmentEntry) : List SegmentEntry :=
  (if dedupCrossover < run.length then freshBySet ∅ run else freshPerReplica [] run).filter
    fun e => !e.isDelete

def liveRun (policy : RetentionPolicy) (run : List SegmentEntry) : List SegmentEntry :=
  match policy (firstKey run) with
  | .keep => survivors run
  | .drop => []
  | .archive => []

def archiveRun (policy : RetentionPolicy) (run : List SegmentEntry) : List SegmentEntry :=
  match policy (firstKey run) with
  | .keep => []
  | .drop => []
  | .archive => run

/-- The size a row counts for in a chunk. -/
def entryBytes (e : SegmentEntry) : Nat :=
  e.key.length + e.value.length + 17

/-- Cut rows into chunks of a bounded size, the chunk being filled in reverse.
    A bound of zero means one chunk. -/
def chunkEntries (cap : Nat) :
    Nat → List SegmentEntry → List SegmentEntry → List (List SegmentEntry)
  | _, [], [] => []
  | _, b :: buf, [] => [(b :: buf).reverse]
  | len, buf, e :: es =>
    if 0 < cap ∧ 0 < len ∧ cap < len + entryBytes e then
      buf.reverse :: chunkEntries cap (entryBytes e) [e] es
    else
      chunkEntries cap (len + entryBytes e) (e :: buf) es

def chunkVersions : Bool → List (List SegmentEntry) → List (BlockVersion × List SegmentEntry)
  | _, [] => []
  | v4, chunk :: chunks =>
    let v4 := v4 || chunk.any fun e => e.replicaId ≠ 0
    (if v4 then newV4 else newV2, chunk) :: chunkVersions v4 chunks

/-- The output of a merge: published chunks with their anchors, the replicas the inputs mentioned,
    and the archive. -/
structure MergeOutput where
  chunks : List (Segment × Std.ExtTreeMap ReplicaId SegmentAnchor)
  seen : List ReplicaId
  archive : List Segment

def drained (inputs : List Segment) : List SegmentEntry :=
  mergeStreams mergeLe (inputs.map Segment.entries)

def liveEntries (policy : RetentionPolicy) (inputs : List Segment) : List SegmentEntry :=
  (runsOf (drained inputs).length (drained inputs)).flatMap (liveRun policy)

def archivedEntries (policy : RetentionPolicy) (inputs : List Segment) : List SegmentEntry :=
  (runsOf (drained inputs).length (drained inputs)).flatMap (archiveRun policy)

def publishChunks (H : Sha256) (target cap : Nat) (entries : List SegmentEntry) :
    Except FormatError (List (Segment × Std.ExtTreeMap ReplicaId SegmentAnchor)) :=
  (chunkVersions false (chunkEntries cap 0 [] entries)).mapM fun wc =>
    publishSortedEntries H wc.1 target wc.2

def merge (H : Sha256) (target cap : Nat) (policy : RetentionPolicy) (inputs : List Segment) :
    Except FormatError MergeOutput := do
  let chunks ← publishChunks H target cap (liveEntries policy inputs)
  let archive ← publishChunks H target cap (archivedEntries policy inputs)
  return {
    chunks := chunks
    seen := ((drained inputs).map SegmentEntry.replicaId).filter fun rid => rid ≠ 0
    archive := archive.map Prod.fst }

/-! ## Draining -/

theorem mergeLe_iff (a b : SegmentEntry) :
    mergeLe a b = true ↔ a.key < b.key ∨ a.key = b.key ∧ b.seq ≤ a.seq := by
  simp [mergeLe]

theorem mergeLe_trans (a b c : SegmentEntry) (hab : mergeLe a b = true)
    (hbc : mergeLe b c = true) : mergeLe a c = true := by
  rw [mergeLe_iff] at *
  rcases hab with hab | ⟨hab, hs⟩ <;> rcases hbc with hbc | ⟨hbc, ht⟩
  · exact .inl (lt_trans hab hbc)
  · exact .inl (hbc ▸ hab)
  · exact .inl (hab ▸ hbc)
  · exact .inr ⟨hab.trans hbc, le_trans ht hs⟩

theorem mergeLe_total (a b : SegmentEntry) : mergeLe a b = true ∨ mergeLe b a = true := by
  rw [mergeLe_iff, mergeLe_iff]
  rcases lt_trichotomy a.key b.key with h | h | h
  · exact .inl (.inl h)
  · rcases Nat.le_total b.seq a.seq with hs | hs
    · exact .inl (.inr ⟨h, hs⟩)
    · exact .inr (.inr ⟨h.symm, hs⟩)
  · exact .inr (.inl h)

theorem drained_perm (inputs : List Segment) :
    (drained inputs).Perm (inputs.flatMap Segment.entries) := by
  rw [flatMap_def]
  exact mergeStreams_perm mergeLe _

theorem mem_drained : e ∈ drained inputs ↔ ∃ s ∈ inputs, e ∈ s.entries := by
  rw [(drained_perm inputs).mem_iff, mem_flatMap]

theorem mergeLe_of_entryLt (h : es.Pairwise EntryLt) :
    es.Pairwise fun a b => mergeLe a b = true := by
  refine h.imp fun {a b} hab => (mergeLe_iff a b).mpr ?_
  rcases hab with hab | hab
  · exact .inl hab
  · exact .inr ⟨hab.1, hab.2.le⟩

theorem drained_sorted (inputs : List Segment) (hok : ∀ s ∈ inputs, s.Ok H) :
    (drained inputs).Pairwise fun a b => mergeLe a b = true := by
  refine mergeStreams_sorted mergeLe mergeLe_trans mergeLe_total _ ?_
  exact forall_mem_map.mpr fun s hs => mergeLe_of_entryLt (hok s hs).sorted

/-! ## Runs -/

theorem key_le_of_mergeLe (h : es.Pairwise fun a b => mergeLe a b = true) :
    es.Pairwise fun a b => a.key ≤ b.key :=
  h.imp fun {a b} hab => ((mergeLe_iff a b).mp hab).elim le_of_lt fun hab => le_of_eq hab.1

theorem lt_of_mem_dropWhile {x : SegmentEntry}
    (hsorted : (e :: es).Pairwise fun a b => a.key ≤ b.key)
    (hx : x ∈ es.dropWhile fun x => x.key = e.key) : e.key < x.key := by
  rcases hd : es.dropWhile (fun x => x.key = e.key) with _ | ⟨y, ys⟩
  · rw [hd] at hx
    cases hx
  have hy : ¬y.key = e.key := by
    have := head_dropWhile_not (fun x : SegmentEntry => decide (x.key = e.key)) (l := es)
      (by rw [hd]; simp)
    simpa [hd] using this
  have hsub : (y :: ys).Sublist es := hd ▸ dropWhile_sublist _
  rw [pairwise_cons] at hsorted
  have hey : e.key < y.key :=
    lt_of_le_of_ne (hsorted.1 y (hsub.subset mem_cons_self)) (Ne.symm hy)
  rw [hd] at hx
  rcases mem_cons.mp hx with rfl | hx
  · exact hey
  · exact lt_of_lt_of_le hey ((pairwise_cons.mp (hsorted.2.sublist hsub)).1 x hx)

/-- What the runs of a list are: put together they are the list, each is of one key, and where the
    list is by key the keys of later runs are larger. -/
structure CutByKey (es : List SegmentEntry) (runs : List (List SegmentEntry)) : Prop where
  flatten : runs.flatten = es
  key : ∀ run ∈ runs, ∀ x ∈ run, x.key = firstKey run
  later : (es.Pairwise fun a b => a.key ≤ b.key) →
    runs.Pairwise fun a b => ∀ x ∈ a, ∀ y ∈ b, x.key < y.key

theorem cutByKey_runsOf (fuel : Nat) (es : List SegmentEntry) (hfuel : es.length ≤ fuel) :
    CutByKey es (runsOf fuel es) := by
  induction fuel generalizing es with
  | zero =>
    rw [length_eq_zero_iff.mp (Nat.le_zero.mp hfuel)]
    exact ⟨rfl, by simp [runsOf], fun _ => List.Pairwise.nil⟩
  | succ fuel ih =>
    cases es with
    | nil => exact ⟨rfl, by simp [runsOf], fun _ => List.Pairwise.nil⟩
    | cons e es =>
      have hsub : (es.dropWhile fun x => x.key = e.key).Sublist es := dropWhile_sublist _
      have hrest := ih _ (hsub.length_le.trans (Nat.le_of_succ_le_succ hfuel))
      have hkey : ∀ x ∈ e :: es.takeWhile fun x => x.key = e.key, x.key = e.key := by
        exact forall_mem_cons.mpr ⟨rfl, fun x hx => by simpa using mem_takeWhile_imp hx⟩
      rw [runsOf]
      refine ⟨?_, forall_mem_cons.mpr ⟨hkey, hrest.key⟩, fun hsorted => ?_⟩
      · rw [flatten_cons, hrest.flatten, cons_append, takeWhile_append_dropWhile]
      · refine pairwise_cons.mpr
          ⟨fun b hb x hx y hy => ?_, hrest.later (hsorted.sublist (hsub.cons e))⟩
        rw [hkey x hx]
        exact lt_of_mem_dropWhile hsorted (hrest.flatten ▸ mem_flatten.mpr ⟨b, hb, hy⟩)

theorem CutByKey.sublist {runs : List (List SegmentEntry)} (h : CutByKey es runs)
    {take : List SegmentEntry → List SegmentEntry} (htake : ∀ run, (take run).Sublist run) :
    (runs.flatMap take).Sublist es := by
  rw [← h.flatten]
  clear h
  induction runs with
  | nil => exact Sublist.refl _
  | cons run runs ih => exact (htake run).append ih

theorem cutByKey_drained (inputs : List Segment) :
    CutByKey (drained inputs) (runsOf (drained inputs).length (drained inputs)) :=
  cutByKey_runsOf _ _ le_rfl

theorem freshBySet_eq (set : Std.ExtTreeSet ReplicaId) (seen : List ReplicaId)
    (run : List SegmentEntry) (h : ∀ rid, set.contains rid = seen.contains rid) :
    freshBySet set run = freshPerReplica seen run := by
  induction run generalizing set seen with
  | nil => rfl
  | cons e run ih =>
    rw [freshBySet, freshPerReplica, h, ih set seen h,
      ih (set.insert e.replicaId) (e.replicaId :: seen)]
    intro rid
    rw [Std.ExtTreeSet.contains_insert, h, contains_cons, Bool.eq_iff_iff]
    simp only [Bool.or_eq_true, beq_iff_eq, Std.compare_eq_iff_eq]
    exact or_congr_left eq_comm

theorem survivors_eq (run : List SegmentEntry) :
    survivors run = (freshPerReplica [] run).filter fun e => !e.isDelete := by
  rw [survivors, freshBySet_eq ∅ [] run (fun _ => by simp), ite_self]

theorem find?_survivors (srf : Surface) (seen : List ReplicaId) (run : List SegmentEntry)
    (hkey : ∀ e ∈ run, e.key = srf.1) :
    ((freshPerReplica seen run).filter fun e => !e.isDelete).find? (SegmentEntry.on srf)
      = if srf.2 ∈ seen then none
        else (run.find? (SegmentEntry.on srf)).filter fun e => !e.isDelete := by
  induction run generalizing seen with
  | nil => simp [freshPerReplica]
  | cons e run ih =>
    have hrun : ∀ e ∈ run, e.key = srf.1 := fun x hx => hkey x (mem_cons_of_mem e hx)
    have hon : e.on srf = decide (e.replicaId = srf.2) := by
      simp [SegmentEntry.on, hkey e mem_cons_self]
    rw [freshPerReplica, find?_cons]
    by_cases hseen : e.replicaId ∈ seen
    · rw [if_pos (by simpa using hseen), ih seen hrun]
      by_cases hsrf : srf.2 ∈ seen
      · simp only [hsrf, if_true]
      · have hne : e.replicaId ≠ srf.2 := fun h => hsrf (h ▸ hseen)
        simp only [hsrf, if_false, hon, hne, decide_false]
    · rw [if_neg (by simpa using hseen), filter_cons]
      by_cases hr : e.replicaId = srf.2
      · have hsrf : srf.2 ∉ seen := hr ▸ hseen
        simp only [hsrf, if_false, hon, hr, decide_true, Option.filter_some]
        cases hd : e.isDelete
        · simp [hon, hr]
        · simp [ih _ hrun]
      · have hiff : srf.2 ∈ e.replicaId :: seen ↔ srf.2 ∈ seen := by
          simp [mem_cons, Ne.symm hr]
        simp only [hon, hr, decide_false]
        split
        · rw [find?_cons, hon, decide_eq_false hr]
          simp only [ih _ hrun, hiff]
        · simp only [ih _ hrun, hiff]

theorem find?_eq_none_of_key {srf : Surface} (h : ∀ e ∈ es, e.key ≠ srf.1) :
    es.find? (SegmentEntry.on srf) = none := by
  rw [find?_eq_none]
  intro e he
  simp [SegmentEntry.on, h e he]

theorem freshPerReplica_sublist (seen : List ReplicaId) (run : List SegmentEntry) :
    (freshPerReplica seen run).Sublist run := by
  induction run generalizing seen with
  | nil => exact Sublist.refl _
  | cons e run ih =>
    rw [freshPerReplica]
    split
    · exact (ih seen).cons e
    · exact (ih _).cons_cons e

theorem liveRun_sublist (run : List SegmentEntry) : (liveRun policy run).Sublist run := by
  unfold liveRun
  split
  · rw [survivors_eq]
    exact filter_sublist.trans (freshPerReplica_sublist [] run)
  · exact nil_sublist run
  · exact nil_sublist run

theorem CutByKey.find?_live {runs : List (List SegmentEntry)} (h : CutByKey es runs)
    (hsorted : es.Pairwise fun a b => a.key ≤ b.key) (srf : Surface) :
    (runs.flatMap (liveRun policy)).find? (SegmentEntry.on srf) = if policy srf.1 = .keep then
          (es.find? (SegmentEntry.on srf)).filter fun e => !e.isDelete
        else none := by
  have hkey := h.key
  have hlater := h.later hsorted
  rw [← h.flatten]
  clear h hsorted
  induction runs with
  | nil => simp
  | cons run runs ih =>
    rw [pairwise_cons] at hlater
    rw [flatMap_cons, flatten_cons, find?_append, find?_append,
      ih (fun r hr => hkey r (mem_cons_of_mem run hr)) hlater.2]
    by_cases hk : ∃ x ∈ run, x.key = srf.1
    · rcases hk with ⟨x, hx, hxk⟩
      have hnone : runs.flatten.find? (SegmentEntry.on srf) = none := by
        refine find?_eq_none_of_key fun y hy hyk => ?_
        rcases mem_flatten.mp hy with ⟨b, hb, hyb⟩
        exact absurd (hxk.trans hyk.symm) (hlater.1 b hb x hx y hyb).ne
      have hrun := hkey run mem_cons_self
      have hfirst : firstKey run = srf.1 := (hrun x hx).symm.trans hxk
      rw [hnone, liveRun, hfirst]
      cases hp : policy srf.1 with
      | keep =>
        simp only [survivors_eq, if_true, Option.filter_none, Option.or_none]
        rw [find?_survivors srf [] run (fun x hx => (hrun x hx).trans hfirst)]
        simp
      | drop => simp
      | archive => simp
    · have hout : ∀ x ∈ run, x.key ≠ srf.1 := fun x hx hxk => hk ⟨x, hx, hxk⟩
      rw [find?_eq_none_of_key hout,
        find?_eq_none_of_key fun x hx => hout x ((liveRun_sublist policy run).subset hx)]
      rfl

theorem find?_live (inputs : List Segment) (hok : ∀ s ∈ inputs, s.Ok H) (srf : Surface) :
    (liveEntries policy inputs).find? (SegmentEntry.on srf) = if policy srf.1 = .keep then
          ((drained inputs).find? (SegmentEntry.on srf)).filter fun e => !e.isDelete
        else none :=
  (cutByKey_drained inputs).find?_live policy (key_le_of_mergeLe (drained_sorted inputs hok)) srf

/-- Two rows of different surfaces. -/
def Apart (a b : SegmentEntry) : Prop :=
  ¬(a.key = b.key ∧ a.replicaId = b.replicaId)

theorem freshPerReplica_apart (seen : List ReplicaId) (run : List SegmentEntry) :
    (freshPerReplica seen run).Pairwise (fun a b => a.replicaId ≠ b.replicaId) ∧
      ∀ e ∈ freshPerReplica seen run, e.replicaId ∉ seen := by
  induction run generalizing seen with
  | nil => exact ⟨List.Pairwise.nil, fun e he => by cases he⟩
  | cons e run ih =>
    rw [freshPerReplica]
    split
    · exact ih seen
    · rename_i hseen
      rcases ih (e.replicaId :: seen) with ⟨hpair, hfresh⟩
      refine ⟨pairwise_cons.mpr ⟨fun x hx h => ?_, hpair⟩, ?_⟩
      · exact hfresh x hx (by simp [h])
      · exact forall_mem_cons.mpr ⟨by simpa using hseen,
          fun x hx h => hfresh x hx (mem_cons_of_mem _ h)⟩

theorem liveEntries_apart (inputs : List Segment) (hok : ∀ s ∈ inputs, s.Ok H) :
    (liveEntries policy inputs).Pairwise Apart := by
  have hlater := (cutByKey_drained inputs).later (key_le_of_mergeLe (drained_sorted inputs hok))
  refine pairwise_flatMap.mpr ⟨fun run _ => ?_, hlater.imp fun {a b} hab x hx y hy heq => ?_⟩
  · unfold liveRun
    split
    · rw [survivors_eq]
      exact ((freshPerReplica_apart [] run).1.imp fun {a b} h hab => h hab.2).filter _
    · exact List.Pairwise.nil
    · exact List.Pairwise.nil
  · have hx' := (liveRun_sublist policy a).subset hx
    exact absurd heq.1 (hab x hx' y ((liveRun_sublist policy b).subset hy)).ne

theorem liveEntries_sublist (inputs : List Segment) :
    (liveEntries policy inputs).Sublist (drained inputs) :=
  (cutByKey_drained inputs).sublist (liveRun_sublist policy)

/-! ## Chunks -/

theorem chunkEntries_flatten (cap len : Nat) (buf es : List SegmentEntry) :
    (chunkEntries cap len buf es).flatten = buf.reverse ++ es := by
  induction es generalizing len buf with
  | nil => cases buf <;> simp [chunkEntries]
  | cons e es ih =>
    rw [chunkEntries]
    split
    · rw [flatten_cons, ih, reverse_singleton, singleton_append]
    · rw [ih, reverse_cons, append_assoc, singleton_append]

theorem chunkVersions_snd (v4 : Bool) (chunks : List (List SegmentEntry)) :
    (chunkVersions v4 chunks).map Prod.snd = chunks := by
  induction chunks generalizing v4 with
  | nil => rfl
  | cons chunk chunks ih => simp [chunkVersions, ih]

theorem map_storedEntry (w : BlockVersion) (es : List SegmentEntry)
    (h : w.v3 = true ∨ ∀ e ∈ es, e.replicaId = 0) : es.map (storedEntry w) = es := by
  conv_rhs => rw [← map_id es]
  refine map_congr_left fun e he => ?_
  unfold storedEntry
  split
  · rfl
  · rename_i hw
    rcases h with h | h
    · exact absurd h hw
    · rw [← h e he]
      rfl

theorem chunkVersions_stored (v4 : Bool) (chunks : List (List SegmentEntry)) :
    ∀ wc ∈ chunkVersions v4 chunks, wc.1.v3 = wc.1.v4 ∧ wc.2.map (storedEntry wc.1) = wc.2 := by
  induction chunks generalizing v4 with
  | nil => intro wc hwc; cases hwc
  | cons chunk chunks ih =>
    intro wc hwc
    rw [chunkVersions] at hwc
    rcases mem_cons.mp hwc with rfl | hwc
    · cases hv : v4 || chunk.any fun e => e.replicaId ≠ 0 with
      | true => exact ⟨rfl, map_storedEntry _ _ (.inl rfl)⟩
      | false =>
        rw [Bool.or_eq_false_iff, any_eq_false] at hv
        exact ⟨rfl, map_storedEntry _ _ (.inr fun e he => by simpa using hv.2 e he)⟩
    · exact ih _ wc hwc

theorem publishChunks_ok {entries : List SegmentEntry}
    {out : List (Segment × Std.ExtTreeMap ReplicaId SegmentAnchor)}
    (h : publishChunks H target cap entries = .ok out) :
    (∀ sa ∈ out, sa.1.Ok H ∧ sa.2 = if sa.1.v4 then anchorsOf sa.1.blocks else ∅) ∧
      out.flatMap (fun sa => sa.1.entries) = entries := by
  have hall := mapM_eq_ok _ _ _ h
  have hstored := chunkVersions_stored false (chunkEntries cap 0 [] entries)
  have hflat : (chunkVersions false (chunkEntries cap 0 [] entries)).flatMap Prod.snd = entries := by
    rw [flatMap_def, chunkVersions_snd, chunkEntries_flatten]
    rfl
  rw [← hflat]
  clear hflat h
  generalize chunkVersions false (chunkEntries cap 0 [] entries) = wcs at hall hstored ⊢
  induction hall with
  | nil => exact ⟨fun sa hsa => (by cases hsa), rfl⟩
  | @cons wc sa wcs sas hpub _ ih =>
    rcases ih fun x hx => hstored x (mem_cons_of_mem _ hx) with ⟨hok, hent⟩
    rcases hstored wc mem_cons_self with ⟨hw, hmap⟩
    rcases publishSortedEntries_ok hw hpub with ⟨hsok, hents, hanch⟩
    refine ⟨forall_mem_cons.mpr ⟨⟨hsok, hanch⟩, hok⟩, ?_⟩
    rw [flatMap_cons, flatMap_cons, hent, hents, hmap]

/-! ## Reading the merged segments -/

theorem firstHit_read_newest (segs : List Segment) (hok : ∀ s ∈ segs, s.Ok H)
    (hstack : Stacked (segs.map Segment.rows)) (srf : Surface) :
    (firstHit segs fun s => s.read srf).map SegmentEntry.row
      = newest (segs.flatMap Segment.rows) srf := by
  have hdistinct : ∀ rows ∈ segs.map Segment.rows, Distinct rows :=
    forall_mem_map.mpr fun s hs => Segment.distinct_rows (hok s hs)
  rw [flatMap_def, ← firstHit_newest _ srf hstack hdistinct, firstHit_map, map_firstHit]
  exact firstHit_congr segs _ _ fun s hs => Segment.read_newest (hok s hs) srf

theorem stacked_of_apart (segs : List Segment)
    (h : (segs.flatMap Segment.entries).Pairwise Apart) : Stacked (segs.map Segment.rows) := by
  rw [Stacked, pairwise_map]
  rw [flatMap_def, pairwise_flatten, pairwise_map] at h
  refine h.2.imp fun {s s'} hss r hr r' hr' hk => ?_
  rcases mem_map.mp hr with ⟨e, he, rfl⟩
  rcases mem_map.mp hr' with ⟨e', he', rfl⟩
  exact absurd (Prod.mk.inj hk) (hss e he e' he')

theorem distinct_inputs (hok : ∀ s ∈ inputs, s.Ok H) (hstack : Stacked (inputs.map Segment.rows)) :
    Distinct (inputs.flatMap Segment.rows) := by
  rw [flatMap_def]
  exact distinct_flatten _ hstack (forall_mem_map.mpr fun s hs => Segment.distinct_rows (hok s hs))

theorem find?_drained (inputs : List Segment) (hok : ∀ s ∈ inputs, s.Ok H)
    (hstack : Stacked (inputs.map Segment.rows)) (srf : Surface) :
    ((drained inputs).find? (SegmentEntry.on srf)).map SegmentEntry.row
      = newest (inputs.flatMap Segment.rows) srf := by
  have hperm : (inputs.flatMap Segment.rows).Perm ((drained inputs).map SegmentEntry.row) := by
    have h := ((drained_perm inputs).map SegmentEntry.row).symm
    rwa [map_flatMap] at h
  have hdistinct := distinct_inputs hok hstack
  rw [newest_perm hdistinct hperm srf]
  refine find?_on_newest _ srf (hdistinct.perm hperm) (pairwise_map.mpr ?_)
  refine (drained_sorted inputs hok).imp fun {a b} hab hk => ?_
  rcases (mergeLe_iff a b).mp hab with h | h
  · exact absurd (Prod.mk.inj hk).1 h.ne
  · exact h.2

theorem mem_liveEntries_of_newest {policy : RetentionPolicy} (hok : ∀ s ∈ inputs, s.Ok H)
    (hstack : Stacked (inputs.map Segment.rows)) {s : Segment} (hs : s ∈ inputs)
    (he : e ∈ s.entries) (hlive : e.isDelete = false) (hkeep : policy e.key = .keep)
    (hnewest : ∀ s' ∈ inputs, ∀ e' ∈ s'.entries, e'.seq ≤ e.seq) :
    ∃ x ∈ liveEntries policy inputs, x.seq = e.seq := by
  have hrow : newest (inputs.flatMap Segment.rows) (e.key, e.replicaId) = some e.row := by
    rw [newest_eq_some_iff _ _ _ (distinct_inputs hok hstack)]
    refine ⟨mem_flatMap.mpr ⟨s, hs, mem_map_of_mem he⟩, rfl, fun r hr _ => ?_⟩
    rcases mem_flatMap.mp hr with ⟨s', hs', hr⟩
    rcases mem_map.mp hr with ⟨e', he', rfl⟩
    exact hnewest s' hs' e' he'
  rw [← find?_drained inputs hok hstack, Option.map_eq_some_iff] at hrow
  rcases hrow with ⟨x, hfind, hx⟩
  have hxlive : x.isDelete = false := by
    have hval : x.live = e.live := congrArg Row.value hx
    cases hd : x.isDelete with
    | false => rfl
    | true =>
      rw [SegmentEntry.live, SegmentEntry.live, hd, hlive] at hval
      cases hval
  have hstays := find?_live policy inputs hok (e.key, e.replicaId)
  rw [if_pos hkeep, hfind, Option.filter_some_pos (by simp [hxlive])] at hstays
  exact ⟨x, mem_of_find?_eq_some hstays, congrArg Row.seq hx⟩

theorem merge_ok {policy : RetentionPolicy} (h : merge H target cap policy inputs = .ok out) :
    (∀ sa ∈ out.chunks, sa.1.Ok H ∧ sa.2 = if sa.1.v4 then anchorsOf sa.1.blocks else ∅) ∧
      (out.chunks.map Prod.fst).flatMap Segment.entries = liveEntries policy inputs ∧
      out.seen = ((drained inputs).map SegmentEntry.replicaId).filter fun rid => rid ≠ 0 := by
  simp only [merge, bind_eq_ok, pure_eq_ok] at h
  rcases h with ⟨chunks, hchunks, archive, _, rfl⟩
  rcases publishChunks_ok hchunks with ⟨hok, hent⟩
  exact ⟨hok, by rw [← hent, flatMap_map], rfl⟩

theorem MergeOutput.ok {policy : RetentionPolicy} (h : merge H target cap policy inputs = .ok out) :
    ∀ s ∈ out.chunks.map Prod.fst, s.Ok H :=
  forall_mem_map.mpr fun sa hsa => ((merge_ok h).1 sa hsa).1

theorem merge_stacked {policy : RetentionPolicy} (hok : ∀ s ∈ inputs, s.Ok H)
    (h : merge H target cap policy inputs = .ok out) :
    Stacked ((out.chunks.map Prod.fst).map Segment.rows) := by
  refine stacked_of_apart _ ?_
  rw [(merge_ok h).2.1]
  exact liveEntries_apart policy inputs hok

theorem bind_live_eq (segs : List Segment) (hok : ∀ s ∈ segs, s.Ok H)
    (hstack : Stacked (segs.map Segment.rows)) (srf : Surface) :
    (firstHit segs fun s => s.read srf).bind SegmentEntry.live
      = (newest (segs.flatMap Segment.rows) srf).bind Row.value := by
  rw [← firstHit_read_newest segs hok hstack srf]
  cases firstHit segs fun s => s.read srf <;> rfl

theorem firstHit_merged {policy : RetentionPolicy} (hok : ∀ s ∈ inputs, s.Ok H)
    (h : merge H target cap policy inputs = .ok out) (srf : Surface) (hkeep : policy srf.1 = .keep) :
    (firstHit (out.chunks.map Prod.fst) fun s => s.read srf).bind SegmentEntry.live
      = ((drained inputs).find? (SegmentEntry.on srf)).bind SegmentEntry.live := by
  have houtok : ∀ s ∈ out.chunks.map Prod.fst, s.Ok H := MergeOutput.ok h
  have hapart := liveEntries_apart policy inputs hok
  have hlive : newest ((out.chunks.map Prod.fst).flatMap Segment.rows) srf
      = ((liveEntries policy inputs).find? (SegmentEntry.on srf)).map SegmentEntry.row := by
    have hrows : (out.chunks.map Prod.fst).flatMap Segment.rows
        = (liveEntries policy inputs).map SegmentEntry.row := by
      rw [← (merge_ok h).2.1, map_flatMap]
      rfl
    have hdesc : ((liveEntries policy inputs).map SegmentEntry.row).Pairwise
        fun a b => a.key = b.key → b.seq < a.seq :=
      pairwise_map.mpr (hapart.imp fun {_ _} hab hk => absurd (Prod.mk.inj hk) hab)
    rw [hrows]
    exact (find?_on_newest _ srf (distinct_of_descending _ hdesc)
      (hdesc.imp fun {_ _} hab hk => (hab hk).le)).symm
  rw [bind_live_eq _ houtok (merge_stacked hok h), hlive, find?_live policy inputs hok,
    if_pos hkeep]
  cases (drained inputs).find? (SegmentEntry.on srf) with
  | none => rfl
  | some e =>
    rw [Option.filter_some]
    cases hd : e.isDelete
    · rfl
    · simp [SegmentEntry.live, hd]

end Aikoql.Storage
