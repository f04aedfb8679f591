import Mathlib.Data.List.Sublists
import Aikoql.Storage.Open

/-!
# What Recovery Makes of the Directories' Records

Two facts the recovery of the directories rests on.

The placements are merged from a checkpoint, the delta logs behind it and the
creates of the write-ahead log, which overlap. No order among them is needed: as
long as two records of one replica and generation are equal, what is left of each
replica is its newest record, whatever the order and however often a record came.
The object writes of the log come with no record. They draw a generation behind
those that were merged, so they have to be replayed last.

The delta logs behind a checkpoint are checked against the publication chains
before they are merged. The check does not know which generations were published,
only the fold of them, and so it is as good as the hash: if the values the fold can
pass through do not collide, it accepts the logs of all published generations and
of nothing less. The test of the newest log is not needed for that; it is there
to name the log that is missing.

## Main definitions

* `CollisionFree`: The values of the fold tell the generations it folded.

## Main theorems

* `placements_converge`: The map that records are merged into, in any order.
* `replayed_before_logs`: An object write that is replayed too early.
* `coverage_iff`: What the check of the delta logs accepts.
-/

namespace Aikoql.Storage

open List

/-! ## The order of the placement records -/

/-- Records taken from ones that agree are merged without a refusal, into a map that
    was made of such records too, and each replica is left at its newest record. Any
    other sequence of the same records leaves the same map. -/
theorem placements_converge (records : List PlacementRecord)
    (hagree : ∀ r ∈ records, ∀ r' ∈ records, r.rid = r'.rid →
      r.placement.generation = r'.placement.generation → r = r')
    (base order : List PlacementRecord) (hbase : base ⊆ records) (horder : order ⊆ records) :
    ∃ m m', mergePlacements ∅ base = .ok m ∧ mergePlacements m order = .ok m' ∧
      (∀ rid p, m'[rid]? = some p ↔ Newest Placement.generation PlacementRecord.rid
        PlacementRecord.placement (base ++ order) rid p) ∧
      ∀ again : List PlacementRecord, (∀ r, r ∈ again ↔ r ∈ base ++ order) →
        mergePlacements ∅ again = .ok m' := by
  have hmerge : ∀ rs : List PlacementRecord, rs ⊆ records → ∃ m, mergePlacements ∅ rs = .ok m ∧
      ∀ rid p, m[rid]? = some p ↔ Newest Placement.generation PlacementRecord.rid
        PlacementRecord.placement rs rid p := by
    intro rs hrs
    refine foldlM_putNewer _ _ _ _ rs fun r hr r' hr' hrid hgen => ?_
    rw [hagree r (hrs hr) r' (hrs hr') hrid hgen]
  obtain ⟨m', hm', hnewest⟩ := hmerge (base ++ order) (append_subset.mpr ⟨hbase, horder⟩)
  have hparts := hm'
  rw [mergePlacements, foldlM_append, bind_eq_ok] at hparts
  obtain ⟨m, hm, hrest⟩ := hparts
  refine ⟨m, m', hm, hrest, hnewest, fun again hagain => ?_⟩
  obtain ⟨m₁, hm₁, hnewest₁⟩ := hmerge again fun r hr =>
    (mem_append.mp ((hagain r).mp hr)).elim (@hbase r) (@horder r)
  rw [hm₁]
  congr 1
  refine Within.antisymm (fun rid p hp => ?_) (fun rid p hp => ?_)
  · rw [hnewest₁, Newest] at hp
    rw [hnewest, Newest]
    simpa only [hagain] using hp
  · rw [hnewest, Newest] at hp
    rw [hnewest₁, Newest]
    simpa only [hagain] using hp

theorem placements_converge_overlapping :
    ∃ m m', mergePlacements ∅ [⟨1, .memtable 1⟩, ⟨2, .memtable 2⟩] = .ok m ∧
      mergePlacements m [⟨1, .segment ⟨1, 0, 0, 3⟩⟩, ⟨2, .memtable 2⟩, ⟨1, .memtable 1⟩] = .ok m' ∧
      m'[(1 : ReplicaId)]? = some (.segment ⟨1, 0, 0, 3⟩) := by
  obtain ⟨m, m', hm, hm', hnewest, -⟩ := placements_converge
    [⟨1, .memtable 1⟩, ⟨2, .memtable 2⟩, ⟨1, .segment ⟨1, 0, 0, 3⟩⟩] (by decide)
    [⟨1, .memtable 1⟩, ⟨2, .memtable 2⟩]
    [⟨1, .segment ⟨1, 0, 0, 3⟩⟩, ⟨2, .memtable 2⟩, ⟨1, .memtable 1⟩] (by simp) (by simp)
  exact ⟨m, m', hm, hm', (hnewest _ _).mpr ⟨by decide, by decide⟩⟩

/-- The map behind a replayed object write. The allocator starts behind the map, as it does
    when the database is opened. -/
def replayedWrite (m : PlacementMap) (rid : ReplicaId) : PlacementMap :=
  (replayObjectPlacement ⟨∅, ∅, m, [], [], [], 1, 1, maxGeneration m + 1⟩ rid).1.placements

/-- A replica was moved to a segment and then written. Replayed behind the delta log, the
    write flips the placement to the memtable. Replayed before it, it draws an old
    generation, and the placement names the segment. -/
theorem replayed_before_logs : let log : List PlacementRecord := [⟨1, .segment ⟨1, 0, 0, 3⟩⟩]
    (mergePlacements ∅ log).map (fun m => (replayedWrite m 1)[(1 : ReplicaId)]?)
        = .ok (some (.memtable 4)) ∧
      (mergePlacements (replayedWrite ∅ 1) log).map (fun m => m[(1 : ReplicaId)]?)
        = .ok (some (.segment ⟨1, 0, 0, 3⟩)) := by
  decide +kernel

/-! ## The coverage of the delta logs -/

/-- The values that folding some of the published generations can give tell the last
    step they were made by: no two different inputs of the hash collide, and none of
    its outputs is the value the fold starts from. -/
def CollisionFree (H : Sha256) (base : Nat) (published : List Nat) : Prop :=
  ∀ gens ∈ published.sublists, ∀ gens' ∈ published.sublists,
    gens.foldl (chainExtend H) base = gens'.foldl (chainExtend H) base →
      gens.getLast? = gens'.getLast? ∧
        gens.dropLast.foldl (chainExtend H) base = gens'.dropLast.foldl (chainExtend H) base

theorem CollisionFree.injective {H : Sha256} {base : Nat} {published : List Nat}
    (h : CollisionFree H base published) {gens gens' : List Nat} (hgens : gens.Sublist published)
    (hgens' : gens'.Sublist published)
    (heq : gens.foldl (chainExtend H) base = gens'.foldl (chainExtend H) base) :
    gens = gens' := by
  induction gens using List.reverseRecOn generalizing gens' with
  | nil =>
    have hlast := (h _ (mem_sublists.mpr hgens) _ (mem_sublists.mpr hgens') heq).1
    exact (getLast?_eq_none_iff.mp hlast.symm).symm
  | append_singleton gens g ih =>
    obtain ⟨hlast, hrest⟩ := h _ (mem_sublists.mpr hgens) _ (mem_sublists.mpr hgens') heq
    rw [getLast?_concat] at hlast
    rw [dropLast_concat] at hrest
    -- The last generation is the same, and so is what was folded before it.
    have hinit := ih ((sublist_append_left _ _).trans hgens)
      ((dropLast_sublist _).trans hgens') hrest
    rw [hinit]
    exact dropLast_append_getLast? g hlast.symm

theorem publish_chain (H : Sha256) (published : List Nat) (mark : FamilyMark) :
    (published.foldl (FamilyMark.publish H) mark).chain
      = published.foldl (chainExtend H) mark.chain := by
  induction published generalizing mark with
  | nil => rfl
  | cons g published ih => exact ih _

theorem publish_floor (H : Sha256) (published : List Nat) (mark : FamilyMark) :
    (published.foldl (FamilyMark.publish H) mark).floor = published.getLast?.getD mark.floor := by
  induction published using List.reverseRecOn with
  | nil => rfl
  | append_singleton published g _ => simp [FamilyMark.publish]

theorem generations_sorted {α : Type} (logs : DeltaLogs α) (after upto : Nat) :
    (logs.generations after upto).Pairwise (· < ·) :=
  (Std.ExtTreeMap.ordered_keys.imp fun hab => Nat.compare_eq_lt.mp hab).filter _

/-- The check of a family accepts what is left of the logs behind a checkpoint if and
    only if nothing is missing. The family was published at some generations behind the
    checkpoint, and the mark of the manifest is the one of the checkpoint moved on by
    them. -/
theorem coverage_iff (H : Sha256) {α : Type} (logs : DeltaLogs α) (family : String)
    (checkpointGeneration currentGeneration : Nat) (mark : FamilyMark)
    (hmark : mark.floor ≤ checkpointGeneration) (published : List Nat)
    (hsorted : published.Pairwise (· < ·))
    (hleft : ∀ g ∈ logs.generations checkpointGeneration currentGeneration, g ∈ published)
    (hfree : CollisionFree H mark.chain published) :
    validateFamilyCoverage H logs family checkpointGeneration currentGeneration mark.chain
        (published.foldl (FamilyMark.publish H) mark) = .ok () ↔
      logs.generations checkpointGeneration currentGeneration = published := by
  have hgens := generations_sorted logs checkpointGeneration currentGeneration
  simp only [validateFamilyCoverage, bind_eq_ok, ensure_eq_ok, publish_chain, publish_floor]
  constructor
  · rintro ⟨-, -, hchain⟩
    have hleft := subperm_of_subset (hgens.imp Nat.ne_of_lt) hleft
    refine hfree.injective ?_ (Sublist.refl _) hchain
    exact sublist_of_subperm_of_pairwise hleft hgens hsorted
  · intro heq
    rw [heq]
    refine ⟨(), ?_, rfl⟩
    rintro ⟨hfloor, hlast⟩
    cases hnewest : published.getLast? with
    | none =>
      rw [hnewest, Option.getD_none] at hfloor
      omega
    | some g => exact hlast (by rw [hnewest, Option.getD_some])

/-- The logs of a family behind a checkpoint at generation two. -/
def logsAt (gens : List Nat) : DeltaLogs ReplicaRecord :=
  gens.foldl (fun logs g => logs.insert g []) ∅

theorem coverage_of_two : let mark := [3, 5].foldl (FamilyMark.publish Sha256.fips180) ⟨2, 7⟩
    validateFamilyCoverage Sha256.fips180 (logsAt [3, 5]) "REPLICA" 2 6 7 mark = .ok () ∧
      validateFamilyCoverage Sha256.fips180 (logsAt [5]) "REPLICA" 2 6 7 mark ≠ .ok () := by
  have hfree : CollisionFree Sha256.fips180 7 [3, 5] := by
    unfold CollisionFree
    decide +kernel
  have hiff : ∀ gens, _ → _ := fun gens hleft => coverage_iff Sha256.fips180 (logsAt gens) "REPLICA"
    2 6 ⟨2, 7⟩ (Nat.le_refl 2) [3, 5] (by decide) hleft hfree
  exact ⟨(hiff [3, 5] (by decide +kernel)).mpr (by decide +kernel),
    mt (hiff [5] (by decide +kernel)).mp (by decide +kernel)⟩

end Aikoql.Storage
