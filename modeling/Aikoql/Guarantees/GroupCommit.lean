import Aikoql.Storage.DirsMoves

/-!
# Verdicts of a Group Commit

Whether a batch of a group is answered for itself.

A group draws its numbers, appends its frames, applies its operations and may set off a
flush. The outcome is one for the group: a batch the gates refuse fails the
acknowledgement of all, after their operations were applied, and so does a flush that
fails.

## Main definitions

* `groupAnswer`: What every batch of a group is answered.
* `OwnVerdict`: A verdict on a batch that is about this batch.

## Main theorems

* `group_verdicts`: All batches get their own verdicts in exactly two cases. The gates
  accept all and the flush does not fail, or they refuse each before it has any effect.
* `refused_with_the_group`: Groups of neither kind.
-/

namespace Aikoql.Storage

open List

variable {H : Sha256} {group : List (List Op)}

/-- The answer to every batch of a group that was applied with an outcome: the memtable is
    looked at if it is good, and the error of the flush takes its place. -/
def groupAnswer (memtableBytes : Nat) (st : State) (outcome flushed : Except FormatError Unit) :
    Except FormatError Unit :=
  if outcome.isOk ∧ memtableBytes ≤ st.active.bytes then flushed else outcome

theorem accepted_map (grouped : Bool) (dirs : Directories) (frames : List WalFrame) :
    Accepted grouped dirs ((frames.map WalFrame.ops).map (WalFrame.mk 0))
      ↔ Accepted grouped dirs frames := by
  induction frames generalizing dirs with
  | nil => rfl
  | cons f frames ih => exact and_congr_right fun _ => ih _

theorem commitGroup_logged {st st' : State} {disk disk' : Disk} {io : GroupIo}
    {drawn : List (U64 × List Op)}
    (happ : appendGroup H st disk io group = (st', disk', drawn, .ok ())) (hsync : io ≠ .unsynced) :
    commitGroup H st disk group io = ((applyGroup st' drawn (.ok ())).1, disk', drawn,
      (applyGroup st' drawn (.ok ())).2) := by
  rw [commitGroup, happ]
  simp only [if_neg hsync]

/-! ## Verdicts -/

/-- The state each batch is applied to. -/
def beforeEach : State → List (U64 × List Op) → List (State × U64 × List Op)
  | _, [] => []
  | st, batch :: group =>
    (st, batch) :: beforeEach (applyOps true batch.1.val st batch.2).1 group

/-- A verdict on a batch that is its own: it is acknowledged exactly if the gates accept
    it at the state before it, and a batch that is not is not applied. -/
structure OwnVerdict (outcome : Except FormatError Unit) (st : State) (batch : U64 × List Op) :
    Prop where
  acked : outcome.isOk = true ↔ (applyOps true batch.1.val st batch.2).2 = none
  refused : outcome.isOk = false → (applyOps true batch.1.val st batch.2).1 = st

theorem beforeEach_accepted (frames : List WalFrame) (st : State)
    (h : Accepted true st.dirs frames) :
    ∀ b ∈ beforeEach st (frames.map WalFrame.pair),
      (applyOps true b.2.1.val b.1 b.2.2).2 = none := by
  induction frames generalizing st with
  | nil => simp [beforeEach]
  | cons f frames ih =>
    rw [map_cons, beforeEach, forall_mem_cons, WalFrame.pair]
    simp only [applyOps_eq]
    exact ⟨h.1, fun b hb => by simpa [applyOps_eq] using ih _ h.2 b hb⟩

theorem beforeEach_refused (batches : List (U64 × List Op)) (st : State) :
    (∀ b ∈ beforeEach st batches, ∃ e, applyOps true b.2.1.val b.1 b.2.2 = (b.1, some e)) ↔
      ∀ batch ∈ batches, ∃ e, applyOps true batch.1.val st batch.2 = (st, some e) := by
  induction batches with
  | nil => simp [beforeEach]
  | cons batch batches ih =>
    rw [beforeEach, forall_mem_cons, forall_mem_cons]
    refine and_congr_right ?_
    rintro ⟨e, hrefused⟩
    rw [hrefused]
    exact ih

theorem applyGroup_foldl (batches : List (U64 × List Op)) (st : State)
    (outcome : Except FormatError Unit) : (applyGroup st batches outcome).1
      = batches.foldl (fun st batch => (applyOps true batch.1.val st batch.2).1) st := by
  induction batches generalizing st outcome with
  | nil => rfl
  | cons batch batches ih =>
    obtain ⟨seq, ops⟩ := batch
    rw [applyGroup, foldl_cons]
    rcases applyOps true seq.val st ops with ⟨st', _ | e⟩ <;> exact ih _ _

theorem ownVerdicts_iff (memtableBytes : Nat) (st : State) (flushed : Except FormatError Unit)
    {outcome : Except FormatError Unit} {befores : List (State × U64 × List Op)} {accepted : Prop}
    (hnone : accepted → ∀ b ∈ befores, (applyOps true b.2.1.val b.1 b.2.2).2 = none)
    (hok : outcome.isOk = true ↔ accepted) :
    (∀ b ∈ befores, OwnVerdict (groupAnswer memtableBytes st outcome flushed) b.1 b.2) ↔
      accepted ∧ (memtableBytes ≤ st.active.bytes → flushed.isOk = true) ∨
        ∀ b ∈ befores, ∃ e, applyOps true b.2.1.val b.1 b.2.2 = (b.1, some e) := by
  have hanswer : (groupAnswer memtableBytes st outcome flushed).isOk = true ↔
      accepted ∧ (memtableBytes ≤ st.active.bytes → flushed.isOk = true) := by
    rw [groupAnswer, ← hok]
    split
    · rename_i hdue
      simp [hdue.1, hdue.2]
    · rename_i hnot
      simp only [iff_self_and]
      exact fun hgood hfull => absurd ⟨hgood, hfull⟩ hnot
  constructor
  · intro hown
    by_cases hgood : (groupAnswer memtableBytes st outcome flushed).isOk = true
    · exact .inl (hanswer.mp hgood)
    · -- Nobody is acknowledged, so all are refused and leave the state.
      refine .inr fun b hb => ?_
      obtain ⟨hacked, hrefused⟩ := hown b hb
      obtain ⟨e, he⟩ := Option.ne_none_iff_exists'.mp fun hnone => hgood (hacked.mpr hnone)
      exact ⟨e, Prod.ext (hrefused (Bool.not_eq_true _ ▸ hgood)) he⟩
  · rintro (hall | hrefused) b hb
    · have hgood := hanswer.mpr hall
      exact ⟨⟨fun _ => hnone hall.1 b hb, fun _ => hgood⟩,
        fun hbad => Bool.noConfusion (hbad.symm.trans hgood)⟩
    · obtain ⟨e, he⟩ := hrefused b hb
      refine ⟨⟨fun hgood => ?_, fun hacked => ?_⟩, fun _ => by rw [he]⟩
      · exact hnone (hanswer.mp hgood).1 b hb
      · rw [he] at hacked
        cases hacked

/-- The batches of a logged group are applied one after the other. Every batch gets its own
    verdict if and only if the gates accept all and a flush that is due succeeds, or each is
    refused at the state before the group and leaves it as it was. -/
theorem group_verdicts (H : Sha256) (st : State) (disk : Disk) (group : List (List Op))
    (io : GroupIo) (hlog : (appendGroup H st disk io group).2.2.2 = .ok ())
    (hsync : io ≠ .unsynced) (memtableBytes : Nat) (flushed : Except FormatError Unit) :
    let start := (appendGroup H st disk io group).1
    let result := commitGroup H st disk group io
    let answer := groupAnswer memtableBytes result.1 result.2.2.2 flushed
    result.1 = result.2.2.1.foldl (fun st batch => (applyOps true batch.1.val st batch.2).1) start ∧
      result.2.2.1.map Prod.snd = group ∧
      ((∀ b ∈ beforeEach start result.2.2.1, OwnVerdict answer b.1 b.2) ↔
        Accepted true st.dirs (group.map (WalFrame.mk 0)) ∧
            (memtableBytes ≤ result.1.active.bytes → flushed.isOk = true) ∨
          ∀ batch ∈ result.2.2.1, ∃ e, applyOps true batch.1.val start batch.2
            = (start, some e)) := by
  rcases appendGroup_cases H group st disk io with
    ⟨frames, hops, _, _, happ⟩ | ⟨_, _, _, _, _, _, _, _, _, happ⟩
  · have hcommit := commitGroup_logged happ hsync
    simp only [hcommit, happ]
    let start : State := { st with nextSeq := st.nextSeq + frames.length }
    have hok := (applyGroup_eq frames start (.ok ())).2
    refine ⟨applyGroup_foldl _ _ _, by rw [map_map]; exact hops, ?_⟩
    rw [← hops, accepted_map, ← beforeEach_refused]
    exact ownVerdicts_iff _ _ _ (fun haccepted => beforeEach_accepted frames start haccepted)
      (hok.trans (and_iff_right rfl))
  · rw [happ] at hlog
    cases hlog

/-- A put and a create that a group takes at once. -/
def pairedBatches : List (List Op) :=
  [[.put [1] [2]], [.createObject 7 1 1 1]]

theorem group_verdicts_pair :
    let result := commitGroup Sha256.fips180 State.fresh Disk.empty pairedBatches .done
    result.2.2.2.isOk = true ∧ result.2.2.1.map Prod.snd = pairedBatches ∧
      ∀ b ∈ beforeEach (appendGroup Sha256.fips180 State.fresh Disk.empty .done pairedBatches).1
        result.2.2.1, OwnVerdict (groupAnswer 1 result.1 result.2.2.2 (.ok ())) b.1 b.2 := by
  have hverdicts := group_verdicts Sha256.fips180 State.fresh Disk.empty pairedBatches .done
    (appendGroup_done _ _ _ _ (by simp only [pairedBatches, Encodable]; decide +kernel) (by decide))
    (by simp) 1 (.ok ())
  exact ⟨by decide +kernel, hverdicts.2.1, hverdicts.2.2.mpr
    (.inl ⟨⟨by decide +kernel, by decide +kernel, trivial⟩, fun _ => rfl⟩)⟩

/-- A put in the same group as a conflicting create: it is answered with an error and
    applied, and without the create it is acknowledged. Without a conflict, but with a flush
    that fails, it is answered with an error and applied as well. -/
theorem refused_with_the_group :
    let created : List Op := [.createObject 7 1 1 1]
    let conflict : List Op := [.createObject 7 2 2 2]
    let answered := fun batches flushed =>
      let result := commitGroup Sha256.fips180 State.fresh Disk.empty batches .done
      (result.1, (groupAnswer 10 result.1 result.2.2.2 flushed).isOk)
    let refused := answered [created, conflict, [.put [1] [2]]] (.ok ())
    let failed := answered [created, [.put [1] [2]]] (.error ioError)
    refused.2 = false ∧ refused.1.active.get [1] = some (some [2]) ∧
      refused.1.dirs.identity[(7 : ObjectId)]? = some 1 ∧
      (answered [created, [.put [1] [2]]] (.ok ())).2 = true ∧
      failed.2 = false ∧ failed.1.active.get [1] = some (some [2]) := by
  decide +kernel

end Aikoql.Storage
