import Aikoql.Kernel.Interleaving

/-!
# Snapshot Reads

Whether a time stamp that was handed out shows the same versions for ever.

Readers draw their time stamp from the clock of the writers, but without the pipe
lock. A writer draws its own under the lock and publishes its batch later, so a reader
may be handed a time stamp between the two: it is the larger one, and the version
appears behind it after the reader has looked (`version_appears_late`).

If no version is in flight when a time stamp is handed out, every version committed
later has a larger one, and a read at the time stamp returns what it returned before,
unless the object was erased (`snapshot_stable`). The clock has forty-eight bits for
milliseconds, and what is said here is said of readings that fit.

## Main definitions

* `Quiet`: No version is in flight when a time stamp is handed out.
* `Stable`: Reads at a time stamp are the same in two states.

## Main theorems

* `KeptAt.move`: A step keeps the rows up to a time stamp.
* `snapshot_stable`: Reads in every run of quiet steps.
* `version_appears_late`: A version that appears behind a time stamp.
-/

namespace Aikoql.Kernel

open List Std.ExtTreeMap
open Storage (Sha256)

variable {A : Admission} {C : Crypto} {sys sys' : Shared} {ts : Nat} {m : Move}

/-- The steps that hand out a time stamp: the one the clock shows afterwards. -/
def Move.handsOut : Move → Bool
  | .snapshotNow _ => true
  | .beginTransaction _ id _ => !id.isEmpty
  | _ => false

def Staged.versions : Staged → List (Koid × Nat × KnowledgeObject)
  | .done _ => []
  | .write batch _ _ _ => batch.puts.filterMap Put.asObject

/-- No version is in flight when a time stamp is handed out. A reading of the clock has
    forty-eight bits, and the counter behind it has room. -/
def Quiet (sys : Shared) (m : Move) : Prop :=
  (m.handsOut = true → ∀ flight ∈ sys.flight, flight.staged.versions = []) ∧
    ∀ millis ∈ m.reading, millis < 2 ^ 48 ∧ sys.st.hlc + 1 < 2 ^ 64
  deriving Decidable

/-- Reads at a time stamp are the same in two states of a run, unless the object was
    erased between them, and no version at or before it appears. -/
structure Stable (ts : Nat) (earlier later : Shared) : Prop where
  reads : ∀ koid, koid ∉ later.erased.drop earlier.erased.length →
    later.st.store.objectAt koid ts = earlier.st.store.objectAt koid ts
  unseen : ∀ koid commitTs ko, commitTs ≤ ts →
    later.st.store.getObjectVersion koid commitTs = some ko →
      earlier.st.store.getObjectVersion koid commitTs = some ko

/-! ## The clock -/

theorem le_hlc_move (hquiet : Quiet sys m) (hmove : move A C sys m = some sys') :
    sys.st.hlc ≤ sys'.st.hlc := by
  rcases move_cases hmove with ⟨io, call, _, -, hreading, hst, -, -⟩ |
    ⟨_, _, _, _, _, -, -, -, rfl⟩ | ⟨hlc, hdrawn, hst, -, -⟩
  · obtain ⟨hmillis, hroom⟩ := hquiet.2 _ hreading
    have hlt := lt_hlcNow hmillis hroom
    rcases stage_hlc A C sys.st io call with hhlc | hhlc <;> rw [hst, hhlc]
    exact hlt.le
  · exact le_rfl
  · rw [hst]
    rcases hdrawn with rfl | ⟨millis, hreading, rfl⟩
    · exact le_rfl
    · obtain ⟨hmillis, hroom⟩ := hquiet.2 millis hreading
      exact (lt_hlcNow hmillis hroom).le

/-! ## Rows up to a time stamp -/

theorem objectAt_congr {s s' : Store} {koid : Koid}
    (h : ∀ commitTs ≤ ts, s'.getObjectVersion koid commitTs = s.getObjectVersion koid commitTs) :
    s'.objectAt koid ts = s.objectAt koid ts := by
  have hrows : (s'.objects koid).filter (fun commitTs _ => commitTs ≤ ts)
      = (s.objects koid).filter fun commitTs _ => commitTs ≤ ts := by
    apply Std.ExtTreeMap.ext_getElem?
    intro commitTs
    rw [getElem?_filter', getElem?_filter']
    by_cases hle : commitTs ≤ ts
    · exact congrArg _ (h commitTs hle)
    · simp [hle]
  have hlists := congrArg Std.ExtTreeMap.toList hrows
  rw [toList_filter, toList_filter] at hlists
  unfold Store.objectAt Store.getVersionAt
  rw [hlists]

theorem Describes.rows_upTo {H : Sha256} {st : State} {commitTs : Nat} {batch : WriteBatch}
    {pipe : Pipeline} {change : Change} (h : Describes H st commitTs batch pipe change)
    (hlate : change.commits ≠ [] → ts < commitTs) (koid : Koid) {c : Nat} (hc : c ≤ ts) :
    (st.store.writeBatch batch).getObjectVersion koid c
      = if change.erased = some koid then none else st.store.getObjectVersion koid c := by
  unfold Store.getObjectVersion
  by_cases herased : change.erased = some koid
  · rw [h.objects_erased herased, if_pos herased]
    rfl
  · rw [if_neg herased]
    by_cases hcommits : ∀ c ∈ change.commits, c.ko.koid ≠ koid
    · rw [h.objects_other hcommits herased]
    · -- The new version has a time stamp of its own.
      push Not at hcommits
      obtain ⟨commit, hcommit, rfl⟩ := hcommits
      have hlt := hlate (ne_nil_of_mem hcommit)
      rw [h.objects_commit hcommit, Std.ExtTreeMap.getElem?_insert, if_neg]
      simp only [Nat.compare_eq_eq]
      omega

/-- The rows up to a time stamp are those of an earlier state, or none for an object that was
    erased since. -/
structure KeptAt (ts : Nat) (earlier later : Shared) : Prop where
  erased : earlier.erased <+: later.erased
  rows : ∀ koid, koid ∉ later.erased.drop earlier.erased.length → ∀ c ≤ ts,
    later.st.store.getObjectVersion koid c = earlier.st.store.getObjectVersion koid c
  gone : ∀ koid, koid ∈ later.erased.drop earlier.erased.length → ∀ c ≤ ts,
    later.st.store.getObjectVersion koid c = none

theorem KeptAt.refl (ts : Nat) (sys : Shared) : KeptAt ts sys sys where
  erased := prefix_rfl
  rows := fun _ _ _ _ => rfl
  gone := fun koid hkoid => by simp at hkoid

theorem KeptAt.stable {earlier later : Shared} (h : KeptAt ts earlier later) :
    Stable ts earlier later where
  reads := fun koid hkoid => objectAt_congr (h.rows koid hkoid)
  unseen := by
    intro koid c ko hc hko
    by_cases hkoid : koid ∈ later.erased.drop earlier.erased.length
    · rw [h.gone koid hkoid c hc] at hko
      cases hko
    · rw [← h.rows koid hkoid c hc]
      exact hko

/-- A step keeps the rows up to a time stamp, if a version in flight has a later
    one. -/
theorem KeptAt.move {earlier : Shared} (h : KeptAt ts earlier sys) (hsound : sys.Sound C (ts < ·))
    (hmove : Kernel.move A C sys m = some sys') : KeptAt ts earlier sys' := by
  -- A step that leaves the rows and the erased objects alone.
  have hsame : sys'.st.store = sys.st.store → sys'.erased = sys.erased →
      KeptAt ts earlier sys' := by
    intro hstore herased
    exact ⟨herased ▸ h.erased, herased ▸ hstore ▸ h.rows, herased ▸ hstore ▸ h.gone⟩
  rcases move_cases hmove with ⟨io, call, _, -, -, hst, -, herased⟩ |
    ⟨flight, batch, pipe, tenants, reply, -, hflight, hwrite, rfl⟩ | ⟨hlc, -, hst, -, herased⟩
  · exact hsame (by rw [hst]) herased
  · obtain ⟨commitTs, change, hdescribes, hlate⟩ := hsound.flight flight batch pipe tenants reply
      hflight hwrite
    rw [hdescribes.delHeads]
    have hrows := fun koid c hc => hdescribes.rows_upTo hlate koid (c := c) hc
    obtain ⟨l, hl⟩ := h.erased
    have hbefore : sys.erased.drop earlier.erased.length = l := by
      rw [← hl, drop_left]
    have hafter : (sys.erased ++ change.erased.toList).drop earlier.erased.length
        = l ++ change.erased.toList := by
      rw [← hl, append_assoc, drop_left]
    constructor
    case erased => exact h.erased.trans (prefix_append _ _)
    case rows =>
      intro koid hkoid c hc
      change koid ∉ (sys.erased ++ change.erased.toList).drop earlier.erased.length at hkoid
      rw [hafter, mem_append, Option.mem_toList] at hkoid
      push Not at hkoid
      exact (hrows koid c hc).trans ((if_neg hkoid.2).trans (h.rows koid (hbefore ▸ hkoid.1) c hc))
    case gone =>
      intro koid hkoid c hc
      change koid ∈ (sys.erased ++ change.erased.toList).drop earlier.erased.length at hkoid
      rw [hafter, mem_append, Option.mem_toList] at hkoid
      refine (hrows koid c hc).trans ?_
      split
      · rfl
      · rename_i hne
        exact h.gone koid (hbefore ▸ hkoid.resolve_right hne) c hc
  · exact hsame (by rw [hst]) herased

/-! ## Runs -/

theorem sound_handsOut (hsound : sys.Sound C fun _ => True) (hhands : m.handsOut = true)
    (hquiet : Quiet sys m) (hmove : move A C sys m = some sys') :
    sys'.Sound C (sys'.st.hlc < ·) := by
  obtain ⟨hkeyed, hpin, hflight⟩ := hsound.move (fun _ _ => trivial) hmove
  refine ⟨hkeyed, hpin, ?_⟩
  intro flight batch pipe tenants reply hsome hwrite
  obtain ⟨ts, change, hdescribes, -⟩ := hflight flight batch pipe tenants reply hsome hwrite
  refine ⟨ts, change, hdescribes, ?_⟩
  intro hcommits
  -- The call in flight is the one from before the step, which has no version.
  have hsame : sys'.flight = sys.flight := by
    cases m with
    | snapshotNow millis =>
      cases hmove
      rfl
    | beginTransaction subject id millis =>
      simp only [move] at hmove
      split at hmove <;> cases hmove <;> rfl
    | _ => cases hhands
  have hnone := hquiet.1 hhands flight (hsame ▸ hsome)
  rw [hwrite] at hnone
  have hnil := hdescribes.rows.objects.symm.trans hnone
  exact absurd (map_eq_nil_iff.mp hnil) hcommits

theorem Shared.Sound.later (h : sys.Sound C (ts < ·)) (hle : ts ≤ sys.st.hlc) (hquiet : Quiet sys m)
    (hmove : Kernel.move A C sys m = some sys') : sys'.Sound C (ts < ·) ∧ ts ≤ sys'.st.hlc := by
  refine ⟨h.move ?_ hmove, hle.trans (le_hlc_move hquiet hmove)⟩
  intro millis hreading
  obtain ⟨hmillis, hroom⟩ := hquiet.2 millis hreading
  exact hle.trans_lt (lt_hlcNow hmillis hroom)

/-- If no version is in flight whenever a time stamp is handed out, and the clock does
    not run over, any two reads at a time stamp that was handed out return the same. -/
theorem snapshot_stable (A : Admission) (C : Crypto) (sys sys' earlier later : Shared) (m : Move)
    (hreach : Runs.Reaches (move A C) Quiet Shared.initial sys) (hhands : m.handsOut = true)
    (hquiet : Quiet sys m) (hmove : move A C sys m = some sys')
    (hearlier : Runs.Reaches (move A C) Quiet sys' earlier)
    (hlater : Runs.Reaches (move A C) Quiet earlier later) :
    Stable sys'.st.hlc earlier later := by
  have hsound : sys.Sound C fun _ => True :=
    hreach.invariant (Shared.sound_initial C _)
      fun _ _ _ h _ hstep => h.move (fun _ _ => trivial) hstep
  have hstart : earlier.Sound C (sys'.st.hlc < ·) ∧ sys'.st.hlc ≤ earlier.st.hlc :=
    hearlier.invariant (P := fun s => s.Sound C (sys'.st.hlc < ·) ∧ sys'.st.hlc ≤ s.st.hlc)
      ⟨sound_handsOut hsound hhands hquiet hmove, le_rfl⟩
      fun _ _ _ h hq hstep => h.1.later h.2 hq hstep
  have hkept := hlater.invariant (P := fun s => KeptAt sys'.st.hlc earlier s ∧
      s.Sound C (sys'.st.hlc < ·) ∧ sys'.st.hlc ≤ s.st.hlc)
    ⟨KeptAt.refl _ earlier, hstart⟩
    fun _ _ _ h hq hstep => ⟨h.1.move h.2.1 hstep, h.2.1.later h.2.2 hq hstep⟩
  exact hkept.1.stable

def firstVersion : RememberRequest :=
  { RememberRequest.create ⟨⟨utf8 "ann", [], none⟩, none⟩ ⟨utf8 "note", none, 0, []⟩ with
    koid := some 1 }

def nextVersion : RememberRequest :=
  .update ⟨⟨utf8 "ann", [], none⟩, none⟩ 1 ⟨utf8 "note", none, 0, []⟩

/-- The steps of a kernel without keys and policies. -/
def plainMove : Shared → Move → Option Shared :=
  move .unrestricted (.unsigned Sha256.fips180)

def wholeCall (req : RememberRequest) : List Move :=
  [.start ⟨1, 1, fun _ => 0⟩ (.remember req), .finish true]

/-- A version is committed before and another one behind a snapshot. -/
theorem snapshot_between :
    ∃ sys sys' later, Runs.run plainMove Shared.initial (wholeCall firstVersion) = some sys ∧
      plainMove sys (.snapshotNow 1) = some sys' ∧
      Runs.run plainMove sys' (wholeCall nextVersion) = some later ∧
      (later.st.store.headObject 1).map KnowledgeObject.version = some 2 ∧
      Stable sys'.st.hlc sys' later := by
  have hend : ∃ sys, Runs.run plainMove Shared.initial (wholeCall firstVersion) = some sys ∧
      ∃ sys', plainMove sys (.snapshotNow 1) = some sys' ∧
        ∃ later, Runs.run plainMove sys' (wholeCall nextVersion) = some later ∧
          Quiet sys (.snapshotNow 1) ∧ Runs.Meets plainMove Quiet sys' (wholeCall nextVersion) ∧
          (later.st.store.headObject 1).map KnowledgeObject.version = some 2 := by
    decide +kernel
  obtain ⟨sys, hsys, sys', hsys', later, hlater, hquiet, hmeets, hversion⟩ := hend
  refine ⟨sys, sys', later, hsys, hsys', hlater, hversion, ?_⟩
  have hreach := Runs.reaches_of_run (C := Quiet) (wholeCall firstVersion) (by decide +kernel) hsys
  exact snapshot_stable .unrestricted (.unsigned Sha256.fips180) sys sys' sys' later (.snapshotNow 1)
    hreach rfl hquiet hsys' .refl (Runs.reaches_of_run (wholeCall nextVersion) hmeets hlater)

/-- A snapshot is taken while a version is in flight: the version appears later, with an
    earlier time stamp. -/
theorem version_appears_late : ∃ sys sys' later,
      plainMove Shared.initial (.start ⟨1, 1, fun _ => 0⟩ (.remember firstVersion)) = some sys ∧
        plainMove sys (.snapshotNow 1) = some sys' ∧ plainMove sys' (.finish true) = some later ∧
        ¬Stable sys'.st.hlc sys' later := by
  have hend : ∃ sys, plainMove Shared.initial (.start ⟨1, 1, fun _ => 0⟩ (.remember firstVersion))
      = some sys ∧ ∃ sys', plainMove sys (.snapshotNow 1) = some sys' ∧
        ∃ later, plainMove sys' (.finish true) = some later ∧ later.erased = [] ∧
          (later.st.store.objectAt 1 sys'.st.hlc).map KnowledgeObject.version
            ≠ (sys'.st.store.objectAt 1 sys'.st.hlc).map KnowledgeObject.version := by
    decide +kernel
  obtain ⟨sys, hsys, sys', hsys', later, hlater, herased, hdiffer⟩ := hend
  refine ⟨sys, sys', later, hsys, hsys', hlater, fun hstable => hdiffer ?_⟩
  rw [hstable.reads 1 (by simp [herased])]

end Aikoql.Kernel
