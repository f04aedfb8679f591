import Aikoql.Replication.Renewal
import Mathlib.Tactic.Common

/-!
# A Single Writer

Whether the old leader has stopped before a take-over takes effect.

A standby waits for a full time to live from when it saw the record first, and
the record was there after the renewal that wrote it had started. The leader
looks at the time only when an error comes back. Its last look may be short of
two thirds of the time to live; then it sleeps a third and asks again, and that
request may take another third, so it can fence itself when nearly four thirds
have passed (`taken_over_unfenced`). If every renewal comes back before a full
time to live has passed since the last successful one started, the leader is
fenced before any take-over (`fenced_before_takeOver`).

## Main definitions

* `Prompt`: A renewal comes back within a time to live.
* `Timely`: When standbys saw the record and took over.

## Main theorems

* `Timely.step`: What an event keeps.
* `fenced_before_takeOver`: The leader is fenced before any take-over.
* `taken_over_unfenced`: A take-over from a leader that still writes.
-/

namespace Aikoql.Replication

/-- Time does not pass a time to live after the start of the last successful
    renewal while another one is out. -/
def Prompt (ttl : Nat) (w : Watch) : WatchEvent → Prop
  | .tick time =>
      match w.phase with
      | .renewing _ _ => w.now + time < w.lastOk + ttl
      | _ => True
  | _ => True

instance (ttl : Nat) (w : Watch) : ∀ e, Decidable (Prompt ttl w e)
  | .tick time =>
      match h : w.phase with
      | .renewing _ _ => decidable_of_iff (w.now + time < w.lastOk + ttl) (by simp [Prompt, h])
      | .sleeping _ | .fenced _ => isTrue (by simp [Prompt, h])
  | .wake | .land | .ok | .conflict | .error | .lateLand _ | .look _ _ | .goFor _ | .takeOver _ =>
      isTrue trivial

def LeaderPhase.Timely (ttl now lastOk : Nat) : LeaderPhase → Prop
  | .sleeping wake => lastOk ≤ now ∧ now ≤ wake ∧ wake < lastOk + ttl
  | .renewing started _ =>
      lastOk ≤ started ∧ started ≤ now ∧ now ≤ started + ttl / 3 ∧ now < lastOk + ttl
  | .fenced time => lastOk ≤ now ∧ time ≤ now ∧ time < lastOk + ttl

/-- Standbys saw the record after the renewal that wrote it had started, and
    take-overs were sent a time to live later. -/
structure Timely (ttl : Nat) (w : Watch) : Prop where
  leader : w.phase.Timely ttl w.now w.lastOk
  seen : ∀ standby ver since, w.seen standby = some (ver, since) →
    ver ≤ w.version ∧ (ver = w.version → w.lastOk ≤ since ∧
      ∀ started, w.phase = .renewing started (some true) → started ≤ since)
  sent : ∀ ver ∈ w.sent, ver ≤ w.version ∧ (ver = w.version → w.lastOk + ttl ≤ w.now)

section

variable {ttl : Nat} {w w' : Watch}

section

variable (h : Timely ttl w)
include h

theorem Timely.started_le : w.lastOk ≤ w.now ∧
    ∀ started, w.phase = .renewing started (some true) → started ≤ w.now := by
  have hleader := h.leader
  unfold LeaderPhase.Timely at hleader
  split at hleader
  · exact ⟨hleader.1, by simp [*]⟩
  · refine ⟨Nat.le_trans hleader.1 hleader.2.1, fun started heq => ?_⟩
    simp_all
  · exact ⟨hleader.1, by simp [*]⟩

theorem Timely.rephase {phase : LeaderPhase} (hphase : phase.Timely ttl w.now w.lastOk)
    (hlanded : ∀ started, phase ≠ .renewing started (some true)) :
    Timely ttl { w with phase := phase } := by
  refine ⟨hphase, fun standby ver since hseen => ?_, h.sent⟩
  obtain ⟨hver, hsame⟩ := h.seen standby ver since hseen
  exact ⟨hver, fun heq => ⟨(hsame heq).1, fun started h => absurd h (hlanded started)⟩⟩

theorem Timely.bump {phase : LeaderPhase} (hphase : phase.Timely ttl w.now w.lastOk) :
    Timely ttl { w with version := w.version + 1, phase := phase } := by
  have hnew : ∀ {ver}, ver ≤ w.version → ver ≠ w.version + 1 := fun hle => by omega
  refine ⟨hphase, fun standby ver since hseen => ?_, fun ver hver => ?_⟩
  · have hle := (h.seen standby ver since hseen).1
    exact ⟨Nat.le_succ_of_le hle, fun heq => absurd heq (hnew hle)⟩
  · have hle := (h.sent ver hver).1
    exact ⟨Nat.le_succ_of_le hle, fun heq => absurd heq (hnew hle)⟩

theorem Timely.write (expected : Nat) : Timely ttl (w.write expected) := by
  unfold Watch.write
  split_ifs
  · exact h.bump h.leader
  · exact h

theorem Timely.tick {time : Nat} (hprompt : Prompt ttl w (.tick time))
    (hdeadline : ∀ t ∈ w.phase.deadline ttl, w.now + time ≤ t) :
    Timely ttl { w with now := w.now + time } := by
  refine ⟨?_, h.seen, fun ver hver => ?_⟩
  · have hleader := h.leader
    simp only [Prompt] at hprompt
    cases hphase : w.phase with
    | sleeping wake =>
      simp only [hphase, LeaderPhase.Timely, LeaderPhase.deadline] at *
      have := hdeadline wake rfl
      omega
    | renewing started landed =>
      simp only [hphase, LeaderPhase.Timely, LeaderPhase.deadline] at *
      have := hdeadline _ rfl
      omega
    | fenced fence =>
      simp only [hphase, LeaderPhase.Timely] at *
      omega
  · obtain ⟨hle, hlate⟩ := h.sent ver hver
    exact ⟨hle, fun heq => Nat.le_add_right_of_le (hlate heq)⟩

end

theorem Timely.step (httl : 0 < ttl) (h : Timely ttl w) {e : WatchEvent}
    (hprompt : Prompt ttl w e) (hstep : w.step ttl e = some w') : Timely ttl w' := by
  have hleader := h.leader
  cases e <;> simp only [Watch.step] at hstep
  case tick time =>
    split_ifs at hstep with hdeadline
    cases hstep
    exact h.tick hprompt hdeadline
  case wake =>
    split_ifs at hstep with hphase
    cases hstep
    rw [hphase] at hleader
    obtain ⟨hlast, -, hearly⟩ := hleader
    exact h.rephase ⟨hlast, Nat.le_refl _, Nat.le_add_right _ _, hearly⟩ (by simp)
  case land =>
    simp only [Watch.write] at hstep
    split at hstep
    · rename_i started hphase
      rw [hphase] at hleader
      cases hstep
      by_cases hver : w.version = w.ver
      · rw [if_pos hver, decide_eq_true hver]
        exact h.bump hleader
      · rw [if_neg hver, decide_eq_false hver]
        exact h.rephase hleader (by simp)
    · cases hstep
  case ok =>
    split at hstep
    · rename_i started hphase
      rw [hphase] at hleader
      obtain ⟨hlast, hstarted, hwithin, hearly⟩ := hleader
      cases hstep
      refine ⟨?_, fun standby ver since hseen => ?_, fun ver hver => ?_⟩
      · simp only [LeaderPhase.Timely]
        omega
      -- whoever saw the record of this renewal saw it after it had started
      · obtain ⟨hver, hsame⟩ := h.seen standby ver since hseen
        exact ⟨hver, fun heq => ⟨(hsame heq).2 started hphase, by simp⟩⟩
      · obtain ⟨hle, hlate⟩ := h.sent ver hver
        exact ⟨hle, fun heq => absurd (hlate heq) (by omega)⟩
    · cases hstep
  case conflict =>
    split at hstep
    · rename_i started hphase
      rw [hphase] at hleader
      obtain ⟨hlast, hstarted, -, hearly⟩ := hleader
      cases hstep
      exact h.rephase ⟨Nat.le_trans hlast hstarted, Nat.le_refl _, hearly⟩ (by simp)
    · cases hstep
  case error =>
    split at hstep
    · rename_i started landed hphase
      rw [hphase] at hleader
      obtain ⟨hlast, hstarted, -, hearly⟩ := hleader
      cases hstep
      -- the leader fences itself, or has less than two thirds behind it
      have hphase : LeaderPhase.Timely ttl w.now w.lastOk
          (if ttl * 2 / 3 ≤ w.now - w.lastOk then .fenced w.now
            else .sleeping (w.now + ttl / 3)) := by
        split_ifs <;> simp only [LeaderPhase.Timely] <;> omega
      have hon := h.rephase hphase (by intro started; split_ifs <;> simp)
      exact ⟨hon.leader, hon.seen, hon.sent⟩
    · cases hstep
  case lateLand i =>
    obtain ⟨ver, -, rfl⟩ := Option.map_eq_some_iff.mp hstep
    exact h.write ver
  case look standby ver =>
    split_ifs at hstep with hver hsame
    · cases hstep
      simpa using h
    · cases hstep
      refine ⟨hleader, fun k ver' since hseen => ?_, h.sent⟩
      by_cases hk : k = standby
      · subst hk
        simp only [Function.update_self, Option.some.injEq, Prod.mk.injEq] at hseen
        obtain ⟨rfl, rfl⟩ := hseen
        exact ⟨hver, fun _ => h.started_le⟩
      · simp only [Function.update_of_ne hk] at hseen
        exact h.seen k ver' since hseen
  case goFor standby =>
    split at hstep
    · rename_i ver since hseen
      split_ifs at hstep with hstale
      cases hstep
      obtain ⟨hver, hsame⟩ := h.seen standby ver since hseen
      refine ⟨hleader, h.seen, List.forall_mem_cons.mpr ⟨⟨hver, fun heq => ?_⟩, h.sent⟩⟩
      have := (hsame heq).1
      simp only
      omega
    · cases hstep
  case takeOver i =>
    split_ifs at hstep
    cases hstep
    exact h.write _

end

/-- In every run in which each renewal comes back within a time to live of the
    start of the last successful one, the leader is fenced strictly before any
    take-over takes effect. -/
theorem fenced_before_takeOver (ttl : Nat) (httl : 0 < ttl) (w w' : Watch)
    (h : Runs.Reaches (Watch.step ttl) (Prompt ttl) Watch.initial w) (i : Nat)
    (hover : w.step ttl (.takeOver i) = some w') :
    ∃ time, w.phase = .fenced time ∧ time < w.now := by
  have hw : Timely ttl w := h.invariant (P := Timely ttl)
    ⟨by simpa [Watch.initial, LeaderPhase.Timely] using httl, by simp [Watch.initial],
      by simp [Watch.initial]⟩
    fun s e s' hs hprompt hstep => hs.step httl hprompt hstep
  simp only [Watch.step] at hover
  split_ifs at hover with hsent
  have hlate := (hw.sent _ (List.mem_of_getElem? hsent)).2 rfl
  -- a time to live after its last renewal the leader neither sleeps nor waits
  have hleader := hw.leader
  cases hphase : w.phase with
  | sleeping wake =>
    rw [hphase] at hleader
    obtain ⟨-, hwake, hearly⟩ := hleader
    omega
  | renewing started landed =>
    rw [hphase] at hleader
    obtain ⟨-, -, -, hearly⟩ := hleader
    omega
  | fenced time =>
    rw [hphase] at hleader
    exact ⟨time, rfl, by have := hleader.2.2; omega⟩

/-! ## Runs with a time to live of fifteen -/

/-- A standby looks every three units (the looks that find nothing new are left
    out), and all of the leader's requests but the first fail at once. -/
def failingFast : List WatchEvent :=
  [.ok, .look 0 1, .tick 5, .wake, .error, .tick 5, .wake, .error, .tick 5, .goFor 0]

theorem failingFast_fenced : ∃ w w', Runs.run (Watch.step 15) Watch.initial failingFast = some w ∧
      w.step 15 (.takeOver 0) = some w' ∧ ∃ time, w.phase = .fenced time ∧ time < w.now := by
  have hrun : ∃ w, Runs.run (Watch.step 15) Watch.initial failingFast = some w ∧
      ∃ w', w.step 15 (.takeOver 0) = some w' ∧ True := by decide +kernel
  obtain ⟨w, hw, w', hw', -⟩ := hrun
  exact ⟨w, w', hw, hw', fenced_before_takeOver 15 (by decide) w w'
    (Runs.reaches_of_run failingFast (by decide +kernel) hw) 0 hw'⟩

/-- The first failing request takes four units, and nine have passed since the
    last renewal started; the next one is out from fourteen to nineteen. -/
def failingSlowly : List WatchEvent :=
  [.ok, .look 0 1, .tick 5, .wake, .tick 4, .error, .tick 5, .wake, .tick 1, .goFor 0]

theorem taken_over_unfenced :
    ∃ w w', Runs.run (Watch.step 15) Watch.initial failingSlowly = some w ∧
      w.step 15 (.takeOver 0) = some w' ∧ w.phase = .renewing 14 none ∧ w.now = 15 := by
  have hrun : ∃ w, Runs.run (Watch.step 15) Watch.initial failingSlowly = some w ∧
      ∃ w', w.step 15 (.takeOver 0) = some w' ∧ w.phase = .renewing 14 none ∧ w.now = 15 := by
    decide +kernel
  obtain ⟨w, hw, w', hrest⟩ := hrun
  exact ⟨w, w', hw, hrest⟩

end Aikoql.Replication
