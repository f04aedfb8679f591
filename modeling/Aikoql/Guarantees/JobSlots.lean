import Aikoql.Guarantees.JobIdentity
import Aikoql.Kernel.Heads

/-!
# Job Slots

The count of running jobs is exact.

A submit takes a slot before it draws an id. From then on the slot belongs to the submit
until it gives up or starts a worker, and afterwards to the worker until it ends. The
scheduler keeps nothing but a count, which many submits and workers change in any order.
No slot is lost when a submit fails half way and none is given back twice, so the count
never falls below zero. A worker that panics does not end, and keeps its slot.

The limit a submit obeys is the one it has read, which may have been lowered since. So the
count stays within the limit if that is not changed.

## Main definitions

* `Scheduler.holders`: The submits that hold a slot.
* `JobEvent.KeepsLimit`: An event that leaves the limit as it is.

## Main theorems

* `job_slots_exact`: The count in every run, and its bound in runs with one limit.
-/

namespace Aikoql.Kernel

open List hiding getElem?_insert
open Std.ExtTreeMap (getElem?_insert getElem?_erase)

variable {s s' : Scheduler} {e : JobEvent} {ticket : Nat} {sub : Submission}

/-- A submit has a slot from its claim on. -/
def Stage.holdsSlot : Stage → Bool
  | .unknownInput | .limited _ => false
  | _ => true

def Scheduler.holdsSlot (s : Scheduler) (ticket : Nat) : Bool :=
  s.inFlight[ticket]?.any fun sub => sub.stage.holdsSlot

/-- The submits that hold a slot. -/
def Scheduler.holders (s : Scheduler) : Finset Nat :=
  (s.inFlight.keys.filter s.holdsSlot).toFinset

theorem Scheduler.mem_holders {t : Nat} : t ∈ s.holders ↔ s.holdsSlot t = true := by
  rw [holders, mem_toFinset, mem_filter, Std.ExtTreeMap.mem_keys, and_iff_right_iff_imp,
    Std.ExtTreeMap.mem_iff_isSome_getElem?]
  exact Option.isSome_of_any

/-- The count is that of the workers and of the holders. The tickets of all submits are behind
    the next one. -/
structure Scheduler.Counted (s : Scheduler) : Prop where
  running : s.running = s.workers.length + s.holders.card
  issued : ∀ ticket sub, s.inFlight[ticket]? = some sub → ticket < s.tickets

/-- One submit may change, and its slot is given to a worker or back. -/
theorem Scheduler.Counted.change (h : s.Counted) (ticket : Nat)
    (hothers : ∀ t ≠ ticket, s'.inFlight[t]? = s.inFlight[t]?) (htickets : s.tickets ≤ s'.tickets)
    (hissued : s'.inFlight[ticket]?.isSome = true → ticket < s'.tickets)
    (hrunning : s'.running + s.workers.length + (s.holdsSlot ticket).toNat
      = s.running + s'.workers.length + (s'.holdsSlot ticket).toNat) : s'.Counted := by
  constructor
  · have hsame : ∀ t ∉ [ticket], (t ∈ s'.holders ↔ t ∈ s.holders) := by
      intro t ht
      rw [mem_holders, mem_holders, holdsSlot, holdsSlot, hothers t (ne_of_not_mem_cons ht)]
    have hcount := card_add_filter (nodup_singleton ticket) hsame
    simp only [filter_cons, filter_nil, mem_holders, Bool.decide_eq_true] at hcount
    have := h.running
    cases hbefore : s.holdsSlot ticket <;> cases hafter : s'.holdsSlot ticket <;>
      simp [hbefore, hafter] at hcount hrunning <;> omega
  · intro t sub hsub
    by_cases heq : t = ticket
    · subst heq
      exact hissued (by rw [hsub]; rfl)
    · exact (h.issued t sub (hothers t heq ▸ hsub)).trans_le htickets

theorem Scheduler.Counted.proceed (h : s.Counted) (hsub : s.inFlight[ticket]? = some sub)
    (hstep : s.proceed ticket sub e sub.stage = some s') : s'.Counted := by
  have hbefore : s.holdsSlot ticket = sub.stage.holdsSlot := by
    rw [Scheduler.holdsSlot, hsub]
    rfl
  have hslot : (s.holdsSlot ticket).toNat ≤ s.running := by
    cases hholds : s.holdsSlot ticket with
    | false => exact Nat.zero_le _
    | true =>
      rw [h.running]
      exact (Finset.card_pos.mpr ⟨ticket, Scheduler.mem_holders.mpr hholds⟩).trans_le
        (Nat.le_add_left ..)
  generalize hstage : sub.stage = stage at hstep
  unfold Scheduler.proceed at hstep
  split at hstep <;> (try split at hstep) <;> cases hstep
  all_goals
    refine h.change ticket (fun t ht => ?_) le_rfl (fun _ => h.issued ticket sub hsub) ?_
    · simp [Scheduler.advance, Scheduler.leave, Scheduler.abortAdmission, getElem?_insert,
        getElem?_erase, ht.symm]
    · rw [hbefore, hstage] at hslot ⊢
      simp [Scheduler.holdsSlot, Stage.holdsSlot, Scheduler.advance, Scheduler.leave,
        Scheduler.abortAdmission] at hslot ⊢
      try omega

/-- The last write of a worker leaves the submits and the limit alone. -/
theorem Scheduler.finish_frame (s : Scheduler) (jobId : Nat) (res : Except Text Bytes)
    (taken : Bool) : (s.finish jobId res taken).inFlight = s.inFlight ∧
      (s.finish jobId res taken).tickets = s.tickets ∧
      (s.finish jobId res taken).maxRunning = s.maxRunning := by
  unfold Scheduler.finish
  split <;> (try split) <;> (try split) <;> exact ⟨rfl, rfl, rfl⟩

theorem Scheduler.Counted.step (h : s.Counted) (hstep : s.step e = some s') : s'.Counted := by
  cases hticket : e.ticket with
  | some ticket =>
    obtain ⟨sub, hsub, hproceed⟩ := Scheduler.step_eq_proceed hticket hstep
    exact h.proceed hsub hproceed
  | none =>
    cases e with
    | submit kind inputHash subject =>
      cases hstep
      have hnone : s.inFlight[s.tickets]? = none :=
        Option.eq_none_iff_forall_ne_some.mpr fun sub hsub => (h.issued _ sub hsub).false
      unfold Scheduler.lookUp
      split
      · exact h.change s.tickets (fun _ _ => rfl) (Nat.le_succ _) (fun _ => Nat.lt_succ_self _) rfl
      · refine h.change s.tickets (fun t ht => ?_) (Nat.le_succ _) (fun _ => Nat.lt_succ_self _) ?_
        · simp [getElem?_insert, ht.symm]
        · simp [Scheduler.holdsSlot, Stage.holdsSlot, hnone]
    | finish jobId res taken =>
      simp only [Scheduler.step, Option.ite_none_right_eq_some, Option.some.injEq] at hstep
      obtain ⟨hworker, rfl⟩ := hstep
      obtain ⟨hflight, htickets, -⟩ := s.finish_frame jobId res taken
      have hlength := length_erase_of_mem hworker
      have hpos := length_pos_of_mem hworker
      have := h.running
      refine ⟨?_, fun t sub hsub => htickets ▸ h.issued t sub (hflight ▸ hsub)⟩
      have hholders : (s.finish jobId res taken).holders = s.holders := by
        ext t
        rw [Scheduler.mem_holders, Scheduler.mem_holders, Scheduler.holdsSlot, hflight]
        rfl
      change s.running - 1 = (s.workers.erase jobId).length + (s.finish jobId res taken).holders.card
      rw [hholders]
      omega
    | setMaxRunning n =>
      cases hstep
      exact ⟨h.running, h.issued⟩
    | recover maxRunning markInterrupted =>
      cases hstep
      exact ⟨rfl, fun _ _ h => by cases h⟩
    | _ => cases hticket

/-! ## One limit -/

/-- The limit is what it was, also behind a restart. -/
def JobEvent.KeepsLimit (limit : Nat) : JobEvent → Prop
  | .setMaxRunning n => n = limit
  | .recover n _ => n = limit
  | _ => True

instance (limit : Nat) : DecidablePred (JobEvent.KeepsLimit limit)
  | .setMaxRunning n | .recover n _ => decEq n limit
  | .submit .. | .readLimit _ | .claim _ | .draw _ | .place .. | .register _ | .record ..
  | .spawn .. | .finish .. => isTrue trivial

/-- All submits obey one limit, and the count is within it. -/
structure Scheduler.Limited (limit : Nat) (s : Scheduler) : Prop where
  maxRunning : s.maxRunning = limit
  read : ∀ (ticket : Nat) (sub : Submission) max, s.inFlight[ticket]? = some sub →
    sub.stage = .limited max → max = limit
  running : s.running ≤ limit

/-- A submit goes on, and what it reads is the limit. -/
theorem Scheduler.Limited.advance {limit : Nat} {stage : Stage} (h : s.Limited limit)
    (hstage : ∀ max, stage = .limited max → max = limit) :
    (s.advance ticket sub stage).Limited limit := by
  refine ⟨h.maxRunning, fun t other max hother => ?_, h.running⟩
  simp only [Scheduler.advance, getElem?_insert] at hother
  split at hother
  · cases hother
    exact hstage max
  · exact h.read t other max hother

theorem Scheduler.Limited.leave {limit : Nat} (h : s.Limited limit) :
    (s.leave ticket).Limited limit := by
  refine ⟨h.maxRunning, fun t other max hother => ?_, h.running⟩
  simp only [Scheduler.leave, getElem?_erase] at hother
  split at hother
  · cases hother
  · exact h.read t other max hother

theorem Scheduler.Limited.frame {limit : Nat} (h : s.Limited limit)
    (hflight : s'.inFlight = s.inFlight) (hmax : s'.maxRunning = s.maxRunning)
    (hrunning : s'.running ≤ limit) : s'.Limited limit :=
  ⟨hmax.trans h.maxRunning, fun t other max hother => h.read t other max (hflight ▸ hother),
    hrunning⟩

theorem Scheduler.Limited.proceed {limit : Nat} (h : s.Limited limit)
    (hsub : s.inFlight[ticket]? = some sub)
    (hstep : s.proceed ticket sub e sub.stage = some s') : s'.Limited limit := by
  -- Behind the claim a submit has no limit any more, and gives a slot back at most.
  have hon : ∀ {stage : Stage}, (∀ max, stage ≠ .limited max) →
      (s.advance ticket sub stage).Limited limit := fun hstage =>
    h.advance fun max hmax => absurd hmax (hstage max)
  have hoff : s.running - 1 ≤ limit := (Nat.sub_le ..).trans h.running
  generalize hstage : sub.stage = stage at hstep
  unfold Scheduler.proceed at hstep
  split at hstep
  next =>
    cases hstep
    exact h.advance fun max hmax => (Stage.limited.inj hmax).symm.trans h.maxRunning
  next max =>
    have hmax := h.read ticket sub max hsub hstage
    split at hstep <;> cases hstep
    · exact h.leave
    · exact (hon (by simp)).frame rfl rfl (by dsimp only; omega)
  next =>
    cases hstep
    exact (hon (by simp)).frame rfl rfl h.running
  next =>
    split at hstep <;> cases hstep
    · exact (hon (by simp)).frame rfl rfl h.running
    · exact h.leave.frame rfl rfl hoff
  next =>
    cases hstep
    exact (hon (by simp)).frame rfl rfl h.running
  next =>
    split at hstep <;> cases hstep
    · exact hon (by simp)
    · exact h.leave.frame rfl rfl hoff
  next =>
    split at hstep <;> cases hstep
    · exact h.leave.frame rfl rfl h.running
    · exact h.leave.frame rfl rfl hoff
  next => cases hstep

theorem Scheduler.Limited.step {limit : Nat} (h : s.Limited limit) (hkeeps : e.KeepsLimit limit)
    (hstep : s.step e = some s') : s'.Limited limit := by
  cases hticket : e.ticket with
  | some ticket =>
    obtain ⟨sub, hsub, hproceed⟩ := Scheduler.step_eq_proceed hticket hstep
    exact h.proceed hsub hproceed
  | none =>
    cases e with
    | submit kind inputHash subject =>
      cases hstep
      unfold Scheduler.lookUp
      split
      · exact h.frame rfl rfl h.running
      · have hon : (s.advance s.tickets ⟨kind, inputHash, subject, .unknownInput⟩
            .unknownInput).Limited limit := h.advance nofun
        exact hon.frame rfl rfl h.running
    | finish jobId res taken =>
      simp only [Scheduler.step, Option.ite_none_right_eq_some, Option.some.injEq] at hstep
      obtain ⟨-, rfl⟩ := hstep
      obtain ⟨hflight, -, hmax⟩ := s.finish_frame jobId res taken
      exact h.frame hflight hmax ((Nat.sub_le ..).trans h.running)
    | setMaxRunning n =>
      cases hstep
      exact ⟨hkeeps, h.read, h.running⟩
    | recover maxRunning markInterrupted =>
      cases hstep
      exact ⟨hkeeps, fun _ _ _ h => (by cases h), Nat.zero_le _⟩
    | _ => cases hticket

/-- In every run of a scheduler the count of running jobs is that of the workers that have not
    ended and of the submits that hold a slot. In a run with one limit there are never more. -/
theorem job_slots_exact (maxRunning : Nat) (s : Scheduler)
    (h : Runs.Reaches Scheduler.step (fun _ _ => True) (Scheduler.initial maxRunning) s) :
    s.running = s.workers.length + s.holders.card ∧
      (Runs.Reaches Scheduler.step (fun _ e => e.KeepsLimit maxRunning)
          (Scheduler.initial maxRunning) s →
        s.workers.length + s.holders.card ≤ maxRunning) := by
  have hcounted : s.Counted := h.invariant (P := Scheduler.Counted)
    ⟨rfl, fun _ _ h => by cases h⟩ fun s e s' hs _ hstep => hs.step hstep
  refine ⟨hcounted.running, fun hone => ?_⟩
  rw [← hcounted.running]
  have hlimited : s.Limited maxRunning := hone.invariant (P := Scheduler.Limited maxRunning)
    ⟨rfl, fun _ _ _ h => (by cases h), Nat.zero_le _⟩ fun s e s' hs hkeeps hstep =>
      hs.step hkeeps hstep
  exact hlimited.running

/-- The limit is lowered behind the back of a submit that has read it. -/
example : ∃ s, Runs.run Scheduler.step (Scheduler.initial 2) (JobIdentity.submitAll 0 [1] ++
      [.submit .infer [2] ⟨utf8 "ann", [], none⟩, .readLimit 1, .setMaxRunning 1, .claim 1])
        = some s ∧ s.running = 2 ∧ s.maxRunning = 1 := by
  decide +kernel

/-- A worker runs, a submit has a slot, and another one was refused. -/
theorem job_slots_counted :
    ∃ s, Runs.run Scheduler.step (Scheduler.initial 2) (JobIdentity.submitAll 0 [1] ++
        [.submit .infer [2] ⟨utf8 "ann", [], none⟩, .submit .infer [3] ⟨utf8 "ann", [], none⟩,
          .readLimit 1, .readLimit 2, .claim 1, .draw 1, .claim 2]) = some s ∧
      s.workers.length = 1 ∧ s.holders.card = 1 ∧ s.workers.length + s.holders.card ≤ 2 := by
  refine Runs.exists_run (C := fun _ e => e.KeepsLimit 2)
    (P := fun s => s.running = 2 ∧ s.workers.length = 1) (by decide +kernel)
    (Runs.meets_of_forall _ (fun e he _ => ?_) _) fun s hreach ⟨hrunning, hworkers⟩ => ?_
  · revert e
    decide
  · obtain ⟨hslots, hbound⟩ := job_slots_exact 2 s (hreach.mono fun _ _ _ => trivial)
    exact ⟨hworkers, by omega, hbound hreach⟩

end Aikoql.Kernel
