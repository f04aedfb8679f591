import Aikoql.Kernel.Jobs

/-!
# Jobs Keep Their Ids

When every job has an id of its own, and keeps its rows.

An id is drawn by adding to a counter, so two submits of one process draw different ids.
A row is written under an id that was drawn, and is taken back only by the submit that
wrote it. What remains is the counter of a process that was restarted. It starts at the
largest id of the rows, which is in use, so the first job behind a restart takes the
place of the newest one before it.

## Main definitions

* `DrawsUnused`: No row has the id that is drawn.
* `Scheduler.KeepsOthers`: The rows of other submits are kept.

## Main theorems

* `Scheduler.Sound.step`: A step keeps the ids apart.
* `jobs_keep_identity`: The ids and rows of jobs in every run.
* `JobIdentity.job_replaced`: A job that is replaced behind a restart.
-/

namespace Aikoql.Kernel

open Option

variable {s s' : Scheduler} {e : JobEvent} {ticket : Nat} {stage : Stage}
variable {byHash : Std.ExtTreeMap Bytes Nat}

def DrawsUnused (s : Scheduler) : JobEvent → Prop
  | .draw _ => s.jobs[s.nextId]?.isNone = true
  | _ => True

instance (s : Scheduler) (e : JobEvent) : Decidable (DrawsUnused s e) :=
  match e with
  | .draw _ => inferInstanceAs (Decidable (_ = true))
  | .submit _ _ _ | .readLimit _ | .claim _ | .place _ _ | .register _ | .record _ _ _ | .spawn _ _ _
  | .finish _ _ _ | .setMaxRunning _ | .recover _ _ => isTrue trivial

/-- The submit that makes a step. One that starts is given the next ticket. -/
def Scheduler.submitter (s : Scheduler) : JobEvent → Option Nat
  | .submit _ _ _ => some s.tickets
  | e => e.ticket

/-- The rows that other submits have written are kept, and so are the results. -/
def Scheduler.KeepsOthers (s : Scheduler) (ticket : Nat) (s' : Scheduler) : Prop :=
  ∀ (jobId : Nat) (row : JobRecord), s.jobs[jobId]? = some row →
    s.writer[jobId]? ≠ some ticket → s'.jobs[jobId]? = some row ∧ s'.results[jobId]? = s.results[jobId]?

/-! ## Submits that have not returned -/

def Stage.jobId : Stage → Option Nat
  | .unknownInput | .limited _ | .claimed => none
  | .drawn jobId | .placed jobId | .registered jobId | .recorded jobId => some jobId

/-- A submit that has drawn an id has it to itself, and before it writes the row there
    is none. -/
def Scheduler.Sits (s : Scheduler) (ticket : Nat) : Stage → Prop
  | .unknownInput | .limited _ | .claimed => True
  | .drawn jobId => jobId < s.nextId ∧ jobId ∉ s.admitted ∧ s.jobs[jobId]? = none
  | .placed jobId | .registered jobId | .recorded jobId =>
    jobId < s.nextId ∧ jobId ∉ s.admitted ∧ s.jobs[jobId]? ≠ none ∧ s.writer[jobId]? = some ticket

theorem Scheduler.Sits.lt_nextId {jobId : Nat} (h : s.Sits ticket stage)
    (hid : stage.jobId = some jobId) : jobId < s.nextId := by
  cases stage with
  | unknownInput | limited | claimed => cases hid
  | _ => cases hid; exact h.1

theorem Scheduler.Sits.frame {s s' : Scheduler} {ticket : Nat} {stage : Stage}
    (h : s.Sits ticket stage) (hnext : s.nextId ≤ s'.nextId)
    (hsame : ∀ jobId, stage.jobId = some jobId → (s'.jobs[jobId]? = none ↔ s.jobs[jobId]? = none) ∧
      s'.writer[jobId]? = s.writer[jobId]? ∧ (jobId ∈ s'.admitted → jobId ∈ s.admitted)) :
    s'.Sits ticket stage := by
  cases stage with
  | unknownInput | limited | claimed => trivial
  | drawn jobId =>
    obtain ⟨hjobs, -, hadmitted⟩ := hsame jobId rfl
    exact ⟨Nat.lt_of_lt_of_le h.1 hnext, fun hin => h.2.1 (hadmitted hin), hjobs.mpr h.2.2⟩
  | placed jobId | registered jobId | recorded jobId =>
    obtain ⟨hlt, hnot, hrow, hwriter⟩ := h
    obtain ⟨hjobs, hwriter', hadmitted⟩ := hsame jobId rfl
    exact ⟨Nat.lt_of_lt_of_le hlt hnext, fun hin => hnot (hadmitted hin),
      fun hnone => hrow (hjobs.mp hnone), hwriter'.trans hwriter⟩

/-- The submits sit apart, and the jobs that were admitted are stored. -/
structure Scheduler.Sound (s : Scheduler) : Prop where
  sits : ∀ (ticket : Nat) (sub : Submission), s.inFlight[ticket]? = some sub → s.Sits ticket sub.stage
  apart : ∀ (ticket ticket' : Nat) (sub sub' : Submission) (jobId : Nat),
    s.inFlight[ticket]? = some sub → s.inFlight[ticket']? = some sub' →
    sub.stage.jobId = some jobId → sub'.stage.jobId = some jobId → ticket = ticket'
  stored : ∀ jobId ∈ s.admitted, s.jobs[jobId]? ≠ none
  nodup : s.admitted.Nodup

theorem Scheduler.Sound.initial (maxRunning : Nat) : (Scheduler.initial maxRunning).Sound where
  sits := fun ticket sub h => by simp [Scheduler.initial] at h
  apart := fun ticket ticket' sub sub' jobId h => by simp [Scheduler.initial] at h
  stored := fun jobId h => by cases h
  nodup := List.nodup_nil

/-- What a step of one submit leaves to the ids of the others. -/
def Scheduler.LeavesIds (s : Scheduler) (ticket : Nat) (s' : Scheduler) : Prop :=
  ∀ t ≠ ticket, ∀ (sub : Submission) (jobId : Nat), s.inFlight[t]? = some sub →
    sub.stage.jobId = some jobId → (s'.jobs[jobId]? = none ↔ s.jobs[jobId]? = none) ∧
      s'.writer[jobId]? = s.writer[jobId]? ∧ (jobId ∈ s'.admitted → jobId ∈ s.admitted)

theorem Scheduler.Sound.toStage {s s' : Scheduler} {ticket : Nat} {sub : Submission}
    {stage : Stage} (h : s.Sound)
    (hinFlight : s'.inFlight = s.inFlight.insert ticket { sub with stage := stage })
    (hnext : s.nextId ≤ s'.nextId) (hleaves : s.LeavesIds ticket s')
    (hsits : s'.Sits ticket stage)
    (hapart : ∀ t ≠ ticket, ∀ (other : Submission) (jobId : Nat), s.inFlight[t]? = some other →
      other.stage.jobId = some jobId → stage.jobId ≠ some jobId)
    (hstored : ∀ jobId ∈ s'.admitted, s'.jobs[jobId]? ≠ none) (hnodup : s'.admitted.Nodup) :
    s'.Sound := by
  refine ⟨?_, ?_, hstored, hnodup⟩
  · intro t other hother
    rw [hinFlight] at hother
    rcases getElem?_insert_cases hother with ⟨rfl, rfl⟩ | ⟨ht, hother⟩
    · exact hsits
    · exact (h.sits t other hother).frame hnext fun jobId hid =>
        hleaves t (Ne.symm ht) other jobId hother hid
  · intro t t' other other' jobId hother hother' hid hid'
    rw [hinFlight] at hother hother'
    -- Either of the two may be the one that made the step.
    rcases getElem?_insert_cases hother with ⟨rfl, rfl⟩ | ⟨ht, hother⟩
    · rcases getElem?_insert_cases hother' with ⟨rfl, rfl⟩ | ⟨ht', hother'⟩
      · rfl
      · exact absurd hid (hapart t' (Ne.symm ht') other' jobId hother' hid')
    · rcases getElem?_insert_cases hother' with ⟨rfl, rfl⟩ | ⟨ht', hother'⟩
      · exact absurd hid' (hapart t (Ne.symm ht) other jobId hother hid)
      · exact h.apart t t' other other' jobId hother hother' hid hid'

theorem Scheduler.Sound.return (h : s.Sound) (hinFlight : s'.inFlight = s.inFlight.erase ticket)
    (hnext : s.nextId ≤ s'.nextId) (hleaves : s.LeavesIds ticket s')
    (hstored : ∀ jobId ∈ s'.admitted, s'.jobs[jobId]? ≠ none) (hnodup : s'.admitted.Nodup) :
    s'.Sound := by
  have hkept : ∀ (t : Nat) (other : Submission), s'.inFlight[t]? = some other →
      t ≠ ticket ∧ s.inFlight[t]? = some other := by
    intro t other hother
    rw [hinFlight] at hother
    obtain ⟨ht, hother⟩ := getElem?_erase_cases hother
    exact ⟨Ne.symm ht, hother⟩
  refine ⟨?_, ?_, hstored, hnodup⟩
  · intro t other hother
    obtain ⟨ht, hother⟩ := hkept t other hother
    exact (h.sits t other hother).frame hnext fun jobId hid => hleaves t ht other jobId hother hid
  · intro t t' other other' jobId hother hother' hid hid'
    exact h.apart t t' other other' jobId (hkept t other hother).2 (hkept t' other' hother').2
      hid hid'

theorem Scheduler.Sound.held_once {jobId : Nat} {sub : Submission} (h : s.Sound)
    (hsub : s.inFlight[ticket]? = some sub) (hid : sub.stage.jobId = some jobId) :
    ∀ t ≠ ticket, ∀ (other : Submission) (jobId' : Nat), s.inFlight[t]? = some other →
      other.stage.jobId = some jobId' → jobId ≠ jobId' := by
  rintro t ht other jobId' hother hid' rfl
  exact ht (h.apart t ticket other sub jobId hother hsub hid' hid)

/-! ## Stages -/

section

variable {s s' : Scheduler} {ticket jobId : Nat} {sub : Submission}

section

variable (h : s.Sound)
include h

theorem Scheduler.Sound.advance {running : Nat} (hsub : s.inFlight[ticket]? = some sub)
    (hstage : s.Sits ticket stage)
    (hid : ∀ jobId, stage.jobId = some jobId → sub.stage.jobId = some jobId) :
    Sound { s.advance ticket sub stage with running := running, byHash := byHash } := by
  refine h.toStage rfl le_rfl (fun _ _ _ _ _ _ => ⟨Iff.rfl, rfl, id⟩) hstage ?_ h.stored h.nodup
  intro t ht other jobId hother hheld hsame
  exact h.held_once hsub (hid jobId hsame) t ht other jobId hother hheld rfl

theorem Scheduler.Sound.draw (hunused : s.jobs[s.nextId]? = none) :
    Sound { s.advance ticket sub (.drawn s.nextId) with nextId := s.nextId + 1 } := by
  refine h.toStage rfl (Nat.le_succ _) (fun _ _ _ _ _ _ => ⟨Iff.rfl, rfl, id⟩)
    ⟨Nat.lt_succ_self _, fun hin => h.stored _ hin hunused, hunused⟩ ?_ h.stored h.nodup
  -- The other submits have drawn smaller ids.
  intro t _ other jobId hother hheld hsame
  have hlt := (h.sits t other hother).lt_nextId hheld
  have heq : s.nextId = jobId := Option.some.inj hsame
  omega

theorem Scheduler.Sound.place (hsub : s.inFlight[ticket]? = some sub)
    (hstage : sub.stage = .drawn jobId) :
    Sound { s.advance ticket sub (.placed jobId) with
      jobs := s.jobs.insert jobId (sub.record jobId)
      writer := s.writer.insert jobId ticket } := by
  have hsits := h.sits ticket sub hsub
  rw [hstage] at hsits
  have hheld := h.held_once hsub (hstage ▸ rfl : sub.stage.jobId = some jobId)
  have hjobs : ∀ jobId' : Nat, (s.jobs.insert jobId (sub.record jobId))[jobId']?
      = if jobId = jobId' then some (sub.record jobId) else s.jobs[jobId']? :=
    fun jobId' => getElem?_insert_eq _ _ _ _
  refine h.toStage rfl le_rfl ?_ ⟨hsits.1, hsits.2.1, ?_, ?_⟩ ?_ ?_ h.nodup
  · intro t ht other jobId' hother hid
    have hne := hheld t ht other jobId' hother hid
    refine ⟨?_, (getElem?_insert_eq _ _ _ _).trans (if_neg hne), id⟩
    show (s.jobs.insert jobId (sub.record jobId))[jobId']? = none ↔ _
    rw [hjobs, if_neg hne]
  · show (s.jobs.insert jobId (sub.record jobId))[jobId]? ≠ none
    rw [hjobs, if_pos rfl]
    exact some_ne_none _
  · exact (getElem?_insert_eq _ _ _ _).trans (if_pos rfl)
  · intro t ht other jobId' hother hid hsame
    exact hheld t ht other jobId' hother hid (Option.some.inj hsame)
  · intro jobId' hin
    show (s.jobs.insert jobId (sub.record jobId))[jobId']? ≠ none
    rw [hjobs]
    by_cases hne : jobId = jobId'
    · rw [if_pos hne]
      exact some_ne_none _
    · rw [if_neg hne]
      exact h.stored jobId' hin

theorem Scheduler.Sound.giveUp {running : Nat} :
    Sound { s.leave ticket with running := running, byHash := byHash } :=
  h.return rfl le_rfl (fun _ _ _ _ _ _ => ⟨Iff.rfl, rfl, id⟩) h.stored h.nodup

theorem Scheduler.Sound.abort (hsub : s.inFlight[ticket]? = some sub)
    (hid : sub.stage.jobId = some jobId) (hnot : jobId ∉ s.admitted) (undone : Bool) :
    ((s.abortAdmission jobId sub.inputHash undone).leave ticket).Sound := by
  cases undone with
  | false => exact h.giveUp
  | true =>
    have hjobs : ∀ jobId' : Nat, jobId ≠ jobId' →
        (s.jobs.erase jobId)[jobId']? = s.jobs[jobId']? := by
      intro jobId' hne
      rw [getElem?_erase_eq, if_neg hne]
    refine h.return rfl le_rfl ?_ ?_ h.nodup
    · intro t ht other jobId' hother hid'
      have hne := h.held_once hsub hid t ht other jobId' hother hid'
      exact ⟨iff_of_eq (congrArg (· = none) (hjobs jobId' hne)), rfl, id⟩
    · intro jobId' hin
      have hne : jobId ≠ jobId' := fun heq => hnot (heq ▸ hin)
      exact fun hnone => h.stored jobId' hin ((hjobs jobId' hne).symm.trans hnone)

theorem Scheduler.Sound.spawn (hsub : s.inFlight[ticket]? = some sub)
    (hid : sub.stage.jobId = some jobId) (hnot : jobId ∉ s.admitted)
    (hrow : s.jobs[jobId]? ≠ none) :
    Sound { s.leave ticket with
      workers := jobId :: s.workers
      handles := ⟨jobId, sub.inputHash, false⟩ :: s.handles } := by
  refine h.return rfl le_rfl ?_ ?_ (List.nodup_cons.mpr ⟨hnot, h.nodup⟩)
  · intro t ht other jobId' hother hid'
    refine ⟨Iff.rfl, rfl, fun hin => ?_⟩
    rcases List.mem_cons.mp hin with heq | hin
    · exact absurd heq.symm (h.held_once hsub hid t ht other jobId' hother hid')
    · exact hin
  · exact List.forall_mem_cons.mpr ⟨hrow, h.stored⟩

theorem Scheduler.Sound.proceed (hunused : DrawsUnused s e)
    (hsub : s.inFlight[ticket]? = some sub) (hstep : s.proceed ticket sub e sub.stage = some s') :
    s'.Sound := by
  have hsits := h.sits ticket sub hsub
  unfold Scheduler.proceed at hstep
  split at hstep
  next hstage =>
    cases hstep
    exact h.advance hsub trivial fun _ hid => nomatch hid
  next max hstage =>
    split at hstep <;> cases hstep
    · exact h.giveUp
    · exact h.advance hsub trivial fun _ hid => nomatch hid
  next hstage =>
    cases hstep
    exact h.draw (isNone_iff_eq_none.mp hunused)
  next taken jobId hstage =>
    split at hstep <;> cases hstep
    · exact h.place hsub hstage
    · exact h.giveUp
  next jobId hstage =>
    cases hstep
    rw [hstage] at hsits
    exact h.advance hsub hsits fun _ hid => hstage ▸ hid
  next recorded undone jobId hstage =>
    rw [hstage] at hsits
    split at hstep <;> cases hstep
    · exact h.advance hsub hsits fun _ hid => hstage ▸ hid
    · exact h.abort hsub (hstage ▸ rfl) hsits.2.1 undone
  next started undone jobId hstage =>
    rw [hstage] at hsits
    split at hstep <;> cases hstep
    · exact h.spawn hsub (hstage ▸ rfl) hsits.2.1 hsits.2.2.1
    · exact h.abort hsub (hstage ▸ rfl) hsits.2.1 undone
  next => cases hstep

theorem Scheduler.Sound.proceed_keepsOthers (hsub : s.inFlight[ticket]? = some sub)
    (hstep : s.proceed ticket sub e sub.stage = some s') : s.KeepsOthers ticket s' := by
  have hsits := h.sits ticket sub hsub
  have habort : ∀ (jobId : Nat) (undone : Bool), s.writer[jobId]? = some ticket →
      s.KeepsOthers ticket ((s.abortAdmission jobId sub.inputHash undone).leave ticket) := by
    intro jobId undone hwriter other row hrow hne
    refine ⟨?_, rfl⟩
    cases undone with
    | false => exact hrow
    | true =>
      refine (getElem?_erase_eq _ _ _).trans ((if_neg ?_).trans hrow)
      exact fun heq => hne (heq ▸ hwriter)
  unfold Scheduler.proceed at hstep
  split at hstep
  next hstage =>
    cases hstep
    exact fun _ _ hrow _ => ⟨hrow, rfl⟩
  next max hstage =>
    split at hstep <;> cases hstep <;> exact fun _ _ hrow _ => ⟨hrow, rfl⟩
  next hstage =>
    cases hstep
    exact fun _ _ hrow _ => ⟨hrow, rfl⟩
  next taken jobId hstage =>
    rw [hstage] at hsits
    split at hstep <;> cases hstep
    · -- The row is written where there was none.
      intro other row hrow _
      refine ⟨(getElem?_insert_eq _ _ _ _).trans ((if_neg ?_).trans hrow), rfl⟩
      rintro rfl
      rw [hsits.2.2] at hrow
      cases hrow
    · exact fun _ _ hrow _ => ⟨hrow, rfl⟩
  next jobId hstage =>
    cases hstep
    exact fun _ _ hrow _ => ⟨hrow, rfl⟩
  next recorded undone jobId hstage =>
    rw [hstage] at hsits
    split at hstep <;> cases hstep
    · exact fun _ _ hrow _ => ⟨hrow, rfl⟩
    · exact habort jobId undone hsits.2.2.2
  next started undone jobId hstage =>
    rw [hstage] at hsits
    split at hstep <;> cases hstep
    · exact fun _ _ hrow _ => ⟨hrow, rfl⟩
    · exact habort jobId undone hsits.2.2.2
  next => cases hstep

end

end

/-! ## Runs -/

theorem Scheduler.Sound.of_rows (h : s.Sound) {jobs : Std.ExtTreeMap Nat JobRecord}
    {results : Std.ExtTreeMap Nat Bytes}
    (hjobs : ∀ jobId : Nat, jobs[jobId]? = none ↔ s.jobs[jobId]? = none) :
    Sound { s with jobs := jobs, results := results, byHash := byHash } := by
  refine ⟨fun ticket sub hsub => ?_, h.apart, fun jobId hin hnone => ?_, h.nodup⟩
  · exact (h.sits ticket sub hsub).frame le_rfl fun jobId _ => ⟨hjobs jobId, rfl, id⟩
  · exact h.stored jobId hin ((hjobs jobId).mp hnone)

theorem Scheduler.Sound.finish (h : s.Sound) (jobId : Nat) (res : Except Text Bytes)
    (taken : Bool) : (s.finish jobId res taken).Sound := by
  unfold Scheduler.finish
  cases hrow : s.jobs[jobId]? with
  | none => exact h
  | some row =>
    have hinsert : ∀ (row' : JobRecord) (other : Nat),
        (s.jobs.insert jobId row')[other]? = none ↔ s.jobs[other]? = none := by
      intro row' other
      rw [getElem?_insert_eq]
      by_cases hid : jobId = other
      · rw [if_pos hid, ← hid, hrow]
        simp
      · rw [if_neg hid]
    cases res with
    | ok | error =>
      cases taken with
      | false => exact h.of_rows fun _ => Iff.rfl
      | true => exact h.of_rows (hinsert _)

theorem Scheduler.Sound.lookUp (h : s.Sound) (kind : JobKind) (inputHash : Bytes)
    (subject : Subject) : (s.lookUp kind inputHash subject).Sound := by
  unfold Scheduler.lookUp
  cases s.byHash[inputHash]? with
  | some jobId => exact ⟨h.sits, h.apart, h.stored, h.nodup⟩
  | none =>
    let sub : Submission := ⟨kind, inputHash, subject, .unknownInput⟩
    have hinFlight : s.inFlight.insert s.tickets sub
        = s.inFlight.insert s.tickets { sub with stage := .unknownInput } := rfl
    exact h.toStage hinFlight le_rfl (fun _ _ _ _ _ _ => ⟨Iff.rfl, rfl, id⟩) trivial
      (fun _ _ _ _ _ _ h => nomatch h) h.stored h.nodup

theorem Scheduler.Sound.recover (h : s.Sound) (maxRunning : Nat) (markInterrupted : Bool) :
    (s.recover maxRunning markInterrupted).Sound := by
  refine ⟨fun ticket sub hsub => ?_, fun ticket _ sub _ _ hsub => ?_, ?_, h.nodup⟩
  · simp [Scheduler.recover] at hsub
  · simp [Scheduler.recover] at hsub
  · intro jobId hin hnone
    have hrow : (s.jobs.map fun _ row => interrupt markInterrupted row)[jobId]? = none := hnone
    rw [Std.ExtTreeMap.getElem?_map, map_eq_none_iff] at hrow
    exact h.stored jobId hin hrow

theorem Scheduler.step_eq_proceed (hticket : e.ticket = some ticket) (hstep : s.step e = some s') :
    ∃ sub, s.inFlight[ticket]? = some sub ∧ s.proceed ticket sub e sub.stage = some s' := by
  cases e <;> cases hticket <;> exact bind_eq_some_iff.mp hstep

theorem Scheduler.Sound.step (h : s.Sound) (hunused : DrawsUnused s e) (hstep : s.step e = some s') :
    s'.Sound := by
  cases hticket : e.ticket with
  | some ticket =>
    obtain ⟨sub, hsub, hproceed⟩ := Scheduler.step_eq_proceed hticket hstep
    exact h.proceed hunused hsub hproceed
  | none =>
    cases e with
    | submit kind inputHash subject =>
      cases hstep
      exact h.lookUp kind inputHash subject
    | finish jobId res taken =>
      simp only [Scheduler.step, ite_none_right_eq_some, Option.some.injEq] at hstep
      obtain ⟨-, rfl⟩ := hstep
      obtain ⟨hsits, hapart, hstored, hnodup⟩ := h.finish jobId res taken
      exact ⟨hsits, hapart, hstored, hnodup⟩
    | setMaxRunning n =>
      cases hstep
      exact ⟨h.sits, h.apart, h.stored, h.nodup⟩
    | recover maxRunning markInterrupted =>
      cases hstep
      exact h.recover maxRunning markInterrupted
    | _ => cases hticket

theorem Scheduler.lookUp_keepsOthers (s : Scheduler) (kind : JobKind) (inputHash : Bytes)
    (subject : Subject) (ticket : Nat) :
    s.KeepsOthers ticket (s.lookUp kind inputHash subject) := by
  unfold Scheduler.lookUp
  cases s.byHash[inputHash]? with
  | some | none => exact fun _ _ hrow _ => ⟨hrow, rfl⟩

theorem Scheduler.Sound.keepsOthers (h : s.Sound) (hsubmitter : s.submitter e = some ticket)
    (hstep : s.step e = some s') : s.KeepsOthers ticket s' := by
  by_cases hstart : e.ticket = some ticket
  · obtain ⟨sub, hsub, hproceed⟩ := Scheduler.step_eq_proceed hstart hstep
    exact h.proceed_keepsOthers hsub hproceed
  · cases e with
    | submit kind inputHash subject =>
      cases hstep
      exact s.lookUp_keepsOthers kind inputHash subject ticket
    | finish | setMaxRunning | recover => cases hsubmitter
    | _ => exact absurd hsubmitter hstart

/-- In every run of a scheduler, with submits that interleave and fail anywhere, workers
    that end in any way and restarts, the jobs that are admitted have different ids, and
    no step of a submit changes the row or the result of a job that another submit has
    written, if no row has the id that is drawn. -/
theorem jobs_keep_identity (maxRunning : Nat) (s : Scheduler)
    (h : Runs.Reaches Scheduler.step DrawsUnused (Scheduler.initial maxRunning) s) :
    s.admitted.Nodup ∧ ∀ e s' ticket, s.submitter e = some ticket → s.step e = some s' →
      s.KeepsOthers ticket s' := by
  have hsound : s.Sound := h.invariant (Scheduler.Sound.initial maxRunning)
    fun _ _ _ hs hunused hstep => hs.step hunused hstep
  exact ⟨hsound.nodup, fun _ _ _ hsubmitter hstep => hsound.keepsOthers hsubmitter hstep⟩

namespace JobIdentity

def submitAll (ticket : Nat) (inputHash : Bytes) : List JobEvent :=
  [.submit .reason inputHash ⟨utf8 "ann", [], none⟩, .readLimit ticket, .claim ticket, .draw ticket,
    .place ticket true, .register ticket, .record ticket true true, .spawn ticket true true]

def oneProcess : List JobEvent :=
  submitAll 0 [1] ++ submitAll 1 [2] ++ [.finish 0 (.ok [7]) true,
    .finish 1 (.error (utf8 "no rule")) true, .recover 8 true]

theorem oneProcess_keeps_identity :
    ∃ s, Runs.run Scheduler.step (Scheduler.initial 8) oneProcess = some s ∧
      s.admitted = [1, 0] ∧ s.admitted.Nodup ∧
      ∀ e s' ticket, s.submitter e = some ticket → s.step e = some s' →
        s.KeepsOthers ticket s' := by
  exact Runs.exists_run (P := fun s => s.admitted = [1, 0]) (by decide +kernel)
    (by decide +kernel) fun s hreach hadmitted => ⟨hadmitted, jobs_keep_identity 8 s hreach⟩

def restarted : List JobEvent :=
  submitAll 0 [1] ++ [.finish 0 (.ok [7]) true, .recover 8 true] ++ submitAll 1 [2]

def restartedUnrecorded : List JobEvent :=
  submitAll 0 [1] ++ [.finish 0 (.ok [7]) true, .recover 8 true] ++
    [.submit .reason [2] ⟨utf8 "ann", [], none⟩, .readLimit 1, .claim 1, .draw 1, .place 1 true,
      .register 1, .record 1 false true]

/-- Both jobs have id `0`. The row of the first one is replaced while its result stays,
    and if the second one is not admitted then the row of the first one is gone. -/
theorem job_replaced : (∃ s, Runs.run Scheduler.step (Scheduler.initial 8) restarted = some s ∧
      s.admitted = [0, 0] ∧ ¬s.admitted.Nodup ∧
      s.jobs[0]?.map (fun row => (row.status, row.inputHash)) = some (.running, [2]) ∧
      s.results[0]? = some [7]) ∧
    ∃ s, Runs.run Scheduler.step (Scheduler.initial 8) restartedUnrecorded = some s ∧
      s.admitted = [0] ∧ s.jobs[0]? = none ∧ s.results[0]? = some [7] := by
  decide +kernel

end JobIdentity

end Aikoql.Kernel
