import Mathlib.Data.List.Basic

/-!
# Runs of a State Machine

A machine is a step function that may refuse an event. A run is a list of events,
and what a run reaches is told apart by a condition its steps meet: a claim about
every run of a machine is proved for the steps that meet the condition, from what
one of them keeps.
-/

namespace Aikoql.Runs

variable {σ ε : Type*} (step : σ → ε → Option σ)

/-- Run events in order. -/
def run (s : σ) : List ε → Option σ
  | [] => some s
  | e :: events => (step s e).bind fun s' => run s' events

theorem run_append (s : σ) (events events' : List ε) :
    run step s (events ++ events') = (run step s events).bind fun s' => run step s' events' := by
  induction events generalizing s with
  | nil => rfl
  | cons e events ih => rw [List.cons_append, run, run, Option.bind_assoc, funext ih]

/-- A state is reached by steps that all meet a condition on the state before
    them. -/
inductive Reaches (C : σ → ε → Prop) (start : σ) : σ → Prop
  | refl : Reaches C start start
  | tail {s s' : σ} {e : ε} (h : Reaches C start s) (hc : C s e) (hstep : step s e = some s') :
      Reaches C start s'

/-- Every step of a run meets a condition on the state before it. -/
def Meets (C : σ → ε → Prop) : σ → List ε → Prop
  | _, [] => True
  | s, e :: events => C s e ∧ ∀ s', step s e = some s' → Meets C s' events

variable {step} {C : σ → ε → Prop} {start mid s s' : σ}

/-- Whether a run meets a condition is found out by running it. -/
instance decidableMeets [∀ s e, Decidable (C s e)] : ∀ s events, Decidable (Meets step C s events)
  | _, [] => isTrue trivial
  | s, e :: events =>
    match h : step s e with
    | none => decidable_of_iff (C s e) (by simp [Meets, h])
    | some s' =>
      have := decidableMeets s' events
      decidable_of_iff (C s e ∧ Meets step C s' events) (by simp [Meets, h])

/-- What holds at the start and is kept by every step that meets the condition
    holds in every state reached. -/
theorem Reaches.invariant {P : σ → Prop} (hreach : Reaches step C start s) (hstart : P start)
    (hkeep : ∀ s e s', P s → C s e → step s e = some s' → P s') : P s := by
  induction hreach with
  | refl => exact hstart
  | tail _ hc hstep ih => exact hkeep _ _ _ ih hc hstep

theorem Reaches.mono {C' : σ → ε → Prop} (hreach : Reaches step C start s)
    (h : ∀ s e, C s e → C' s e) : Reaches step C' start s := by
  induction hreach with
  | refl => exact .refl
  | tail _ hc hstep ih => exact .tail ih (h _ _ hc) hstep

theorem Reaches.trans (hfirst : Reaches step C start mid) (hrest : Reaches step C mid s) :
    Reaches step C start s := by
  induction hrest with
  | refl => exact hfirst
  | tail _ hc hstep ih => exact .tail ih hc hstep

theorem meets_of_forall (events : List ε) (h : ∀ e ∈ events, ∀ s, C s e) (s : σ) :
    Meets step C s events := by
  induction events generalizing s with
  | nil => trivial
  | cons e events ih =>
    rw [List.forall_mem_cons] at h
    exact ⟨h.1 s, fun s' _ => ih h.2 s'⟩

theorem Meets.and {C' : σ → ε → Prop} {s : σ} {events : List ε} (h : Meets step C s events)
    (h' : Meets step C' s events) : Meets step (fun s e => C s e ∧ C' s e) s events := by
  induction events generalizing s with
  | nil => trivial
  | cons e events ih =>
    exact ⟨⟨h.1, h'.1⟩, fun s' hstep => ih (h.2 s' hstep) (h'.2 s' hstep)⟩

/-- A run all of whose steps meet a condition reaches its last state. -/
theorem reaches_of_run (events : List ε) (hmeets : Meets step C s events)
    (hrun : run step s events = some s') : Reaches step C s s' := by
  suffices h : ∀ start, Reaches step C start s → Reaches step C start s' from h s .refl
  induction events generalizing s with
  | nil =>
    cases hrun
    exact fun _ h => h
  | cons e events ih =>
    rw [run, Option.bind_eq_some_iff] at hrun
    rcases hrun with ⟨mid, hmid, hrest⟩
    exact fun start h => ih (hmeets.2 mid hmid) hrest start (h.tail hmeets.1 hmid)

theorem reaches_of_forall (events : List ε) (h : ∀ e ∈ events, ∀ s, C s e)
    (hrun : run step s events = some s') : Reaches step C s s' :=
  reaches_of_run events (meets_of_forall events h s) hrun

/-- Whether a computation ends in a state with a property is found out by
    evaluating it. -/
instance decidableEnds {o : Option σ} {P : σ → Prop} [DecidablePred P] :
    Decidable (∃ s, o = some s ∧ P s) :=
  match o with
  | none => isFalse (by simp)
  | some s => decidable_of_iff (P s) (by simp)

/-- The end of a run has what an evaluation shows of it, and what all states have
    that are reached by steps that meet the condition. -/
theorem exists_run {events : List ε} {P Q : σ → Prop}
    (hend : ∃ s', run step s events = some s' ∧ P s') (hmeets : Meets step C s events)
    (h : ∀ s', Reaches step C s s' → P s' → Q s') :
    ∃ s', run step s events = some s' ∧ Q s' := by
  obtain ⟨s', hrun, hs'⟩ := hend
  exact ⟨s', hrun, h s' (reaches_of_run events hmeets hrun) hs'⟩

end Aikoql.Runs
