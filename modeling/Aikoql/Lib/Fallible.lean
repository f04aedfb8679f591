import Mathlib

/-!
# Fallible Computations

Rules for programs in `Except`, where every step may stop the whole with an
error.

A program that succeeded went through every one of its steps, so the way to
reason about a success is to peel the steps off one by one. `bind_eq_ok` does
that for a binding and `ensure_eq_ok` for a check; both are stated as
equivalences, so the same rule also builds a success out of its parts.

Folding a fallible step over a list is how a program consumes a sequence of
records. `foldlM_ok_invariant` is the induction over such a run, done once, and
`exists_foldlM` the one that shows that the run succeeds.

## Theorems

* `ensure_eq_ok`: A check succeeds when its condition holds.
-/

namespace Aikoql

open List

variable {ε α β σ : Type}

/-- Stop with the error unless the condition holds. -/
def ensure (c : Prop) [Decidable c] (e : ε) : Except ε Unit :=
  if c then .ok () else .error e

/-- A sequence succeeds exactly when its first part does and the rest does on
    the result. -/
theorem bind_eq_ok {x : Except ε α} {f : α → Except ε β} {b : β} :
    (x >>= f) = .ok b ↔ ∃ a, x = .ok a ∧ f a = .ok b := by
  cases x <;> simp [bind, Except.bind]

@[simp] theorem ok_bind (a : α) (f : α → Except ε β) : ((.ok a : Except ε α) >>= f) = f a :=
  rfl

@[simp] theorem error_bind (e : ε) (f : α → Except ε β) :
    ((.error e : Except ε α) >>= f) = .error e :=
  rfl

@[simp] theorem pure_eq_ok {a b : α} : (pure a : Except ε α) = .ok b ↔ a = b := by
  simp [pure, Except.pure]

@[simp] theorem ensure_eq_ok {c : Prop} [Decidable c] {e : ε} {u : Unit} :
    ensure c e = .ok u ↔ c := by
  simp [ensure]

theorem ensure_pos {c : Prop} [Decidable c] (h : c) (e : ε) : ensure c e = .ok () :=
  if_pos h

theorem ensure_neg {c : Prop} [Decidable c] (h : ¬c) (e : ε) : ensure c e = .error e :=
  if_neg h

/-- What one step preserves, a run over a list preserves. -/
theorem foldlM_ok_invariant (P : σ → Prop) (step : σ → α → Except ε σ) (xs : List α)
    (hstep : ∀ s s' x, x ∈ xs → P s → step s x = .ok s' → P s') (s s' : σ) (hs : P s)
    (hrun : xs.foldlM step s = .ok s') : P s' := by
  induction xs generalizing s with
  | nil =>
    cases hrun
    exact hs
  | cons x xs ih =>
    rw [foldlM_cons, bind_eq_ok] at hrun
    rcases hrun with ⟨t, hx, ht⟩
    refine ih (fun a b y hy => hstep a b y (mem_cons_of_mem x hy)) t ?_ ht
    exact hstep s t x mem_cons_self hs hx

/-- What a step leaves of its element and all steps keep, a run leaves of every element. -/
theorem foldlM_leaves (Q : σ → β → Prop) (of : α → β) (step : σ → α → Except ε σ) (xs : List α)
    (hleaves : ∀ s s' x, step s x = .ok s' → Q s' (of x))
    (hkeeps : ∀ s s' x b, step s x = .ok s' → Q s b → Q s' b) (s s' : σ)
    (hrun : xs.foldlM step s = .ok s') : (∀ x ∈ xs, Q s' (of x)) ∧ ∀ b, Q s b → Q s' b := by
  have hkept : ∀ (xs : List α) (s : σ), xs.foldlM step s = .ok s' → ∀ b, Q s b → Q s' b :=
    fun xs s hrun b hb => foldlM_ok_invariant (Q · b) step xs
      (fun t t' x _ ht hx => hkeeps t t' x b hx ht) s s' hb hrun
  refine ⟨?_, hkept xs s hrun⟩
  induction xs generalizing s with
  | nil => simp
  | cons x xs ih =>
    rw [foldlM_cons, bind_eq_ok] at hrun
    rcases hrun with ⟨t, hx, ht⟩
    exact forall_mem_cons.mpr ⟨hkept xs t ht _ (hleaves s t x hx), ih t ht⟩

/-- A run succeeds if every step does from where the invariant holds, and keeps it. -/
theorem exists_foldlM (P : σ → Prop) (step : σ → α → Except ε σ) (xs : List α)
    (hstep : ∀ s x, x ∈ xs → P s → ∃ s', step s x = .ok s' ∧ P s') (s : σ) (hs : P s) :
    ∃ s', xs.foldlM step s = .ok s' ∧ P s' := by
  induction xs generalizing s with
  | nil => exact ⟨s, rfl, hs⟩
  | cons x xs ih =>
    rcases hstep s x mem_cons_self hs with ⟨t, hx, ht⟩
    rw [foldlM_cons, hx, ok_bind]
    exact ih (fun s y hy => hstep s y (mem_cons_of_mem x hy)) t ht

theorem foldlM_fixed (step : σ → α → Except ε σ) (xs : List α) (s : σ)
    (h : ∀ x ∈ xs, step s x = .ok s) : xs.foldlM step s = .ok s := by
  obtain ⟨_, hrun, rfl⟩ := exists_foldlM (· = s) step xs
    (fun t x hx ht => ⟨s, ht ▸ h x hx, rfl⟩) s rfl
  exact hrun

theorem eq_ok_of_isOk {ε : Type} {x : Except ε Unit} (h : x.isOk = true) : x = .ok () := by
  cases x with
  | error e => cases h
  | ok u => rfl

theorem exists_of_forall₂ {α β : Type} {R : α → β → Prop} {xs : List α} {ys : List β}
    (h : Forall₂ R xs ys) {y : β} (hy : y ∈ ys) : ∃ x ∈ xs, R x y := by
  induction h with
  | nil => cases hy
  | cons hxy _ ih =>
    rcases mem_cons.mp hy with rfl | hy
    · exact ⟨_, mem_cons_self, hxy⟩
    · obtain ⟨x, hx, hR⟩ := ih hy
      exact ⟨x, mem_cons_of_mem _ hx, hR⟩

theorem exists_right_of_forall₂ {α β : Type} {R : α → β → Prop} {xs : List α} {ys : List β}
    (h : Forall₂ R xs ys) {x : α} (hx : x ∈ xs) : ∃ y ∈ ys, R x y :=
  exists_of_forall₂ (R := flip R) h.flip hx

theorem mapM_eq_ok {ε α β : Type} (f : α → Except ε β) (xs : List α) (ys : List β)
    (h : xs.mapM f = .ok ys) : Forall₂ (fun x y => f x = .ok y) xs ys := by
  induction xs generalizing ys with
  | nil =>
    rw [mapM_nil, pure_eq_ok] at h
    rw [← h]
    exact Forall₂.nil
  | cons x xs ih =>
    simp only [mapM_cons, bind_eq_ok, pure_eq_ok] at h
    rcases h with ⟨y, hy, zs, hzs, rfl⟩
    exact Forall₂.cons hy (ih zs hzs)

theorem mapM_isOk {ε α β : Type} (f : α → Except ε β) (xs : List α)
    (h : ∀ x ∈ xs, ∃ y, f x = .ok y) : ∃ ys, xs.mapM f = .ok ys := by
  induction xs with
  | nil => exact ⟨[], rfl⟩
  | cons x xs ih =>
    rcases h x mem_cons_self with ⟨y, hy⟩
    rcases ih fun z hz => h z (mem_cons_of_mem x hz) with ⟨ys, hys⟩
    exact ⟨y :: ys, by rw [mapM_cons, hy, ok_bind, hys]; rfl⟩

theorem forM_eq_ok {ε α : Type} (f : α → Except ε Unit) (xs : List α) {u : Unit}
    (h : xs.forM f = .ok u) : ∀ x ∈ xs, f x = .ok () := by
  induction xs with
  | nil =>
    intro x hx
    cases hx
  | cons x xs ih =>
    rw [List.forM, bind_eq_ok] at h
    obtain ⟨_, hx, hxs⟩ := h
    exact forall_mem_cons.mpr ⟨hx, ih hxs⟩

theorem forM_ok {ε α : Type} (f : α → Except ε Unit) (xs : List α)
    (h : ∀ x ∈ xs, f x = .ok ()) : xs.forM f = .ok () := by
  induction xs with
  | nil => rfl
  | cons x xs ih =>
    rw [List.forM, h x mem_cons_self, ok_bind]
    exact ih fun y hy => h y (mem_cons_of_mem x hy)

end Aikoql
