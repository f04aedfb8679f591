import Mathlib

/-!
# Merging Sorted Streams

A merge of any number of sorted streams through a priority queue.

The queue holds the head of every stream that still has one, so taking from the
queue is choosing among the heads. `popBest` makes that choice: the head that
comes first in the order, and among equals the one of the last stream. The
order is a total preorder given as a Boolean relation; streams need not have
distinct elements.
-/

namespace Aikoql

open List

variable {α : Type} (le : α → α → Bool)

/-- Take the first of all heads, the last stream's among equals. -/
def popBest : List (List α) → Option (α × List (List α))
  | [] => none
  | [] :: rest => (popBest rest).map fun xr => (xr.1, [] :: xr.2)
  | (x :: xs) :: rest =>
    match popBest rest with
    | none => some (x, xs :: rest)
    | some (y, rest') => if le y x then some (y, (x :: xs) :: rest') else some (x, xs :: rest)

/-- Take `n` times, or until every stream is empty. -/
def mergeLoop : Nat → List (List α) → List α
  | 0, _ => []
  | n + 1, streams =>
    match popBest le streams with
    | none => []
    | some (x, streams') => x :: mergeLoop n streams'

/-- Merge streams until all of them are empty. -/
def mergeStreams (streams : List (List α)) : List α :=
  mergeLoop le streams.flatten.length streams

theorem popBest_eq_none {streams : List (List α)} (h : popBest le streams = none) :
    streams.flatten = [] := by
  induction streams with
  | nil => rfl
  | cons stream rest ih =>
    cases stream with
    | nil =>
      rw [popBest, Option.map_eq_none_iff] at h
      simpa using ih h
    | cons x xs =>
      rw [popBest] at h
      split at h
      · cases h
      · split at h <;> cases h

theorem popBest_perm {streams streams' : List (List α)} {x : α}
    (h : popBest le streams = some (x, streams')) :
    streams.flatten.Perm (x :: streams'.flatten) := by
  induction streams generalizing x streams' with
  | nil => cases h
  | cons stream rest ih =>
    cases stream with
    | nil =>
      rw [popBest, Option.map_eq_some_iff] at h
      rcases h with ⟨⟨y, rest'⟩, hrest, heq⟩
      cases heq
      simpa using ih hrest
    | cons a as =>
      rw [popBest] at h
      split at h
      · cases h
        exact Perm.refl _
      · rename_i y rest' hrest
        split at h
        · cases h
          have hp := (ih hrest).append_left (a :: as)
          simpa using hp.trans perm_middle
        · cases h
          exact Perm.refl _

section Sorted

variable (htrans : ∀ a b c, le a b = true → le b c = true → le a c = true)
  (htotal : ∀ a b, le a b = true ∨ le b a = true)

include htrans htotal

/-- What is taken comes no later than anything left, and the streams stay
    sorted. -/
theorem popBest_first {streams streams' : List (List α)} {x : α}
    (hsorted : ∀ s ∈ streams, s.Pairwise fun a b => le a b = true)
    (h : popBest le streams = some (x, streams')) :
    (∀ y ∈ streams'.flatten, le x y = true) ∧
      ∀ s ∈ streams', s.Pairwise fun a b => le a b = true := by
  induction streams generalizing x streams' with
  | nil => cases h
  | cons stream rest ih =>
    have hrestSorted : ∀ s ∈ rest, s.Pairwise fun a b => le a b = true :=
      fun s hs => hsorted s (mem_cons_of_mem stream hs)
    cases stream with
    | nil =>
      rw [popBest, Option.map_eq_some_iff] at h
      rcases h with ⟨⟨y, rest'⟩, hrest, heq⟩
      cases heq
      rcases ih hrestSorted hrest with ⟨hfirst, hs⟩
      exact ⟨by simpa using hfirst, forall_mem_cons.mpr ⟨List.Pairwise.nil, hs⟩⟩
    | cons a as =>
      have ha := hsorted (a :: as) mem_cons_self
      rw [pairwise_cons] at ha
      rw [popBest] at h
      split at h
      · rename_i hnone
        cases h
        have hempty := popBest_eq_none le hnone
        refine ⟨fun y hy => ?_, fun s hmem => ?_⟩
        · rw [flatten_cons, hempty, append_nil] at hy
          exact ha.1 y hy
        · rcases mem_cons.mp hmem with rfl | hmem
          · exact ha.2
          · exact hrestSorted s hmem
      · rename_i y rest' hrest
        rcases ih hrestSorted hrest with ⟨hfirst, hs⟩
        split at h
        · rename_i hle
          cases h
          rw [flatten_cons, forall_mem_append, forall_mem_cons, forall_mem_cons]
          exact ⟨⟨⟨hle, fun z hz => htrans _ _ _ hle (ha.1 z hz)⟩, hfirst⟩,
            pairwise_cons.mpr ha, hs⟩
        · rename_i hle
          cases h
          have hay : le x y = true := (htotal x y).resolve_right hle
          refine ⟨fun z hz => ?_, fun s hmem => ?_⟩
          · rw [flatten_cons, mem_append] at hz
            rcases hz with hz | hz
            · exact ha.1 z hz
            · have hz' := (popBest_perm le hrest).mem_iff.mp hz
              rcases mem_cons.mp hz' with rfl | hz'
              · exact hay
              · exact htrans _ _ _ hay (hfirst z hz')
          · rcases mem_cons.mp hmem with rfl | hmem
            · exact ha.2
            · exact hrestSorted s hmem

theorem mergeLoop_sorted (n : Nat) (streams : List (List α))
    (hsorted : ∀ s ∈ streams, s.Pairwise fun a b => le a b = true) :
    (mergeLoop le n streams).Pairwise (fun a b => le a b = true) ∧
      ∀ y ∈ mergeLoop le n streams, y ∈ streams.flatten := by
  induction n generalizing streams with
  | zero => exact ⟨List.Pairwise.nil, fun y hy => by cases hy⟩
  | succ n ih =>
    rw [mergeLoop]
    split
    · exact ⟨List.Pairwise.nil, fun y hy => by cases hy⟩
    · rename_i x streams' hpop
      rcases popBest_first le htrans htotal hsorted hpop with ⟨hfirst, hs⟩
      rcases ih streams' hs with ⟨hpair, hmem⟩
      have hperm := popBest_perm le hpop
      refine ⟨pairwise_cons.mpr ⟨fun y hy => hfirst y (hmem y hy), hpair⟩, ?_⟩
      exact forall_mem_cons.mpr ⟨hperm.mem_iff.mpr mem_cons_self,
        fun y hy => hperm.mem_iff.mpr (mem_cons_of_mem x (hmem y hy))⟩

/-- A merge of sorted streams is sorted. -/
theorem mergeStreams_sorted (streams : List (List α))
    (hsorted : ∀ s ∈ streams, s.Pairwise fun a b => le a b = true) :
    (mergeStreams le streams).Pairwise fun a b => le a b = true :=
  (mergeLoop_sorted le htrans htotal _ streams hsorted).1

end Sorted

theorem mergeLoop_perm (n : Nat) (streams : List (List α)) (h : streams.flatten.length = n) :
    (mergeLoop le n streams).Perm streams.flatten := by
  induction n generalizing streams with
  | zero =>
    rw [length_eq_zero_iff.mp h]
    exact Perm.refl _
  | succ n ih =>
    rw [mergeLoop]
    split
    · rename_i hnone
      rw [popBest_eq_none le hnone]
    · rename_i x streams' hpop
      have hperm := popBest_perm le hpop
      have hlen : streams'.flatten.length = n := by
        have := hperm.length_eq
        rw [h, length_cons] at this
        omega
      exact ((ih streams' hlen).cons x).trans hperm.symm

/-- A merge loses and invents nothing. -/
theorem mergeStreams_perm (streams : List (List α)) :
    (mergeStreams le streams).Perm streams.flatten :=
  mergeLoop_perm le _ streams rfl

end Aikoql
