import Mathlib.Data.Finset.Card
import Mathlib.Data.List.Basic
import Mathlib.Logic.Relation

/-!
# Worklist Search

Everything that can be reached from some elements by following successors.

The search keeps the elements it has met and a stack of those whose successors it has
still to look at. It takes the top of the stack, and pushes the successors it meets
for the first time. Every element is pushed once, so a search inside a finite universe
ends after as many rounds as the universe has elements, and a bound on the rounds
loses nothing.

Three facts hold between rounds: what is met is reachable, what is on the stack is
met, and the successors of an element that is met and not on the stack are met. Once
the stack is empty the elements met are closed under successors.
-/

namespace Aikoql.Worklist

open List

variable {α : Type*} [DecidableEq α] (next : α → List α)

/-- Meet an element: one that is new is also pushed on the stack. -/
def visit (s : List α × List α) (a : α) : List α × List α :=
  if a ∈ s.1 then s else (a :: s.1, a :: s.2)

/-- The rounds of a search: the elements that were met, given those met so far and the
    stack. -/
def explore : Nat → List α × List α → List α
  | 0, s => s.1
  | _ + 1, (seen, []) => seen
  | n + 1, (seen, a :: stack) => explore n ((next a).foldl visit (seen, stack))

/-- The elements a search from given ones meets in a number of rounds. -/
def search (rounds : Nat) (starts : List α) : List α :=
  explore next rounds (starts.foldl visit ([], []))

/-! ## One round -/

theorem mem_foldl_visit (as : List α) (s : List α × List α) (b : α) :
    b ∈ (as.foldl visit s).1 ↔ b ∈ s.1 ∨ b ∈ as := by
  induction as generalizing s with
  | nil => simp
  | cons a as ih =>
    rw [foldl_cons, ih, visit]
    by_cases ha : a ∈ s.1
    · rw [if_pos ha, mem_cons]
      constructor
      · exact Or.imp_right .inr
      · rintro (hb | rfl | hb)
        · exact .inl hb
        · exact .inl ha
        · exact .inr hb
    · rw [if_neg ha, mem_cons, mem_cons, or_left_comm, or_assoc]

theorem notMem_stack_foldl_visit (as : List α) (s : List α × List α) (b : α)
    (hb : b ∈ (as.foldl visit s).1) (hstack : b ∉ (as.foldl visit s).2) : b ∈ s.1 ∧ b ∉ s.2 := by
  induction as generalizing s with
  | nil => exact ⟨hb, hstack⟩
  | cons a as ih =>
    obtain ⟨hmet, hnot⟩ := ih (visit s a) hb hstack
    rw [visit] at hmet hnot
    by_cases ha : a ∈ s.1
    · rw [if_pos ha] at hmet hnot
      exact ⟨hmet, hnot⟩
    · rw [if_neg ha, mem_cons] at hmet hnot
      push Not at hnot
      exact ⟨hmet.resolve_left hnot.1, hnot.2⟩

theorem stack_subset_foldl_visit (as : List α) (s : List α × List α)
    (h : ∀ b ∈ s.2, b ∈ s.1) : ∀ b ∈ (as.foldl visit s).2, b ∈ (as.foldl visit s).1 := by
  induction as generalizing s with
  | nil => exact h
  | cons a as ih =>
    refine ih (visit s a) ?_
    intro b hb
    rw [visit] at hb ⊢
    by_cases ha : a ∈ s.1
    · rw [if_pos ha] at hb ⊢
      exact h b hb
    · rw [if_neg ha, mem_cons] at hb
      rw [if_neg ha, mem_cons]
      exact hb.imp_right (h b)

/-- The elements of a universe that are not met yet. -/
def unmet (within : Finset α) (seen : List α) : Nat :=
  (within \ seen.toFinset).card

/-- A new element moves from the unmet ones to the stack, so their number and the
    stack together do not change. -/
theorem unmet_foldl_visit {within : Finset α} (as : List α) (s : List α × List α)
    (has : ∀ a ∈ as, a ∈ within) :
    unmet within (as.foldl visit s).1 + (as.foldl visit s).2.length
      = unmet within s.1 + s.2.length := by
  induction as generalizing s with
  | nil => rfl
  | cons a as ih =>
    rw [foldl_cons, ih _ fun b hb => has b (mem_cons_of_mem a hb), visit]
    by_cases ha : a ∈ s.1
    · rw [if_pos ha]
    · have hmem : a ∈ within \ s.1.toFinset := by
        simp [ha, has a mem_cons_self]
      have hcard := Finset.card_erase_add_one hmem
      rw [if_neg ha]
      unfold unmet
      rw [toFinset_cons, Finset.sdiff_insert, length_cons]
      omega

/-! ## The search -/

variable {next}

/-- What holds between the rounds of a search from given elements. -/
structure Searching (next : α → List α) (starts : List α) (s : List α × List α) : Prop where
  initial : ∀ a ∈ starts, a ∈ s.1
  reachable : ∀ b ∈ s.1, ∃ a ∈ starts, Relation.ReflTransGen (fun x y => y ∈ next x) a b
  stack : ∀ b ∈ s.2, b ∈ s.1
  closed : ∀ b ∈ s.1, b ∉ s.2 → ∀ c ∈ next b, c ∈ s.1

theorem searching_start (starts : List α) :
    Searching next starts (starts.foldl visit ([], [])) where
  initial := by
    intro a ha
    rw [mem_foldl_visit]
    exact .inr ha
  reachable := by
    intro b hb
    rw [mem_foldl_visit] at hb
    exact ⟨b, hb.resolve_left not_mem_nil, .refl⟩
  stack := stack_subset_foldl_visit _ _ (forall_mem_nil _)
  closed := by
    intro b hb hstack
    exact absurd (notMem_stack_foldl_visit _ _ b hb hstack).1 not_mem_nil

theorem Searching.round {starts seen stack : List α} {a : α}
    (h : Searching next starts (seen, a :: stack)) :
    Searching next starts ((next a).foldl visit (seen, stack)) where
  initial := by
    intro b hb
    rw [mem_foldl_visit]
    exact .inl (h.initial b hb)
  reachable := by
    intro b hb
    rw [mem_foldl_visit] at hb
    rcases hb with hb | hb
    · exact h.reachable b hb
    · obtain ⟨start, hstart, hreach⟩ := h.reachable a (h.stack a mem_cons_self)
      exact ⟨start, hstart, hreach.tail hb⟩
  stack := stack_subset_foldl_visit _ _ fun b hb => h.stack b (mem_cons_of_mem a hb)
  closed := by
    intro b hb hstack c hc
    rw [mem_foldl_visit]
    obtain ⟨hmet, hnot⟩ := notMem_stack_foldl_visit _ _ b hb hstack
    -- The element whose round it is has left the stack, and its successors are met now.
    by_cases hba : b = a
    · exact .inr (hba ▸ hc)
    · exact .inl (h.closed b hmet (by simp [hba, hnot]) c hc)

/-- A search with enough rounds ends with an empty stack. -/
theorem Searching.explore {within : Finset α} {starts : List α}
    (hnext : ∀ a, ∀ b ∈ next a, b ∈ within) {rounds : Nat} {s : List α × List α}
    (h : Searching next starts s) (hrounds : unmet within s.1 + s.2.length ≤ rounds) :
    Searching next starts (explore next rounds s, []) := by
  induction rounds generalizing s with
  | zero =>
    obtain ⟨seen, stack⟩ := s
    obtain rfl : stack = [] := length_eq_zero_iff.mp (by simp only at hrounds; omega)
    exact h
  | succ rounds ih =>
    obtain ⟨seen, _ | ⟨a, stack⟩⟩ := s
    · exact h
    · refine ih h.round ?_
      rw [unmet_foldl_visit _ _ (hnext a)]
      simp only [length_cons] at hrounds ⊢
      omega

/-- A search inside a finite universe, with as many rounds as the universe has
    elements, finds exactly what is reachable. -/
theorem mem_search {within : Finset α} {rounds : Nat} (starts : List α)
    (hstarts : ∀ a ∈ starts, a ∈ within) (hnext : ∀ a, ∀ b ∈ next a, b ∈ within)
    (hrounds : within.card ≤ rounds) (b : α) :
    b ∈ search next rounds starts ↔
      ∃ a ∈ starts, Relation.ReflTransGen (fun x y => y ∈ next x) a b := by
  have hstart : unmet within (starts.foldl visit ([], [])).1
      + (starts.foldl visit ([], [])).2.length ≤ rounds := by
    rw [unmet_foldl_visit _ _ hstarts]
    simpa [unmet] using hrounds
  have h := (searching_start starts).explore hnext hstart
  constructor
  · exact h.reachable b
  · rintro ⟨a, ha, hreach⟩
    induction hreach with
    | refl => exact h.initial a ha
    | tail _ hc ih => exact h.closed _ ih not_mem_nil _ hc

end Aikoql.Worklist
