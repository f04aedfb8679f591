import Mathlib.Data.List.Basic

/-!
# Answers by Position

Filling in a list of answers in an order of one's own.

Work that is regrouped before it is done comes back in another order than it was asked
for. `scatter` puts each answer at its position, the last one for a position winning.
Where the answers for a position agree, the order does not matter
(`getElem?_scatter`), and where questions are told apart by their positions, their
answers are found there (`getElem?_scatter_filterMap`).
-/

namespace Aikoql

open List

variable {α β : Type} {p : Nat}

/-- Overwrite positions of a list, one after the other. -/
def scatter (out : List β) (rows : List (Nat × β)) : List β :=
  rows.foldl (fun out row => out.set row.1 row.2) out

@[simp] theorem length_scatter (out : List β) (rows : List (Nat × β)) :
    (scatter out rows).length = out.length := by
  induction rows generalizing out with
  | nil => rfl
  | cons row rows ih =>
    rw [scatter, foldl_cons, ← scatter, ih, length_set]

/-- What is at a position whose rows agree. -/
theorem getElem?_scatter (out : List β) {rows : List (Nat × β)} {a : Option β}
    (ha : ∀ row ∈ rows, row.1 = p → a = some row.2) :
    (scatter out rows)[p]?
      = if ∃ row ∈ rows, row.1 = p then out[p]?.bind fun _ => a else out[p]? := by
  induction rows generalizing out with
  | nil => simp [scatter]
  | cons row rows ih =>
    rw [scatter, foldl_cons, ← scatter, ih _ fun r hr => ha r (mem_cons_of_mem row hr)]
    simp only [exists_mem_cons_iff]
    by_cases hrow : row.1 = p
    · -- This row is overwritten, if at all, by its own value.
      rw [ha row mem_cons_self hrow, hrow, if_pos (Or.inl rfl), getElem?_set_self']
      cases out[p]? <;> simp
    · rw [getElem?_set_ne hrow]
      simp only [hrow, false_or]

/-- What is at a position after the questions that have an answer were answered. -/
theorem getElem?_scatter_filterMap [DecidableEq α] {xs : List α} {x : α} (out : List β)
    {asked : List (α × Nat)} (hasked : ∀ q ∈ asked, xs[q.2]? = some q.1)
    (answer : α → Option β) (hx : xs[p]? = some x) :
    (scatter out (asked.filterMap fun q => (answer q.1).map fun v => (q.2, v)))[p]?
      = if (x, p) ∈ asked ∧ (answer x).isSome then out[p]?.bind fun _ => answer x
        else out[p]? := by
  have hrow : ∀ row ∈ asked.filterMap fun q => (answer q.1).map fun v => (q.2, v),
      row.1 = p → (x, p) ∈ asked ∧ answer x = some row.2 := by
    intro row hrow hp
    obtain ⟨q, hq, hsome⟩ := mem_filterMap.mp hrow
    obtain ⟨v, hv, rfl⟩ := Option.map_eq_some_iff.mp hsome
    obtain rfl : q.2 = p := hp
    obtain rfl := Option.some.inj ((hasked q hq).symm.trans hx)
    exact ⟨hq, hv⟩
  rw [getElem?_scatter out fun row h hp => (hrow row h hp).2]
  refine if_congr ?_ rfl rfl
  constructor
  · rintro ⟨row, h, hp⟩
    exact ⟨(hrow row h hp).1, by rw [(hrow row h hp).2]; rfl⟩
  · rintro ⟨hmem, hsome⟩
    obtain ⟨v, hv⟩ := Option.isSome_iff_exists.mp hsome
    exact ⟨(p, v), mem_filterMap.mpr ⟨(x, p), hmem, by rw [hv]; rfl⟩, rfl⟩

end Aikoql
