import Mathlib

/-!
# Pull Streams

Lists that are computed a batch at a time, over arbitrary rows.

A stream is a state and a way to pull the next batch out of it. Every batch leaves less to
pull, so a stream ends, and what it delivers is a list of batches. The stages of a pipeline
are streams over the stream below them. A stage that keeps some rows may deliver batches of
nothing, and one that counts rows has to pull on over those; neither shows in the rows of
all batches together, which are those of the list function the stage stands for. No stage
makes the batches larger.
-/

namespace Aikoql

open List

variable {α β κ : Type}

/-- A source of batches. Each of them leaves a smaller number of steps. -/
structure Pull (α : Type) where
  State : Type
  start : State
  next : State → Option (List α × State)
  left : State → Nat
  next_lt : ∀ {s batch s'}, next s = some (batch, s') → left s' < left s

namespace Pull

/-- The batches that are pulled from a state on. -/
def batchesFrom (p : Pull α) (s : p.State) : List (List α) :=
  match _h : p.next s with
  | none => []
  | some (batch, s') => batch :: p.batchesFrom s'
termination_by p.left s
decreasing_by exact p.next_lt _h

def batches (p : Pull α) : List (List α) :=
  p.batchesFrom p.start

def rowsFrom (p : Pull α) (s : p.State) : List α :=
  (p.batchesFrom s).flatten

def rows (p : Pull α) : List α :=
  p.batches.flatten

/-- No batch has more than some number of rows. -/
def Bounded (p : Pull α) (n : Nat) : Prop :=
  ∀ s batch s', p.next s = some (batch, s') → batch.length ≤ n

section

variable {p : Pull α} {s : p.State} {n : Nat}

theorem rowsFrom_none (h : p.next s = none) : p.rowsFrom s = [] := by
  rw [rowsFrom, batchesFrom, h]
  rfl

theorem rowsFrom_some {batch : List α} {s' : p.State} (h : p.next s = some (batch, s')) :
    p.rowsFrom s = batch ++ p.rowsFrom s' := by
  rw [rowsFrom, batchesFrom, h]
  rfl

/-- Induction along the batches. -/
theorem pull_induction {P : p.State → Prop}
    (h : ∀ s, (∀ batch s', p.next s = some (batch, s') → P s') → P s) (s : p.State) : P s :=
  h s fun _ s' _h => pull_induction h s'
termination_by p.left s
decreasing_by exact p.next_lt _h

theorem Bounded.batches (h : p.Bounded n) : ∀ batch ∈ p.batches, batch.length ≤ n := by
  suffices hfrom : ∀ s, ∀ batch ∈ p.batchesFrom s, batch.length ≤ n from hfrom p.start
  refine pull_induction ?_
  intro s ih batch hbatch
  rw [batchesFrom] at hbatch
  split at hbatch
  · cases hbatch
  · rename_i first s' hnext
    rcases mem_cons.mp hbatch with rfl | hrest
    · exact h s _ s' hnext
    · exact ih first s' hnext batch hrest

end

/-! ## Batch by batch -/

/-- Every batch, transformed. -/
def onBatches (p : Pull α) (f : List α → List β) : Pull β where
  State := p.State
  start := p.start
  next s := (p.next s).map fun (batch, s') => (f batch, s')
  left := p.left
  next_lt := by
    intro s batch s' h
    obtain ⟨⟨batch', _⟩, hnext, heq⟩ := Option.map_eq_some_iff.mp h
    cases heq
    exact p.next_lt hnext

/-- What is done to batches is done to all rows, if it can be split. -/
theorem rows_onBatches (p : Pull α) {f : List α → List β} (hnil : f [] = [])
    (happend : ∀ xs ys, f (xs ++ ys) = f xs ++ f ys) : (p.onBatches f).rows = f p.rows := by
  suffices hfrom : ∀ s : p.State, (p.onBatches f).rowsFrom s = f (p.rowsFrom s) from hfrom p.start
  refine pull_induction ?_
  intro s ih
  cases hnext : p.next s with
  | none =>
    have hmapped : (p.onBatches f).next s = none := congrArg (Option.map _) hnext
    rw [rowsFrom_none hnext, hnil]
    exact rowsFrom_none hmapped
  | some found =>
    obtain ⟨batch, s'⟩ := found
    have hmapped : (p.onBatches f).next s = some (f batch, s') := congrArg (Option.map _) hnext
    rw [rowsFrom_some hnext, happend, ← ih batch s' hnext]
    exact rowsFrom_some hmapped

theorem Bounded.onBatches {p : Pull α} {n : Nat} (h : p.Bounded n) {f : List α → List β}
    (hf : ∀ batch, (f batch).length ≤ batch.length) : (p.onBatches f).Bounded n := by
  intro s batch s' hnext
  obtain ⟨⟨batch', _⟩, hnext, heq⟩ := Option.map_eq_some_iff.mp hnext
  cases heq
  exact (hf batch').trans (h s batch' _ hnext)

/-! ## Skipping and counting -/

/-- The first batch that has rows behind those to skip, cut off at the number that is left.
    What is left to skip and to deliver comes with it. -/
def limitNext (p : Pull α) (s : p.State) (offset remaining : Nat) :
    Option (List α × p.State × Nat × Nat) :=
  match _h : p.next s with
  | none => none
  | some (batch, s') =>
    let kept := batch.drop offset
    let offset := offset - min offset batch.length
    if kept.isEmpty then p.limitNext s' offset remaining
    else
      let take := min remaining kept.length
      some (kept.take take, s', offset, remaining - take)
termination_by p.left s
decreasing_by exact p.next_lt _h

theorem limitNext_lt (p : Pull α) (s : p.State) (offset remaining : Nat) {batch : List α}
    {s' : p.State × Nat × Nat} (h : p.limitNext s offset remaining = some (batch, s')) :
    p.left s'.1 < p.left s := by
  fun_induction limitNext p s offset remaining with
  | case1 => cases h
  | case2 s offset batch s₁ hnext kept offset' hempty ih => exact (ih h).trans (p.next_lt hnext)
  | case3 s offset batch s₁ hnext kept offset' hempty take =>
    cases h
    exact p.next_lt hnext

section

variable {p : Pull α} {s s' : p.State} {batch : List α} {offset remaining : Nat}

theorem drop_rowsFrom (h : p.next s = some (batch, s')) (offset : Nat) : (p.rowsFrom s).drop offset
    = batch.drop offset ++ (p.rowsFrom s').drop (offset - min offset batch.length) := by
  rw [rowsFrom_some h, drop_append, show offset - min offset batch.length = offset - batch.length by
    omega]

theorem limitNext_none (h : p.limitNext s offset remaining = none) :
    (p.rowsFrom s).drop offset = [] := by
  fun_induction limitNext p s offset remaining with
  | case1 s offset hnext => rw [rowsFrom_none hnext, drop_nil]
  | case2 s offset batch s₁ hnext kept skip hempty ih =>
    have hkept : batch.drop offset = [] := List.isEmpty_iff.mp hempty
    rw [drop_rowsFrom hnext, hkept, nil_append]
    exact ih h
  | case3 => cases h

/-- The rows behind those to skip, up to the number that is left, begin with the batch. -/
theorem limitNext_some {offset' remaining' : Nat}
    (h : p.limitNext s offset remaining = some (batch, s', offset', remaining')) :
    ((p.rowsFrom s).drop offset).take remaining
      = batch ++ ((p.rowsFrom s').drop offset').take remaining' := by
  fun_induction limitNext p s offset remaining with
  | case1 => cases h
  | case2 s offset first s₁ hnext kept skip hempty ih =>
    have hkept : first.drop offset = [] := List.isEmpty_iff.mp hempty
    rw [drop_rowsFrom hnext, hkept, nil_append]
    exact ih h
  | case3 s offset first s₁ hnext kept skip hempty count =>
    simp only [Option.some.injEq, Prod.mk.injEq] at h
    obtain ⟨rfl, rfl, rfl, rfl⟩ := h
    rw [drop_rowsFrom hnext, take_append, take_eq_take_min]
    congr 2
    change _ = remaining - min remaining (first.drop offset).length
    omega

end

/-- Skip some rows and deliver some of the rest; once these are out, nothing is pulled. -/
def limit (p : Pull α) (offset remaining : Nat) : Pull α where
  State := p.State × Nat × Nat
  start := (p.start, offset, remaining)
  next := fun (s, offset, remaining) =>
    if remaining = 0 then none else p.limitNext s offset remaining
  left s := p.left s.1
  next_lt := by
    rintro ⟨s, offset, remaining⟩ batch s' h
    simp only at h
    split at h
    · cases h
    · exact p.limitNext_lt s offset remaining h

theorem rows_limit (p : Pull α) (offset remaining : Nat) :
    (p.limit offset remaining).rows = (p.rows.drop offset).take remaining := by
  suffices hfrom : ∀ s : p.State × Nat × Nat,
      (p.limit offset remaining).rowsFrom s = ((p.rowsFrom s.1).drop s.2.1).take s.2.2
    from hfrom (p.start, offset, remaining)
  refine pull_induction (p := p.limit offset remaining) ?_
  rintro ⟨s, skip, count⟩ ih
  cases hnext : (p.limit offset remaining).next (s, skip, count) with
  | none =>
    refine (rowsFrom_none hnext).trans ?_
    simp only [limit] at hnext
    split at hnext
    · simp [*]
    · simp [limitNext_none hnext]
  | some found =>
    obtain ⟨batch, s', skip', count'⟩ := found
    refine (rowsFrom_some hnext).trans ?_
    rw [ih batch _ hnext]
    simp only [limit] at hnext
    split at hnext
    · cases hnext
    · exact (limitNext_some hnext).symm

theorem Bounded.limit {p : Pull α} {n : Nat} (h : p.Bounded n) (offset remaining : Nat) :
    (p.limit offset remaining).Bounded n := by
  rintro ⟨s, skip, count⟩ batch rest hnext
  simp only [Pull.limit] at hnext
  split at hnext
  · cases hnext
  · clear * - h hnext
    fun_induction limitNext p s skip count with
    | case1 => cases hnext
    | case2 s offset first s₁ hinner kept skip hempty ih => exact ih hnext
    | case3 s offset first s₁ hinner kept skip hempty take =>
      cases (Option.some.inj hnext)
      have := h s first s₁ hinner
      rw [length_take, length_drop]
      omega

/-! ## Reading keys -/

/-- The rows of the next keys that have some, and the keys behind them. -/
def scanNext (size : Nat) (read : κ → Option α) (keys : List κ) : Option (List α × List κ) :=
  if _h : keys = [] then none
  else
    let found := (keys.take (max size 1)).filterMap read
    let rest := keys.drop (max size 1)
    if found.isEmpty then scanNext size read rest else some (found, rest)
termination_by keys.length
decreasing_by
  have := length_pos_iff.mpr _h
  rw [length_drop]
  omega

section

variable {size : Nat} {read : κ → Option α} {keys rest : List κ} {batch : List α}

theorem filterMap_take_drop (n : Nat) :
    (keys.take n).filterMap read ++ (keys.drop n).filterMap read = keys.filterMap read := by
  rw [← filterMap_append, take_append_drop]

theorem scanNext_none (h : scanNext size read keys = none) : keys.filterMap read = [] := by
  fun_induction scanNext size read keys with
  | case1 => rfl
  | case2 keys hkeys found rest hempty ih =>
    rw [← filterMap_take_drop (max size 1), ih h]
    exact (append_nil _).trans (List.isEmpty_iff.mp hempty)
  | case3 => cases h

theorem scanNext_some (h : scanNext size read keys = some (batch, rest)) :
    keys.filterMap read = batch ++ rest.filterMap read ∧ rest.length < keys.length ∧
      batch.length ≤ max size 1 := by
  fun_induction scanNext size read keys with
  | case1 => cases h
  | case2 keys hkeys found behind hempty ih =>
    obtain ⟨hrows, hlt, hsize⟩ := ih h
    rw [length_drop] at hlt
    have hfound : (keys.take (max size 1)).filterMap read = [] := List.isEmpty_iff.mp hempty
    refine ⟨?_, by omega, hsize⟩
    rw [← hrows, ← filterMap_take_drop (max size 1), hfound, nil_append]
  | case3 keys hkeys found behind hempty =>
    simp only [Option.some.injEq, Prod.mk.injEq] at h
    obtain ⟨rfl, rfl⟩ := h
    have := length_pos_iff.mpr hkeys
    refine ⟨(filterMap_take_drop _).symm, ?_, (length_filterMap_le ..).trans (length_take_le ..)⟩
    rw [length_drop]
    omega

end

/-- Read keys, some of which have no row. -/
def scan (size : Nat) (keys : List κ) (read : κ → Option α) : Pull α where
  State := List κ
  start := keys
  next := scanNext size read
  left := length
  next_lt := fun h => (scanNext_some h).2.1

theorem rows_scan (size : Nat) (keys : List κ) (read : κ → Option α) :
    (scan size keys read).rows = keys.filterMap read := by
  suffices hfrom : ∀ rest : List κ, (scan size keys read).rowsFrom rest = rest.filterMap read
    from hfrom keys
  refine pull_induction (p := scan size keys read) ?_
  intro rest ih
  cases hnext : (scan size keys read).next rest with
  | none => exact (rowsFrom_none hnext).trans (scanNext_none hnext).symm
  | some found =>
    refine (rowsFrom_some hnext).trans ?_
    rw [ih found.1 found.2 hnext]
    exact (scanNext_some hnext).1.symm

theorem bounded_scan (size : Nat) (keys : List κ) (read : κ → Option α) :
    (scan size keys read).Bounded (max size 1) :=
  fun _ _ _ h => (scanNext_some h).2.2

end Pull

end Aikoql
