import Mathlib

/-!
# Layered Stores

The reading rule of a log-structured store, over arbitrary keys and values.

Such a store keeps its rows in a stack of layers. A row carries the sequence
number of the write that made it, a read of a key takes the newest row of that
key, and the layers are written in sequence: whatever a younger layer holds of
a key is newer than anything an older one holds. `Stacked` is that ordering,
and it is what makes the cheap read correct. Asking the layers youngest first
and stopping at the first answer finds the newest row of all of them, so no
sequence numbers have to be compared across layers.

The other half is the history the store is meant to represent. `lastWrite` is
the value a list of writes leaves under a key. Both it and the stacked read
split along an append in the same way, which is how a read of the whole stack
is related to the whole history one layer at a time.

## Theorems

* `firstHit_append`, `lastWrite_append`: Both split along an append.
-/

namespace Aikoql

open List

variable {K V : Type} [DecidableEq K]
variable {L A : Type}

/-- A value of a key under the sequence number of the write that made it. -/
structure Row (K V : Type) where
  key : K
  seq : Nat
  value : V

/-- The newest row of a key. -/
def newest (rows : List (Row K V)) (k : K) : Option (Row K V) :=
  (rows.filter fun r => r.key = k).argmax Row.seq

/-- No two rows of a key share a sequence number. -/
def Distinct (rows : List (Row K V)) : Prop :=
  ∀ r ∈ rows, ∀ r' ∈ rows, r.key = r'.key → r.seq = r'.seq → r = r'

theorem newest_eq_none_iff (rows : List (Row K V)) (k : K) :
    newest rows k = none ↔ ∀ r ∈ rows, r.key ≠ k := by
  rw [newest, argmax_eq_none, filter_eq_nil_iff]
  simp

/-- The newest row of a key is the one no other row of the key is newer than. -/
theorem newest_eq_some_iff (rows : List (Row K V)) (k : K) (r : Row K V)
    (hdistinct : Distinct rows) :
    newest rows k = some r ↔ r ∈ rows ∧ r.key = k ∧ ∀ r' ∈ rows, r'.key = k → r'.seq ≤ r.seq := by
  have hmem : ∀ r', r' ∈ rows.filter (fun r => r.key = k) ↔ r' ∈ rows ∧ r'.key = k := by
    intro r'
    rw [mem_filter, decide_eq_true_eq]
  constructor
  · intro h
    rcases (hmem r).mp (argmax_mem h) with ⟨hr, hk⟩
    exact ⟨hr, hk, fun r' hr' hk' => le_of_mem_argmax ((hmem r').mpr ⟨hr', hk'⟩) h⟩
  · rintro ⟨hr, hk, hmax⟩
    cases hn : newest rows k with
    | none => exact absurd hk ((newest_eq_none_iff rows k).mp hn r hr)
    | some s =>
      rcases (hmem s).mp (argmax_mem hn) with ⟨hs, hsk⟩
      have hle := hmax s hs hsk
      have hge : r.seq ≤ s.seq := le_of_mem_argmax ((hmem r).mpr ⟨hr, hk⟩) hn
      rw [hdistinct s hs r hr (hsk.trans hk.symm) (le_antisymm hle hge)]

omit [DecidableEq K] in
theorem distinct_of_descending (rows : List (Row K V))
    (h : rows.Pairwise fun a b => a.key = b.key → b.seq < a.seq) : Distinct rows := by
  intro r hr r' hr' hk hs
  by_contra hne
  rcases getElem_of_mem hr with ⟨i, hi, rfl⟩
  rcases getElem_of_mem hr' with ⟨j, hj, rfl⟩
  rcases Nat.lt_trichotomy i j with hij | rfl | hij
  · exact absurd hs (pairwise_iff_getElem.mp h i j hi hj hij hk).ne'
  · exact hne rfl
  · exact absurd hs (pairwise_iff_getElem.mp h j i hj hi hij hk.symm).ne

omit [DecidableEq K] in
theorem Distinct.perm {rows rows' : List (Row K V)} (h : Distinct rows) (hp : rows.Perm rows') :
    Distinct rows' :=
  fun r hr r' hr' => h r (hp.mem_iff.mpr hr) r' (hp.mem_iff.mpr hr')

theorem newest_perm {rows rows' : List (Row K V)} (h : Distinct rows) (hp : rows.Perm rows')
    (k : K) : newest rows k = newest rows' k := by
  cases hn : newest rows' k with
  | none =>
    rw [newest_eq_none_iff] at hn ⊢
    exact fun r hr => hn r (hp.mem_iff.mp hr)
  | some r =>
    rw [newest_eq_some_iff _ _ _ (h.perm hp)] at hn
    rw [newest_eq_some_iff _ _ _ h]
    exact ⟨hp.mem_iff.mpr hn.1, hn.2.1, fun r' hr' => hn.2.2 r' (hp.mem_iff.mp hr')⟩

/-- Where the rows of a key stand newest first, the first one is the newest. -/
theorem find?_eq_newest (rows : List (Row K V)) (k : K) (hdistinct : Distinct rows)
    (h : rows.Pairwise fun a b => a.key = b.key → b.seq ≤ a.seq) :
    rows.find? (fun r => r.key = k) = newest rows k := by
  cases hf : rows.find? (fun r => r.key = k) with
  | none =>
    symm
    rw [newest_eq_none_iff]
    simpa using find?_eq_none.mp hf
  | some r =>
    symm
    rw [newest_eq_some_iff rows k r hdistinct]
    rcases find?_eq_some_iff_append.mp hf with ⟨hk, before, after, rfl, hbefore⟩
    have hk : r.key = k := by simpa using hk
    refine ⟨by simp, hk, fun r' hr' hk' => ?_⟩
    rcases mem_append.mp hr' with hr' | hr'
    · exact absurd hk' (by simpa using hbefore r' hr')
    · rcases mem_cons.mp hr' with rfl | hr'
      · exact le_refl _
      · have hp := (pairwise_append.mp h).2.1
        exact (pairwise_cons.mp hp).1 r' hr' (hk.trans hk'.symm)

/-! ## Reading a stack of layers -/

/-- The stacked read: the answer of the youngest layer that has one. Layers are
    listed oldest first. -/
def firstHit {L A : Type} (layers : List L) (read : L → Option A) : Option A :=
  layers.reverse.findSome? read

@[simp] theorem firstHit_nil (read : L → Option A) : firstHit [] read = none :=
  rfl

theorem firstHit_append (old new : List L) (read : L → Option A) :
    firstHit (old ++ new) read = (firstHit new read).or (firstHit old read) := by
  rw [firstHit, reverse_append, findSome?_append]
  rfl

@[simp] theorem firstHit_singleton (layer : L) (read : L → Option A) :
    firstHit [layer] read = read layer := by
  simp [firstHit]

theorem firstHit_congr (layers : List L) (read read' : L → Option A)
    (h : ∀ layer ∈ layers, read layer = read' layer) :
    firstHit layers read = firstHit layers read' := by
  induction layers using List.reverseRecOn with
  | nil => rfl
  | append_singleton layers layer ih =>
    rw [firstHit_append, firstHit_append, firstHit_singleton, firstHit_singleton,
      h layer (by simp), ih (fun l hl => h l (by simp [hl]))]

theorem firstHit_map {L' : Type} (layers : List L) (f : L → L') (read : L' → Option A) :
    firstHit (layers.map f) read = firstHit layers fun layer => read (f layer) := by
  rw [firstHit, firstHit, ← map_reverse, findSome?_map]
  rfl

theorem map_firstHit {B : Type} (layers : List L) (read : L → Option A) (g : A → B) :
    (firstHit layers read).map g = firstHit layers fun layer => (read layer).map g := by
  rw [firstHit, firstHit, map_findSome?]
  rfl

theorem firstHit_filterMap {L' : Type} (layers : List L') (f : L' → Option L)
    (read : L → Option A) :
    firstHit (layers.filterMap f) read = firstHit layers fun layer => (f layer).bind read := by
  induction layers with
  | nil => rfl
  | cons layer layers ih =>
    rw [← singleton_append, filterMap_append, firstHit_append, firstHit_append, ih,
      firstHit_singleton]
    cases hlayer : f layer <;> simp [hlayer]

/-- Whatever a younger layer holds of a key is newer than anything an older one
    holds of it. -/
def Stacked (layers : List (List (Row K V))) : Prop :=
  layers.Pairwise fun old new => ∀ r ∈ old, ∀ r' ∈ new, r.key = r'.key → r.seq < r'.seq

omit [DecidableEq K] in
theorem distinct_append (old new : List (Row K V)) (hold : Distinct old) (hnew : Distinct new)
    (h : ∀ r ∈ old, ∀ r' ∈ new, r.key = r'.key → r.seq < r'.seq) : Distinct (old ++ new) := by
  intro r hr r' hr' hk hs
  rw [mem_append] at hr hr'
  rcases hr with hr | hr <;> rcases hr' with hr' | hr'
  · exact hold r hr r' hr' hk hs
  · exact absurd hs (h r hr r' hr' hk).ne
  · exact absurd hs.symm (h r' hr' r hr hk.symm).ne
  · exact hnew r hr r' hr' hk hs

theorem newest_append (old new : List (Row K V)) (k : K) (hold : Distinct old)
    (hnew : Distinct new) (h : ∀ r ∈ old, ∀ r' ∈ new, r.key = r'.key → r.seq < r'.seq) :
    newest (old ++ new) k = (newest new k).or (newest old k) := by
  have hd := distinct_append old new hold hnew h
  cases hn : newest new k with
  | some r =>
    rw [newest_eq_some_iff new k r hnew] at hn
    rcases hn with ⟨hr, hk, hmax⟩
    rw [Option.some_or, newest_eq_some_iff _ k r hd]
    refine ⟨mem_append_right old hr, hk, fun r' hr' hk' => ?_⟩
    rcases mem_append.mp hr' with hr' | hr'
    · exact (h r' hr' r hr (hk'.trans hk.symm)).le
    · exact hmax r' hr' hk'
  | none =>
    rw [newest_eq_none_iff] at hn
    have hnil : new.filter (fun r => r.key = k) = [] := by
      rw [filter_eq_nil_iff]
      simpa using hn
    rw [Option.none_or, newest, filter_append, hnil, append_nil]
    rfl

omit [DecidableEq K] in
theorem distinct_flatten (layers : List (List (Row K V))) (hstack : Stacked layers)
    (hdistinct : ∀ layer ∈ layers, Distinct layer) : Distinct layers.flatten := by
  induction layers with
  | nil => intro r hr; cases hr
  | cons layer layers ih =>
    rw [Stacked, pairwise_cons] at hstack
    rw [flatten_cons]
    refine distinct_append layer _ (hdistinct layer mem_cons_self)
      (ih hstack.2 (fun l hl => hdistinct l (mem_cons_of_mem layer hl))) ?_
    intro r hr r' hr' hk
    rcases mem_flatten.mp hr' with ⟨l, hl, hr'⟩
    exact hstack.1 l hl r hr r' hr' hk

/-- Asking the layers youngest first finds the newest row of the whole stack. -/
theorem firstHit_newest (layers : List (List (Row K V))) (k : K) (hstack : Stacked layers)
    (hdistinct : ∀ layer ∈ layers, Distinct layer) :
    firstHit layers (fun layer => newest layer k) = newest layers.flatten k := by
  induction layers with
  | nil => rfl
  | cons layer layers ih =>
    rw [Stacked, pairwise_cons] at hstack
    have hrest : ∀ l ∈ layers, Distinct l :=
      fun l hl => hdistinct l (mem_cons_of_mem layer hl)
    rw [← singleton_append, firstHit_append, firstHit_singleton, ih hstack.2 hrest,
      singleton_append, flatten_cons,
      newest_append layer _ k (hdistinct layer mem_cons_self)
        (distinct_flatten layers hstack.2 hrest)]
    intro r hr r' hr' hk
    rcases mem_flatten.mp hr' with ⟨l, hl, hr'⟩
    exact hstack.1 l hl r hr r' hr' hk

/-! ## Histories -/

/-- The value a history of writes leaves under a key. -/
def lastWrite (writes : List (K × V)) (k : K) : Option V :=
  firstHit writes fun w => if w.1 = k then some w.2 else none

theorem lastWrite_append (old new : List (K × V)) (k : K) :
    lastWrite (old ++ new) k = (lastWrite new k).or (lastWrite old k) :=
  firstHit_append old new _

theorem lastWrite_eq_none_iff (writes : List (K × V)) (k : K) :
    lastWrite writes k = none ↔ ∀ w ∈ writes, w.1 ≠ k := by
  simp only [lastWrite, firstHit, findSome?_eq_none_iff, mem_reverse]
  constructor
  · intro h w hw hk
    simpa [hk] using h w hw
  · intro h w hw
    simp [h w hw]

theorem lastWrite_flatMap (f : L → List (K × V)) (batches : List L) (k : K) :
    lastWrite (batches.flatMap f) k = firstHit batches fun batch => lastWrite (f batch) k := by
  induction batches with
  | nil => rfl
  | cons batch batches ih =>
    rw [flatMap_cons, lastWrite_append, ih, ← singleton_append, firstHit_append,
      firstHit_singleton]

theorem mem_of_lastWrite {writes : List (K × V)} {k : K} {v : V} (h : lastWrite writes k = some v) :
    (k, v) ∈ writes := by
  obtain ⟨w, hw, heq⟩ := exists_of_findSome?_eq_some h
  split_ifs at heq with hk
  cases heq
  rw [← hk]
  exact mem_reverse.mp hw

end Aikoql
