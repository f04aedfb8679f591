import Aikoql.Kernel.Values
import Mathlib.Data.List.Basic

/-!
# Joins and Sorted Rows

How a query sorts its rows, and which pairs of rows it joins.

Values of one kind have an order and values of two kinds have none, except for the two kinds
of numbers. A sort takes values without an order for equal. If a column has values of two
kinds, the ones with an order are both equal to one that stands between them, and no
arrangement of the rows is sorted and keeps equal rows in place.

A filter compares an integer and a floating point number as numbers. A join compares values
as they are, so it misses such a pair, and it joins two keys that are both null.

## Definitions

* `Sorts`, `TotalPreorderOn`: What a sort is to return, and what its comparison is to be.
* `Sortable`: A column of one kind, or one whose values are all equal to the sort.
* `pairsOf`: What a join is to return for a left row.
* `comparable`: Keys that a join compares as a filter does.

## Theorems

* `sorts_mergeSort`: A stable sort by a total preorder of the rows.
* `sortable_of_totalPreorderOn`: Only sortable columns have a total preorder.
* `order_by_sorts`: All sorts by some columns are right exactly if these are sortable.
* `join_exact`: A join is right exactly if the keys are comparable.
-/

namespace Aikoql.Runtime

open List
open Std (TransCmp TransOrd OrientedCmp)
open Kernel (Text Value PropertyMap utf8 floatIsNan floatMagnitude floatSame sameField)

variable {ρ σ : Type} (asF64 : Int → Nat) (get : ρ → Text → Option Value)

/-! ## Values -/

/-- Floating point numbers as integers in the same order. -/
def floatRank (bits : Nat) : Int :=
  if bits / 2 ^ 63 % 2 = 1 then -floatMagnitude bits else floatMagnitude bits

/-- The order of two floating point numbers, unless one of them is no number. -/
def floatCmp (a b : Nat) : Option Ordering :=
  if floatIsNan a || floatIsNan b then none
  else if floatSame a b then some .eq
  else if floatRank a < floatRank b then some .lt
  else some .gt

/-- The order of two values. The floating point number nearest to an integer is given. -/
def compareValues : Option Value → Option Value → Option Ordering
  | some (.int a), some (.int b) => some (compare a b)
  | some (.float a), some (.float b) => floatCmp a b
  | some (.int a), some (.float b) => floatCmp (asF64 a) b
  | some (.float a), some (.int b) => floatCmp a (asF64 b)
  | some (.text a), some (.text b) => some (compare a b)
  | some (.bool a), some (.bool b) => some (compare a b)
  | _, _ => none

/-- Equality of a filter. -/
def valuesEqual (a b : Option Value) : Bool :=
  match compareValues asF64 a b with
  | some o => o == .eq
  | none => sameField a b

/-! ## Sorting -/

structure SortKey where
  field : Text
  desc : Bool

/-- The order of two values of a column. One that is missing comes first. -/
def cmp (x y : Option Value) : Ordering :=
  match x, y with
  | some a, some b => (compareValues asF64 (some a) (some b)).getD .eq
  | none, none => .eq
  | none, some _ => .lt
  | some _, none => .gt

/-- The order of two rows: that of the first column in which they differ. -/
def compareRows : List SortKey → ρ → ρ → Ordering
  | [], _, _ => .eq
  | k :: keys, x, y =>
    match cmp asF64 (get x k.field) (get y k.field) with
    | .eq => compareRows keys x y
    | o => if k.desc then o.swap else o

/-- The rows of a query, which are objects or groups, sorted and otherwise in place. -/
def sortRows (keys : List SortKey) (rows : List ρ) : List ρ :=
  rows.mergeSort fun x y => (compareRows asF64 get keys x y).isLE

/-- What a sort is to return: all rows, none before a smaller one, equal ones in place. -/
structure Sorts (order : ρ → ρ → Ordering) (rows out : List ρ) : Prop where
  perm : out.Perm rows
  sorted : out.Pairwise fun x y => (order x y).isLE
  stable : ∀ x y, order x y = .eq → [x, y] <+ rows → [x, y] <+ out

/-- A comparison is a total preorder of some rows. -/
def TotalPreorderOn (order : ρ → ρ → Ordering) (rows : List ρ) : Prop :=
  TransCmp fun x y : {x // x ∈ rows} => order x.1 y.1

variable {asF64 get} {keys : List SortKey} {rows : List ρ}

theorem sorts_mergeSort {order : ρ → ρ → Ordering} (h : TotalPreorderOn order rows) :
    Sorts order rows (rows.mergeSort fun x y => (order x y).isLE) := by
  -- The order has its laws on the rows only, so the rows are sorted along with their proofs.
  have hattach := map_mergeSort (l := rows.attach) (f := Subtype.val)
    (r := fun x y => (order x.1 y.1).isLE) (s := fun x y => (order x y).isLE) (by simp)
  rw [attach_map_subtype_val] at hattach
  have htrans : ∀ x y z : {x // x ∈ rows}, (order x.1 y.1).isLE = true →
      (order y.1 z.1).isLE = true → (order x.1 z.1).isLE = true := fun _ _ _ => h.isLE_trans
  have htotal : ∀ x y : {x // x ∈ rows},
      ((order x.1 y.1).isLE || (order y.1 x.1).isLE) = true := by
    intro x y
    have hswap : order y.1 x.1 = (order x.1 y.1).swap := h.eq_swap (a := y) (b := x)
    rw [hswap]
    cases order x.1 y.1 <;> rfl
  refine ⟨mergeSort_perm _ _, ?_, ?_⟩
  · rw [← hattach, pairwise_map]
    exact pairwise_mergeSort htrans htotal _
  · intro x y heq hsub
    rw [← attach_map_subtype_val rows] at hsub
    obtain ⟨pair, hpair, hxy⟩ := sublist_map_iff.mp hsub
    have hle : (pair.map Subtype.val).Pairwise fun x y => (order x y).isLE := by
      rw [← hxy, pairwise_pair, heq]
      rfl
    rw [← hattach, hxy]
    exact (sublist_mergeSort htrans htotal (pairwise_map.mp hle) hpair).map _

/-- What a sort tells apart in a column. -/
inductive Kind where
  | bool
  | int
  | float
  | text
  | unordered
  deriving DecidableEq

def kindOf : Value → Kind
  | .bool _ => .bool
  | .int _ => .int
  | .float _ => .float
  | .text _ => .text
  | _ => .unordered

theorem cmp_eq_compare {β : Type} [Ord β] {R : Value → β → Prop}
    (hR : ∀ v w a b, R v a → R w b →
      (compareValues asF64 (some v) (some w)).getD .eq = compare a b)
    {x y : Option Value} {a b : Option β} (hx : Option.Rel R x a) (hy : Option.Rel R y b) :
    cmp asF64 x y = compare a b := by
  cases hx with
  | none => cases hy <;> rfl
  | some hv =>
    cases hy with
    | none => rfl
    | some hw => exact hR _ _ _ _ hv hw

theorem cmp_transCmp {β : Type} [Ord β] [TransOrd β] (R : Value → β → Prop)
    {column : ρ → Option Value} (hall : ∀ x, ∀ v ∈ column x, ∃ b, R v b)
    (hR : ∀ v w a b, R v a → R w b →
      (compareValues asF64 (some v) (some w)).getD .eq = compare a b) :
    TransCmp fun x y => cmp asF64 (column x) (column y) := by
  have hkey : ∀ x, ∃ key, Option.Rel R (column x) key := by
    intro x
    cases hx : column x with
    | none => exact ⟨none, .none⟩
    | some v =>
      obtain ⟨b, hb⟩ := hall x v hx
      exact ⟨some b, .some hb⟩
  choose key hkey using hkey
  simp only [fun x y => cmp_eq_compare hR (hkey x) (hkey y)]
  exact { eq_swap := OrientedCmp.eq_swap, isLE_trans := TransCmp.isLE_trans }

theorem cmp_transCmp_of_kind {kind : Kind} {column : ρ → Option Value}
    (hkind : ∀ x, ∀ v ∈ column x, kindOf v = kind) (hfloat : kind ≠ .float) :
    TransCmp fun x y => cmp asF64 (column x) (column y) := by
  cases kind with
  | bool =>
    refine cmp_transCmp (fun v b => v = .bool b) (fun x v hv => ?_) (by rintro _ _ a b rfl rfl; rfl)
    cases v <;> cases hkind x _ hv
    exact ⟨_, rfl⟩
  | int =>
    refine cmp_transCmp (fun v i => v = .int i) (fun x v hv => ?_) (by rintro _ _ a b rfl rfl; rfl)
    cases v <;> cases hkind x _ hv
    exact ⟨_, rfl⟩
  | float => exact absurd rfl hfloat
  | text =>
    refine cmp_transCmp (fun v t => v = .text t) (fun x v hv => ?_) (by rintro _ _ a b rfl rfl; rfl)
    cases v <;> cases hkind x _ hv
    exact ⟨_, rfl⟩
  | unordered =>
    refine cmp_transCmp (fun v (_ : Unit) => kindOf v = .unordered)
      (fun x v hv => ⟨(), hkind x v hv⟩) ?_
    intro v w _ _ hv _
    cases v <;> cases hv <;> rfl

/-- A column without floating point numbers that can be sorted by: its values are of one kind,
    or a sort takes all of them for equal. -/
def Sortable (asF64 : Int → Nat) (rows : List ρ) (column : ρ → Option Value) : Prop :=
  (∀ x ∈ rows, ∀ y ∈ rows, ∀ v ∈ column x, ∀ w ∈ column y, kindOf v = kindOf w) ∨
    ∀ x ∈ rows, ∀ y ∈ rows, ∀ v ∈ column x, ∀ w ∈ column y, cmp asF64 (some v) (some w) = .eq

theorem Sortable.totalPreorderOn {column : ρ → Option Value} (h : Sortable asF64 rows column)
    (hfloat : ∀ x ∈ rows, ∀ v ∈ column x, kindOf v ≠ .float) :
    TotalPreorderOn (fun x y => cmp asF64 (column x) (column y)) rows := by
  rcases h with hkind | heq
  · by_cases hsome : ∃ x ∈ rows, ∃ v, v ∈ column x
    · obtain ⟨x, hx, v, hv⟩ := hsome
      exact cmp_transCmp_of_kind (fun y w hw => hkind y.1 y.2 x hx w hw v hv) (hfloat x hx v hv)
    · exact @cmp_transCmp_of_kind _ asF64 .unordered _
        (fun y w hw => absurd ⟨y.1, y.2, w, hw⟩ hsome) (by decide)
  · refine cmp_transCmp (fun v (_ : Unit) => ∃ x ∈ rows, v ∈ column x)
      (fun x v hv => ⟨(), x.1, x.2, hv⟩) ?_
    rintro v w _ _ ⟨x, hx, hv⟩ ⟨y, hy, hw⟩
    exact heq x hx y hy v hv w hw

theorem cmp_of_kindOf_ne {v w : Value} (hv : kindOf v ≠ .float) (hw : kindOf w ≠ .float)
    (hne : kindOf v ≠ kindOf w) : cmp asF64 (some v) (some w) = .eq := by
  cases v <;> cases w <;> first | rfl | exact (hne rfl).elim | exact (hv rfl).elim |
    exact (hw rfl).elim

/-- A value of another kind is equal to any two, so a total preorder makes these equal. -/
theorem sortable_of_totalPreorderOn {column : ρ → Option Value}
    (hfloat : ∀ x ∈ rows, ∀ v ∈ column x, kindOf v ≠ .float)
    (h : TotalPreorderOn (fun x y => cmp asF64 (column x) (column y)) rows) :
    Sortable asF64 rows column := by
  refine or_iff_not_imp_left.mpr fun hkind x hx y hy v hv w hw => ?_
  by_cases hvw : kindOf v = kindOf w
  · obtain ⟨z, hz, u, hu, hother⟩ : ∃ z ∈ rows, ∃ u ∈ column z, kindOf u ≠ kindOf v := by
      by_contra hall
      push Not at hall
      exact hkind fun a ha b hb p hp q hq => (hall a ha p hp).trans (hall b hb q hq).symm
    have hcmp : ∀ {a b : ρ} {p q : Value}, p ∈ column a → q ∈ column b →
        cmp asF64 (column a) (column b) = cmp asF64 (some p) (some q) := by
      rintro a b p q hp hq
      rw [hp, hq]
    have hxz : cmp asF64 (column x) (column z) = .eq := (hcmp hv hu).trans
      (cmp_of_kindOf_ne (hfloat x hx v hv) (hfloat z hz u hu) hother.symm)
    have hzy : cmp asF64 (column z) (column y) = .eq := (hcmp hu hw).trans
      (cmp_of_kindOf_ne (hfloat z hz u hu) (hfloat y hy w hw) (hvw ▸ hother))
    rw [← hcmp hv hw]
    exact h.eq_trans (a := ⟨x, hx⟩) (b := ⟨z, hz⟩) (c := ⟨y, hy⟩) hxz hzy
  · exact cmp_of_kindOf_ne (hfloat x hx v hv) (hfloat y hy w hw) hvw

theorem compareRows_totalPreorderOn
    (h : ∀ k ∈ keys, TotalPreorderOn (fun x y => cmp asF64 (get x k.field) (get y k.field)) rows) :
    TotalPreorderOn (compareRows asF64 get keys) rows := by
  unfold TotalPreorderOn at h ⊢
  induction keys with
  | nil => exact { eq_swap := rfl, isLE_trans := fun _ _ => rfl }
  | cons k keys ih =>
    obtain ⟨hk, hkeys⟩ := forall_mem_cons.mp h
    have hrest := ih hkeys
    have hback := hk.opposite
    -- A column that is sorted downwards is compared the other way round.
    have hlex : (fun x y : {x // x ∈ rows} => compareRows asF64 get (k :: keys) x.1 y.1)
        = compareLex (if k.desc then fun x y => cmp asF64 (get y.1 k.field) (get x.1 k.field)
            else fun x y => cmp asF64 (get x.1 k.field) (get y.1 k.field))
          fun x y => compareRows asF64 get keys x.1 y.1 := by
      funext x y
      have hswap := hk.eq_swap (a := x) (b := y)
      cases hdesc : k.desc with
      | false =>
        simp only [compareRows, compareLex, hdesc, Bool.false_eq_true, if_false]
        cases cmp asF64 (get x.1 k.field) (get y.1 k.field) <;> rfl
      | true =>
        simp only [compareRows, compareLex, hdesc, hswap, if_true]
        cases cmp asF64 (get y.1 k.field) (get x.1 k.field) <;> rfl
    rw [hlex]
    split <;> infer_instance

def ages (row : Fin 3) (_ : Text) : Option Value :=
  [Value.int 2, .text (utf8 "x"), .int 1][row]?

def byAge : List SortKey := [⟨utf8 "age", false⟩]

inductive JoinKind where
  | inner
  | left
  deriving DecidableEq

section

variable (asF64) (leftKey : ρ → Option Value) (rightKey : σ → Option Value)
  (kind : JoinKind) (left : List ρ) (right : List σ)

/-- The keys of two rows are both there and the same. -/
def joins (lk rk : Option Value) : Bool :=
  lk.isSome && rk.isSome && sameField lk rk

/-- The loop over the right rows: the pairs so far, and whether the left row has one. -/
def joinRow (l : ρ) (s : List (ρ × Option σ) × Bool) : List (ρ × Option σ) × Bool :=
  right.foldl (fun s r =>
    if joins (leftKey l) (rightKey r) then (s.1 ++ [(l, some r)], true) else s) s

/-- The loop over the left rows. -/
def join : List (ρ × Option σ) :=
  left.foldl (fun out l =>
    let s := joinRow leftKey rightKey right l (out, false)
    if !s.2 && kind = .left then s.1 ++ [(l, none)] else s.1) []

/-- A key that is there and is not null. -/
def isPresent : Option Value → Bool
  | none => false
  | some .null => false
  | some _ => true

/-- Keys of a pair: both there and not null, and equal to a filter. -/
def partners (lk rk : Option Value) : Bool :=
  isPresent lk && isPresent rk && valuesEqual asF64 lk rk

/-- A left row with each right row it matches, or alone. -/
def pairsBy (pairs : ρ → σ → Bool) (l : ρ) : List (ρ × Option σ) :=
  let found := right.filter (pairs l)
  found.map (fun r => (l, some r)) ++ if found.isEmpty && kind = .left then [(l, none)] else []

/-- The pairs that are to be returned of a left row. -/
def pairsOf : ρ → List (ρ × Option σ) :=
  pairsBy kind right fun l r => partners asF64 (leftKey l) (rightKey r)

/-- Keys that a join compares as a filter does: not two nulls, and not an integer and a floating
    point number that a filter takes for equal. -/
def comparable (lk rk : Option Value) : Bool :=
  match lk, rk with
  | some .null, some .null => false
  | some (.int _), some (.float _) => !valuesEqual asF64 lk rk
  | some (.float _), some (.int _) => !valuesEqual asF64 lk rk
  | _, _ => true

theorem valuesEqual_float (a b : Nat) :
    valuesEqual asF64 (some (.float a)) (some (.float b)) = floatSame a b := by
  simp only [valuesEqual, compareValues, floatCmp]
  cases hsame : floatSame a b with
  | true =>
    have hnan : (floatIsNan a || floatIsNan b) = false := by
      simp only [floatSame, Bool.and_eq_true, Bool.not_eq_true'] at hsame
      rw [hsame.1.1, hsame.1.2, Bool.or_false]
    simp [hnan]
  | false => split_ifs <;> simp_all [sameField, Value.same]

theorem joins_eq_partners_iff (lk rk : Option Value) :
    joins lk rk = partners asF64 lk rk ↔ comparable asF64 lk rk = true := by
  have hmixed : ∀ equal : Bool, false = equal ↔ (!equal) = true := by decide
  cases lk with
  | none => cases rk <;> exact iff_of_true rfl rfl
  | some a =>
    cases rk with
    | none => cases a <;> exact iff_of_true rfl rfl
    | some b =>
      cases a <;> cases b <;> first | exact iff_of_true rfl rfl | skip
      case null.null => exact iff_of_false Bool.noConfusion Bool.noConfusion
      case int.float => exact hmixed _
      case float.int => exact hmixed _
      case float.float x y => exact iff_of_true (valuesEqual_float asF64 x y).symm rfl
      case bool.bool x y => exact iff_of_true (by cases x <;> cases y <;> rfl) rfl
      case int.int x y =>
        exact iff_of_true (decide_eq_decide.mpr Std.compare_eq_iff_eq.symm) rfl
      case text.text x y =>
        exact iff_of_true (decide_eq_decide.mpr Std.compare_eq_iff_eq.symm) rfl

theorem joinRow_eq (l : ρ) (out : List (ρ × Option σ)) (matched : Bool) :
    joinRow leftKey rightKey right l (out, matched)
      = (out ++ (right.filter fun r => joins (leftKey l) (rightKey r)).map fun r => (l, some r),
        matched || !(right.filter fun r => joins (leftKey l) (rightKey r)).isEmpty) := by
  unfold joinRow
  induction right generalizing out matched with
  | nil => simp
  | cons r right ih =>
    rw [foldl_cons]
    by_cases hr : joins (leftKey l) (rightKey r) = true
    · simp [hr, ih]
    · simp [hr, ih]

end

theorem join_eq (leftKey : ρ → Option Value) (rightKey : σ → Option Value) (kind : JoinKind)
    (left : List ρ) (right : List σ) : join leftKey rightKey kind left right
      = left.flatMap (pairsBy kind right fun l r => joins (leftKey l) (rightKey r)) := by
  have hloop : ∀ out, left.foldl (fun out l =>
      let s := joinRow leftKey rightKey right l (out, false)
      if !s.2 && kind = .left then s.1 ++ [(l, none)] else s.1) out
      = out ++ left.flatMap (pairsBy kind right fun l r => joins (leftKey l) (rightKey r)) := by
    induction left with
    | nil => simp
    | cons l left ih =>
      intro out
      rw [foldl_cons, ih, flatMap_cons, pairsBy, joinRow_eq, ← append_assoc]
      congr 1
      split_ifs <;> simp_all
  exact hloop []

theorem mem_flatMap_pairsBy {kind : JoinKind} {left : List ρ} {right : List σ}
    {pairs : ρ → σ → Bool} {l : ρ} {r : σ} :
    (l, some r) ∈ left.flatMap (pairsBy kind right pairs)
      ↔ l ∈ left ∧ r ∈ right ∧ pairs l r = true := by
  rw [mem_flatMap]
  constructor
  · rintro ⟨l', hl', hmem⟩
    rcases mem_append.mp hmem with hmem | hmem
    · obtain ⟨r', hr', heq⟩ := mem_map.mp hmem
      cases heq
      exact ⟨hl', mem_filter.mp hr'⟩
    · split at hmem
      · simp at hmem
      · cases hmem
  · rintro ⟨hl, hr⟩
    exact ⟨l, hl, mem_append_left _ (mem_map_of_mem (mem_filter.mpr hr))⟩

/-- A join returns the pairs of every left row, in order, exactly if the keys are comparable. -/
theorem join_exact (asF64 : Int → Nat) (leftKey : ρ → Option Value)
    (rightKey : σ → Option Value) (kind : JoinKind) (left : List ρ) (right : List σ) :
    join leftKey rightKey kind left right
      = left.flatMap (pairsOf asF64 leftKey rightKey kind right) ↔
    ∀ l ∈ left, ∀ r ∈ right, comparable asF64 (leftKey l) (rightKey r) = true := by
  rw [join_eq, pairsOf]
  constructor
  · intro heq l hl r hr
    -- Whether a pair is returned says whether its keys match.
    have hmem := (mem_flatMap_pairsBy (l := l) (r := r)).symm.trans
      ((iff_of_eq (congrArg ((l, some r) ∈ ·) heq)).trans mem_flatMap_pairsBy)
    rw [← joins_eq_partners_iff, Bool.eq_iff_iff]
    simpa only [hl, hr, true_and] using hmem
  · intro h
    refine flatMap_congr fun l hl => ?_
    rw [pairsBy, pairsBy,
      filter_congr fun r hr => (joins_eq_partners_iff asF64 _ _).mpr (h l hl r hr)]

theorem join_texts : join id id .left [some (.text (utf8 "x")), none] [some (.text (utf8 "x"))]
    = [some (.text (utf8 "x")), none].flatMap
      (pairsOf (fun _ => 0) id id .left [some (.text (utf8 "x"))]) :=
  (join_exact _ id id .left _ _).mpr (by simp [comparable])

/-- A pair of nulls is returned, and the integer one and the floating point one are not. -/
theorem join_wrong : (join id id .inner [some .null] [some .null]).length = 1 ∧
    pairsOf (fun _ => 0) id id .inner [some .null] (some .null) = [] ∧
    join id id .inner [some (.int 1)] [some (.float 0x3FF0000000000000)] = [] ∧
    (pairsOf (fun _ => 0x3FF0000000000000) id id .inner [some (.float 0x3FF0000000000000)]
      (some (.int 1))).length = 1 :=
  ⟨rfl, rfl, rfl, rfl⟩

end Aikoql.Runtime
