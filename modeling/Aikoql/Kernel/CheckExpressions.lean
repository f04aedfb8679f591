import Aikoql.Kernel.Values
import Aikoql.Lib.Fallible

/-!
# Check Expressions

Boolean expressions over the properties of an object.

An expression compares, combines and computes with values. A property that is not there is
an error, and so are values an operation cannot take, and these are passed on except where
a condition is settled before the operand in question is looked at.

Arithmetic of floating point numbers is that of the machine, so it is given as functions on
bit patterns. All that is needed of it is that it does not tell the two zeros apart other
than by a zero.

An expression looks at the properties it names and at nothing else, and two values the
kernel takes for equal make no difference to it.
-/

namespace Aikoql.Kernel

open List

/-! ## Arithmetic -/

/-- Floating point arithmetic on bit patterns. -/
structure FloatOps where
  ofInt : Int → Nat
  add : Nat → Nat → Nat
  sub : Nat → Nat → Nat
  mul : Nat → Nat → Nat
  div : Nat → Nat → Nat
  lt : Nat → Nat → Bool
  le : Nat → Nat → Bool

def floatIsZero (bits : Nat) : Bool :=
  decide (floatMagnitude bits = 0)

/-- The same pattern, or two zeros. -/
def FloatAlike (a b : Nat) : Prop :=
  a = b ∨ floatIsZero a = true ∧ floatIsZero b = true

/-- Zeros are interchangeable: the outcome of an operation is the same pattern or a zero
    too, and a comparison comes out the same. A divisor is not a zero, and an integer other
    than zero does not become one. -/
structure FloatOps.Sound (fl : FloatOps) : Prop where
  ofInt : ∀ i : Int, i ≠ 0 → floatIsZero (fl.ofInt i) = false
  add : ∀ {a a' b b' : Nat}, FloatAlike a a' → FloatAlike b b' →
    FloatAlike (fl.add a b) (fl.add a' b')
  sub : ∀ {a a' b b' : Nat}, FloatAlike a a' → FloatAlike b b' →
    FloatAlike (fl.sub a b) (fl.sub a' b')
  mul : ∀ {a a' b b' : Nat}, FloatAlike a a' → FloatAlike b b' →
    FloatAlike (fl.mul a b) (fl.mul a' b')
  div : ∀ {a a' b b' : Nat}, FloatAlike a a' → FloatAlike b b' → floatIsZero b = false →
    FloatAlike (fl.div a b) (fl.div a' b')
  lt : ∀ {a a' b b' : Nat}, FloatAlike a a' → FloatAlike b b' → fl.lt a b = fl.lt a' b'
  le : ∀ {a a' b b' : Nat}, FloatAlike a a' → FloatAlike b b' → fl.le a b = fl.le a' b'

def Value.typeName : Value → Text
  | .null => utf8 "Null"
  | .bool _ => utf8 "Bool"
  | .int _ => utf8 "Int"
  | .float _ => utf8 "Float"
  | .text _ => utf8 "Text"
  | .bytes _ => utf8 "Bytes"
  | .list _ => utf8 "List"
  | .map _ => utf8 "Map"

inductive ArithOp where
  | add
  | sub
  | mul
  | div
  deriving DecidableEq

/-- A signed word. -/
def wrapInt (i : Int) : Int := Int.bmod i (2 ^ 64)

def ArithOp.onInts (op : ArithOp) (l r : Int) : Int :=
  match op with
  | .add => wrapInt (l + r)
  | .sub => wrapInt (l - r)
  | .mul => wrapInt (l * r)
  | .div => wrapInt (l.tdiv r)

def ArithOp.onFloats (op : ArithOp) (fl : FloatOps) (l r : Nat) : Nat :=
  match op with
  | .add => fl.add l r
  | .sub => fl.sub l r
  | .mul => fl.mul l r
  | .div => fl.div l r

def ArithOp.verb : ArithOp → Text
  | .add => utf8 "add"
  | .sub => utf8 "subtract"
  | .mul => utf8 "multiply"
  | .div => utf8 "divide"

def Value.isZero : Value → Bool
  | .int i => decide (i = 0)
  | .float bits => floatIsZero bits
  | _ => false

/-- Apply an operation to two values. Strings can be added. -/
def arithValues (fl : FloatOps) (op : ArithOp) (left right : Value) : Except Text Value :=
  if op = .div ∧ right.isZero then .error (utf8 "division by zero")
  else
    match left, right with
    | .int l, .int r => .ok (.int (op.onInts l r))
    | .int l, .float r => .ok (.float (op.onFloats fl (fl.ofInt l) r))
    | .float l, .int r => .ok (.float (op.onFloats fl l (fl.ofInt r)))
    | .float l, .float r => .ok (.float (op.onFloats fl l r))
    | l, r =>
      match op, l, r with
      | .add, .text l, .text r => .ok (.text (l ++ r))
      | _, _, _ => .error (utf8 "cannot " ++ op.verb ++ utf8 " \"" ++ left.typeName ++
          utf8 "\" and \"" ++ right.typeName ++ utf8 "\"")

/-! ## Comparisons -/

inductive CompareOp where
  | eq
  | neq
  | lt
  | lte
  | gt
  | gte
  deriving DecidableEq

def CompareOp.ordered {α : Type} (op : CompareOp) (lt le : α → α → Bool) (l r : α) : Bool :=
  match op with
  | .lt => lt l r
  | .lte => le l r
  | .gt => lt r l
  | .gte => le r l
  | .eq => false
  | .neq => false

def compareValues (fl : FloatOps) (op : CompareOp) (left right : Value) : Except Text Bool :=
  if op = .eq then .ok (left.same right)
  else if op = .neq then .ok (!left.same right)
  else
    match left, right with
    | .int l, .int r => .ok (op.ordered (fun a b => decide (a < b)) (fun a b => decide (a ≤ b)) l r)
    | .int l, .float r => .ok (op.ordered fl.lt fl.le (fl.ofInt l) r)
    | .float l, .int r => .ok (op.ordered fl.lt fl.le l (fl.ofInt r))
    | .float l, .float r => .ok (op.ordered fl.lt fl.le l r)
    | .text l, .text r =>
      .ok (op.ordered (fun a b => decide (a < b)) (fun a b => decide (a ≤ b)) l r)
    | l, r => .error (utf8 "cannot compare " ++ l.typeName ++ utf8 " with " ++ r.typeName)

def isTruthy : Value → Bool
  | .null => false
  | .bool b => b
  | .int i => decide (i ≠ 0)
  | .float bits => !floatIsZero bits
  | .text t => !t.isEmpty
  | .bytes b => !b.isEmpty
  | .list vs => !vs.isEmpty
  | .map es => !es.isEmpty

/-! ## Expressions -/

inductive CheckExpression where
  | property (name : Text)
  | literal (value : Value)
  | compare (op : CompareOp) (left right : CheckExpression)
  | and (left right : CheckExpression)
  | or (left right : CheckExpression)
  | not (inner : CheckExpression)
  | arith (left : CheckExpression) (op : ArithOp) (right : CheckExpression)
  | cond (test thenExpr elseExpr : CheckExpression)

namespace CheckExpression

def lookup (props : PropertyMap) (name : Text) : Except Text Value :=
  match props[name]? with
  | some value => .ok value
  | none => .error (utf8 "property '" ++ name ++ utf8 "' not found")

mutual

def evaluate (fl : FloatOps) (props : PropertyMap) : CheckExpression → Except Text Bool
  | .property name => do return isTruthy (← lookup props name)
  | .literal value => .ok (isTruthy value)
  | .compare op left right => do
      let l ← evalValue fl props left
      let r ← evalValue fl props right
      compareValues fl op l r
  | .and left right => do
      if ← evaluate fl props left then evaluate fl props right else return false
  | .or left right => do
      if ← evaluate fl props left then return true else evaluate fl props right
  | .not inner => do return !(← evaluate fl props inner)
  | .arith left op right => do
      let l ← evalValue fl props left
      let r ← evalValue fl props right
      return isTruthy (← arithValues fl op l r)
  | .cond test thenExpr elseExpr => do
      if ← evaluate fl props test then evaluate fl props thenExpr else evaluate fl props elseExpr

def evalValue (fl : FloatOps) (props : PropertyMap) : CheckExpression → Except Text Value
  | .property name => lookup props name
  | .literal value => .ok value
  | .arith left op right => do
      let l ← evalValue fl props left
      let r ← evalValue fl props right
      arithValues fl op l r
  | .cond test thenExpr elseExpr => do
      if ← evaluate fl props test then evalValue fl props thenExpr else evalValue fl props elseExpr
  | .compare _ _ _ => .error (utf8 "expected value expression, got logical or comparison")
  | .and _ _ => .error (utf8 "expected value expression, got logical or comparison")
  | .or _ _ => .error (utf8 "expected value expression, got logical or comparison")
  | .not _ => .error (utf8 "expected value expression, got logical or comparison")

end

def referencedProperties : CheckExpression → List Text
  | .property name => [name]
  | .literal _ => []
  | .compare _ left right => left.referencedProperties ++ right.referencedProperties
  | .and left right => left.referencedProperties ++ right.referencedProperties
  | .or left right => left.referencedProperties ++ right.referencedProperties
  | .not inner => inner.referencedProperties
  | .arith left _ right => left.referencedProperties ++ right.referencedProperties
  | .cond test thenExpr elseExpr =>
    test.referencedProperties ++ thenExpr.referencedProperties ++ elseExpr.referencedProperties

end CheckExpression

/-! ## Values that make no difference -/

def Value.Alike (a b : Value) : Prop :=
  a = b ∨ a.same b = true

/-- How values that are alike can differ: by the sign of a zero, or inside a list or a map. -/
inductive Value.Shape : Value → Value → Prop
  | refl (a : Value) : Shape a a
  | float {x y : Nat} (h : FloatAlike x y) : Shape (.float x) (.float y)
  | list {as bs : List Value} (h : as.isEmpty = bs.isEmpty) : Shape (.list as) (.list bs)
  | map {as bs : List (Text × Value)} (h : as.isEmpty = bs.isEmpty) : Shape (.map as) (.map bs)

theorem FloatAlike.isZero {a b : Nat} (h : FloatAlike a b) : floatIsZero a = floatIsZero b := by
  rcases h with rfl | ⟨ha, hb⟩
  · rfl
  · rw [ha, hb]

theorem floatAlike_of_floatSame {a b : Nat} (h : floatSame a b = true) : FloatAlike a b := by
  simp only [floatSame, Bool.and_eq_true, Bool.or_eq_true, decide_eq_true_eq] at h
  rcases h.2 with rfl | ⟨ha, hb⟩
  · exact .inl rfl
  · exact .inr ⟨by simpa [floatIsZero] using ha, by simpa [floatIsZero] using hb⟩

theorem Value.Alike.shape {a b : Value} (h : a.Alike b) : a.Shape b := by
  rcases h with rfl | h
  · exact .refl a
  · cases a <;> cases b <;> simp only [Value.same, Bool.false_eq_true] at h
    case null.null => exact .refl _
    case bool.bool x y => exact (beq_iff_eq.mp h) ▸ .refl _
    case int.int x y => exact (of_decide_eq_true h) ▸ .refl _
    case float.float x y => exact .float (floatAlike_of_floatSame h)
    case text.text x y => exact (of_decide_eq_true h) ▸ .refl _
    case bytes.bytes x y => exact (of_decide_eq_true h) ▸ .refl _
    case list.list as bs =>
      refine .list ?_
      cases as <;> cases bs <;> simp_all [sameValues]
    case map.map as bs =>
      refine .map ?_
      cases as <;> cases bs <;> simp_all [sameEntries]

theorem Value.Shape.isZero {a b : Value} (h : a.Shape b) : a.isZero = b.isZero := by
  cases h with
  | float h => exact h.isZero
  | _ => rfl

theorem Value.Shape.isTruthy {a b : Value} (h : a.Shape b) : isTruthy a = isTruthy b := by
  cases h with
  | refl => rfl
  | float h => exact congrArg not h.isZero
  | list h => exact congrArg not h
  | map h => exact congrArg not h

theorem Value.Alike.symm {a b : Value} (h : a.Alike b) : b.Alike a := by
  rcases h with rfl | h
  · exact .inl rfl
  · exact .inr (Value.same_symm a b h)

theorem Value.Alike.same_eq {a a' b b' : Value} (ha : a.Alike a') (hb : b.Alike b') :
    a.same b = a'.same b' := by
  have himp : ∀ {a a' b b' : Value}, a.Alike a' → b.Alike b' → a.same b = true →
      a'.same b' = true := by
    intro a a' b b' ha hb h
    have hleft : a'.same b = true := by
      rcases ha with rfl | ha
      · exact h
      · exact Value.same_trans _ _ _ (Value.same_symm _ _ ha) h
    rcases hb with rfl | hb
    · exact hleft
    · exact Value.same_trans _ _ _ hleft hb
  exact Bool.eq_iff_iff.mpr ⟨himp ha hb, himp ha.symm hb.symm⟩

theorem FloatAlike.value {x y : Nat} (h : FloatAlike x y) : (Value.float x).Alike (.float y) := by
  rcases h with rfl | ⟨hx, hy⟩
  · exact .inl rfl
  · right
    have hx' : floatMagnitude x = 0 := by simpa [floatIsZero] using hx
    have hy' : floatMagnitude y = 0 := by simpa [floatIsZero] using hy
    simp [Value.same, floatSame, floatIsNan, hx', hy']

section

variable {fl : FloatOps} {a a' b b' : Value}

theorem ArithOp.onFloats_alike (hfl : fl.Sound) (op : ArithOp) {x x' y y' : Nat}
    (hx : FloatAlike x x') (hy : FloatAlike y y') (hzero : op = .div → floatIsZero y = false) :
    FloatAlike (op.onFloats fl x y) (op.onFloats fl x' y') := by
  cases op with
  | add => exact hfl.add hx hy
  | sub => exact hfl.sub hx hy
  | mul => exact hfl.mul hx hy
  | div => exact hfl.div hx hy (hzero rfl)

/-- Two results that are the same error, or values in a relation. -/
def ResultsRel (R : Value → Value → Prop) (x y : Except Text Value) : Prop :=
  match x, y with
  | .ok a, .ok b => R a b
  | .error e, .error e' => e = e'
  | _, _ => False

theorem ResultsRel.refl {R : Value → Value → Prop} (h : ∀ a, R a a) (x : Except Text Value) :
    ResultsRel R x x := by
  cases x with
  | error e => rfl
  | ok a => exact h a

theorem compareOrdered_alike (hfl : fl.Sound) (op : CompareOp) {x x' y y' : Nat}
    (hx : FloatAlike x x') (hy : FloatAlike y y') :
    op.ordered fl.lt fl.le x y = op.ordered fl.lt fl.le x' y' := by
  cases op with
  | lt => exact hfl.lt hx hy
  | lte => exact hfl.le hx hy
  | gt => exact hfl.lt hy hx
  | gte => exact hfl.le hy hx
  | eq => rfl
  | neq => rfl

theorem FloatAlike.refl (x : Nat) : FloatAlike x x := .inl rfl

theorem arithValues_alike (hfl : fl.Sound) (op : ArithOp) (ha : a.Alike a') (hb : b.Alike b') :
    ResultsRel Value.Alike (arithValues fl op a b) (arithValues fl op a' b') := by
  unfold arithValues
  rw [← hb.shape.isZero]
  by_cases hzero : op = .div ∧ b.isZero = true
  · rw [if_pos hzero, if_pos hzero]
    exact rfl
  · rw [if_neg hzero, if_neg hzero]
    -- A divisor is not a zero, whether it is a float or becomes one.
    have hdiv : ∀ y, b = .float y → op = .div → floatIsZero y = false := by
      rintro y rfl rfl
      simpa [Value.isZero] using hzero
    have hofInt : ∀ i, b = .int i → op = .div → floatIsZero (fl.ofInt i) = false := by
      rintro i rfl rfl
      exact hfl.ofInt i (by simpa [Value.isZero] using hzero)
    cases ha.shape with
    | refl =>
      cases hb.shape with
      | refl => exact .refl (fun _ => .inl rfl) _
      | float h =>
        cases a with
        | int | float => exact (op.onFloats_alike hfl (.refl _) h (hdiv _ rfl)).value
        | _ => cases op <;> exact rfl
      | list | map => cases a <;> cases op <;> exact rfl
    | float hx =>
      cases hb.shape with
      | refl =>
        cases b with
        | int i => exact (op.onFloats_alike hfl hx (.refl _) (hofInt _ rfl)).value
        | float y => exact (op.onFloats_alike hfl hx (.refl _) (hdiv _ rfl)).value
        | _ => cases op <;> exact rfl
      | float h => exact (op.onFloats_alike hfl hx h (hdiv _ rfl)).value
      | list | map => cases op <;> exact rfl
    | list | map => cases hb.shape <;> (try cases b) <;> cases op <;> exact rfl

theorem compareValues_alike (hfl : fl.Sound) (op : CompareOp) (ha : a.Alike a')
    (hb : b.Alike b') : compareValues fl op a b = compareValues fl op a' b' := by
  unfold compareValues
  rw [ha.same_eq hb]
  by_cases heq : op = .eq
  · rw [if_pos heq, if_pos heq]
  · by_cases hne : op = .neq
    · rw [if_neg heq, if_neg heq, if_pos hne, if_pos hne]
    · rw [if_neg heq, if_neg heq, if_neg hne, if_neg hne]
      -- The order is asked for, and only floats can differ in it.
      cases ha.shape with
      | refl =>
        cases hb.shape with
        | refl => rfl
        | float h =>
          cases a with
          | int | float => exact congrArg Except.ok (compareOrdered_alike hfl op (.refl _) h)
          | _ => rfl
        | list | map => cases a <;> rfl
      | float hx =>
        cases hb.shape with
        | refl =>
          cases b with
          | int | float => exact congrArg Except.ok (compareOrdered_alike hfl op hx (.refl _))
          | _ => rfl
        | float h => exact congrArg Except.ok (compareOrdered_alike hfl op hx h)
        | list h => rfl
        | map h => rfl
      | list | map => cases hb.shape <;> (try cases b) <;> rfl

end

/-! ## Evaluation on related properties -/

/-- A relation of values that no operation tells apart. -/
structure Indistinct (fl : FloatOps) (R : Value → Value → Prop) : Prop where
  refl : ∀ a, R a a
  truthy : ∀ {a a'}, R a a' → isTruthy a = isTruthy a'
  compare : ∀ op {a a' b b'}, R a a' → R b b' →
    compareValues fl op a b = compareValues fl op a' b'
  arith : ∀ op {a a' b b'}, R a a' → R b b' →
    ResultsRel R (arithValues fl op a b) (arithValues fl op a' b')

def FieldRel (R : Value → Value → Prop) (old new : Option Value) : Prop :=
  match old, new with
  | none, none => True
  | some a, some b => R a b
  | _, _ => False

abbrev FieldAlike : Option Value → Option Value → Prop := FieldRel Value.Alike

section

variable {fl : FloatOps} {R : Value → Value → Prop} {x x' : Except Text Value} {α : Type}
  {f f' : Value → Except Text α}

theorem indistinct_eq (fl : FloatOps) : Indistinct fl Eq where
  refl _ := rfl
  truthy := by rintro _ _ rfl; rfl
  compare := by rintro _ _ _ _ _ rfl rfl; rfl
  arith := by rintro _ _ _ _ _ rfl rfl; exact .refl (fun _ => rfl) _

theorem indistinct_alike (hfl : fl.Sound) : Indistinct fl Value.Alike where
  refl _ := .inl rfl
  truthy h := h.shape.isTruthy
  compare op _ _ _ _ ha hb := compareValues_alike hfl op ha hb
  arith op _ _ _ _ ha hb := arithValues_alike hfl op ha hb

theorem FieldRel.refl (h : ∀ a, R a a) (field : Option Value) : FieldRel R field field := by
  cases field with
  | none => trivial
  | some value => exact h value

theorem ResultsRel.bind_eq (h : ResultsRel R x x') (hf : ∀ a a', R a a' → f a = f' a') :
    (x >>= f) = x' >>= f' := by
  cases x <;> cases x' <;> simp only [ResultsRel] at h
  case error.error => exact congrArg Except.error h
  case ok.ok a a' => exact hf a a' h

theorem ResultsRel.bind {g g' : Value → Except Text Value} (h : ResultsRel R x x')
    (hg : ∀ a a', R a a' → ResultsRel R (g a) (g' a')) : ResultsRel R (x >>= g) (x' >>= g') := by
  cases x <;> cases x' <;> simp only [ResultsRel] at h
  case error.error => exact h
  case ok.ok a a' => exact hg a a' h

end

namespace CheckExpression

variable {fl : FloatOps} {R : Value → Value → Prop} {props props' : PropertyMap}

theorem lookup_rel {name : Text} (h : FieldRel R props[name]? props'[name]?) :
    ResultsRel R (lookup props name) (lookup props' name) := by
  unfold lookup
  cases hold : props[name]? <;> cases hnew : props'[name]? <;> rw [hold, hnew] at h
  case none.none => exact rfl
  case some.some a b => exact h
  all_goals exact h.elim

/-- An expression looks at the properties it names, and only up to the relation. -/
theorem evaluations_rel (hR : Indistinct fl R) (e : CheckExpression)
    (h : ∀ name ∈ e.referencedProperties, FieldRel R props[name]? props'[name]?) :
    e.evaluate fl props = e.evaluate fl props' ∧
      ResultsRel R (e.evalValue fl props) (e.evalValue fl props') := by
  induction e with
  | property name =>
    have hname := lookup_rel (h name (by simp [referencedProperties]))
    simp only [evaluate, evalValue]
    refine ⟨hname.bind_eq fun a a' hrel => ?_, hname⟩
    rw [hR.truthy hrel]
  | literal value => exact ⟨rfl, hR.refl value⟩
  | compare op left right ihl ihr =>
    obtain ⟨hl, hr⟩ := forall_mem_append.mp h
    simp only [evaluate, evalValue]
    exact ⟨(ihl hl).2.bind_eq fun l l' hl => (ihr hr).2.bind_eq fun r r' hr => hR.compare op hl hr,
      rfl⟩
  | and left right ihl ihr | or left right ihl ihr =>
    obtain ⟨hl, hr⟩ := forall_mem_append.mp h
    simp only [evaluate, evalValue, (ihl hl).1, (ihr hr).1, true_and]
    exact rfl
  | not inner ih =>
    simp only [evaluate, evalValue, (ih h).1, true_and]
    exact rfl
  | arith left op right ihl ihr =>
    obtain ⟨hl, hr⟩ := forall_mem_append.mp h
    simp only [evaluate, evalValue]
    refine ⟨(ihl hl).2.bind_eq fun l l' hl => (ihr hr).2.bind_eq fun r r' hr =>
      (hR.arith op hl hr).bind_eq fun a a' hrel => ?_, (ihl hl).2.bind
      fun l l' hl => (ihr hr).2.bind fun r r' hr => hR.arith op hl hr⟩
    rw [hR.truthy hrel]
  | cond test thenExpr elseExpr iht ihthen ihelse =>
    obtain ⟨h, helse⟩ := forall_mem_append.mp h
    obtain ⟨ht, hthen⟩ := forall_mem_append.mp h
    simp only [evaluate, evalValue, (iht ht).1, (ihthen hthen).1, (ihelse helse).1, true_and]
    cases test.evaluate fl props' with
    | error e => exact rfl
    | ok b =>
      cases b with
      | true => exact (ihthen hthen).2
      | false => exact (ihelse helse).2

theorem evaluate_congr (hfl : fl.Sound) (e : CheckExpression)
    (h : ∀ name ∈ e.referencedProperties, FieldAlike props[name]? props'[name]?) :
    e.evaluate fl props = e.evaluate fl props' :=
  (evaluations_rel (indistinct_alike hfl) e h).1

theorem evaluate_eq_of_agree (e : CheckExpression)
    (h : ∀ name ∈ e.referencedProperties, props[name]? = props'[name]?) :
    e.evaluate fl props = e.evaluate fl props' := by
  refine (evaluations_rel (indistinct_eq fl) e fun name hname => ?_).1
  rw [h name hname]
  exact .refl (fun _ => rfl) _

end CheckExpression

end Aikoql.Kernel
