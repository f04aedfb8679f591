import Aikoql.Guarantees.ConstraintCoverage
import Mathlib.Logic.Relation

/-!
# Evaluation that Aborts

Where looking at the constraints of a schema ends the process instead of the call.

A divisor is compared with zero only, and the quotient of the least integer and -1 traps, so
a check that divides one property by another aborts on values a caller may write. A schema
is registered as it is given, and one that requires what it does not allow fails an
assertion. Nothing else traps in the build that is shipped, where integers wrap around.

Whether some object makes a check divide these two numbers is a question about all values of
64-bit arithmetic, so the exact condition is about an object: no division that is evaluated on
it has these operands. Divisions by or into literals are safe for every object.

## Definitions

* `CheckExpression.aborts`: The evaluation ends the process.
* `CheckExpression.Operand`: What is evaluated for an expression.
* `RegisteredSchema.aborts`: The same for an object and the constraints of a schema.

## Theorems

* `CheckExpression.aborts_iff`: Only a division of the least integer by -1 aborts.
* `constraints_never_abort`: When no object aborts, and when one does not.
* `check_local`: An expression looks at the properties it names.
-/

namespace Aikoql.Kernel

variable {fl : FloatOps} {props : PropertyMap}

namespace CheckExpression

/-- A division of two integers that has no result. -/
def traps : ArithOp → Except Text Value → Except Text Value → Bool
  | .div, .ok (.int l), .ok (.int r) => decide (l = -2 ^ 63 ∧ r = -1)
  | _, _, _ => false

/-- The evaluation aborts, to a value or to a truth value. An operand is looked at only
    behind those before it, as in `evaluate` and `evalValue`. -/
def aborts (fl : FloatOps) (props : PropertyMap) (toValue : Bool) : CheckExpression → Bool
  | .property _ | .literal _ => false
  | .compare _ left right => !toValue && (left.aborts fl props true ||
      (left.evalValue fl props).isOk && right.aborts fl props true)
  | .and left right => !toValue && (left.aborts fl props false ||
      (left.evaluate fl props).toOption == some true && right.aborts fl props false)
  | .or left right => !toValue && (left.aborts fl props false ||
      (left.evaluate fl props).toOption == some false && right.aborts fl props false)
  | .not inner => !toValue && inner.aborts fl props false
  | .arith left op right => left.aborts fl props true ||
      (left.evalValue fl props).isOk && right.aborts fl props true ||
      traps op (left.evalValue fl props) (right.evalValue fl props)
  | .cond test thenExpr elseExpr => test.aborts fl props false ||
      (test.evaluate fl props).toOption == some true && thenExpr.aborts fl props toValue ||
      (test.evaluate fl props).toOption == some false && elseExpr.aborts fl props toValue

/-- Evaluating an expression, to a value or to a truth value, evaluates an operand of it. -/
inductive Operand (fl : FloatOps) (props : PropertyMap) :
    Bool × CheckExpression → Bool × CheckExpression → Prop
  | compareLeft (op left right) : Operand fl props (false, .compare op left right) (true, left)
  | compareRight (op left right) (h : (left.evalValue fl props).isOk = true) :
      Operand fl props (false, .compare op left right) (true, right)
  | andLeft (left right) : Operand fl props (false, .and left right) (false, left)
  | andRight (left right) (h : left.evaluate fl props = .ok true) :
      Operand fl props (false, .and left right) (false, right)
  | orLeft (left right) : Operand fl props (false, .or left right) (false, left)
  | orRight (left right) (h : left.evaluate fl props = .ok false) :
      Operand fl props (false, .or left right) (false, right)
  | not (inner) : Operand fl props (false, .not inner) (false, inner)
  | arithLeft (toValue left op right) :
      Operand fl props (toValue, .arith left op right) (true, left)
  | arithRight (toValue left op right) (h : (left.evalValue fl props).isOk = true) :
      Operand fl props (toValue, .arith left op right) (true, right)
  | test (toValue test thenExpr elseExpr) :
      Operand fl props (toValue, .cond test thenExpr elseExpr) (false, test)
  | thenExpr (toValue test thenExpr elseExpr) (h : test.evaluate fl props = .ok true) :
      Operand fl props (toValue, .cond test thenExpr elseExpr) (toValue, thenExpr)
  | elseExpr (toValue test thenExpr elseExpr) (h : test.evaluate fl props = .ok false) :
      Operand fl props (toValue, .cond test thenExpr elseExpr) (toValue, elseExpr)

/-- A division of the least integer by -1 is evaluated. -/
def Overflows (fl : FloatOps) (props : PropertyMap) (toValue : Bool) (e : CheckExpression) :
    Prop :=
  ∃ toValue' left right,
    Relation.ReflTransGen (Operand fl props) (toValue, e) (toValue', .arith left .div right) ∧
    left.evalValue fl props = .ok (.int (-2 ^ 63)) ∧ right.evalValue fl props = .ok (.int (-1))

theorem traps_iff {op : ArithOp} {x y : Except Text Value} :
    traps op x y = true ↔ op = .div ∧ x = .ok (.int (-2 ^ 63)) ∧ y = .ok (.int (-1)) := by
  unfold traps
  split
  · simp
  · rename_i h
    simp only [Bool.false_eq_true, false_iff]
    rintro ⟨rfl, rfl, rfl⟩
    exact h _ _ rfl rfl rfl

theorem toOption_eq_some {x : Except Text Bool} {b : Bool} :
    (x.toOption == some b) = true ↔ x = .ok b := by
  cases x <;> simp [Except.toOption]

theorem Overflows.operand {toValue toValue' : Bool} {e e' : CheckExpression}
    (h : Operand fl props (toValue, e) (toValue', e')) (ho : e'.Overflows fl props toValue') :
    e.Overflows fl props toValue := by
  obtain ⟨b, left, right, hreach, hoperands⟩ := ho
  exact ⟨b, left, right, hreach.head h, hoperands⟩

theorem overflows_of_aborts (e : CheckExpression) (toValue : Bool)
    (h : e.aborts fl props toValue = true) : e.Overflows fl props toValue := by
  induction e generalizing toValue with
  | property | literal => cases h
  | compare op left right hl hr =>
    simp only [aborts, Bool.and_eq_true, Bool.or_eq_true, Bool.not_eq_true'] at h
    obtain ⟨rfl, h | ⟨hok, h⟩⟩ := h
    · exact (hl true h).operand (.compareLeft op left right)
    · exact (hr true h).operand (.compareRight op left right hok)
  | and left right hl hr =>
    simp only [aborts, Bool.and_eq_true, Bool.or_eq_true, Bool.not_eq_true', toOption_eq_some] at h
    obtain ⟨rfl, h | ⟨hok, h⟩⟩ := h
    · exact (hl false h).operand (.andLeft left right)
    · exact (hr false h).operand (.andRight left right hok)
  | or left right hl hr =>
    simp only [aborts, Bool.and_eq_true, Bool.or_eq_true, Bool.not_eq_true', toOption_eq_some] at h
    obtain ⟨rfl, h | ⟨hok, h⟩⟩ := h
    · exact (hl false h).operand (.orLeft left right)
    · exact (hr false h).operand (.orRight left right hok)
  | not inner ih =>
    simp only [aborts, Bool.and_eq_true, Bool.not_eq_true'] at h
    obtain ⟨rfl, h⟩ := h
    exact (ih false h).operand (.not inner)
  | arith left op right hl hr =>
    simp only [aborts, Bool.and_eq_true, Bool.or_eq_true, traps_iff] at h
    rcases h with (h | ⟨hok, h⟩) | ⟨rfl, hoperands⟩
    · exact (hl true h).operand (.arithLeft toValue left op right)
    · exact (hr true h).operand (.arithRight toValue left op right hok)
    · exact ⟨toValue, left, right, .refl, hoperands⟩
  | cond test thenExpr elseExpr ht hthen helse =>
    simp only [aborts, Bool.and_eq_true, Bool.or_eq_true, toOption_eq_some] at h
    rcases h with (h | ⟨hok, h⟩) | ⟨hok, h⟩
    · exact (ht false h).operand (.test toValue test thenExpr elseExpr)
    · exact (hthen toValue h).operand (.thenExpr toValue test thenExpr elseExpr hok)
    · exact (helse toValue h).operand (.elseExpr toValue test thenExpr elseExpr hok)

theorem aborts_of_operand {x y : Bool × CheckExpression} (h : Operand fl props x y)
    (hy : y.2.aborts fl props y.1 = true) : x.2.aborts fl props x.1 = true := by
  cases h with
  | compareLeft | andLeft | orLeft | not | arithLeft | test => simp_all [aborts]
  | compareRight _ _ _ h | arithRight _ _ _ _ h => simp_all [aborts]
  | andRight _ _ h | orRight _ _ h | thenExpr _ _ _ _ h | elseExpr _ _ _ _ h =>
    simp_all [aborts, Except.toOption]

/-- Only a division of the least integer by -1 aborts. -/
theorem aborts_iff (e : CheckExpression) (toValue : Bool) :
    e.aborts fl props toValue = true ↔ e.Overflows fl props toValue := by
  refine ⟨overflows_of_aborts e toValue, ?_⟩
  rintro ⟨b, left, right, hreach, hoperands⟩
  have hlast : (CheckExpression.arith left .div right).aborts fl props b = true := by
    simp only [aborts, Bool.or_eq_true, traps_iff]
    exact .inr ⟨trivial, hoperands⟩
  -- From the division back to the expression.
  exact hreach.head_induction_on (motive := fun x _ => x.2.aborts fl props x.1 = true) hlast
    fun h _ ih => aborts_of_operand h ih

/-- A literal other than a given integer. -/
def isOtherThan (i : Int) : CheckExpression → Bool
  | .literal (.int j) => decide (j ≠ i)
  | .literal _ => true
  | _ => false

/-- Every division has a literal for an operand, and not the one it traps on. -/
def dividesSafely : CheckExpression → Bool
  | .property _ | .literal _ => true
  | .compare _ left right | .and left right | .or left right =>
      left.dividesSafely && right.dividesSafely
  | .not inner => inner.dividesSafely
  | .arith left op right => left.dividesSafely && right.dividesSafely &&
      (op ≠ .div || left.isOtherThan (-2 ^ 63) || right.isOtherThan (-1))
  | .cond test thenExpr elseExpr =>
      test.dividesSafely && thenExpr.dividesSafely && elseExpr.dividesSafely

theorem evalValue_ne_of_isOtherThan {i : Int} {e : CheckExpression} (h : e.isOtherThan i = true) :
    e.evalValue fl props ≠ .ok (.int i) := by
  intro heq
  cases e with
  | literal value =>
    simp only [evalValue, Except.ok.injEq] at heq
    simp [heq, isOtherThan] at h
  | _ => cases h

theorem traps_eq_false {op : ArithOp} {left right : CheckExpression}
    (h : (op ≠ .div || left.isOtherThan (-2 ^ 63) || right.isOtherThan (-1)) = true) :
    traps op (left.evalValue fl props) (right.evalValue fl props) = false := by
  unfold traps
  split
  · rename_i l r hl hr
    refine decide_eq_false ?_
    rintro ⟨rfl, rfl⟩
    simp only [ne_eq, not_true_eq_false, decide_false, Bool.false_or, Bool.or_eq_true] at h
    rcases h with h | h
    · exact evalValue_ne_of_isOtherThan h hl
    · exact evalValue_ne_of_isOtherThan h hr
  · rfl

theorem aborts_eq_false (e : CheckExpression) (h : e.dividesSafely = true) (toValue : Bool) :
    e.aborts fl props toValue = false := by
  induction e generalizing toValue with
  | property | literal => rfl
  | compare op left right hl hr | and left right hl hr | or left right hl hr =>
    rw [dividesSafely, Bool.and_eq_true] at h
    simp [aborts, hl h.1, hr h.2]
  | not inner ih => simp [aborts, ih h]
  | arith left op right hl hr =>
    rw [dividesSafely, Bool.and_eq_true, Bool.and_eq_true] at h
    simp [aborts, hl h.1.1, hr h.1.2, traps_eq_false h.2]
  | cond test thenExpr elseExpr ht hthen helse =>
    rw [dividesSafely, Bool.and_eq_true, Bool.and_eq_true] at h
    simp [aborts, ht h.1.1, hthen h.1.2, helse h.2]

end CheckExpression

/-! ## Schemas as they are registered -/

/-- A schema as it is registered, before anything is asserted about what it allows. -/
structure RegisteredSchema where
  rules : SchemaRules
  required : List Text
  allowed : Option (List Text)

/-- What is required is allowed, or the process aborts. -/
def RegisteredSchema.ensureAllowedIncludesRequired (s : RegisteredSchema) : Option SchemaRules :=
  if h : ∀ allowed ∈ s.allowed, ∀ name ∈ s.required, name ∈ allowed then
    some { s.rules with
      requiredProperties := s.required
      allowedProperties := s.allowed
      allowed_required := h }
  else none

/-- The check constraints are looked at for an object on its own, for an operation of a
    transaction, and at the end of the transaction. -/
inductive Entry where
  | remember
  | operation
  | deferred

section

variable (pr : Primitives) (written : Option (List Text)) (properties : PropertyMap)

def CheckConstraint.aborts (cc : CheckConstraint) : Bool :=
  cc.mode ≠ .disabled && cc.affected written && cc.predicate.aborts pr.floats properties false

/-- A constraint is looked at. An operation stops at the first one that is violated. -/
def SchemaRules.reaches (r : SchemaRules) (cc : CheckConstraint) (i : Nat) : Entry → Bool
  | .remember => true
  | .operation => cc.timing = .immediate &&
      ({ r with checkConstraints := r.checkConstraints.take i }.evaluate pr properties written).isOk
  | .deferred => cc.timing = .deferred

def RegisteredSchema.aborts (s : RegisteredSchema) (entry : Entry) (ko : KnowledgeObject) : Bool :=
  ko.validate.isOk && match s.ensureAllowedIncludesRequired with
    | none => true
    | some r => (r.validate ko).isOk && written ≠ some [] && r.checkConstraints.zipIdx.any
        fun (cc, i) => r.reaches pr written ko.properties cc i entry &&
          cc.aborts pr written ko.properties

end

/-- A constraint is looked at for an object, and divides the least integer by -1. -/
def CheckConstraint.Overflows (pr : Primitives) (written : Option (List Text))
    (properties : PropertyMap) (cc : CheckConstraint) : Prop :=
  cc.mode ≠ .disabled ∧ cc.affected written = true ∧
    cc.predicate.Overflows pr.floats properties false

/-- What a schema and an object must not do: the schema require what it does not allow, and a
    constraint that is reached overflow. Nothing is asked of an object that is not valid. -/
def RegisteredSchema.Safe (pr : Primitives) (written : Option (List Text)) (s : RegisteredSchema)
    (entry : Entry) (ko : KnowledgeObject) : Prop :=
  ko.validate.isOk = true → ∃ r, s.ensureAllowedIncludesRequired = some r ∧
    ((r.validate ko).isOk = true → written ≠ some [] → ∀ row ∈ r.checkConstraints.zipIdx,
      r.reaches pr written ko.properties row.1 row.2 entry = true →
        ¬row.1.Overflows pr written ko.properties)

theorem CheckConstraint.aborts_iff {pr : Primitives} {written : Option (List Text)}
    {properties : PropertyMap} {cc : CheckConstraint} :
    cc.aborts pr written properties = true ↔ cc.Overflows pr written properties := by
  simp only [aborts, Overflows, Bool.and_eq_true, decide_eq_true_eq, CheckExpression.aborts_iff,
    and_assoc]

theorem RegisteredSchema.aborts_eq_false_iff (pr : Primitives) (written : Option (List Text))
    (s : RegisteredSchema) (entry : Entry) (ko : KnowledgeObject) :
    s.aborts pr written entry ko = false ↔ s.Safe pr written entry ko := by
  rw [RegisteredSchema.aborts, RegisteredSchema.Safe]
  cases hvalid : ko.validate.isOk with
  | false => simp
  | true =>
    cases s.ensureAllowedIncludesRequired with
    | none => simp
    | some r =>
      simp only [Bool.true_and, forall_const, Option.some.injEq, exists_eq_left',
        ← CheckConstraint.aborts_iff]
      simp

namespace ConstraintCoverage

def ratio : CheckConstraint :=
  ⟨utf8 "ratio", .compare .gte (.arith (.property (utf8 "a")) .div (.property (utf8 "b")))
    (.literal (.int 1)), .immediate, .enforced⟩

def bobWith (properties : PropertyMap) : KnowledgeObject :=
  ⟨1, 1, 0, ⟨utf8 "person", none, 1, []⟩, properties, none, [], [], ⟨utf8 "ann", [], none⟩,
    ⟨.active, .human⟩, ∅⟩

end ConstraintCoverage

/-! ## What an expression looks at -/

/-- An expression is evaluated alike on properties that agree on the names it refers to, so a
    constraint that a write does not affect finds what it found before. -/
theorem check_local (fl : FloatOps) (e : CheckExpression) (props props' : PropertyMap) :
    ((∀ name ∈ e.referencedProperties, props[name]? = props'[name]?) →
      e.evaluate fl props = e.evaluate fl props') ∧
    ∀ (cc : CheckConstraint) (written : List Text), cc.predicate = e →
      cc.affected (some written) = false → (∀ name ∉ written, props[name]? = props'[name]?) →
      e.evaluate fl props = e.evaluate fl props' := by
  refine ⟨e.evaluate_eq_of_agree, ?_⟩
  rintro cc written rfl haffected h
  have hout : ∀ name ∈ cc.predicate.referencedProperties, name ∉ written := by
    simpa [CheckConstraint.affected, affectedBy] using haffected
  exact cc.predicate.evaluate_eq_of_agree fun name hname => h name (hout name hname)

/-- A check of the age, on properties with another name. -/
theorem ConstraintCoverage.age_alone :
    let e := CheckExpression.compare .gte (.property (utf8 "age")) (.literal (.int 18))
    let other := (aged 12).insert (utf8 "name") (.text (utf8 "eve"))
    sameField (aged 12)[utf8 "name"]? other[utf8 "name"]? = false ∧
      e.evaluate primitives.floats (aged 12) = e.evaluate primitives.floats other := by
  exact ⟨by decide +kernel, (check_local primitives.floats _ _ _).1 (by decide +kernel)⟩

end Aikoql.Kernel
