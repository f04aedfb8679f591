import Aikoql.Kernel.Object

/-!
# Equality of Values

When the kernel takes two values for equal.

Values are compared as the source's language derives it, so floating point numbers are
compared as numbers and not as bit patterns: the two zeros are equal, and a value that
is not a number is not even equal to itself. What is left is a relation that is
symmetric and transitive, and reflexive only on values without such numbers in them.

## Theorems

* `Value.same_symm`, `Value.same_trans`: The laws that hold.
-/

namespace Aikoql.Kernel

/-! ## Numbers -/

/-- The bit pattern of a floating point number without its sign. -/
def floatMagnitude (bits : Nat) : Nat :=
  bits % 2 ^ 63

/-- The pattern stands for no number. -/
def floatIsNan (bits : Nat) : Bool :=
  decide (0x7FF0000000000000 < floatMagnitude bits)

/-- Equality of floating point numbers, given as bit patterns. -/
def floatSame (a b : Nat) : Bool :=
  !floatIsNan a && !floatIsNan b &&
    (decide (a = b) || decide (floatMagnitude a = 0) && decide (floatMagnitude b = 0))

theorem floatSame_symm (a b : Nat) : floatSame a b = floatSame b a := by
  unfold floatSame
  rw [Bool.and_comm (!floatIsNan a), decide_eq_decide.mpr (eq_comm (a := a)),
    Bool.and_comm (decide (floatMagnitude a = 0))]

theorem floatSame_trans {a b c : Nat} (hab : floatSame a b = true) (hbc : floatSame b c = true) :
    floatSame a c = true := by
  simp only [floatSame, Bool.and_eq_true, Bool.or_eq_true, Bool.not_eq_true', decide_eq_true_eq]
    at hab hbc ⊢
  obtain ⟨⟨hna, -⟩, hab⟩ := hab
  obtain ⟨⟨-, hnc⟩, hbc⟩ := hbc
  refine ⟨⟨hna, hnc⟩, ?_⟩
  rcases hab with rfl | ⟨ha, hb⟩
  · exact hbc
  · rcases hbc with rfl | ⟨-, hc⟩
    · exact .inr ⟨ha, hb⟩
    · exact .inr ⟨ha, hc⟩

/-! ## Values -/

mutual

def Value.same : Value → Value → Bool
  | .null, .null => true
  | .bool a, .bool b => a == b
  | .int a, .int b => decide (a = b)
  | .float a, .float b => floatSame a b
  | .text a, .text b => decide (a = b)
  | .bytes a, .bytes b => decide (a = b)
  | .list as, .list bs => sameValues as bs
  | .map as, .map bs => sameEntries as bs
  | _, _ => false

def sameValues : List Value → List Value → Bool
  | [], [] => true
  | a :: as, b :: bs => a.same b && sameValues as bs
  | _, _ => false

def sameEntries : List (Text × Value) → List (Text × Value) → Bool
  | [], [] => true
  | (k, a) :: as, (l, b) :: bs => decide (k = l) && a.same b && sameEntries as bs
  | _, _ => false

end

mutual

theorem Value.same_congr : ∀ a b : Value, a.same b = true →
    a.same a = true ∧ ∀ c : Value, a.same c = b.same c
  | .null, b, h => by
      obtain rfl : b = .null := by cases b <;> simp_all [Value.same]
      exact ⟨h, fun _ => rfl⟩
  | .bool x, b, h => by
      obtain rfl : b = .bool x := by cases b <;> simp_all [Value.same]
      exact ⟨h, fun _ => rfl⟩
  | .int x, b, h => by
      obtain rfl : b = .int x := by cases b <;> simp_all [Value.same]
      exact ⟨h, fun _ => rfl⟩
  | .float x, b, h => by
      cases b <;> simp only [Value.same, Bool.false_eq_true] at h
      case float y =>
        have hback : floatSame y x = true := floatSame_symm x y ▸ h
        refine ⟨floatSame_trans h hback, fun c => ?_⟩
        cases c <;> simp only [Value.same]
        exact Bool.eq_iff_iff.mpr ⟨floatSame_trans hback, floatSame_trans h⟩
  | .text x, b, h => by
      obtain rfl : b = .text x := by cases b <;> simp_all [Value.same]
      exact ⟨h, fun _ => rfl⟩
  | .bytes x, b, h => by
      obtain rfl : b = .bytes x := by cases b <;> simp_all [Value.same]
      exact ⟨h, fun _ => rfl⟩
  | .list as, b, h => by
      cases b <;> simp only [Value.same, Bool.false_eq_true] at h
      refine ⟨(sameValues_congr as _ h).1, fun c => ?_⟩
      cases c <;> simp only [Value.same, (sameValues_congr as _ h).2]
  | .map as, b, h => by
      cases b <;> simp only [Value.same, Bool.false_eq_true] at h
      refine ⟨(sameEntries_congr as _ h).1, fun c => ?_⟩
      cases c <;> simp only [Value.same, (sameEntries_congr as _ h).2]

theorem sameValues_congr : ∀ as bs : List Value, sameValues as bs = true →
    sameValues as as = true ∧ ∀ cs : List Value, sameValues as cs = sameValues bs cs
  | [], [], h => ⟨h, fun _ => rfl⟩
  | [], _ :: _, h => by simp [sameValues] at h
  | _ :: _, [], h => by simp [sameValues] at h
  | a :: as, b :: bs, h => by
      simp only [sameValues, Bool.and_eq_true] at h ⊢
      obtain ⟨hself, hall⟩ := Value.same_congr a b h.1
      obtain ⟨hselves, halls⟩ := sameValues_congr as bs h.2
      refine ⟨⟨hself, hselves⟩, fun cs => ?_⟩
      cases cs <;> simp only [sameValues, hall, halls]

theorem sameEntries_congr : ∀ as bs : List (Text × Value), sameEntries as bs = true →
    sameEntries as as = true ∧ ∀ cs, sameEntries as cs = sameEntries bs cs
  | [], [], h => ⟨h, fun _ => rfl⟩
  | [], _ :: _, h => by simp [sameEntries] at h
  | _ :: _, [], h => by simp [sameEntries] at h
  | (k, a) :: as, (l, b) :: bs, h => by
      simp only [sameEntries, Bool.and_eq_true, decide_eq_true_eq] at h ⊢
      obtain ⟨⟨rfl, ha⟩, has⟩ := h
      obtain ⟨hself, hall⟩ := Value.same_congr a b ha
      obtain ⟨hselves, halls⟩ := sameEntries_congr as bs has
      refine ⟨⟨⟨trivial, hself⟩, hselves⟩, fun cs => ?_⟩
      cases cs <;> simp only [sameEntries, hall, halls]

end

theorem Value.same_symm (a b : Value) (h : a.same b = true) : b.same a = true := by
  obtain ⟨hself, hall⟩ := Value.same_congr a b h
  rw [← hall a, hself]

theorem Value.same_trans (a b c : Value) (hab : a.same b = true) (hbc : b.same c = true) :
    a.same c = true := by
  rw [(Value.same_congr a b hab).2, hbc]

/-! ## Fields -/

def sameField : Option Value → Option Value → Bool
  | none, none => true
  | some a, some b => a.same b
  | _, _ => false

def writeSet (head : Option KnowledgeObject) (properties : PropertyMap) : List Text :=
  match head with
  | none => properties.keys
  | some h =>
    (properties.keys.filter fun k => !sameField h.properties[k]? properties[k]?) ++
      h.properties.keys.filter fun k => !properties.contains k

theorem sameField_of_notMem_writeSet {h : KnowledgeObject} {properties : PropertyMap} {k : Text}
    (hk : k ∉ writeSet (some h) properties) (hmem : k ∈ properties) :
    sameField h.properties[k]? properties[k]? = true := by
  simp only [writeSet, List.mem_append, List.mem_filter, Std.ExtTreeMap.mem_keys, not_or, not_and]
    at hk
  simpa using hk.1 hmem

/-! ## Identity -/

mutual

/-- Whether two values are one and the same, bit patterns included. -/
def Value.eqb : Value → Value → Bool
  | .null, .null => true
  | .bool a, .bool b => decide (a = b)
  | .int a, .int b => decide (a = b)
  | .float a, .float b => decide (a = b)
  | .text a, .text b => decide (a = b)
  | .bytes a, .bytes b => decide (a = b)
  | .list as, .list bs => eqbValues as bs
  | .map as, .map bs => eqbEntries as bs
  | _, _ => false

def eqbValues : List Value → List Value → Bool
  | [], [] => true
  | a :: as, b :: bs => a.eqb b && eqbValues as bs
  | _, _ => false

def eqbEntries : List (Text × Value) → List (Text × Value) → Bool
  | [], [] => true
  | (k, a) :: as, (l, b) :: bs => decide (k = l) && a.eqb b && eqbEntries as bs
  | _, _ => false

end

mutual

theorem Value.eqb_iff : ∀ a b : Value, a.eqb b = true ↔ a = b
  | .null, b => by cases b <;> simp [Value.eqb]
  | .bool _, b => by cases b <;> simp [Value.eqb]
  | .int _, b => by cases b <;> simp [Value.eqb]
  | .float _, b => by cases b <;> simp [Value.eqb]
  | .text _, b => by cases b <;> simp [Value.eqb]
  | .bytes _, b => by cases b <;> simp [Value.eqb]
  | .list as, b => by
      cases b with
      | list bs => simpa [Value.eqb] using eqbValues_iff as bs
      | _ => simp [Value.eqb]
  | .map as, b => by
      cases b with
      | map bs => simpa [Value.eqb] using eqbEntries_iff as bs
      | _ => simp [Value.eqb]

theorem eqbValues_iff : ∀ as bs : List Value, eqbValues as bs = true ↔ as = bs
  | [], bs => by cases bs <;> simp [eqbValues]
  | a :: as, [] => by simp [eqbValues]
  | a :: as, b :: bs => by
      simp only [eqbValues, Bool.and_eq_true, List.cons.injEq]
      exact and_congr (Value.eqb_iff a b) (eqbValues_iff as bs)

theorem eqbEntries_iff : ∀ as bs : List (Text × Value), eqbEntries as bs = true ↔ as = bs
  | [], bs => by cases bs <;> simp [eqbEntries]
  | a :: as, [] => by simp [eqbEntries]
  | (k, a) :: as, (l, b) :: bs => by
      simp only [eqbEntries, Bool.and_eq_true, decide_eq_true_eq, List.cons.injEq, Prod.mk.injEq]
      exact and_congr (and_congr_right' (Value.eqb_iff a b)) (eqbEntries_iff as bs)

end

instance : DecidableEq Value :=
  fun a b => decidable_of_iff _ (Value.eqb_iff a b)

/-! ## Numbers and ids in messages -/

def decimal (n : Nat) : Text :=
  utf8 (toString n)

def hexDigit (n : Nat) : Byte :=
  Fin.ofNat 256 (if n < 10 then 48 + n else 87 + n)

/-- An id in base sixteen. -/
def Koid.toHex (koid : Koid) : Text :=
  koid.bytes.flatMap fun b => [hexDigit (b.val / 16), hexDigit (b.val % 16)]

def joinText (separator : Text) (parts : List Text) : Text :=
  (parts.intersperse separator).flatten

end Aikoql.Kernel
