import Mathlib

/-!
# Byte Strings

Fixed-width encodings of numbers as byte strings, and the order on byte
strings.

A byte is a number below 256, so a byte string is a list over a linear order
and inherits the lexicographic one. `leBytes` writes the low bytes of a number
least significant first, and `leNat` reads them back. The width is an argument
of the writer only: a reader is told it by the length of what it was handed.
`beBytes` and `beNat` are the same pair with the most significant byte first,
which is the encoding whose lexicographic order is the numeric one.

Sorted maps compare their keys with `compare` while sorted lists are stated
with `<`. `compare_eq_lt_iff` says that on byte strings these agree.
-/

namespace Aikoql

/-- One byte. -/
abbrev Byte := Fin 256

/-- A byte string. -/
abbrev Bytes := List Byte

-- The proofs inside definitions over these types are named once, here and at the
-- other numeric types, so that every module mentions the same ones.
instance Byte.neZero : NeZero 256 := inferInstance

instance Bytes.transOrd : Std.TransOrd Bytes := inferInstance

instance Bytes.lawfulBEq : LawfulBEq Bytes := inferInstance

/-- The low `w` bytes of a number, least significant first. -/
def leBytes : Nat → Nat → Bytes
  | 0, _ => []
  | w + 1, n => Fin.ofNat 256 n :: leBytes w (n / 256)

/-- The number a little-endian byte string spells. -/
def leNat : Bytes → Nat
  | [] => 0
  | b :: bs => b.val + 256 * leNat bs

/-- The low `w` bytes of a number, most significant first. -/
def beBytes (w n : Nat) : Bytes :=
  (leBytes w n).reverse

/-- The number a big-endian byte string spells. -/
def beNat (bs : Bytes) : Nat :=
  leNat bs.reverse

@[simp] theorem length_leBytes (w n : Nat) : (leBytes w n).length = w := by
  induction w generalizing n with
  | zero => rfl
  | succ w ih => simp [leBytes, ih]

@[simp] theorem length_beBytes (w n : Nat) : (beBytes w n).length = w := by
  simp [beBytes]

/-- Reading back what was written truncates the number to the width. -/
theorem leNat_leBytes (w n : Nat) : leNat (leBytes w n) = n % 256 ^ w := by
  induction w generalizing n with
  | zero => simp [leBytes, leNat, Nat.mod_one]
  | succ w ih =>
    rw [leBytes, leNat, ih, Nat.pow_succ', Nat.mod_mul]
    rfl

theorem leNat_leBytes_of_lt (w n : Nat) (h : n < 256 ^ w) : leNat (leBytes w n) = n := by
  rw [leNat_leBytes, Nat.mod_eq_of_lt h]

theorem beNat_beBytes_of_lt (w n : Nat) (h : n < 256 ^ w) : beNat (beBytes w n) = n := by
  rw [beNat, beBytes, List.reverse_reverse, leNat_leBytes_of_lt w n h]

/-- What a reader returns fits the width it read. -/
theorem leNat_lt (bs : Bytes) : leNat bs < 256 ^ bs.length := by
  induction bs with
  | nil => simp [leNat]
  | cons b bs ih =>
    have hb := b.isLt
    rw [leNat, List.length_cons, Nat.pow_succ']
    omega

/-- Writing back a number that was read gives the bytes it was read from. -/
theorem leBytes_leNat (bs : Bytes) : leBytes bs.length (leNat bs) = bs := by
  induction bs with
  | nil => rfl
  | cons b bs ih =>
    have hb := b.isLt
    have hdiv : (b.val + 256 * leNat bs) / 256 = leNat bs := by omega
    have hhead : Fin.ofNat 256 (b.val + 256 * leNat bs) = b := by
      apply Fin.ext
      simp only [Fin.val_ofNat]
      omega
    rw [List.length_cons, leNat, leBytes, hdiv, ih, hhead]

theorem beBytes_beNat (bs : Bytes) : beBytes bs.length (beNat bs) = bs := by
  have h := leBytes_leNat bs.reverse
  rw [List.length_reverse] at h
  rw [beBytes, beNat, h, List.reverse_reverse]

/-! ## The order on byte strings -/

/-- On byte strings the three-way comparison and the order agree. -/
theorem compare_eq_lt_iff (a b : Bytes) : compare a b = .lt ↔ a < b := by
  induction a generalizing b with
  | nil => cases b <;> simp [compare, List.compareLex]
  | cons x a ih =>
    cases b with
    | nil => simp [compare, List.compareLex]
    | cons y b =>
      rw [List.compare_eq_compareLex, List.compareLex_cons_cons, ← List.compare_eq_compareLex,
        List.cons_lt_cons_iff, Ordering.then_eq_lt, ih b, compare_lt_iff_lt, compare_eq_iff_eq]

end Aikoql
