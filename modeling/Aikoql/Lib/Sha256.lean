import Aikoql.Lib.Bytes

/-!
# SHA-256

The hash function of FIPS 180-4 as a computable function on byte strings.

Words are natural numbers below `2 ^ 32`, and every sum is reduced where the
standard adds modulo the word size. The message schedule is kept newest word
first, so one step reads it at fixed positions. Everything recurses on a
counter or a list, which keeps closed digests within reach of the kernel.
-/

namespace Aikoql.Fips180

/-- The round constants: fractional parts of cube roots of primes. -/
def roundConstants : List Nat :=
  [0x428a2f98, 0x71374491, 0xb5c0fbcf, 0xe9b5dba5, 0x3956c25b, 0x59f111f1, 0x923f82a4, 0xab1c5ed5,
   0xd807aa98, 0x12835b01, 0x243185be, 0x550c7dc3, 0x72be5d74, 0x80deb1fe, 0x9bdc06a7, 0xc19bf174,
   0xe49b69c1, 0xefbe4786, 0x0fc19dc6, 0x240ca1cc, 0x2de92c6f, 0x4a7484aa, 0x5cb0a9dc, 0x76f988da,
   0x983e5152, 0xa831c66d, 0xb00327c8, 0xbf597fc7, 0xc6e00bf3, 0xd5a79147, 0x06ca6351, 0x14292967,
   0x27b70a85, 0x2e1b2138, 0x4d2c6dfc, 0x53380d13, 0x650a7354, 0x766a0abb, 0x81c2c92e, 0x92722c85,
   0xa2bfe8a1, 0xa81a664b, 0xc24b8b70, 0xc76c51a3, 0xd192e819, 0xd6990624, 0xf40e3585, 0x106aa070,
   0x19a4c116, 0x1e376c08, 0x2748774c, 0x34b0bcb5, 0x391c0cb3, 0x4ed8aa4a, 0x5b9cca4f, 0x682e6ff3,
   0x748f82ee, 0x78a5636f, 0x84c87814, 0x8cc70208, 0x90befffa, 0xa4506ceb, 0xbef9a3f7, 0xc67178f2]

/-- The initial hash value: fractional parts of square roots of primes. -/
def initialHash : List Nat :=
  [0x6a09e667, 0xbb67ae85, 0x3c6ef372, 0xa54ff53a, 0x510e527f, 0x9b05688c, 0x1f83d9ab, 0x5be0cd19]

/-- Rotate a word right. -/
def rotr (k x : Nat) : Nat :=
  (x >>> k ||| x <<< (32 - k)) % 2 ^ 32

/-- Prepend the next word of the message schedule. -/
def scheduleStep (ws : List Nat) : List Nat :=
  match ws with
  | _ :: w2 :: _ :: _ :: _ :: _ :: w7 :: _ :: _ :: _ :: _ :: _ :: _ :: _ :: w15 :: w16 :: _ =>
    let s0 := rotr 7 w15 ^^^ rotr 18 w15 ^^^ w15 >>> 3
    let s1 := rotr 17 w2 ^^^ rotr 19 w2 ^^^ w2 >>> 10
    ((w16 + s0 + w7 + s1) % 2 ^ 32) :: ws
  | _ => ws

/-- The message schedule after `n` more words, oldest first. -/
def schedule : Nat → List Nat → List Nat
  | 0, ws => ws.reverse
  | n + 1, ws => schedule n (scheduleStep ws)

/-- One round over the eight working variables. -/
def round (vars : List Nat) (kw : Nat × Nat) : List Nat :=
  match vars with
  | [a, b, c, d, e, f, g, h] =>
    let s1 := rotr 6 e ^^^ rotr 11 e ^^^ rotr 25 e
    let ch := (e &&& f) ^^^ ((2 ^ 32 - 1 - e) &&& g)
    let t1 := h + s1 + ch + kw.1 + kw.2
    let s0 := rotr 2 a ^^^ rotr 13 a ^^^ rotr 22 a
    let maj := (a &&& b) ^^^ (a &&& c) ^^^ (b &&& c)
    [(t1 + s0 + maj) % 2 ^ 32, a, b, c, (d + t1) % 2 ^ 32, e, f, g]
  | _ => vars

/-- The first `n` big-endian words of a block. -/
def words : Nat → Bytes → List Nat
  | 0, _ => []
  | n + 1, bs => beNat (bs.take 4) :: words n (bs.drop 4)

/-- Compress one block of 64 bytes into the hash value. -/
def compress (hash : List Nat) (block : Bytes) : List Nat :=
  let ws := schedule 48 (words 16 block).reverse
  ((roundConstants.zip ws).foldl round hash).zipWith (fun x y => (x + y) % 2 ^ 32) hash

/-- Pad to whole blocks: one bit, zeros, and the length in bits. -/
def pad (bytes : Bytes) : Bytes :=
  bytes ++ 128 ::
    (List.replicate ((119 - bytes.length % 64) % 64) 0 ++ beBytes 8 (8 * bytes.length))

/-- Compress `n` blocks in order. -/
def blocks : Nat → Bytes → List Nat → List Nat
  | 0, _, hash => hash
  | n + 1, bs, hash => blocks n (bs.drop 64) (compress hash (bs.take 64))

/-- The digest of a byte string. -/
def digest (bytes : Bytes) : Bytes :=
  let padded := pad bytes
  (blocks (padded.length / 64) padded initialHash).flatMap (beBytes 4)

theorem length_round (vars : List Nat) (kw : Nat × Nat) (h : vars.length = 8) :
    (round vars kw).length = 8 := by
  unfold round
  split <;> simp_all

theorem length_compress (hash : List Nat) (block : Bytes) (h : hash.length = 8) :
    (compress hash block).length = 8 := by
  have hrounds : ∀ kws : List (Nat × Nat), (kws.foldl round hash).length = 8 := by
    intro kws
    induction kws using List.reverseRecOn with
    | nil => exact h
    | append_singleton kws kw ih =>
      rw [List.foldl_append]
      exact length_round _ kw ih
  rw [compress, List.length_zipWith, hrounds, h]
  rfl

theorem length_blocks (n : Nat) (bs : Bytes) (hash : List Nat) (h : hash.length = 8) :
    (blocks n bs hash).length = 8 := by
  induction n generalizing bs hash with
  | zero => exact h
  | succ n ih => exact ih _ _ (length_compress hash _ h)

/-- A digest is eight words of four bytes. -/
theorem length_digest (bytes : Bytes) : (digest bytes).length = 32 := by
  simp [digest, List.length_flatMap, length_blocks _ _ initialHash rfl]

example : (digest [97, 98, 99]).take 4 = [186, 120, 22, 191] := by decide +kernel

end Aikoql.Fips180
