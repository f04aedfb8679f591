import Aikoql.Lib.Sha256

/-!
# Format Contracts

What every on-disk format of the storage engine shares: the error
classification, the eight-byte checksum, the publication chain, the manifest
and the cursor the decoders read with.

The hash is not part of the engine, so it is a parameter. All the engine relies
on is that a digest is 32 bytes long and that equal inputs have equal digests;
`Sha256` carries the first and the second is what being a function means.
Nothing below assumes that different inputs have different digests.

A cursor holds the bytes not read yet and the offset it stands at. Decoders are
written in the `Parse` monad, which threads the cursor and stops at the first
error, so their text follows the source's `?` chains. Each primitive comes with
the lemma that says what it does on an encoding followed by anything else.
-/

namespace Aikoql.Storage

variable {c c' : Cursor} {α β : Type} (n : U64)

/-- Why a storage call failed. The split is by what may be trusted afterwards,
    not by where the failure happened. -/
inductive FormatError where
  | corrupt (msg : String)
  | unsupported (msg : String)
  | io (msg : String)
  | invalid (msg : String)
  | locked (msg : String)
  | stale (msg : String)
  deriving DecidableEq, Repr

/-- A 64-bit machine word. -/
abbrev U64 := Fin 18446744073709551616

instance U64.neZero : NeZero 18446744073709551616 := inferInstance

instance U64.transOrd : Std.TransOrd U64 := inferInstance

/-- The eight little-endian bytes of a word. -/
def u64Bytes (n : U64) : Bytes :=
  leBytes 8 n.val

/-- The word eight little-endian bytes spell. -/
def u64OfBytes (bytes : Bytes) : U64 :=
  Fin.ofNat _ (leNat bytes)

@[simp] theorem length_u64Bytes : (u64Bytes n).length = 8 :=
  length_leBytes 8 n.val

@[simp] theorem u64OfBytes_u64Bytes : u64OfBytes (u64Bytes n) = n := by
  have h : leNat (u64Bytes n) = n.val :=
    leNat_leBytes_of_lt 8 n.val (lt_of_lt_of_le n.isLt (by norm_num))
  rw [u64OfBytes, h]
  exact Fin.ofNat_val_eq_self n

theorem u64Bytes_u64OfBytes (bytes : Bytes) (h : bytes.length = 8) :
    u64Bytes (u64OfBytes bytes) = bytes := by
  have hlt := leNat_lt bytes
  rw [h] at hlt
  have hval : (u64OfBytes bytes).val = leNat bytes := by
    rw [u64OfBytes, Fin.val_ofNat, Nat.mod_eq_of_lt (lt_of_lt_of_le hlt (by norm_num))]
  rw [u64Bytes, hval, ← h, leBytes_leNat]

/-- The hash the engine is built over: any function with 32-byte digests. -/
structure Sha256 where
  digest : Bytes → Bytes
  length_digest : ∀ bytes, (digest bytes).length = 32

def Sha256.fips180 : Sha256 :=
  ⟨Fips180.digest, Fips180.length_digest⟩

/-- The first eight bytes of the hash, the engine's integrity fingerprint. -/
def checksum8 (H : Sha256) (bytes : Bytes) : Bytes :=
  (H.digest bytes).take 8

@[simp] theorem length_checksum8 (H : Sha256) (bytes : Bytes) : (checksum8 H bytes).length = 8 := by
  simp [checksum8, H.length_digest]

/-- Fold one published generation into a family's publication chain. -/
def chainExtend (H : Sha256) (prev generation : Nat) : Nat :=
  leNat (checksum8 H (leBytes 8 prev ++ leBytes 8 generation))

/-! ## The manifest -/

structure SegmentRecord where
  segmentId : Nat
  level : Nat
  keyMin : Bytes
  keyMax : Bytes
  seqLo : Nat
  seqHi : Nat
  recordCount : Nat
  deriving DecidableEq, Repr

/-- How far a directory family has been published: the floor is the newest
    generation with a log of the family, zero if there is none, and the chain
    folds all of them. -/
structure FamilyMark where
  floor : Nat
  chain : Nat
  deriving DecidableEq, Repr

def FamilyMark.publish (H : Sha256) (mark : FamilyMark) (generation : Nat) : FamilyMark :=
  ⟨generation, chainExtend H mark.chain generation⟩

/-- One generation of the database: its segments, and how far each directory
    family had been published when it was written. -/
structure Manifest where
  generation : Nat
  segments : List SegmentRecord
  identity : FamilyMark
  replica : FamilyMark
  placement : FamilyMark
  deriving DecidableEq, Repr

def verifyPair (current : Nat) (manifest : Manifest) : Except FormatError Unit :=
  let generation := manifest.generation
  if current ≠ generation then
    .error (.corrupt
      s!"CURRENT points at generation {current} but manifest is generation {generation}")
  else
    .ok ()

/-! ## The decode cursor -/

/-- The bytes a decoder has not read yet, and the offset it stands at. -/
structure Cursor where
  rest : Bytes
  pos : Nat
  deriving DecidableEq

/-- A decoder: it moves the cursor or stops with an error. -/
abbrev Parse := StateT Cursor (Except FormatError)

namespace Parse

theorem bind_ok {x : Parse α} {f : α → Parse β} {a : α} (h : x c = .ok (a, c')) :
    (x >>= f) c = f a c' := by
  simp only [bind, StateT.bind, h, Except.bind]

theorem pure_apply (a : α) (c : Cursor) : (pure a : Parse α) c = .ok (a, c) :=
  rfl

theorem bind_error {x : Parse α} {f : α → Parse β} {e : FormatError} (h : x c = .error e) :
    (x >>= f) c = .error e := by
  simp only [bind, StateT.bind, h, Except.bind]

theorem bind_eq_ok {x : Parse α} {f : α → Parse β} {b : β} :
    (x >>= f) c = .ok (b, c') ↔ ∃ a d, x c = .ok (a, d) ∧ f a d = .ok (b, c') := by
  cases h : x c with
  | error e => simp [bind_error h]
  | ok r =>
    obtain ⟨a, d⟩ := r
    simp [bind_ok h]

theorem pure_eq_ok {a b : α} {d : Cursor} : (pure a : Parse α) c = .ok (b, d) ↔ a = b ∧ c = d := by
  simp [pure, StateT.pure, Except.pure]

end Parse

def Cursor.new (bytes : Bytes) : Cursor :=
  ⟨bytes, 0⟩

def take (n : Nat) : Parse Bytes := fun cur =>
  let pos := cur.pos
  let remaining := cur.rest.length
  if remaining < n then
    .error (.corrupt s!"truncated: need {n} bytes at offset {pos}, {remaining} remain")
  else
    .ok (cur.rest.take n, ⟨cur.rest.drop n, pos + n⟩)

def takeU8 : Parse Byte := do
  let b ← take 1
  return b.headD 0

/-- Read a 16-bit little-endian number. -/
def takeU16 : Parse Nat := do
  let b ← take 2
  return leNat b

/-- Read a 32-bit little-endian number. -/
def takeU32 : Parse Nat := do
  let b ← take 4
  return leNat b

/-- Read a 64-bit little-endian word. -/
def takeU64 : Parse U64 := do
  let b ← take 8
  return u64OfBytes b

/-- Read a byte string behind its 32-bit length. -/
def takeVec : Parse Bytes := do
  let len ← takeU32
  take len

theorem take_append (a rest : Bytes) (pos n : Nat) (h : a.length = n) :
    take n ⟨a ++ rest, pos⟩ = .ok (a, ⟨rest, pos + n⟩) := by
  subst h
  simp [take]

theorem takeU8_cons (b : Byte) (rest : Bytes) (pos : Nat) :
    takeU8 ⟨b :: rest, pos⟩ = .ok (b, ⟨rest, pos + 1⟩) := by
  have h : take 1 ⟨b :: rest, pos⟩ = .ok ([b], ⟨rest, pos + 1⟩) :=
    take_append [b] rest pos 1 rfl
  rw [takeU8, Parse.bind_ok h]
  rfl

theorem takeU16_append (n : Nat) (rest : Bytes) (pos : Nat) (h : n < 256 ^ 2) :
    takeU16 ⟨leBytes 2 n ++ rest, pos⟩ = .ok (n, ⟨rest, pos + 2⟩) := by
  rw [takeU16, Parse.bind_ok (take_append _ rest pos 2 (length_leBytes 2 n)),
    leNat_leBytes_of_lt 2 n h]
  rfl

theorem takeU32_append (n : Nat) (rest : Bytes) (pos : Nat) (h : n < 256 ^ 4) :
    takeU32 ⟨leBytes 4 n ++ rest, pos⟩ = .ok (n, ⟨rest, pos + 4⟩) := by
  rw [takeU32, Parse.bind_ok (take_append _ rest pos 4 (length_leBytes 4 n)),
    leNat_leBytes_of_lt 4 n h]
  rfl

theorem takeU64_append (rest : Bytes) (pos : Nat) :
    takeU64 ⟨u64Bytes n ++ rest, pos⟩ = .ok (n, ⟨rest, pos + 8⟩) := by
  rw [takeU64, Parse.bind_ok (take_append _ rest pos 8 (length_u64Bytes n)), u64OfBytes_u64Bytes]
  rfl

theorem takeVec_append (a rest : Bytes) (pos : Nat) (h : a.length < 256 ^ 4) :
    takeVec ⟨leBytes 4 a.length ++ (a ++ rest), pos⟩ = .ok (a, ⟨rest, pos + 4 + a.length⟩) := by
  rw [takeVec, Parse.bind_ok (takeU32_append a.length (a ++ rest) pos h)]
  exact take_append a rest (pos + 4) a.length rfl

/-! ## What a successful read says about the bytes -/

theorem take_ok {n : Nat} {a : Bytes} (h : take n c = .ok (a, c')) :
    c.rest = a ++ c'.rest ∧ a.length = n := by
  simp only [take] at h
  split at h
  · cases h
  · cases h
    refine ⟨(List.take_append_drop n c.rest).symm, ?_⟩
    rw [List.length_take]
    omega

theorem take_map_ok {α : Type} {f : Bytes → α} {n : Nat} {x : α}
    (h : (take n >>= fun a => pure (f a)) c = .ok (x, c')) :
    ∃ a, x = f a ∧ c.rest = a ++ c'.rest ∧ a.length = n := by
  obtain ⟨a, d, ha, hd⟩ := Parse.bind_eq_ok.mp h
  obtain ⟨rfl, rfl⟩ := Parse.pure_eq_ok.mp hd
  exact ⟨a, rfl, take_ok ha⟩

theorem takeU8_ok {b : Byte} (h : takeU8 c = .ok (b, c')) : c.rest = b :: c'.rest := by
  obtain ⟨a, rfl, hrest, hlen⟩ := take_map_ok h
  rcases List.length_eq_one_iff.mp hlen with ⟨x, rfl⟩
  exact hrest

theorem takeU16_ok {n : Nat} (h : takeU16 c = .ok (n, c')) : c.rest = leBytes 2 n ++ c'.rest := by
  obtain ⟨a, rfl, hrest, hlen⟩ := take_map_ok h
  rw [hrest, ← hlen, leBytes_leNat]

theorem takeU32_ok {n : Nat} (h : takeU32 c = .ok (n, c')) :
    c.rest = leBytes 4 n ++ c'.rest ∧ n < 2 ^ 32 := by
  obtain ⟨a, rfl, hrest, hlen⟩ := take_map_ok h
  have hlt := leNat_lt a
  rw [hlen] at hlt
  exact ⟨by rw [hrest, ← hlen, leBytes_leNat], by omega⟩

theorem takeU64_ok {n : U64} (h : takeU64 c = .ok (n, c')) : c.rest = u64Bytes n ++ c'.rest := by
  obtain ⟨a, rfl, hrest, hlen⟩ := take_map_ok h
  rw [hrest, u64Bytes_u64OfBytes a hlen]

theorem takeVec_ok {a : Bytes} (h : takeVec c = .ok (a, c')) :
    c.rest = leBytes 4 a.length ++ (a ++ c'.rest) := by
  rcases Parse.bind_eq_ok.mp h with ⟨n, d, hn, ha⟩
  rcases takeU32_ok hn with ⟨hrest, _⟩
  rcases take_ok ha with ⟨hd, rfl⟩
  rw [hrest, hd]

end Aikoql.Storage
