import Aikoql.Security.Envelope
import Aikoql.Kernel.Codec

/-!
# Encrypted Fields

How the fields of an object are encrypted.

A policy names fields of a type. The value of such a field becomes bytes that start with its
type, and these are encrypted under a key that is derived from the key of a tenant, with the
name of the field as context. What is stored is the ciphertext behind a byte that says which
algorithm made it. A value that is bytes and starts with the byte of the first algorithm
is taken to be encrypted already, and nothing else is.

Lists and maps are preceded by their number of items in two bytes, and every item by its
number of bytes, in two bytes as well. What does not fit is cut off, so not every value is
read back.

The algorithms are not part of the repository. They are given as functions, and so are the
derivation of keys and the decoding of strings.
-/

namespace Aikoql.Security

open Kernel (Text Value PropertyMap utf8 encI64)

/-! ## Values as bytes -/

/-- Bytes behind their number, which is cut to two bytes. -/
def sized (b : Bytes) : Bytes :=
  leBytes 2 b.length ++ b

/-- The most items a list or a map keeps. -/
def maxItems : Nat := 65535

mutual

def valueToBytes : Value → Bytes
  | .null => [0x05]
  | .bool true => [0x03, 1]
  | .bool false => [0x03, 0]
  | .int i => 0x01 :: encI64 i
  | .float bits => 0x02 :: leBytes 8 bits
  | .text t => 0x00 :: t
  | .bytes b => 0x04 :: b
  | .list vs => 0x07 :: (leBytes 2 (min vs.length maxItems) ++ itemsToBytes vs maxItems)
  | .map es => 0x08 :: (leBytes 2 (min es.length maxItems) ++ entriesToBytes es maxItems)

def itemsToBytes : List Value → Nat → Bytes
  | [], _ => []
  | _ :: _, 0 => []
  | v :: vs, n + 1 => sized (valueToBytes v) ++ itemsToBytes vs n

def entriesToBytes : List (Text × Value) → Nat → Bytes
  | [], _ => []
  | _ :: _, 0 => []
  | (k, v) :: es, n + 1 => sized k ++ sized (valueToBytes v) ++ entriesToBytes es n

end

/-- The decoding of strings: which bytes are one, and what is made of those that are not. -/
structure Utf8 where
  valid : Bytes → Bool
  lossy : Bytes → Text
  lossy_eq : ∀ b, valid b = true → lossy b = b
  valid_lossy : ∀ b, valid (lossy b) = true

/-- Bytes behind their number, and what follows them. -/
def readSized (b : Bytes) : Option (Bytes × Bytes) :=
  if b.length < 2 then none
  else if (b.drop 2).length < leNat (b.take 2) then none
  else some ((b.drop 2).take (leNat (b.take 2)), (b.drop 2).drop (leNat (b.take 2)))

def readItems (read : Bytes → Option Value) : Nat → Bytes → List Value
  | 0, _ => []
  | n + 1, b =>
    match readSized b with
    | none => []
    | some (item, rest) => (read item).toList ++ readItems read n rest

def insertEntry (k : Text) (v : Value) : List (Text × Value) → List (Text × Value)
  | [] => [(k, v)]
  | e :: es =>
    if k < e.1 then (k, v) :: e :: es
    else if k = e.1 then (k, v) :: es
    else e :: insertEntry k v es

def readEntries (u : Utf8) (read : Bytes → Option Value) :
    Nat → Bytes → List (Text × Value) → List (Text × Value)
  | 0, _, es => es
  | n + 1, b, es =>
    match readSized b with
    | none => es
    | some (key, rest) =>
      match readSized rest with
      | none => es
      | some (item, rest) =>
        readEntries u read n rest (match read item with
            | some v => insertEntry (u.lossy key) v es
            | none => es)

def readValue (u : Utf8) : Nat → Bytes → Option Value
  | 0, _ => none
  | _ + 1, [] => none
  | fuel + 1, tag :: b =>
    match tag.val with
    | 0x00 => if u.valid b then some (.text b) else none
    | 0x01 => if b.length = 8 then some (.int (Int.bmod (beNat b) (2 ^ 64))) else none
    | 0x02 => if b.length = 8 then some (.float (leNat b)) else none
    | 0x03 => if b.length = 1 then some (.bool (b ≠ [0])) else none
    | 0x04 => some (.bytes b)
    | 0x05 => some .null
    | 0x07 =>
      if b.length < 2 then none
      else some (.list (readItems (readValue u fuel) (leNat (b.take 2)) (b.drop 2)))
    | 0x08 =>
      if b.length < 2 then none
      else some (.map (readEntries u (readValue u fuel) (leNat (b.take 2)) (b.drop 2) []))
    | _ => none

def bytesToValue (u : Utf8) (b : Bytes) : Option Value :=
  readValue u b.length b

mutual

/-- A value with as many items as are kept, each of at most as many bytes as are counted.
    Numbers are of their width, strings are strings and maps are sorted, as they are in
    every value. -/
def fits (u : Utf8) : Value → Bool
  | .null => true
  | .bool _ => true
  | .int i => decide (-2 ^ 63 ≤ i ∧ i < 2 ^ 63)
  | .float bits => decide (bits < 2 ^ 64)
  | .text t => u.valid t
  | .bytes _ => true
  | .list vs => decide (vs.length ≤ maxItems) && fitItems u vs
  | .map es => decide (es.length ≤ maxItems) && fitEntries u es

def fitItems (u : Utf8) : List Value → Bool
  | [] => true
  | v :: vs => decide ((valueToBytes v).length < 2 ^ 16) && fits u v && fitItems u vs

def fitEntries (u : Utf8) : List (Text × Value) → Bool
  | [] => true
  | (k, v) :: es =>
    decide (k.length < 2 ^ 16) && u.valid k && decide ((valueToBytes v).length < 2 ^ 16) &&
      fits u v && es.all (fun e => decide (k < e.1)) && fitEntries u es

end

/-! ## Providers -/

/-- A number that is used once, of twelve bytes. -/
abbrev Nonce := Fin (2 ^ 96)

instance Nonce.neZero : NeZero (2 ^ 96) := inferInstance

def Nonce.bytes (n : Nonce) : Bytes := beBytes 12 n.val

def Nonce.ofBytes (b : Bytes) : Nonce := Fin.ofNat (2 ^ 96) (beNat b)

structure Aead where
  encrypt : Key → Nonce → Bytes → Bytes → Bytes
  decrypt : Key → Nonce → Bytes → Bytes → Option Bytes

/-- What was encrypted opens under the same key in the same context, and under no other
    key and in no other context. There are sixteen bytes for that. -/
structure Aead.Ideal (a : Aead) : Prop where
  opens : ∀ (key : Key) (nonce : Nonce) (plain aad : Bytes),
    a.decrypt key nonce (a.encrypt key nonce plain aad) aad = some plain
  rejects : ∀ (key key' : Key) (nonce : Nonce) (plain aad aad' : Bytes),
    key ≠ key' ∨ aad ≠ aad' → a.decrypt key' nonce (a.encrypt key nonce plain aad) aad' = none
  tagged : ∀ (key : Key) (nonce : Nonce) (plain aad : Bytes),
    16 ≤ (a.encrypt key nonce plain aad).length

inductive Algorithm where
  | aes256Gcm
  | chaCha20Poly1305
  deriving DecidableEq

def Algorithm.version : Algorithm → Byte
  | .aes256Gcm => 0x01
  | .chaCha20Poly1305 => 0x02

/-- An algorithm with what it does. -/
structure Provider where
  algorithm : Algorithm
  aead : Aead

def Provider.encrypt (p : Provider) (key : Key) (nonce : Nonce) (plain aad : Bytes) : Bytes :=
  p.algorithm.version :: (nonce.bytes ++ p.aead.encrypt key nonce plain aad)

def Algorithm.mismatch : Algorithm → Text
  | .aes256Gcm => utf8 "expected AES-GCM version 0x01, got 0x02"
  | .chaCha20Poly1305 => utf8 "expected ChaCha20-Poly1305 version 0x02, got 0x01"

/-- A ciphertext that does not open. -/
def Algorithm.rejection : Algorithm → Text
  | .aes256Gcm => utf8 "aes-gcm decrypt: aead::Error"
  | .chaCha20Poly1305 => utf8 "chacha20-poly1305 decrypt: aead::Error"

def Provider.decrypt (p : Provider) (key : Key) (data aad : Bytes) : Except Text Bytes :=
  match data with
  | [] => .error (utf8 "unsupported crypto version or truncated data")
  | version :: raw =>
    if raw.length < 12 + 16 ∨ (version ≠ Algorithm.aes256Gcm.version ∧
          version ≠ Algorithm.chaCha20Poly1305.version) then
      .error (utf8 "unsupported crypto version or truncated data")
    else if version ≠ p.algorithm.version then .error p.algorithm.mismatch
    else
      match p.aead.decrypt key (Nonce.ofBytes (raw.take 12)) (raw.drop 12) aad with
      | none => .error p.algorithm.rejection
      | some plain => .ok plain

/-! ## Fields -/

structure EncryptionPolicy where
  fields : List Text
  nodup : fields.Nodup

/-- The provider, the derivation of keys for fields, and the decoding of strings. -/
structure FieldCrypto where
  provider : Provider
  fieldKey : Key → Key
  utf8 : Utf8

def isEncrypted : Value → Bool
  | .bytes (b :: _) => b = 0x01
  | _ => false

namespace FieldCrypto

variable (F : FieldCrypto)

def sealValue (dek : Key) (nonce : Nonce) (field : Text) (value : Value) : Value :=
  .bytes (F.provider.encrypt (F.fieldKey dek) nonce (valueToBytes value) field)

def encryptField (dek : Key) (nonces : Text → Nonce) (done : PropertyMap × Nat) (field : Text) :
    PropertyMap × Nat :=
  match done.1[field]? with
  | none => done
  | some value =>
    if isEncrypted value then done
    else (done.1.insert field (F.sealValue dek (nonces field) field value), done.2 + 1)

def encryptFields (e : Envelope) (random : Key) (nonces : Text → Nonce) (tenant : Text)
    (props : PropertyMap) (policy : EncryptionPolicy) : Envelope × PropertyMap × Nat :=
  if policy.fields.isEmpty then (e, props, 0)
  else
    let (e, dek) := e.tenantKey tenant random
    (e, policy.fields.foldl (F.encryptField dek nonces) (props, 0))

def openCipher (dek : Key) (prev : Option Key) (data : Bytes) (field : Text) : Except Text Bytes :=
  match F.provider.decrypt (F.fieldKey dek) data field with
  | .ok plain => .ok plain
  | .error current =>
    match prev with
    | none => .error current
    | some prevDek =>
      match F.provider.decrypt (F.fieldKey prevDek) data field with
      | .ok plain => .ok plain
      | .error before =>
        .error (current ++ Kernel.utf8 "; previous generation: " ++ before)

def decryptField (dek : Key) (prev : Option Key) (done : PropertyMap × Nat) (field : Text) :
    Except Text (PropertyMap × Nat) :=
  match done.1[field]? with
  | some (.bytes data) =>
    if isEncrypted (.bytes data) then do
      let plain ← F.openCipher dek prev data field
      return match bytesToValue F.utf8 plain with
        | some value => (done.1.insert field value, done.2 + 1)
        | none => done
    else .ok done
  | _ => .ok done

def decryptFields (e : Envelope) (random : Key) (tenant : Text) (props : PropertyMap)
    (policy : EncryptionPolicy) : Envelope × Except Text (PropertyMap × Nat) :=
  if policy.fields.isEmpty then (e, .ok (props, 0))
  else
    let (e, dek) := e.tenantKey tenant random
    (e, policy.fields.foldlM (F.decryptField dek e.prevDeks[tenant]?) (props, 0))

def reencryptField (prev dek : Key) (nonces : Text → Nonce) (done : PropertyMap × Nat)
    (field : Text) : Except Text (PropertyMap × Nat) :=
  match done.1[field]? with
  | some (.bytes data) =>
    if isEncrypted (.bytes data) then
      match F.provider.decrypt (F.fieldKey prev) data field with
      | .ok plain =>
        .ok (done.1.insert field
          (.bytes (F.provider.encrypt (F.fieldKey dek) (nonces field) plain field)),
          done.2 + 1)
      | .error _ => do
          let _ ← F.provider.decrypt (F.fieldKey dek) data field
          return done
    else .ok done
  | _ => .ok done

def reencryptFields (e : Envelope) (random : Key) (nonces : Text → Nonce) (tenant : Text)
    (props : PropertyMap) (policy : EncryptionPolicy) :
    Envelope × Except Text (PropertyMap × Nat) :=
  if policy.fields.isEmpty then (e, .ok (props, 0))
  else
    match e.prevDeks[tenant]? with
    | none => (e, .ok (props, 0))
    | some prev =>
      let (e, dek) := e.tenantKey tenant random
      (e, policy.fields.foldlM (F.reencryptField prev dek nonces) (props, 0))

end FieldCrypto

end Aikoql.Security
