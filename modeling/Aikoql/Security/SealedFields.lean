import Aikoql.Security.Framing
import Aikoql.Lib.MergeMaps

/-!
# What Encrypted Fields Hold

The three operations on the fields of a policy, against the values that were written.

A stored map of properties seals a written one if every field of the policy is a ciphertext
of the value that was written, under a key from a given set, and every other field is the
same. Encrypting makes such a map out of what is written, moving to another key keeps it
one, and decrypting with the right keys gives back what was written. This needs that a
ciphertext starts with the byte of the first algorithm, because this is how it is
recognised.

## Theorems

* `decrypt_encrypt`, `decrypt_eq_ok`: What a ciphertext opens to.
-/

namespace Aikoql.Security

open List
open Kernel (Text Value PropertyMap encI64)

variable {fields : List Text} {stored written : PropertyMap} {dek : Key} {field : Text} {v : Value}
variable {nonces : Text → Nonce} {done : PropertyMap × Nat} {prev : Option Key}

variable {u : Utf8}

/-! ## Ciphertexts -/

theorem Nonce.ofBytes_bytes (n : Nonce) : Nonce.ofBytes n.bytes = n := by
  have hn : n.val < 256 ^ 12 := n.isLt
  apply Fin.ext
  rw [Nonce.ofBytes, Nonce.bytes, beNat_beBytes_of_lt 12 _ hn, Fin.val_ofNat,
    Nat.mod_eq_of_lt n.isLt]

section

variable {p : Provider} (key key' : Key) (nonce : Nonce) (plain aad aad' : Bytes)

theorem decrypt_ciphertext (hideal : p.aead.Ideal) :
    p.decrypt key' (p.encrypt key nonce plain aad) aad'
      = match p.aead.decrypt key' nonce (p.aead.encrypt key nonce plain aad) aad' with
        | none => .error p.algorithm.rejection
        | some plain => .ok plain := by
  have hwidth : nonce.bytes.length = 12 := length_beBytes _ _
  have htag := hideal.tagged key nonce plain aad
  have hversion : ¬(p.algorithm.version ≠ Algorithm.aes256Gcm.version ∧
      p.algorithm.version ≠ Algorithm.chaCha20Poly1305.version) := by
    cases p.algorithm <;> simp
  have hlong : ¬(nonce.bytes ++ p.aead.encrypt key nonce plain aad).length < 12 + 16 := by
    rw [length_append, hwidth]
    omega
  rewrite [Provider.encrypt, Provider.decrypt,
    if_neg (by rintro (h | h); exacts [hlong h, hversion h]), if_neg (by simp),
    take_left' hwidth, drop_left' hwidth, Nonce.ofBytes_bytes]
  rfl

theorem decrypt_encrypt (hideal : p.aead.Ideal) :
    p.decrypt key (p.encrypt key nonce plain aad) aad = .ok plain := by
  rw [decrypt_ciphertext _ _ _ _ _ _ hideal, hideal.opens]

theorem decrypt_eq_ok (hideal : p.aead.Ideal) {opened : Bytes}
    (h : p.decrypt key' (p.encrypt key nonce plain aad) aad' = .ok opened) : opened = plain := by
  by_cases hsame : key = key' ∧ aad = aad'
  · obtain ⟨rfl, rfl⟩ := hsame
    rw [decrypt_encrypt _ _ _ _ hideal] at h
    exact (Except.ok.inj h).symm
  · rw [decrypt_ciphertext _ _ _ _ _ _ hideal, hideal.rejects _ _ _ _ _ _ (by tauto)] at h
    cases h

end

/-! ## Fields -/

variable {F : FieldCrypto} {keys : Key → Prop}

/-- A stored value is a ciphertext of a written one, under one of some keys. The written
    one fits and is not taken to be encrypted. -/
def Sealed (F : FieldCrypto) (keys : Key → Prop) (field : Text) (written stored : Value) : Prop :=
  (isEncrypted written = false ∧ fits F.utf8 written = true) ∧
    ∃ dek nonce, keys dek ∧ stored = F.sealValue dek nonce field written

def Seals (F : FieldCrypto) (keys : Key → Prop) (fields : List Text)
    (written stored : PropertyMap) : Prop :=
  ∀ field, (field ∈ fields → (written[field]? = none ∧ stored[field]? = none) ∨
      ∃ w v, written[field]? = some w ∧ stored[field]? = some v ∧ Sealed F keys field w v) ∧
    (field ∉ fields → stored[field]? = written[field]?)

theorem Sealed.mono {keys' : Key → Prop} {written stored : Value}
    (h : Sealed F keys field written stored) (hkeys : ∀ dek, keys dek → keys' dek) :
    Sealed F keys' field written stored := by
  obtain ⟨hfits, dek, nonce, hdek, rfl⟩ := h
  exact ⟨hfits, dek, nonce, hkeys dek hdek, rfl⟩

theorem Seals.mono {keys' : Key → Prop} (h : Seals F keys fields written stored)
    (hkeys : ∀ field ∈ fields, ∀ w, written[field]? = some w → ∀ dek, keys dek → keys' dek) :
    Seals F keys' fields written stored := by
  intro field
  refine ⟨fun hfield => ?_, (h field).2⟩
  rcases (h field).1 hfield with hnone | ⟨w, v, hw, hv, hsealed⟩
  · exact .inl hnone
  · exact .inr ⟨w, v, hw, hv, hsealed.mono (hkeys field hfield w hw)⟩

theorem Seals.nil (props : PropertyMap) : Seals F keys [] props props :=
  fun _ => ⟨fun h => by simp at h, fun _ => rfl⟩

theorem isEncrypted_sealValue (halgorithm : F.provider.algorithm = .aes256Gcm) (dek : Key)
    (nonce : Nonce) (field : Text) (value : Value) :
    isEncrypted (F.sealValue dek nonce field value) = true := by
  simp [FieldCrypto.sealValue, Provider.encrypt, isEncrypted, halgorithm, Algorithm.version]

/-! ### Encrypting -/

def FieldCrypto.encrypted (F : FieldCrypto) (dek : Key) (nonces : Text → Nonce) (field : Text)
    (value : Value) : Value :=
  if isEncrypted value then value else F.sealValue dek (nonces field) field value

theorem getElem?_encryptField (dek : Key) (nonces : Text → Nonce) (done : PropertyMap × Nat)
    (field f : Text) :
    (F.encryptField dek nonces done field).1[f]?
      = if f = field then done.1[f]?.map (F.encrypted dek nonces f) else done.1[f]? := by
  unfold FieldCrypto.encryptField
  by_cases hf : f = field
  · subst hf
    cases hvalue : done.1[f]? with
    | none => simp [hvalue]
    | some value =>
      by_cases henc : isEncrypted value = true
      · simp [henc, hvalue, FieldCrypto.encrypted]
      · simp [henc, FieldCrypto.encrypted]
  · rw [if_neg hf]
    cases hvalue : done.1[field]? with
    | none => simp
    | some value =>
      by_cases henc : isEncrypted value = true
      · simp [henc]
      · simp [henc, getElem?_insert_eq, Ne.symm hf]

theorem getElem?_foldl_encryptField (dek : Key) (nonces : Text → Nonce) (hnodup : fields.Nodup)
    (done : PropertyMap × Nat) (f : Text) : (fields.foldl (F.encryptField dek nonces) done).1[f]?
      = if f ∈ fields then done.1[f]?.map (F.encrypted dek nonces f) else done.1[f]? := by
  induction fields generalizing done with
  | nil => simp
  | cons field fields ih =>
    obtain ⟨hfresh, hnodup⟩ := nodup_cons.mp hnodup
    rw [foldl_cons, ih hnodup, getElem?_encryptField]
    by_cases hf : f = field
    · subst hf
      simp [hfresh]
    · simp [hf]

theorem encryptFields_seals {dek : Key} {fields : List Text} {props : PropertyMap}
    (hnodup : fields.Nodup) (hdek : keys dek)
    (hplain : ∀ field ∈ fields, ∀ value, props[field]? = some value →
      isEncrypted value = false ∧ fits F.utf8 value = true) :
    Seals F keys fields props (fields.foldl (F.encryptField dek nonces) (props, 0)).1 := by
  intro field
  rw [getElem?_foldl_encryptField dek nonces hnodup]
  refine ⟨fun hfield => ?_, fun hfield => if_neg hfield⟩
  rw [if_pos hfield]
  cases hvalue : props[field]? with
  | none => exact .inl ⟨rfl, rfl⟩
  | some value =>
    have hvalue := hplain field hfield value hvalue
    refine .inr ⟨value, _, rfl, rfl, hvalue, dek, nonces field, hdek, ?_⟩
    simp [FieldCrypto.encrypted, hvalue.1]

/-! ### Moving to another key -/

theorem Seals.insert {w : Value} (h : Seals F keys fields written stored) (hfield : field ∈ fields)
    (hw : written[field]? = some w) (hv : Sealed F keys field w v) :
    Seals F keys fields written (stored.insert field v) := by
  intro f
  rw [getElem?_insert_eq]
  by_cases hf : field = f
  · subst hf
    rw [if_pos rfl]
    exact ⟨fun _ => .inr ⟨w, v, hw, rfl, hv⟩, fun hout => absurd hfield hout⟩
  · rw [if_neg hf]
    exact h f

theorem reencryptField_seals (hideal : F.provider.aead.Ideal) {prev : Key}
    {done' : PropertyMap × Nat} (hdek : keys dek) (hfield : field ∈ fields)
    (hseals : Seals F keys fields written done.1)
    (h : F.reencryptField prev dek nonces done field = .ok done') :
    Seals F keys fields written done'.1 := by
  unfold FieldCrypto.reencryptField at h
  rcases (hseals field).1 hfield with ⟨-, hnone⟩ | ⟨w, v, hw, hv, hfits, old, nonce, -, rfl⟩
  · rw [hnone] at h
    cases h
    exact hseals
  · rw [hv] at h
    simp only [FieldCrypto.sealValue] at h
    split at h
    · cases hopen : F.provider.decrypt (F.fieldKey prev)
          (F.provider.encrypt (F.fieldKey old) nonce (valueToBytes w) field) field with
      | ok plain =>
        -- What is encrypted again is what was encrypted before.
        obtain rfl := decrypt_eq_ok _ _ _ _ _ _ hideal hopen
        rw [hopen] at h
        cases h
        exact hseals.insert hfield hw ⟨hfits, dek, nonces field, hdek, rfl⟩
      | error e =>
        simp only [hopen, bind_eq_ok, pure_eq_ok] at h
        obtain ⟨_, -, rfl⟩ := h
        exact hseals
    · cases h
      exact hseals

theorem reencryptFields_seals (hideal : F.provider.aead.Ideal) {prev : Key} (hdek : keys dek)
    (hseals : Seals F keys fields written stored)
    (h : fields.foldlM (F.reencryptField prev dek nonces) (stored, 0) = .ok done) :
    Seals F keys fields written done.1 :=
  foldlM_ok_invariant (fun done => Seals F keys fields written done.1) _ fields
    (fun _ _ _ hfield hs hstep => reencryptField_seals hideal hdek hfield hs hstep) _ _ hseals h

/-! ### Decrypting -/

theorem openCipher_sealed (hideal : F.provider.aead.Ideal) {old : Key}
    (hold : old = dek ∨ prev = some old) (nonce : Nonce) (plain : Bytes) (field : Text) :
    F.openCipher dek prev (F.provider.encrypt (F.fieldKey old) nonce plain field) field
      = .ok plain := by
  unfold FieldCrypto.openCipher
  cases hopen : F.provider.decrypt (F.fieldKey dek)
      (F.provider.encrypt (F.fieldKey old) nonce plain field) field with
  | ok opened => rw [decrypt_eq_ok _ _ _ _ _ _ hideal hopen]
  | error e =>
    rcases hold with rfl | rfl
    · rw [decrypt_encrypt _ _ _ _ hideal] at hopen
      cases hopen
    · simp only [decrypt_encrypt _ _ _ _ hideal]

theorem Seals.tail {stored' : PropertyMap} (h : Seals F keys (field :: fields) written stored)
    (hfresh : field ∉ fields) (hfield : stored'[field]? = written[field]?)
    (hothers : ∀ f, f ≠ field → stored'[f]? = stored[f]?) :
    Seals F keys fields written stored' := by
  intro f
  by_cases hf : f = field
  · subst hf
    exact ⟨fun hin => absurd hin hfresh, fun _ => hfield⟩
  · rw [hothers f hf]
    exact ⟨fun hin => (h f).1 (mem_cons_of_mem _ hin), fun hout => (h f).2 (by simp [hf, hout])⟩

theorem decryptFields_seals (hideal : F.provider.aead.Ideal)
    (halgorithm : F.provider.algorithm = .aes256Gcm)
    (hkeys : ∀ old, keys old → old = dek ∨ prev = some old) (hnodup : fields.Nodup)
    (hseals : Seals F keys fields written stored) (n : Nat) :
    ∃ m, fields.foldlM (F.decryptField dek prev) (stored, n) = .ok (written, m) := by
  induction fields generalizing stored n with
  | nil =>
    have hall : stored = written := by
      ext1 field
      exact (hseals field).2 (by simp)
    exact ⟨n, by rw [hall]; rfl⟩
  | cons field fields ih =>
    obtain ⟨hfresh, hnodup⟩ := nodup_cons.mp hnodup
    rw [foldlM_cons]
    rcases (hseals field).1 mem_cons_self with
      ⟨hw, hv⟩ | ⟨w, v, hw, hv, hfits, old, nonce, hold, rfl⟩
    · -- The field is not there, so it stays that way.
      have hskip : F.decryptField dek prev (stored, n) field = .ok (stored, n) := by
        simp [FieldCrypto.decryptField, hv]
      rw [hskip, ok_bind]
      exact ih hnodup (hseals.tail hfresh (hv.trans hw.symm) fun _ _ => rfl) n
    · have henc := isEncrypted_sealValue halgorithm old nonce field w
      have hdone : F.decryptField dek prev (stored, n) field
          = .ok (stored.insert field w, n + 1) := by
        simp only [FieldCrypto.sealValue] at hv henc
        simp only [FieldCrypto.decryptField, hv, henc, if_true,
          openCipher_sealed hideal (hkeys old hold), ok_bind, bytesToValue_valueToBytes hfits.2]
        rfl
      rw [hdone, ok_bind]
      refine ih hnodup (hseals.tail hfresh ?_ ?_) (n + 1)
      · rw [getElem?_insert_eq, if_pos rfl, hw]
      · intro f hf
        rw [getElem?_insert_eq, if_neg (Ne.symm hf)]

end Aikoql.Security
