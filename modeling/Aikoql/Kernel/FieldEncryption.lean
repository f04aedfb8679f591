import Aikoql.Kernel.Guarded
import Aikoql.Kernel.Reads
import Aikoql.Security.FieldCrypto

/-!
# A Kernel with Encrypted Fields

Calls, reads and rolls of a kernel that encrypts fields.

`remember` encrypts the fields of the type's policy once all checks have passed, under the
key of the tenant in the context of the request, and persists the keys before it commits.
`transact` encrypts nothing. A read decrypts the fields under the key of the tenant in its
own context. Both make a key for a tenant that has none.

A roll gives every tenant a new key, unless this was done before, and then goes through the
heads. It moves the encrypted fields of each to the new key of the tenant in the metadata of
the object, and commits the result as a new version. It stops at the first error.

Beside the state there are the properties of each object as they were last written.
-/

namespace Aikoql.Kernel

open Security (EncryptionPolicy Envelope FieldCrypto Key KeyRows Nonce)

/-- The policies of the types, and how fields are encrypted. -/
structure Fields where
  crypto : FieldCrypto
  policies : Std.ExtTreeMap Text EncryptionPolicy

/-- A kernel, the keys of the tenants and their rows, and what was written. -/
structure Vault where
  kernel : Guarded
  env : Envelope
  rows : KeyRows
  written : Std.ExtTreeMap Koid PropertyMap

def Vault.initial (kek : Key) : Vault :=
  ⟨Guarded.initial, Envelope.init kek, KeyRows.empty, ∅⟩

/-- What a call draws: a key for a tenant that has none, a number for each field, and
    whether the engine takes the row of the keys. -/
structure Draws where
  random : Key
  nonces : Text → Nonce
  persisted : Bool

/-! ## Calls -/

section

variable (fs : Fields) (S : Settings) (C : Crypto)

/-- Encrypt the fields of an object under the key of a tenant, and persist the keys if
    there was a field. -/
def Fields.encrypt (e : Envelope) (d : Draws) (tenant : Option Text) (typeName : Text)
    (props : PropertyMap) : Except KError PropertyMap :=
  match fs.policies[typeName]? with
  | none => .ok props
  | some policy =>
    let done := (fs.crypto.encryptFields e d.random d.nonces (tenantName tenant) props policy).2
    if 0 < done.2 ∧ d.persisted = false then .error (.store (utf8 "DEK persist: write failed"))
    else .ok done.1

def Fields.settings (e : Envelope) (d : Draws) : Settings :=
  { S with encrypt := fs.encrypt e d }

def Settings.reachesEncryption (auth : AuthManager) (st : State) (io : Ambient)
    (req : RememberRequest) : Bool :=
  let koid := req.target io
  let head := st.store.headObject koid
  let plain : Settings := { S with encrypt := fun _ _ props => .ok props }
  (kernelManagedExtensions.find? fun key => req.extensions.contains key).isNone &&
    ((req.idempotencyKey.map (idemScope req.metadata.tenant)).bind
      fun key => st.store.idem[key]?).isNone &&
    !(head.isNone && req.koid.isSome && req.expectedVersion.isNone) &&
    (checkVersion koid req.expectedVersion ((head.map KnowledgeObject.version).getD 0)).isOk &&
    (plain.rememberDraft auth st req koid head).isOk

def Vault.keysBehind (v : Vault) (t : Turn) (d : Draws) : Envelope × KeyRows :=
  match t.call with
  | .remember req =>
    if S.reachesEncryption v.kernel.auth v.kernel.st t.io req then
      match fs.policies[req.metadata.typeName]? with
      | none => (v.env, v.rows)
      | some policy =>
        let done := fs.crypto.encryptFields v.env d.random d.nonces
          (tenantName req.context.tenant) req.properties policy
        (done.1, if 0 < done.2.2 ∧ d.persisted then { v.rows with deks := some done.1.wraps }
          else v.rows)
    else (v.env, v.rows)
  | _ => (v.env, v.rows)

def recordWritten (written : Std.ExtTreeMap Koid PropertyMap)
    (targets : List (Koid × RememberRequest)) : Std.ExtTreeMap Koid PropertyMap :=
  targets.foldl (fun m target => m.insert target.1 target.2.properties) written

def Vault.call (v : Vault) (t : Turn) (d : Draws) : Vault :=
  let settings := fs.settings S v.env d
  let keys := v.keysBehind fs S t d
  { kernel := (v.kernel.step settings C t).1
    env := keys.1
    rows := keys.2
    written := if v.kernel.writes settings C t then recordWritten v.written (t.call.targets t.io)
      else v.written }

/-! ## Reads -/

def Vault.reader (v : Vault) (random : Key) : Reader where
  auth := v.kernel.auth
  decrypt tenant typeName props :=
    match fs.policies[typeName]? with
    | none => .ok props
    | some policy =>
      match (fs.crypto.decryptFields v.env random tenant props policy).2 with
      | .error e => .error (.store (utf8 "field decrypt: " ++ e))
      | .ok done => .ok done.1

def Vault.get (v : Vault) (ctx : KnowledgeContext) (koid : Koid) (random : Key) :
    Except KError KnowledgeObject :=
  (v.reader fs random).get v.kernel.st.store ctx koid

def Vault.keysRead (v : Vault) (ctx : KnowledgeContext) (koid : Koid) (random : Key) : Envelope :=
  match v.kernel.st.store.headObject koid with
  | none => v.env
  | some ko =>
    if (v.kernel.auth.authorize ctx.subject ko .read).isOk then
      match fs.policies[ko.metadata.typeName]? with
      | none => v.env
      | some policy =>
        (fs.crypto.decryptFields v.env random (tenantName ctx.tenant) ko.properties policy).1
    else v.env

/-! ## Rolls -/

/-- What a roll draws for an object, and whether the engine takes the object's batch. -/
structure Chance where
  millis : Nat
  random : Key
  nonces : Text → Nonce
  taken : Bool

def reencryptedObject (ko : KnowledgeObject) (props : PropertyMap) : KnowledgeObject :=
  { ko with version := ko.version + 1, properties := props }

def stageReencrypted (st : State) (millis : Nat) (ko : KnowledgeObject) (props : PropertyMap) :
    Nat × Staged :=
  stagedOf st.tenants
    (fun ready => .remembered ⟨ko.koid, ko.version + 1, ready.commitTs, ready.seq⟩)
    (commitVersion C st millis (reencryptedObject ko props) .updated .system (utf8 "system")
      (some (utf8 "ag-31 dek re-encryption")) none (some ko.relationships) none)

def Vault.walkObject (v : Vault) (c : Chance) (ko : KnowledgeObject) (policy : EncryptionPolicy) :
    Vault × Except KError Nat :=
  let done := fs.crypto.reencryptFields v.env c.random c.nonces (tenantName ko.metadata.tenant)
    ko.properties policy
  let v := { v with env := done.1 }
  match done.2 with
  | .error e => (v, .error (.store (utf8 "DEK roll: " ++ e)))
  | .ok (props, changed) =>
    if changed = 0 then (v, .ok 0)
    else
      let st := v.kernel.st
      let staged := stageReencrypted C st c.millis ko props
      let finished := finish { st with hlc := staged.1 } staged.2 c.taken
      ({ v with kernel := { v.kernel with st := finished.1 } }, finished.2.map fun _ => 1)

/-- Go through heads. -/
def Vault.walk (chances : Koid → Chance) : Vault → List (Koid × Head) → Vault × Except KError Nat
  | v, [] => (v, .ok 0)
  | v, (koid, head) :: rest =>
    match v.kernel.st.store.getObjectVersion koid head.commitTs with
    | none => Vault.walk chances v rest
    | some ko =>
      match fs.policies[ko.metadata.typeName]? with
      | none => Vault.walk chances v rest
      | some policy =>
        match v.walkObject fs C (chances koid) ko policy with
        | (v, .error e) => (v, .error e)
        | (v, .ok n) =>
          let (v, more) := Vault.walk chances v rest
          (v, more.map (n + ·))

/-- Give the tenants new keys, unless this was done before, and move all fields to these. -/
def Vault.roll (v : Vault) (random : Text → Key) (taken : Bool) (chances : Koid → Chance) :
    Vault × Except KError Nat :=
  if v.env.wraps.isEmpty then (v, .ok 0)
  else if v.rows.prev.isSome then v.walk fs C chances v.kernel.st.store.heads.toList
  else
    let rolled := v.env.rollDeks random
    if taken then
      { v with
        env := rolled.1
        rows := { v.rows with prev := some v.env.wraps, deks := some rolled.2 } }.walk
        fs C chances v.kernel.st.store.heads.toList
    else ({ v with env := rolled.1 }, .error (.store (utf8 "DEK persist: write failed")))

/-! ## Steps -/

inductive VaultEvent where
  | call (t : Turn) (d : Draws)
  | get (ctx : KnowledgeContext) (koid : Koid) (random : Key)
  | roll (random : Text → Key) (taken : Bool) (chances : Koid → Chance)

def Vault.step (v : Vault) : VaultEvent → Option Vault
  | .call t d => some (v.call fs S C t d)
  | .get ctx koid random => some { v with env := v.keysRead fs ctx koid random }
  | .roll random taken chances => some (v.roll fs C random taken chances).1

end

end Aikoql.Kernel
