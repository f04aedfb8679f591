import Aikoql.Kernel.Object
import Aikoql.Storage.Format

/-!
# Canonical Bytes

The encoder of objects, and the hashes taken over its output.

Numbers are big-endian and everything of variable length is preceded by its
length. The payload hash of an event is the hash of the version's bytes, and the
audit hash of an event is the hash of its fields and of the audit hash of the event
before it. The keyed hash and the signature scheme are not part of the repository:
they are given as functions.
-/

namespace Aikoql.Kernel

open Storage (Sha256)

/-! ## Parts -/

def encU8 (b : Byte) : Bytes := [b]

def encBool (b : Bool) : Bytes :=
  encU8 (if b then 1 else 0)

def encU32 (n : Nat) : Bytes := beBytes 4 n

def encU64 (n : Nat) : Bytes := beBytes 8 n

def encI64 (i : Int) : Bytes :=
  beBytes 8 (i % 2 ^ 64).toNat

def encBytes (b : Bytes) : Bytes :=
  encU64 b.length ++ b

def encStr (t : Text) : Bytes := encBytes t

def encOpt {α : Type} (enc : α → Bytes) : Option α → Bytes
  | none => encU8 0
  | some a => encU8 1 ++ enc a

def encList {α : Type} (enc : α → Bytes) (xs : List α) : Bytes :=
  encU64 xs.length ++ xs.flatMap enc

/-! ## Values -/

mutual

def encValue : Value → Bytes
  | .null => encU8 0
  | .bool b => encU8 1 ++ encBool b
  | .int i => encU8 2 ++ encI64 i
  | .float bits => encU8 3 ++ encU64 bits
  | .text t => encU8 4 ++ encStr t
  | .bytes b => encU8 5 ++ encBytes b
  | .list vs => encU8 6 ++ encU64 vs.length ++ encValues vs
  | .map entries => encU8 7 ++ encU64 entries.length ++ encEntries entries

def encValues : List Value → Bytes
  | [] => []
  | v :: vs => encValue v ++ encValues vs

def encEntries : List (Text × Value) → Bytes
  | [] => []
  | (k, v) :: entries => encStr k ++ encValue v ++ encEntries entries

end

/-- The entries of a map in key order, preceded by their number. -/
def encMap (m : Std.ExtTreeMap Text Value) : Bytes :=
  encU64 m.size ++ encEntries m.toList

/-! ## Objects -/

def encOrigin : Origin → Bytes
  | .human => encU8 0
  | .agent id => encU8 1 ++ encStr id
  | .semanticEnrichment => encU8 2
  | .reason => encU8 3
  | .system => encU8 4

def encSemantic (s : SemanticBlock) : Bytes :=
  encOpt encStr s.embeddingModel ++ encOpt (encList encU32) s.embedding ++
    encOpt encU32 s.confidence ++ encOpt encStr s.source ++ encOpt encStr s.summary

def encRelationship (r : RelationshipRef) : Bytes :=
  encStr r.relType ++ r.target.bytes ++ encU8 r.direction.tag

def encEventRef (r : EventRef) : Bytes :=
  encU64 r.seq ++ encU8 r.kind.tag ++ encU64 r.commitTs

def encAclEntry (a : AclEntry) : Bytes :=
  encStr a.principal ++ encU8 a.action.tag ++ encU8 a.effect.tag

def encMetadata (m : Metadata) : Bytes :=
  encStr m.typeName ++ encOpt encStr m.tenant ++ encU32 m.schemaVersion ++ encList encStr m.tags

def encSecurity (s : SecurityDescriptor) : Bytes :=
  encStr s.owner ++ encList encAclEntry s.acl ++ encOpt encStr s.classification

def encodeKo (ko : KnowledgeObject) : Bytes :=
  ko.koid.bytes ++ encU64 ko.version ++ encU64 ko.commitTs ++ encMetadata ko.metadata ++
    encMap ko.properties ++ encOpt encSemantic ko.semantic ++
    encList encRelationship ko.relationships ++ encList encEventRef ko.eventRefs ++
    encSecurity ko.security ++ encU8 ko.lifecycle.state.tag ++ encOrigin ko.lifecycle.origin ++
    encMap ko.extensions

/-! ## Hashes -/

def zeroHash : Bytes := List.replicate 32 0

def zeroSignature : Bytes := List.replicate 64 0

def auditHashOf (H : Sha256) (prev : Bytes) (seq : Nat) (koid : Koid) (version : Nat)
    (kind : EventKind) (commitTs : Nat) (payloadHash : Bytes) (signature : Option Bytes)
    (actor : Text) (note : Option Text) : Bytes :=
  H.digest (prev ++ encU64 seq ++ koid.bytes ++ encU64 version ++ encU8 kind.tag ++
    encU64 commitTs ++ payloadHash ++ encOpt id signature ++ encStr actor ++ encOpt encStr note)

/-- What the kernel computes hashes and signatures with. The keyed hash signs
    payloads if there is a signing key, and the signer audit hashes. -/
structure Crypto where
  sha256 : Sha256
  hmac : Bytes → Bytes → Bytes
  signingKey : Option Bytes
  sign : Bytes → Except KError (Option Bytes)

/-- A kernel without keys. -/
def Crypto.unsigned (H : Sha256) : Crypto where
  sha256 := H
  hmac := fun _ _ => []
  signingKey := none
  sign := fun _ => .ok none

def Crypto.signature (C : Crypto) (payload : Bytes) : Option Bytes :=
  C.signingKey.map fun key => C.hmac key payload

def Crypto.signAuditEvent (C : Crypto) (prevSig audit : Bytes) : Except KError (Option Bytes) :=
  C.sign (prevSig ++ audit)

end Aikoql.Kernel
