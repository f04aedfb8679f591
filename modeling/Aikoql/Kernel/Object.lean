import Aikoql.Lib.Bytes

/-!
# Knowledge Objects

The data model of the kernel.

A knowledge object is identified by a sixteen byte id and committed in versions.
A version carries its properties, its relationships to other objects, a reference
to each journal event of the object so far, who may use it, where it is in its
lifecycle, and extension fields. A knowledge event is an entry of the journal.

A string is the list of its UTF-8 bytes. A floating point number is its bit
pattern, since the kernel only stores it. A sorted map inside a value is the list
of its entries in key order.
-/

namespace Aikoql.Kernel

/-- A string, as its UTF-8 bytes. -/
abbrev Text := Bytes

def utf8 (s : String) : Text :=
  s.toUTF8.data.toList.map fun b => Fin.ofNat 256 b.toNat

/-- The id of an object: sixteen bytes, read as a number most significant first. -/
abbrev Koid := Fin (2 ^ 128)

instance Koid.neZero : NeZero (2 ^ 128) := inferInstance

instance Koid.transOrd : Std.TransOrd Koid := inferInstance

instance Koid.lawfulBEq : LawfulBEq Koid := inferInstance

/-- The id the journal uses where no object is meant. -/
def Koid.zero : Koid := 0

def Koid.bytes (k : Koid) : Bytes :=
  beBytes 16 k.val

/-! ## Values -/

/-- A property value. -/
inductive Value where
  | null
  | bool (b : Bool)
  | int (i : Int)
  | float (bits : Nat)
  | text (t : Text)
  | bytes (b : Bytes)
  | list (vs : List Value)
  | map (entries : List (Text × Value))

abbrev PropertyMap := Std.ExtTreeMap Text Value

/-- The extension fields of an object. -/
abbrev ExtensionMap := Std.ExtTreeMap Text Value

structure Metadata where
  typeName : Text
  tenant : Option Text
  schemaVersion : Nat
  tags : List Text

/-- The semantic block; floats are bit patterns. -/
structure SemanticBlock where
  embeddingModel : Option Text
  embedding : Option (List Nat)
  confidence : Option Nat
  source : Option Text
  summary : Option Text

/-! ## Relationships and events -/

inductive Direction where
  | outbound
  | inbound
  deriving DecidableEq

def Direction.tag : Direction → Byte
  | .outbound => 0
  | .inbound => 1

/-- An edge, as the object that asserts it holds it. -/
structure RelationshipRef where
  relType : Text
  target : Koid
  direction : Direction
  deriving DecidableEq

inductive EventKind where
  | created
  | updated
  | forgotten
  | lifecycleChanged
  | claimAsserted
  | audit
  | epistemicChanged
  deriving DecidableEq

def EventKind.tag : EventKind → Byte
  | .created => 0
  | .updated => 1
  | .forgotten => 2
  | .lifecycleChanged => 3
  | .claimAsserted => 4
  | .audit => 5
  | .epistemicChanged => 6

structure EventRef where
  seq : Nat
  kind : EventKind
  commitTs : Nat
  deriving DecidableEq

/-- Who produced a version. -/
inductive Origin where
  | human
  | agent (id : Text)
  | semanticEnrichment
  | reason
  | system
  deriving DecidableEq

/-! ## Security -/

inductive Action where
  | read
  | write
  | evolve
  | delete
  | admin
  deriving DecidableEq

def Action.tag : Action → Byte
  | .read => 0
  | .write => 1
  | .evolve => 2
  | .delete => 3
  | .admin => 4

inductive Effect where
  | allow
  | deny
  deriving DecidableEq

def Effect.tag : Effect → Byte
  | .allow => 0
  | .deny => 1

structure AclEntry where
  principal : Text
  action : Action
  effect : Effect
  deriving DecidableEq

structure SecurityDescriptor where
  owner : Text
  acl : List AclEntry
  classification : Option Text
  deriving DecidableEq

/-! ## Lifecycle -/

inductive LifecycleState where
  | draft
  | active
  | verified
  | archived
  | deleted
  | discovered
  | extracted
  | proposed
  | validated
  | accepted
  | updated
  | superseded
  deriving DecidableEq

def LifecycleState.tag : LifecycleState → Byte
  | .draft => 0
  | .active => 1
  | .verified => 2
  | .archived => 3
  | .deleted => 4
  | .discovered => 5
  | .extracted => 6
  | .proposed => 7
  | .validated => 8
  | .accepted => 9
  | .updated => 10
  | .superseded => 11

def LifecycleState.name : LifecycleState → Text
  | .draft => utf8 "draft"
  | .active => utf8 "active"
  | .verified => utf8 "verified"
  | .archived => utf8 "archived"
  | .deleted => utf8 "deleted"
  | .discovered => utf8 "discovered"
  | .extracted => utf8 "extracted"
  | .proposed => utf8 "proposed"
  | .validated => utf8 "validated"
  | .accepted => utf8 "accepted"
  | .updated => utf8 "updated"
  | .superseded => utf8 "superseded"

def LifecycleState.canTransition : LifecycleState → LifecycleState → Bool
  -- The first path.
  | .draft, .active => true
  | .active, .verified => true
  | .verified, .archived => true
  | .archived, .deleted => true
  -- The creation path.
  | .discovered, .extracted => true
  | .extracted, .proposed => true
  | .proposed, .validated => true
  | .validated, .accepted => true
  | .accepted, .active => true
  -- The active phase and its end.
  | .active, .updated => true
  | .updated, .superseded => true
  | .superseded, .archived => true
  -- Bridges between the paths.
  | .draft, .proposed => true
  | .draft, .accepted => true
  | .proposed, .active => true
  | .accepted, .archived => true
  | .accepted, .updated => true
  | .active, .superseded => true
  | _, _ => false

structure Lifecycle where
  state : LifecycleState
  origin : Origin
  deriving DecidableEq

/-! ## Knowledge -/

/-- What is known of an object. -/
inductive EpistemicStatus where
  | observed
  | extracted
  | asserted
  | inferred
  | verified
  | contradicted
  | superseded
  deriving DecidableEq

def EpistemicStatus.name : EpistemicStatus → Text
  | .observed => utf8 "observed"
  | .extracted => utf8 "extracted"
  | .asserted => utf8 "asserted"
  | .inferred => utf8 "inferred"
  | .verified => utf8 "verified"
  | .contradicted => utf8 "contradicted"
  | .superseded => utf8 "superseded"

/-! ## Objects and events -/

/-- A version of an object. -/
structure KnowledgeObject where
  koid : Koid
  version : Nat
  commitTs : Nat
  metadata : Metadata
  properties : PropertyMap
  semantic : Option SemanticBlock
  relationships : List RelationshipRef
  eventRefs : List EventRef
  security : SecurityDescriptor
  lifecycle : Lifecycle
  extensions : ExtensionMap

/-- A journal entry. -/
structure KnowledgeEvent where
  seq : Nat
  koid : Koid
  version : Nat
  kind : EventKind
  origin : Origin
  actor : Text
  commitTs : Nat
  payloadHash : Bytes
  prevAuditHash : Bytes
  auditHash : Bytes
  signature : Option Bytes
  auditSignature : Option Bytes
  note : Option Text
  deriving DecidableEq

/-- The errors of the modelled calls. -/
inductive KError where
  | invalidObject (message : Text)
  | invalidSchema (message : Text)
  | versionConflict (koid : Koid) (expected found : Nat)
  | accessDenied (subject : Text) (action : Action) (koid : Koid)
  | invalidState (source target : LifecycleState)
  | invalidEpistemic (source target : EpistemicStatus)
  | notFound (koid : Koid)
  | unsupportedOperation (message : Text)
  | idempotencyConflict (message : Text)
  | claimConflict (koid : Koid) (holder : Text) (leaseEnd : Nat)
  | store (message : Text)
  | codec (message : Text)
  deriving DecidableEq

/-! ## Validation -/

def trimStart : Text → Text
  | 0xC2 :: 0x85 :: t => trimStart t
  | 0xC2 :: 0xA0 :: t => trimStart t
  | 0xE1 :: 0x9A :: 0x80 :: t => trimStart t
  | 0xE2 :: 0x80 :: b :: t =>
    if b.val ∈ [0x80, 0x81, 0x82, 0x83, 0x84, 0x85, 0x86, 0x87, 0x88, 0x89, 0x8A, 0xA8, 0xA9,
      0xAF] then trimStart t
    else 0xE2 :: 0x80 :: b :: t
  | 0xE2 :: 0x81 :: 0x9F :: t => trimStart t
  | 0xE3 :: 0x80 :: 0x80 :: t => trimStart t
  | b :: t => if b.val ∈ [0x09, 0x0A, 0x0B, 0x0C, 0x0D, 0x20] then trimStart t else b :: t
  | [] => []

/-- A string of white space only: nothing is left of it once it is trimmed. -/
def blank (t : Text) : Bool :=
  (trimStart t).isEmpty

def KnowledgeObject.validate (ko : KnowledgeObject) : Except KError Unit :=
  if blank ko.metadata.typeName then
    .error (.invalidObject (utf8 "metadata.type_name must be non-empty"))
  else if blank ko.security.owner then
    .error (.invalidObject (utf8 "security.owner must be non-empty"))
  else if ko.metadata.tags.any blank then
    .error (.invalidObject (utf8 "metadata.tags must not contain empty entries"))
  else if ko.relationships.any fun r => blank r.relType then
    .error (.invalidObject (utf8 "relationships[].rel_type must be non-empty"))
  else if ko.security.acl.any fun a => blank a.principal then
    .error (.invalidObject (utf8 "security.acl[].principal must be non-empty"))
  else .ok ()

def extLifecycleHistory : Text := utf8 "lifecycle_history"

def KnowledgeObject.pushLifecycleHistory (ko : KnowledgeObject) (source target : LifecycleState)
    (atMillis : Nat) (actor : Text) (reason : Option Text) : KnowledgeObject :=
  -- The entries of a map are in key order; the time is stored as a signed word.
  let entry := Value.map (
    [(utf8 "at", .int (Int.bmod atMillis (2 ^ 64))), (utf8 "by", .text actor),
      (utf8 "from", .text source.name)] ++
    (reason.map fun r => (utf8 "reason", Value.text r)).toList ++
    [(utf8 "to", .text target.name)])
  let history := match ko.extensions[extLifecycleHistory]? with
    | some (.list entries) => Value.list (entries ++ [entry])
    | _ => Value.list [entry]
  { ko with extensions := ko.extensions.insert extLifecycleHistory history }

end Aikoql.Kernel
