import Aikoql.Kernel.Extensions
import Mathlib.Data.Finset.Sort

/-!
# Reads

How objects are read.

An object is read by its id, in its current version or in the one of a time, with all its
versions, or with all objects of its type. The last goes through the index by type, which
may name an object that has another type by now, so the type of every object found is
looked at again.

Every path asks whether the subject may read the version it found. A read by id replies
with an error if not, and a read of many objects leaves the version out. The read of a
past instant looks first whether the object was valid then, and replies that there is
nothing if it was not.
-/

namespace Aikoql.Kernel

/-! ## Fields that are read -/

def EpistemicStatus.all : List EpistemicStatus :=
  [.observed, .extracted, .asserted, .inferred, .verified, .contradicted, .superseded]

def EpistemicStatus.fromName (t : Text) : Option EpistemicStatus :=
  EpistemicStatus.all.find? fun status => status.name = t

def KnowledgeObject.epistemicStatus (ko : KnowledgeObject) : EpistemicStatus :=
  ((ko.extensions[extEpistemicStatus]?.bind valueText).bind EpistemicStatus.fromName).getD
    (match ko.lifecycle.state with
      | .verified => .verified
      | .extracted => .extracted
      | _ => .observed)

def KnowledgeObject.validTo (ko : KnowledgeObject) : Option Nat :=
  ko.extensions[extValidTo]?.bind instantOf

/-! ## Reads of rows -/

def orNotFound {α : Type} (koid : Koid) : Option α → Except KError α
  | some a => .ok a
  | none => .error (.notFound koid)

def Store.getMany (s : Store) (koids : List Koid) : Except KError (List KnowledgeObject) := do
  let wanted ← koids.mapM fun koid =>
    (orNotFound koid s.heads[koid]?).map fun head => (koid, head.commitTs)
  wanted.mapM fun w => orNotFound w.1 (s.getObjectVersion w.1 w.2)

/-- The ids the index lists under a type, in order. -/
def Store.scanType (s : Store) (typeName : Text) : List Koid :=
  ((s.types.filter fun row => row.1 = typeName).image Prod.snd).sort (· ≤ ·)

/-! ## Reads of a subject -/

/-- What a kernel reads with: the roles and policies it knows, and the keys of encrypted
    fields. -/
structure Reader where
  auth : AuthManager
  decrypt : Text → Text → PropertyMap → Except KError PropertyMap

namespace Reader

variable (r : Reader) (s : Store)

def allows (subject : Subject) (ko : KnowledgeObject) : Bool :=
  (r.auth.authorize subject ko .read).isOk

def decrypted (ctx : KnowledgeContext) (ko : KnowledgeObject) : Except KError KnowledgeObject := do
  let properties ← r.decrypt (tenantName ctx.tenant) ko.metadata.typeName ko.properties
  return { ko with properties := properties }

def get (ctx : KnowledgeContext) (koid : Koid) : Except KError KnowledgeObject := do
  let ko ← orNotFound koid (s.headObject koid)
  r.auth.authorize ctx.subject ko .read
  r.decrypted ctx ko

def getMany (ctx : KnowledgeContext) (koids : List Koid) :
    Except KError (List KnowledgeObject) := do
  let kos ← s.getMany koids
  kos.forM fun ko => r.auth.authorize ctx.subject ko .read
  kos.mapM (r.decrypted ctx)

def getAt (ctx : KnowledgeContext) (koid : Koid) (snapTs : Nat) :
    Except KError KnowledgeObject := do
  let ko ← orNotFound koid (s.objectAt koid snapTs)
  r.auth.authorize ctx.subject ko .read
  return ko

/-- The time stamp of the last version committed in a millisecond. The shift loses the
    upper bits. -/
def endOfMillis (atMillis : Nat) : Nat :=
  (atMillis * 2 ^ 16) % 2 ^ 64 + 0xFFFF

def getAsOf (ctx : KnowledgeContext) (koid : Koid) (atMillis : Nat) :
    Except KError (Option KnowledgeObject) :=
  match s.objectAt koid (endOfMillis atMillis) with
  | none => .ok none
  | some ko =>
    if ko.validTo.any fun t => t ≤ atMillis then .ok none
    else do
      r.auth.authorize ctx.subject ko .read
      return some ko

def history (ctx : KnowledgeContext) (koid : Koid) : List (Nat × KnowledgeObject) :=
  (s.objects koid).toList.filter fun row =>
    row.2.lifecycle.state ≠ .deleted && r.allows ctx.subject row.2

def readableChecks (subject : Subject) (typeName : Text) (includeDeleted : Bool)
    (ko : KnowledgeObject) : Bool :=
  ko.metadata.typeName = typeName && (ko.lifecycle.state ≠ .deleted || includeDeleted) &&
    r.allows subject ko

def readableObject (subject : Subject) (typeName : Text) (koid : Koid) : Option KnowledgeObject :=
  (s.headObject koid).filter (r.readableChecks subject typeName false)

def readableObjectAt (subject : Subject) (typeName : Text) (snapTs : Nat) (koid : Koid) :
    Option KnowledgeObject :=
  (s.objectAt koid snapTs).filter (r.readableChecks subject typeName false)

def scanByTypeFiltered (subject : Subject) (typeName : Text) (status : Option EpistemicStatus) :
    List KnowledgeObject :=
  (s.scanType typeName).filterMap fun koid =>
    (r.readableObject s subject typeName koid).filter fun ko =>
      status.all fun want => ko.epistemicStatus = want

def scanByType (subject : Subject) (typeName : Text) : List KnowledgeObject :=
  r.scanByTypeFiltered s subject typeName none

def scanByTypeTemporal (subject : Subject) (typeName : Text) : List KnowledgeObject :=
  (s.scanType typeName).filterMap fun koid =>
    (s.headObject koid).filter (r.readableChecks subject typeName true)

def scanByTypeRange (subject : Subject) (typeName : Text) (koids : List Koid) :
    List KnowledgeObject :=
  koids.filterMap (r.readableObject s subject typeName)

def scanByTypeRangeAt (subject : Subject) (typeName : Text) (koids : List Koid) (snapTs : Nat) :
    List KnowledgeObject :=
  koids.filterMap (r.readableObjectAt s subject typeName snapTs)

end Reader

/-! ## All of them -/

inductive ReadCall where
  | get (ctx : KnowledgeContext) (koid : Koid)
  | getMany (ctx : KnowledgeContext) (koids : List Koid)
  | getAt (ctx : KnowledgeContext) (koid : Koid) (snapTs : Nat)
  | getAsOf (ctx : KnowledgeContext) (koid : Koid) (atMillis : Nat)
  | history (ctx : KnowledgeContext) (koid : Koid)
  | scanByType (subject : Subject) (typeName : Text)
  | scanByTypeFiltered (subject : Subject) (typeName : Text) (status : Option EpistemicStatus)
  | scanByTypeTemporal (subject : Subject) (typeName : Text)
  | scanByTypeRange (subject : Subject) (typeName : Text) (koids : List Koid)
  | scanByTypeRangeAt (subject : Subject) (typeName : Text) (koids : List Koid) (snapTs : Nat)

def ReadCall.subject : ReadCall → Subject
  | .get ctx _ => ctx.subject
  | .getMany ctx _ => ctx.subject
  | .getAt ctx _ _ => ctx.subject
  | .getAsOf ctx _ _ => ctx.subject
  | .history ctx _ => ctx.subject
  | .scanByType subject _ => subject
  | .scanByTypeFiltered subject _ _ => subject
  | .scanByTypeTemporal subject _ => subject
  | .scanByTypeRange subject _ _ => subject
  | .scanByTypeRangeAt subject _ _ _ => subject

/-- What a read replies if it replies with no error. -/
inductive Answer where
  | object (ko : KnowledgeObject)
  | objects (kos : List KnowledgeObject)
  | objectOrNone (ko : Option KnowledgeObject)
  | versions (rows : List (Nat × KnowledgeObject))

def Reader.read (r : Reader) (s : Store) : ReadCall → Except KError Answer
  | .get ctx koid => (r.get s ctx koid).map .object
  | .getMany ctx koids => (r.getMany s ctx koids).map .objects
  | .getAt ctx koid snapTs => (r.getAt s ctx koid snapTs).map .object
  | .getAsOf ctx koid atMillis => (r.getAsOf s ctx koid atMillis).map .objectOrNone
  | .history ctx koid => .ok (.versions (r.history s ctx koid))
  | .scanByType subject typeName => .ok (.objects (r.scanByType s subject typeName))
  | .scanByTypeFiltered subject typeName status =>
    .ok (.objects (r.scanByTypeFiltered s subject typeName status))
  | .scanByTypeTemporal subject typeName =>
    .ok (.objects (r.scanByTypeTemporal s subject typeName))
  | .scanByTypeRange subject typeName koids =>
    .ok (.objects (r.scanByTypeRange s subject typeName koids))
  | .scanByTypeRangeAt subject typeName koids snapTs =>
    .ok (.objects (r.scanByTypeRangeAt s subject typeName koids snapTs))

/-- A reader that knows no roles and no encrypted fields. -/
def Samples.plainReader : Reader := ⟨.empty, fun _ _ properties => .ok properties⟩

end Aikoql.Kernel
