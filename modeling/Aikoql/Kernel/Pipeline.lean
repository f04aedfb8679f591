import Aikoql.Kernel.Codec
import Aikoql.Kernel.Store

/-!
# The Commit Pipeline

How a version becomes a batch.

The kernel holds one lock, the pipe, while it builds a batch and writes it. Under it
are the sequence number and the audit hash of the newest event, from which the next
event continues the journal. Time stamps come from a hybrid clock that has a lock of
its own, so anyone may draw one at any time.

A committed version adds a reference to its own event, and its batch holds the
version, its head, its edges, its type row, the event and the head of the journal.
Edges the version before had and this one has not are deleted. Only after the
engine took the batch does the pipe move on.
-/

namespace Aikoql.Kernel

/-- The next time stamp: milliseconds in the upper bits and a counter in the lower
    sixteen. A clock that stands still or goes back advances the counter. -/
def hlcNow (last millis : Nat) : Nat :=
  if last / 2 ^ 16 < millis then millis * 2 ^ 16 % 2 ^ 64 else (last + 1) % 2 ^ 64

theorem lt_hlcNow {last millis : Nat} (hmillis : millis < 2 ^ 48) (hlast : last + 1 < 2 ^ 64) :
    last < hlcNow last millis := by
  unfold hlcNow
  split
  · rw [Nat.mod_eq_of_lt (by omega)]
    omega
  · rw [Nat.mod_eq_of_lt hlast]
    omega

/-- What is under the pipe lock. -/
structure Pipeline where
  seq : Nat
  audit : Bytes
  prevSig : Bytes
  pairPin : Option Nat

/-- The kernel: its rows, and what it keeps in memory. -/
structure State where
  store : Store
  pipe : Pipeline
  hlc : Nat
  tenants : Std.ExtTreeMap Text Nat

/-- The pipe of a kernel opened on given rows. -/
def Pipeline.opened (s : Store) : Pipeline :=
  match s.journal with
  | some head => ⟨head.seq, head.audit, zeroSignature, none⟩
  | none => ⟨0, zeroHash, zeroSignature, none⟩

/-- The time stamp a kernel opened on given rows continues from. -/
def hlcOpened (s : Store) : Nat :=
  match s.journal with
  | some head => head.lastTs
  | none => 0

/-- A kernel opened on rows, with usage counts as they were loaded. -/
def State.opened (s : Store) (tenants : Std.ExtTreeMap Text Nat) : State :=
  ⟨s, Pipeline.opened s, hlcOpened s, tenants⟩

def State.initial : State :=
  State.opened Store.empty ∅

/-! ## Tenants -/

/-- The tenant an object without one counts for. -/
def tenantName (tenant : Option Text) : Text :=
  tenant.getD (utf8 "default")

def usageOf (tenants : Std.ExtTreeMap Text Nat) (tenant : Text) : Nat :=
  tenants[tenant]?.getD 0

def recordCreate (tenants : Std.ExtTreeMap Text Nat) (tenant : Option Text) :
    Std.ExtTreeMap Text Nat :=
  tenants.insert (tenantName tenant) (usageOf tenants (tenantName tenant) + 1)

def recordDelete (tenants : Std.ExtTreeMap Text Nat) (tenant : Option Text) :
    Std.ExtTreeMap Text Nat :=
  match tenants[tenantName tenant]? with
  | some count => tenants.insert (tenantName tenant) (count - 1)
  | none => tenants

/-! ## Relationships -/

def swapRemove {α : Type} (xs : List α) (i : Nat) : List α :=
  match xs.getLast? with
  | none => xs
  | some last => (xs.set i last).dropLast

def removedRels (prev rels : List RelationshipRef) : List RelationshipRef :=
  rels.foldl (fun removed rel =>
    match removed.findIdx? fun p => p = rel with
    | some i => swapRemove removed i
    | none => removed) prev

def relationPuts (koid : Koid) (rels : List RelationshipRef) : List Put :=
  rels.flatMap fun rel => writeRelIndex (rel.edge koid)

def relationDels (koid : Koid) (prev rels : List RelationshipRef) : List Del :=
  (removedRels prev rels).flatMap fun rel => delRelIndex (rel.edge koid)

/-! ## Versions -/

def KnowledgeObject.committed (ko : KnowledgeObject) (seq : Nat) (kind : EventKind)
    (commitTs : Nat) : KnowledgeObject :=
  { ko with commitTs := commitTs, eventRefs := ko.eventRefs ++ [⟨seq, kind, commitTs⟩] }

def versionEvent (C : Crypto) (prevAudit prevSig : Bytes) (seq : Nat) (ko : KnowledgeObject)
    (kind : EventKind) (origin : Origin) (actor : Text) (note : Option Text) :
    Except KError KnowledgeEvent := do
  let payload := encodeKo ko
  let payloadHash := C.sha256.digest payload
  let signature := C.signature payload
  let audit := auditHashOf C.sha256 prevAudit seq ko.koid ko.version kind ko.commitTs payloadHash
    signature actor note
  let auditSignature ← C.signAuditEvent prevSig audit
  return {
    seq := seq
    koid := ko.koid
    version := ko.version
    kind := kind
    origin := origin
    actor := actor
    commitTs := ko.commitTs
    payloadHash := payloadHash
    prevAuditHash := prevAudit
    auditHash := audit
    signature := signature
    auditSignature := auditSignature
    note := note }

def Pipeline.past (pipe : Pipeline) (ke : KnowledgeEvent) : Pipeline :=
  { pipe with
    seq := ke.seq
    audit := ke.auditHash
    prevSig := ke.auditSignature.getD zeroSignature }

/-- A batch that is ready, with the pipe behind it. -/
structure Ready where
  batch : WriteBatch
  pipe : Pipeline
  commitTs : Nat
  seq : Nat

def commitVersion (C : Crypto) (st : State) (millis : Nat) (ko : KnowledgeObject)
    (kind : EventKind) (origin : Origin) (actor : Text) (note : Option Text) (idem : Option Text)
    (prevRels : Option (List RelationshipRef)) (usage : Option (Text × Nat)) :
    Nat × Except KError Ready :=
  match ko.validate with
  | .error e => (st.hlc, .error e)
  | .ok () =>
    -- A pinned instant is reused, otherwise the clock is asked.
    let drawn := hlcNow st.hlc millis
    let commitTs := st.pipe.pairPin.getD drawn
    let hlc := if st.pipe.pairPin.isSome then st.hlc else drawn
    let seq := st.pipe.seq + 1
    let ko := ko.committed seq kind commitTs
    (hlc, do
      let ke ← versionEvent C st.pipe.audit st.pipe.prevSig seq ko kind origin actor note
      return {
        batch := {
          puts := [.object ko.koid commitTs ko] ++ relationPuts ko.koid ko.relationships ++
            [.head ko.koid ⟨ko.version, commitTs, ko.lifecycle.state⟩] ++
            writeTypeIndex ko.metadata.typeName ko.koid ++
            [.event seq ke, .journal ⟨seq, ke.auditHash, commitTs⟩, .usageHead seq commitTs] ++
            (usage.map fun u => Put.usageRow u.1 u.2).toList ++
            (idem.map fun k => Put.idem k ⟨ko.koid, ko.version, commitTs, some 0⟩).toList
          dels := (prevRels.map fun prev => relationDels ko.koid prev ko.relationships).getD [] }
        pipe := st.pipe.past ke
        commitTs := commitTs
        seq := seq })

end Aikoql.Kernel
