import Aikoql.Kernel.Pipeline
import Aikoql.Lib.Fallible
import Aikoql.Lib.Runs

/-!
# The Calls of the Kernel

Remembering, transactions, evolving, forgetting and auditing.

A call takes the pipe lock, reads what it needs, builds a batch and hands it to the
engine. `stage` is everything up to the engine: its outcome is a reply without a
write, or a batch with the pipe and the reply that hold once the engine took it.
`finish` is what follows. A batch the engine refuses changes nothing.

What a call checks before it commits, apart from versions and keys, is given as a
function: authorization, the rules on extension fields, referential policies, schemas
and constraints, quotas and field encryption. So is the source of new ids, which
may return any id. Nothing that is proved here depends on what they do.
-/

namespace Aikoql.Kernel

/-! ## Requests -/

structure Subject where
  name : Text
  roles : List Text
  tenant : Option Text
  deriving DecidableEq

structure KnowledgeContext where
  subject : Subject
  tenant : Option Text

inductive ReferentialPolicy where
  | strict
  | permissive
  | enforced
  deriving DecidableEq

def ReferentialPolicy.tag : ReferentialPolicy → Byte
  | .strict => 0
  | .permissive => 1
  | .enforced => 2

structure RememberRequest where
  context : KnowledgeContext
  koid : Option Koid
  expectedVersion : Option Nat
  idempotencyKey : Option Text
  metadata : Metadata
  properties : PropertyMap
  semantic : Option SemanticBlock
  relationships : List RelationshipRef
  security : Option SecurityDescriptor
  extensions : ExtensionMap
  origin : Origin
  note : Option Text
  referentialPolicy : ReferentialPolicy

def RememberRequest.create (context : KnowledgeContext) (metadata : Metadata) : RememberRequest where
  context := context
  koid := none
  expectedVersion := some 0
  idempotencyKey := none
  metadata := metadata
  properties := ∅
  semantic := none
  relationships := []
  security := none
  extensions := ∅
  origin := .human
  note := none
  referentialPolicy := .permissive

def RememberRequest.update (context : KnowledgeContext) (koid : Koid) (metadata : Metadata) :
    RememberRequest :=
  { RememberRequest.create context metadata with koid := some koid, expectedVersion := none }

structure TransactionOp where
  context : KnowledgeContext
  request : RememberRequest

/-- An operation of a transaction with the object it is about. -/
structure Resolved where
  koid : Koid
  head : Option KnowledgeObject
  curV : Nat
  op : TransactionOp

def Resolved.creating (r : Resolved) : Bool :=
  r.curV == 0

/-- The parts of a version that the checks of `remember` settle. -/
structure Draft where
  properties : PropertyMap
  security : SecurityDescriptor
  extensions : ExtensionMap

/-- The checks of a call. -/
structure Admission where
  authorize : Store → Subject → KnowledgeObject → Action → Except KError Unit
  remember : State → RememberRequest → Koid → Option KnowledgeObject → Except KError Draft
  transact : State → List Resolved → Resolved → Except KError SecurityDescriptor
  deferred : State → List KnowledgeObject → Except KError Unit

/-- The checks of a kernel without policies, schemas and quotas, for a subject that may
    do everything: an object without a descriptor belongs to the subject that creates
    it and keeps its descriptor afterwards, and extension fields are taken as they
    are. -/
def Admission.unrestricted : Admission where
  authorize _ _ _ _ := .ok ()
  remember _ req _ head := .ok ⟨req.properties,
    req.security.getD ((head.map KnowledgeObject.security).getD
      ⟨req.context.subject.name, [], none⟩), req.extensions⟩
  transact _ _ r := .ok (r.op.request.security.getD ((r.head.map KnowledgeObject.security).getD
    ⟨r.op.request.context.subject.name, [], none⟩))
  deferred _ _ := .ok ()

/-- What a call is given from outside: readings of the clock, and new ids. -/
structure Ambient where
  millis : Nat
  hlcMillis : Nat
  fresh : Nat → Koid

inductive ForgetMode where
  | tombstone
  | erase
  deriving DecidableEq

inductive Call where
  | remember (req : RememberRequest)
  | transact (ops : List TransactionOp) (schema : Option (Text × Bytes)) (txnId : Option Text)
  | evolve (ctx : KnowledgeContext) (koid : Koid) (target : LifecycleState) (origin : Origin)
      (expectedVersion : Option Nat) (note : Option Text)
  | forget (ctx : KnowledgeContext) (koid : Koid) (mode : ForgetMode)
      (expectedVersion : Option Nat) (note : Option Text)
  | recordAudit (note : Text)

inductive Reply where
  | remembered (r : Remembered)
  | transacted (results : List Remembered) (deduped : Bool)
  | evolved (koid : Koid) (version commitTs : Nat) (state : LifecycleState)
  | forgotten (koid : Koid) (version commitTs : Nat)
  | audited

/-- How far a call gets by itself: it replies without writing, or it has a batch. -/
inductive Staged where
  | done (reply : Except KError Reply)
  | write (batch : WriteBatch) (pipe : Pipeline) (tenants : Std.ExtTreeMap Text Nat) (reply : Reply)

def Staged.isWrite : Staged → Bool
  | .done _ => false
  | .write _ _ _ _ => true

section

variable (A : Admission) (C : Crypto) (st : State) (io : Ambient)

def stagedOf (tenants : Std.ExtTreeMap Text Nat) (reply : Ready → Reply)
    (r : Nat × Except KError Ready) : Nat × Staged :=
  (r.1, match r.2 with
    | .error e => .done (.error e)
    | .ok ready => .write ready.batch ready.pipe tenants (reply ready))

/-- A call that ends without a batch. -/
def refused (e : KError) : Nat × Staged :=
  (st.hlc, .done (.error e))

def checkVersion (koid : Koid) (expected : Option Nat) (found : Nat) : Except KError Unit :=
  if expected.getD found = found then .ok ()
  else .error (.versionConflict koid (expected.getD found) found)

def kindOf (origin : Origin) (creating : Bool) : EventKind :=
  match origin with
  | .reason => .claimAsserted
  | .semanticEnrichment => .claimAsserted
  | _ => if creating then .created else .updated

/-! ## Remembering -/

def kernelManagedExtensions : List Text :=
  [utf8 "epistemic_status", utf8 "epistemic_history", utf8 "lifecycle_history",
    utf8 "invalidation", utf8 "evidence", utf8 "derivation", utf8 "confidence",
    utf8 "verified_event", utf8 "valid_to", utf8 "content_trust", utf8 "salience",
    utf8 "authority", utf8 "scope", utf8 "claim_holder", utf8 "claim_until"]

/-- The relationship types whose edges survive an update that does not restate them. -/
def carriedTypes : List Text :=
  [utf8 "supersedes", utf8 "derived_from", utf8 "contradicts"]

def nextRels (head : Option KnowledgeObject) (rels : List RelationshipRef) : List RelationshipRef :=
  match head with
  | none => rels
  | some h => h.relationships.foldl
      (fun rels hr => if hr.relType ∈ carriedTypes ∧ hr ∉ rels then rels ++ [hr] else rels) rels

def idemScope (tenant : Option Text) (key : Text) : Text :=
  match tenant.filter fun t => !t.isEmpty with
  | some t => t ++ [0] ++ key
  | none => key

def idemKindName (kind : Option Byte) : Text :=
  match kind with
  | some 0 => utf8 "remember"
  | some 1 => utf8 "supersede"
  | some _ => utf8 "an unknown op"
  | none => utf8 "a legacy op"

def replayed (row : IdemRow) : Remembered :=
  { koid := row.koid
    version := row.version
    commitTs := row.commitTs
    journalSeq := ((st.store.headObject row.koid).bind fun h =>
      h.eventRefs[row.version - 1]?.map EventRef.seq).getD st.pipe.seq }

def rememberedObject (req : RememberRequest) (koid : Koid) (head : Option KnowledgeObject)
    (draft : Draft) : KnowledgeObject :=
  { koid := koid
    version := (head.map KnowledgeObject.version).getD 0 + 1
    commitTs := 0
    metadata := req.metadata
    properties := draft.properties
    semantic := req.semantic
    relationships := nextRels head req.relationships
    eventRefs := (head.map KnowledgeObject.eventRefs).getD []
    security := draft.security
    lifecycle := (head.map KnowledgeObject.lifecycle).getD ⟨.draft, req.origin⟩
    extensions := draft.extensions }

def rememberFresh (req : RememberRequest) (idem : Option Text) : Nat × Staged :=
  let koid := req.koid.getD (io.fresh 0)
  let head := st.store.headObject koid
  if head.isNone ∧ req.koid.isSome ∧ req.expectedVersion.isNone then
    refused st (.notFound koid)
  else
    let curV := (head.map KnowledgeObject.version).getD 0
    match checkVersion koid req.expectedVersion curV, A.remember st req koid head with
    | .error e, _ => refused st e
    | .ok (), .error e => refused st e
    | .ok (), .ok draft =>
      let creating := head.isNone
      let tenant := req.metadata.tenant
      let usage := if creating then
          some (tenantName tenant, usageOf st.tenants (tenantName tenant) + 1)
        else none
      let tenants := if creating then recordCreate st.tenants tenant else st.tenants
      stagedOf tenants (fun ready => .remembered ⟨koid, curV + 1, ready.commitTs, ready.seq⟩)
        (commitVersion C st io.hlcMillis (rememberedObject req koid head draft)
          (kindOf req.origin creating) req.origin req.context.subject.name req.note idem
          (head.map KnowledgeObject.relationships) usage)

def remember (req : RememberRequest) : Nat × Staged :=
  match kernelManagedExtensions.find? fun key => req.extensions.contains key with
  | some key => refused st (.invalidObject (utf8 "extension '" ++ key ++
      utf8 ("' is kernel-managed — set it via the semantic operations " ++
        "(assert/verify/contradict/supersede/merge/invalidate/derive), not remember()")))
  | none =>
    let idem := req.idempotencyKey.map (idemScope req.metadata.tenant)
    match idem.bind fun key => st.store.idem[key]? with
    | none => rememberFresh A C st io req idem
    | some row =>
      -- A key held by another kind of call is not replayed.
      if row.kind.any fun kind => kind ≠ 0 then
        refused st (.idempotencyConflict (utf8 "remember reuses idempotency key '" ++
          req.idempotencyKey.getD [] ++ utf8 "' already held by " ++ idemKindName row.kind))
      else (st.hlc, .done (.ok (.remembered (replayed st row))))

/-! ## Transactions -/

def resolveOps : Nat → List TransactionOp → Except KError (List Resolved)
  | _, [] => .ok []
  | i, op :: ops => do
      ensure op.request.idempotencyKey.isNone (.unsupportedOperation
          (utf8 "idempotency keys are not supported inside transactions"))
      let koid := op.request.koid.getD (io.fresh i)
      let head := st.store.headObject koid
      ensure (¬(head.isNone ∧ op.request.koid.isSome ∧ op.request.expectedVersion.isNone))
        (.notFound koid)
      let curV := (head.map KnowledgeObject.version).getD 0
      checkVersion koid op.request.expectedVersion curV
      let rest ← resolveOps (if op.request.koid.isSome then i else i + 1) ops
      return ⟨koid, head, curV, op⟩ :: rest

/-- The first operation on an object another one was about. -/
def firstRepeat : List Koid → List Resolved → Option Resolved
  | _, [] => none
  | seen, r :: rs => if r.koid ∈ seen then some r else firstRepeat (r.koid :: seen) rs

/-- A version that is going to be committed. -/
structure Pending where
  ko : KnowledgeObject
  curV : Nat
  kind : EventKind
  origin : Origin
  actor : Text
  note : Option Text
  prevRels : List RelationshipRef

def Resolved.pending (r : Resolved) (security : SecurityDescriptor) : Pending :=
  let req := r.op.request
  { ko :=
      { koid := r.koid
        version := r.curV + 1
        commitTs := 0
        metadata := req.metadata
        properties := req.properties
        semantic := req.semantic
        relationships := req.relationships
        eventRefs := (r.head.map KnowledgeObject.eventRefs).getD []
        security := security
        lifecycle := (r.head.map KnowledgeObject.lifecycle).getD ⟨.draft, req.origin⟩
        extensions := req.extensions }
    curV := r.curV
    kind := kindOf req.origin r.creating
    origin := req.origin
    actor := r.op.context.subject.name
    note := req.note
    prevRels := (r.head.map KnowledgeObject.relationships).getD [] }

/-- What the versions of a transaction add up to. -/
structure Chain where
  batch : WriteBatch
  pipe : Pipeline
  results : List Remembered

def chainOps (commitTs : Nat) : Pipeline → List Pending → Except KError Chain
  | pipe, [] => .ok ⟨.empty, pipe, []⟩
  | pipe, p :: ps => do
      let seq := pipe.seq + 1
      let ko := p.ko.committed seq p.kind commitTs
      ko.validate
      let ke ← versionEvent C pipe.audit pipe.prevSig seq ko p.kind p.origin p.actor p.note
      let rest ← chainOps commitTs (pipe.past ke) ps
      let batch : WriteBatch := {
        puts := [.object ko.koid commitTs ko,
            .head ko.koid ⟨ko.version, commitTs, ko.lifecycle.state⟩] ++
          relationPuts ko.koid ko.relationships ++
          writeTypeIndex ko.metadata.typeName ko.koid ++ [.event seq ke]
        dels := relationDels ko.koid p.prevRels ko.relationships }
      return ⟨batch.append rest.batch, rest.pipe,
        ⟨ko.koid, p.curV + 1, commitTs, seq⟩ :: rest.results⟩

def createdRows (tenants : Std.ExtTreeMap Text Nat) (created : List (Option Text)) : List Put :=
  (created.map tenantName).dedup.map fun t =>
    .usageRow t (usageOf tenants t + (created.map tenantName).count t)

def txnBodyFingerprint (ops : List TransactionOp) : Bytes :=
  C.sha256.digest (encU32 ops.length ++ ops.flatMap fun op =>
    let subject := op.context.subject
    let req := op.request
    encStr subject.name ++ encU32 subject.roles.length ++ subject.roles.flatMap encStr ++
      encOpt encStr subject.tenant ++ encU8 req.referentialPolicy.tag ++ encOpt encStr req.note ++
      encodeKo
        { koid := req.koid.getD Koid.zero
          version := 0
          commitTs := 0
          metadata := req.metadata
          properties := req.properties
          semantic := req.semantic
          relationships := req.relationships
          eventRefs := []
          security := req.security.getD ⟨req.context.subject.name, [], none⟩
          lifecycle := ⟨.draft, req.origin⟩
          extensions := req.extensions })

def recordedResults (results : List Remembered) : List Remembered :=
  results.map fun r =>
    { r with
      journalSeq := ((st.store.headObject r.koid).bind fun h =>
        h.eventRefs[r.version - 1]?.map EventRef.seq).getD 0 }

def prepareOps (ops : List TransactionOp) : Except KError (List Resolved × List Pending) := do
  let resolved ← resolveOps st io 0 ops
  match firstRepeat [] resolved with
  | some r => .error (.versionConflict r.koid (r.curV + 1) (r.curV + 1))
  | none =>
    let pending ← resolved.mapM fun r => do
      let security ← A.transact st resolved r
      return r.pending security
    A.deferred st (pending.map Pending.ko)
    return (resolved, pending)

def transactFresh (ops : List TransactionOp) (schema : Option (Text × Bytes))
    (txnId : Option Text) : Nat × Staged :=
  match prepareOps A st io ops with
  | .error e => refused st e
  | .ok (resolved, pending) =>
    -- All versions share one time stamp.
    let commitTs := hlcNow st.hlc io.hlcMillis
    let created := (resolved.filter Resolved.creating).map fun r => r.op.request.metadata.tenant
    (commitTs, match chainOps C commitTs st.pipe pending with
      | .error e => .done (.error e)
      | .ok chain =>
        let record := txnId.map fun id =>
          Put.txn id ⟨some (txnBodyFingerprint C ops), chain.results⟩
        let closing : WriteBatch := {
          puts := [.journal ⟨chain.pipe.seq, chain.pipe.audit, commitTs⟩,
              .usageHead chain.pipe.seq commitTs] ++
            createdRows st.tenants created ++
            (schema.map fun row => Put.schema row.1 row.2).toList ++ record.toList
          dels := [] }
        .write (chain.batch.append closing) chain.pipe (created.foldl recordCreate st.tenants)
          (.transacted chain.results false))

def transact (ops : List TransactionOp) (schema : Option (Text × Bytes))
    (txnId : Option Text) : Nat × Staged :=
  if ops.isEmpty ∧ txnId.isNone then
    (st.hlc, match schema with
      | none => .done (.ok (.transacted [] false))
      | some row => .write ⟨[.schema row.1 row.2], []⟩ st.pipe st.tenants (.transacted [] false))
  else
    match txnId.bind fun id => st.store.txns[id]?.map fun record => (id, record) with
    | none => transactFresh A C st io ops schema txnId
    | some (id, record) =>
      if record.body = some (txnBodyFingerprint C ops) then
        (st.hlc, .done (.ok (.transacted (recordedResults st record.results) true)))
      else
        refused st (.invalidObject (utf8 "transaction id '" ++ id ++
          utf8 "' already committed with a different body"))

/-! ## Evolving and forgetting -/

def actOn (ctx : KnowledgeContext) (koid : Koid) (action : Action) (expected : Option Nat)
    (check : KnowledgeObject → Except KError Unit) : Except KError KnowledgeObject :=
  match st.store.headObject koid with
  | none => .error (.notFound koid)
  | some head => do
      A.authorize st.store ctx.subject head action
      check head
      checkVersion koid expected head.version
      return head

def evolve (ctx : KnowledgeContext) (koid : Koid) (target : LifecycleState) (origin : Origin)
    (expected : Option Nat) (note : Option Text) : Nat × Staged :=
  let check := fun head : KnowledgeObject =>
    if head.lifecycle.state.canTransition target then Except.ok ()
    else .error (KError.invalidState head.lifecycle.state target)
  match actOn A st ctx koid .evolve expected check with
  | .error e => refused st e
  | .ok head =>
    let ko := { head with version := head.version + 1, lifecycle := ⟨target, origin⟩ }
    let ko := ko.pushLifecycleHistory head.lifecycle.state target io.millis ctx.subject.name note
    stagedOf st.tenants (fun ready => .evolved koid (head.version + 1) ready.commitTs target)
      (commitVersion C st io.hlcMillis ko .lifecycleChanged origin ctx.subject.name note none
        (some head.relationships) none)

def eraseEvent (head : KnowledgeObject) (koid : Koid) (commitTs : Nat) (actor : Text)
    (note : Option Text) : Except KError KnowledgeEvent := do
  let payload := encodeKo head
  let seq := st.pipe.seq + 1
  let headHash := C.sha256.digest payload
  let signature := C.signature payload
  let audit := auditHashOf C.sha256 st.pipe.audit seq koid head.version .forgotten commitTs
    headHash signature actor note
  let auditSignature ← C.signAuditEvent st.pipe.prevSig audit
  return {
    seq := seq
    koid := koid
    version := head.version
    kind := .forgotten
    origin := .system
    actor := actor
    commitTs := commitTs
    payloadHash := headHash
    prevAuditHash := st.pipe.audit
    auditHash := audit
    signature := signature
    auditSignature := auditSignature
    note := note }

def erase (head : KnowledgeObject) (koid : Koid) (actor : Text) (note : Option Text) :
    Nat × Staged :=
  let commitTs := hlcNow st.hlc io.hlcMillis
  let tenant := head.metadata.tenant
  let count := usageOf st.tenants (tenantName tenant) - 1
  (commitTs, match eraseEvent C st head koid commitTs actor note with
    | .error e => .done (.error e)
    | .ok ke =>
      .write
        { puts := [.event ke.seq ke, .journal ⟨ke.seq, ke.auditHash, commitTs⟩,
            .usageHead ke.seq commitTs, .usageRow (tenantName tenant) count,
            .tomb koid ke.payloadHash ke.seq]
          dels := [.head koid, .typeRow head.metadata.typeName koid] ++
            (st.store.objects koid).keys.map (Del.object koid) }
        (st.pipe.past ke) (recordDelete st.tenants tenant)
        (.forgotten koid head.version commitTs))

def forget (ctx : KnowledgeContext) (koid : Koid) (mode : ForgetMode) (expected : Option Nat)
    (note : Option Text) : Nat × Staged :=
  match actOn A st ctx koid .delete expected fun _ => .ok () with
  | .error e => refused st e
  | .ok head =>
    match mode with
    | .tombstone =>
      let tenant := head.metadata.tenant
      let ko := { head with version := head.version + 1, lifecycle := ⟨.deleted, .system⟩ }
      stagedOf (recordDelete st.tenants tenant)
        (fun ready => .forgotten koid (head.version + 1) ready.commitTs)
        (commitVersion C st io.hlcMillis ko .forgotten .system ctx.subject.name note none
          (some head.relationships)
          (some (tenantName tenant, usageOf st.tenants (tenantName tenant) - 1)))
    | .erase => erase C st io head koid ctx.subject.name note

/-! ## Auditing -/

def auditEvent (commitTs : Nat) (note : Text) : Except KError KnowledgeEvent := do
  let seq := st.pipe.seq + 1
  let audit := auditHashOf C.sha256 st.pipe.audit seq Koid.zero 0 .audit commitTs zeroHash none
    (utf8 "kernel") (some note)
  let auditSignature ← C.signAuditEvent st.pipe.prevSig audit
  return {
    seq := seq
    koid := Koid.zero
    version := 0
    kind := .audit
    origin := .system
    actor := utf8 "kernel"
    commitTs := commitTs
    payloadHash := zeroHash
    prevAuditHash := st.pipe.audit
    auditHash := audit
    signature := none
    auditSignature := auditSignature
    note := some note }

def recordAudit (note : Text) : Nat × Staged :=
  let commitTs := hlcNow st.hlc io.hlcMillis
  (commitTs, match auditEvent C st commitTs note with
    | .error e => .done (.error e)
    | .ok ke =>
      .write
        { puts := [.event ke.seq ke, .journal ⟨ke.seq, ke.auditHash, commitTs⟩,
            .usageHead ke.seq commitTs]
          dels := [] }
        (st.pipe.past ke) st.tenants .audited)

/-! ## Runs -/

def stage : Call → Nat × Staged
  | .remember req => remember A C st io req
  | .transact ops schema txnId => transact A C st io ops schema txnId
  | .evolve ctx koid target origin expected note =>
    evolve A C st io ctx koid target origin expected note
  | .forget ctx koid mode expected note => forget A C st io ctx koid mode expected note
  | .recordAudit note => recordAudit C st io note

/-- The end of a call; `taken` is whether the engine took the batch. -/
def finish (staged : Staged) (taken : Bool) : State × Except KError Reply :=
  match staged with
  | .done reply => (st, reply)
  | .write batch pipe tenants reply =>
    if taken then
      ({ st with store := st.store.writeBatch batch, pipe := pipe, tenants := tenants }, .ok reply)
    else (st, .error (.store (utf8 "write failed")))

def step (call : Call) (taken : Bool) : State × Except KError Reply :=
  let staged := stage A C st io call
  finish { st with hlc := staged.1 } staged.2 taken

end

/-- A call with its own readings of the clock and its own new ids, and whether the
    engine takes its batch. -/
structure Turn where
  io : Ambient
  call : Call
  taken : Bool

def turn (A : Admission) (C : Crypto) (st : State) (t : Turn) : Option State :=
  some (step A C st t.io t.call t.taken).1

/-! ## Samples -/

namespace Samples

/-- A caller without roles, in no tenant. -/
def ann : KnowledgeContext := ⟨⟨utf8 "ann", [], none⟩, none⟩

def note : Metadata := ⟨utf8 "note", none, 0, []⟩

def noteOf (tenant : String) : Metadata := ⟨utf8 "note", some (utf8 tenant), 0, []⟩

/-- Calls one after the other, each at a time of its own. -/
def spaced (calls : List Call) : List Turn :=
  calls.mapIdx fun i call => ⟨⟨i + 1, i + 1, fun _ => 0⟩, call, true⟩

abbrev crypto : Crypto := .unsigned Storage.Sha256.fips180

end Samples

end Aikoql.Kernel
