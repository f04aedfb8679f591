import Aikoql.Kernel.Constraints
import Aikoql.Kernel.Extensions

/-!
# The Checks of a Call

What the kernel checks before it commits, as it is in the source.

`remember` and `transact` do not check the same. `remember` settles the extension
fields, asks the quota of a tenant before it creates an object, and encrypts fields.
`transact` does none of this. The quota is that of the tenant in the context of the
request, while the object is booked under the tenant in its metadata.

Schema validation with its other constraints, ontologies and the encryption of fields
are given as functions: the first two can only refuse a write.

## Theorems

* `rememberDraft_eq_ok`, `opSecurity_eq_ok`: What an admitted write has passed.
-/

namespace Aikoql.Kernel

variable {koid : Koid} {head : Option KnowledgeObject} {st : State}

/-- What a kernel is configured with. -/
structure Settings where
  quotas : Std.ExtTreeMap Text Nat
  schemas : SchemaRegistry
  validate : State → KnowledgeObject → List Text → Except KError Unit
  validateOp : State → KnowledgeObject → List Text → Except KError Unit
  ontology : State → RememberRequest → Koid → Except KError Unit
  ontologyOp : State → List Resolved → Resolved → Except KError Unit
  encrypt : Option Text → Text → PropertyMap → Except KError PropertyMap
  deferredChecks : State → List KnowledgeObject → List Violation

def Settings.basic (quotas : Std.ExtTreeMap Text Nat) (schemas : SchemaRegistry) : Settings where
  quotas := quotas
  schemas := schemas
  validate _ _ _ := .ok ()
  validateOp _ _ _ := .ok ()
  ontology _ _ _ := .ok ()
  ontologyOp _ _ _ := .ok ()
  encrypt _ _ properties := .ok properties
  deferredChecks _ _ := []

/-- A kernel without quotas and schemas. -/
def Samples.plain : Settings := .basic ∅ ∅

/-! ## Parts -/

def settleSecurity (auth : AuthManager) (subject : Subject) (koid : Koid)
    (head : Option KnowledgeObject) (asked : Option SecurityDescriptor) :
    Except KError SecurityDescriptor :=
  match head with
  | none => do
      let security := asked.getD ⟨subject.name, [], none⟩
      ensure (¬(security.owner ≠ subject.name ∧ subject.isAdmin = false))
        (.accessDenied subject.name .write koid)
      return security
  | some h => do
      auth.authorize subject h .write
      return asked.getD h.security

def checkTargets (s : Store) (created : List Koid) (req : RememberRequest) : Except KError Unit :=
  if req.referentialPolicy = .strict then
    req.relationships.forM fun rel =>
      ensure (rel.target ∈ created ∨ (s.headObject rel.target).isSome)
        (.invalidObject (utf8 "relationship target " ++ rel.target.toHex ++
          utf8 " does not exist under strict referential policy"))
  else .ok ()

def checkCreate (quotas tenants : Std.ExtTreeMap Text Nat) (tenant : Option Text) :
    Except KError Unit :=
  match quotas[tenantName tenant]? with
  | none => .ok ()
  | some maxObjects =>
    ensure (usageOf tenants (tenantName tenant) < maxObjects)
      (.invalidObject (utf8 "tenant '" ++ tenantName tenant ++ utf8 "' quota exceeded: " ++
        decimal (usageOf tenants (tenantName tenant)) ++ utf8 " objects (max " ++
        decimal maxObjects ++ utf8 ")"))

/-! ## The calls -/

variable (S : Settings) (auth : AuthManager)

def Settings.rememberDraft (st : State) (req : RememberRequest) (koid : Koid)
    (head : Option KnowledgeObject) : Except KError Draft := do
  let extensions ← settleExtensions req head
  let written := writeSet head req.properties
  let security ← settleSecurity auth req.context.subject koid head req.security
  checkTargets st.store [] req
  let draft : Draft := ⟨req.properties, security, stampSalience extensions⟩
  let ko := rememberedObject req koid head draft
  S.validate st ko written
  checkUniqueness S.schemas st.store ko false written
  (if req.referentialPolicy = .enforced then S.ontology st req koid else .ok ())
  (if head.isNone then checkCreate S.quotas st.tenants req.context.tenant else .ok ())
  let properties ← S.encrypt req.context.tenant req.metadata.typeName req.properties
  return { draft with properties := properties }

/-- The version an operation of a transaction starts from. -/
def Resolved.base (r : Resolved) : Option KnowledgeObject :=
  if r.creating then none else r.head

def Settings.opSecurity (st : State) (resolved : List Resolved) (r : Resolved) :
    Except KError SecurityDescriptor := do
  let req := r.op.request
  let security ← settleSecurity auth r.op.context.subject r.koid r.base req.security
  checkTargets st.store (resolved.map Resolved.koid) req
  let ko := (r.pending security).ko
  let written := writeSet r.base req.properties
  S.validateOp st ko written
  checkUniqueness S.schemas st.store ko true written
  (if req.referentialPolicy = .enforced then S.ontologyOp st resolved r else .ok ())
  return security

/-- The checks of a kernel that knows given roles and policies. -/
def Settings.admission : Admission where
  authorize _ := auth.authorize
  remember := S.rememberDraft auth
  transact := S.opSecurity auth
  deferred st kos := checkDeferred S.schemas st.store kos (S.deferredChecks st kos)

/-! ## What an admitted write has passed -/

variable {S auth}

theorem settleSecurity_eq_ok {subject : Subject} {asked : Option SecurityDescriptor}
    {security : SecurityDescriptor}
    (h : settleSecurity auth subject koid head asked = .ok security) :
    (head = none → security = asked.getD ⟨subject.name, [], none⟩ ∧
        (security.owner = subject.name ∨ subject.isAdmin = true)) ∧
      ∀ old, head = some old → auth.authorize subject old .write = .ok () ∧
        security = asked.getD old.security := by
  cases head with
  | none =>
    simp only [settleSecurity, bind_eq_ok, ensure_eq_ok, pure_eq_ok] at h
    obtain ⟨_, howner, rfl⟩ := h
    refine ⟨fun _ => ⟨rfl, ?_⟩, fun old hold => (by cases hold)⟩
    by_cases hown : (asked.getD ⟨subject.name, [], none⟩).owner = subject.name
    · exact .inl hown
    · exact .inr (by simpa [hown] using howner)
  | some old =>
    simp only [settleSecurity, bind_eq_ok, pure_eq_ok] at h
    obtain ⟨_, hauth, rfl⟩ := h
    refine ⟨fun hnone => (by cases hnone), ?_⟩
    intro old' hold
    cases hold
    exact ⟨hauth, rfl⟩

structure Remembers (S : Settings) (auth : AuthManager) (st : State) (req : RememberRequest)
    (koid : Koid) (head : Option KnowledgeObject) (draft : Draft) : Prop where
  extensions : ∃ settled, settleExtensions req head = .ok settled ∧
    draft.extensions = stampSalience settled
  security : settleSecurity auth req.context.subject koid head req.security = .ok draft.security
  unique : checkUniqueness S.schemas st.store
    (rememberedObject req koid head { draft with properties := req.properties }) false
    (writeSet head req.properties) = .ok ()
  quota : head = none → checkCreate S.quotas st.tenants req.context.tenant = .ok ()
  properties : S.encrypt req.context.tenant req.metadata.typeName req.properties
    = .ok draft.properties
  valid : S.validate st (rememberedObject req koid head { draft with properties := req.properties })
    (writeSet head req.properties) = .ok ()

theorem rememberDraft_eq_ok {req : RememberRequest} {draft : Draft}
    (h : S.rememberDraft auth st req koid head = .ok draft) :
    Remembers S auth st req koid head draft := by
  simp only [Settings.rememberDraft, bind_eq_ok, pure_eq_ok] at h
  obtain ⟨settled, hsettled, security, hsecurity, -, -, _, hvalid, _, hunique, -, -, _, hquota,
    properties, hproperties, rfl⟩ := h
  refine ⟨⟨settled, hsettled, rfl⟩, hsecurity, hunique, ?_, hproperties, hvalid⟩
  rintro rfl
  exact hquota

/-- What an admitted operation of a transaction has passed. -/
structure Transacts (S : Settings) (auth : AuthManager) (st : State) (r : Resolved)
    (settled : SecurityDescriptor) : Prop where
  security : settleSecurity auth r.op.context.subject r.koid r.base r.op.request.security
    = .ok settled
  unique : checkUniqueness S.schemas st.store (r.pending settled).ko true
    (writeSet r.base r.op.request.properties) = .ok ()
  valid : S.validateOp st (r.pending settled).ko (writeSet r.base r.op.request.properties) = .ok ()

theorem opSecurity_eq_ok {resolved : List Resolved} {r : Resolved} {security : SecurityDescriptor}
    (h : S.opSecurity auth st resolved r = .ok security) :
    Transacts S auth st r security := by
  simp only [Settings.opSecurity, bind_eq_ok, pure_eq_ok] at h
  obtain ⟨security, hsecurity, -, -, _, hvalid, _, hunique, -, -, rfl⟩ := h
  exact ⟨hsecurity, hunique, hvalid⟩

end Aikoql.Kernel
