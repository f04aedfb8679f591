import Aikoql.Kernel.Guarded

/-!
# Unique Values

No two objects within the scope of an enforced constraint have the same values, if every
write that brings an object into the scope is compared with what is there.

A write is compared by the constraints of the type it names, and not by those of the type
the scope was declared for. So a constraint on a tenant or on everything is not looked at
when an object of another type is written. It is not looked at either when the write does
not touch one of its properties, although the object may come into the scope by a new type
or a new tenant. And the objects of one batch are compared with each other only by
deferred constraints, and only if these have the same position in their schemas.

Having the same values is symmetric and transitive. An object that stays in the scope with
the values it had is therefore as far from the others as it was, also from those that are
written in the same batch and compared with the version it replaces.

## Main definitions

* `clash`: Two objects with the same values in one scope.
* `Unique`: No two live objects clash under an enforced constraint.
* `Turn.Compares`: A request compares what it brings into a scope.

## Main theorems

* `clash_symm`: Clashing is symmetric.
* `clash_trans`: It is transitive.
* `unique_kept`: Values in every run of such requests.
* `Uniqueness.unique_violated`: Requests that are not compared.
-/

namespace Aikoql.Kernel

open List
open Storage (Sha256)

variable {scope : UniquenessScope} {x : Koid × RememberRequest} {ko : KnowledgeObject}
  {typeName : Text} {koid : Koid}
variable {names : List Text} {ps qs pairs : List (Text × Value)} {target : Koid × RememberRequest}
variable {p q : PropertyMap} {s : Store} {koid' : Koid} {y : Koid × RememberRequest}

/-! ## Objects with the same values -/

/-- Two objects are within the scope of a constraint on a type. -/
def sharesScope (scope : UniquenessScope) (typeName : Text) (a b : Metadata) : Bool :=
  match scope with
  | .type => a.typeName = typeName && b.typeName = typeName
  | .tenant => a.tenant.isSome && a.tenant = b.tenant
  | .global => true

def sharesValue : Option Value → Option Value → Bool
  | some v, some w => v.same w && v ≠ .null
  | _, _ => false

/-- What of an object a constraint looks at. -/
structure Holding where
  metadata : Metadata
  properties : PropertyMap

def KnowledgeObject.holding (ko : KnowledgeObject) : Holding := ⟨ko.metadata, ko.properties⟩

def RememberRequest.holding (req : RememberRequest) : Holding := ⟨req.metadata, req.properties⟩

/-- Two objects within the scope of a constraint on a type have the same values. -/
def clash (c : UniqueConstraint) (typeName : Text) (a b : Holding) : Bool :=
  sharesScope c.scope typeName a.metadata b.metadata &&
    c.properties.all fun p => sharesValue a.properties[p]? b.properties[p]?

theorem sharesScope_symm {a b : Metadata} (h : sharesScope scope typeName a b = true) :
    sharesScope scope typeName b a = true := by
  cases scope with
  | type => simp_all [sharesScope]
  | tenant =>
    simp only [sharesScope, Bool.and_eq_true, decide_eq_true_eq] at h ⊢
    exact ⟨h.2 ▸ h.1, h.2.symm⟩
  | global => rfl

theorem sharesScope_trans {a b c : Metadata} (hab : sharesScope scope typeName a b = true)
    (hbc : sharesScope scope typeName b c = true) : sharesScope scope typeName a c = true := by
  cases scope <;> simp_all [sharesScope]

theorem sharesValue_iff {a b : Option Value} : sharesValue a b = true ↔
      ∃ v w, a = some v ∧ b = some w ∧ v.same w = true ∧ v ≠ .null := by
  cases a <;> cases b <;> simp [sharesValue]

theorem ne_null_of_same {v w : Value} (h : v.same w = true) (hv : v ≠ .null) : w ≠ .null := by
  rintro rfl
  cases v <;> simp_all [Value.same]

theorem sharesValue_symm {a b : Option Value} (h : sharesValue a b = true) :
    sharesValue b a = true := by
  obtain ⟨v, w, rfl, rfl, hsame, hnull⟩ := sharesValue_iff.mp h
  exact sharesValue_iff.mpr ⟨w, v, rfl, rfl, Value.same_symm v w hsame, ne_null_of_same hsame hnull⟩

theorem sharesValue_trans {a b c : Option Value} (hab : sharesValue a b = true)
    (hbc : sharesValue b c = true) : sharesValue a c = true := by
  obtain ⟨v, w, rfl, rfl, hsame, hnull⟩ := sharesValue_iff.mp hab
  obtain ⟨w', u, hw, rfl, hsame', -⟩ := sharesValue_iff.mp hbc
  cases hw
  exact sharesValue_iff.mpr ⟨v, u, rfl, rfl, Value.same_trans v w u hsame hsame', hnull⟩

section

variable {c : UniqueConstraint} {typeName : Text} {a b d : Holding}

theorem clash_iff :
    clash c typeName a b = true ↔ sharesScope c.scope typeName a.metadata b.metadata = true ∧
      ∀ p ∈ c.properties, sharesValue a.properties[p]? b.properties[p]? = true := by
  rw [clash, Bool.and_eq_true, all_eq_true]

theorem clash_symm (h : clash c typeName a b = true) : clash c typeName b a = true := by
  rw [clash_iff] at h ⊢
  exact ⟨sharesScope_symm h.1, fun p hp => sharesValue_symm (h.2 p hp)⟩

theorem clash_comm : clash c typeName a b = clash c typeName b a :=
  Bool.eq_iff_iff.mpr ⟨clash_symm, clash_symm⟩

theorem clash_trans (hab : clash c typeName a b = true) (hbd : clash c typeName b d = true) :
    clash c typeName a d = true := by
  rw [clash_iff] at hab hbd ⊢
  exact ⟨sharesScope_trans hab.1 hbd.1, fun p hp => sharesValue_trans (hab.2 p hp) (hbd.2 p hp)⟩

theorem clash_self (h : clash c typeName a b = true) : clash c typeName a a = true :=
  clash_trans h (clash_symm h)

theorem clash_congr (hmetadata : a.metadata = b.metadata)
    (hproperties : ∀ p ∈ c.properties, a.properties[p]? = b.properties[p]?) :
    clash c typeName a d = clash c typeName b d := by
  rw [Bool.eq_iff_iff, clash_iff, clash_iff, hmetadata]
  refine and_congr_right' (forall₂_congr fun p hp => ?_)
  rw [hproperties p hp]

theorem exists_pairs (h : ∀ n ∈ names, sharesValue p[n]? q[n]? = true) :
    ∃ pairs, presentPairs p names = some pairs ∧ holdsPairs q pairs = true := by
  induction names with
  | nil => exact ⟨[], rfl, rfl⟩
  | cons name names ih =>
    rw [forall_mem_cons] at h
    obtain ⟨v, w, hv, hw, hsame, -⟩ := sharesValue_iff.mp h.1
    obtain ⟨pairs, hpairs, hholds⟩ := ih h.2
    refine ⟨(name, v) :: pairs, presentPairs_cons.mpr ⟨v, pairs, hv, hpairs, rfl⟩, ?_⟩
    rw [holdsPairs, all_cons, hw, Bool.and_eq_true]
    exact ⟨Value.same_symm v w hsame, hholds⟩

theorem pairsMatch_of_shares (h : ∀ n ∈ names, sharesValue p[n]? q[n]? = true)
    (hp : presentPairs p names = some ps) (hq : presentPairs q names = some qs) :
    pairsMatch ps qs = true := by
  induction names generalizing ps qs with
  | nil =>
    cases hp
    cases hq
    rfl
  | cons name names ih =>
    rw [forall_mem_cons] at h
    obtain ⟨v, ps, hv, hps, rfl⟩ := presentPairs_cons.mp hp
    obtain ⟨w, qs, hw, hqs, rfl⟩ := presentPairs_cons.mp hq
    have hsame : v.same w = true := by
      have hshares := h.1
      rw [hv, hw, sharesValue, Bool.and_eq_true] at hshares
      exact hshares.1
    simp only [pairsMatch, decide_true, Bool.true_and, Bool.and_eq_true]
    exact ⟨hsame, ih h.2 hps hqs⟩

end

/-! ## Unique values -/

def KnowledgeObject.live (ko : KnowledgeObject) : Bool :=
  ko.lifecycle.state ≠ .deleted

def Store.Distinct (s : Store) (c : UniqueConstraint) (typeName : Text) : Prop :=
  ∀ koid koid' ko ko', koid ≠ koid' → s.headObject koid = some ko →
    s.headObject koid' = some ko' → ko.live = true → ko'.live = true →
    clash c typeName ko.holding ko'.holding = false

def Unique (schemas : SchemaRegistry) (s : Store) : Prop :=
  ∀ typeName, ∀ c ∈ constraintsOf schemas typeName, c.mode = .enforced → s.Distinct c typeName

/-! ## What is compared -/

def UniqueConstraint.finds (d c : UniqueConstraint) : Bool :=
  d.properties = c.properties && d.scope = c.scope && d.mode.stops

/-- Some constraint of the type of a write compares it with the stored objects. -/
def comparesStored (schemas : SchemaRegistry) (c : UniqueConstraint) (batched : Bool)
    (typeName : Text) (written : List Text) : Bool :=
  (constraintsOf schemas typeName).any fun d =>
    d.finds c && (batched && d.timing = .deferred || d.affected written)

def comparesBatch (schemas : SchemaRegistry) (c : UniqueConstraint) (typeName other : Text) :
    Bool :=
  (constraintsOf schemas typeName).zipIdx.any fun di =>
    di.1.finds c && di.1.timing = .deferred &&
      (constraintsOf schemas other)[di.2]?.any fun e => e.finds c && e.timing = .deferred

def stays (c : UniqueConstraint) (typeName : Text) (head : Option KnowledgeObject)
    (req : RememberRequest) : Bool :=
  head.any fun old => sharesScope c.scope typeName old.metadata req.metadata &&
    c.properties.all fun p => p ∉ writeSet head req.properties

/-- The version a request asks for is not deleted and has values for a constraint. -/
def concerned (s : Store) (c : UniqueConstraint) (typeName : Text)
    (target : Koid × RememberRequest) : Bool :=
  (s.headObject target.1).all KnowledgeObject.live &&
    clash c typeName target.2.holding target.2.holding

/-- A request brings an object into the scope of a constraint, or changes its values. -/
def enters (s : Store) (c : UniqueConstraint) (typeName : Text)
    (target : Koid × RememberRequest) : Bool :=
  concerned s c typeName target && !stays c typeName (s.headObject target.1) target.2

/-- The stored objects have other values than a request. -/
def freeOfConflict (s : Store) (c : UniqueConstraint) (target : Koid × RememberRequest) : Bool :=
  (presentPairs target.2.properties c.properties).all fun pairs =>
    !uniquenessConflict s c.scope target.2.metadata.tenant target.2.metadata.typeName pairs target.1

/-- A call whose objects are committed together. -/
def Call.batched : Call → Bool
  | .transact _ _ _ => true
  | _ => false

/-- The values of a constraint are stored as they are and not encrypted. -/
def Plain (S : Settings) (c : UniqueConstraint) : Call → Prop
  | .remember req =>
    match S.encrypt req.context.tenant req.metadata.typeName req.properties with
    | .ok properties => ∀ p ∈ c.properties, properties[p]? = req.properties[p]?
    | .error _ => True
  | _ => True

/-- What a call brings into the scope of a constraint is compared with the stored objects and with
    the rest of the batch, or has no conflict there. -/
@[mk_iff] structure Compared (S : Settings) (s : Store) (io : Ambient) (c : UniqueConstraint)
    (typeName : Text) (call : Call) : Prop where
  plain : Plain S c call
  stored : ∀ x ∈ call.targets io, enters s c typeName x = true →
    comparesStored S.schemas c call.batched x.2.metadata.typeName
        (writeSet (s.headObject x.1) x.2.properties) = true ∨
      freeOfConflict s c x = true
  batch : ∀ x ∈ call.targets io, ∀ y ∈ call.targets io, x.1 ≠ y.1 →
    enters s c typeName x = true → enters s c typeName y = true →
    comparesBatch S.schemas c x.2.metadata.typeName y.2.metadata.typeName = true ∨
      clash c typeName x.2.holding y.2.holding = false

instance (S : Settings) (c : UniqueConstraint) : ∀ call, Decidable (Plain S c call)
  | .remember req =>
    match h : S.encrypt req.context.tenant req.metadata.typeName req.properties with
    | .ok properties =>
      decidable_of_iff (∀ p ∈ c.properties, properties[p]? = req.properties[p]?)
        (by simp [Plain, h])
    | .error _ => isTrue (by simp [Plain, h])
  | .transact .. => isTrue trivial
  | .evolve .. => isTrue trivial
  | .forget .. => isTrue trivial
  | .recordAudit _ => isTrue trivial

instance (S : Settings) (s : Store) (io : Ambient) (c : UniqueConstraint) (typeName : Text)
    (call : Call) : Decidable (Compared S s io c typeName call) :=
  decidable_of_iff' _ (compared_iff S s io c typeName call)

/-! ## What the checks have excluded -/

theorem inScope_of_sharesScope {a b : Metadata} (h : sharesScope scope typeName a b = true) :
    inScope scope a.tenant a.typeName b = true := by
  cases scope with
  | type =>
    simp only [sharesScope, Bool.and_eq_true, decide_eq_true_eq] at h
    simp [inScope, h.1, h.2]
  | tenant =>
    simp only [sharesScope, Bool.and_eq_true, decide_eq_true_eq] at h
    obtain ⟨t, ht⟩ := Option.isSome_iff_exists.mp h.1
    simp [inScope, ht, ← h.2]
  | global => rfl

theorem clash_eq_false_of_noConflict (hs : s.Coherent) {c : UniqueConstraint} {typeName : Text}
    {a : Holding} {koid : Koid} {ko : KnowledgeObject} (hne : koid' ≠ koid)
    (hko : s.headObject koid' = some ko) (hlive : ko.live = true)
    (h : ∀ pairs, presentPairs a.properties c.properties = some pairs →
      uniquenessConflict s c.scope a.metadata.tenant a.metadata.typeName pairs koid = false) :
    clash c typeName a ko.holding = false := by
  by_contra hclash
  rw [Bool.not_eq_false, clash_iff] at hclash
  obtain ⟨hscope, hvalues⟩ := hclash
  obtain ⟨pairs, hpairs, hholds⟩ := exists_pairs hvalues
  have hnone := h pairs hpairs
  rw [uniquenessConflict, any_eq_false] at hnone
  have hrow := (hs.head hko).1
  refine hnone _ (Std.ExtTreeMap.mem_toList_iff_getElem?_eq_some.mpr hrow) ?_
  have hstate : ko.lifecycle.state ≠ .deleted := by simpa [KnowledgeObject.live] using hlive
  have hinScope : inScope c.scope a.metadata.tenant a.metadata.typeName ko.metadata = true :=
    inScope_of_sharesScope hscope
  have hholds' : holdsPairs ko.properties pairs = true := hholds
  simp [hne, hstate, hko, hinScope, hholds']

theorem apart_of_stays {c : UniqueConstraint} {old : KnowledgeObject} {req : RememberRequest}
    {b : Holding} (hstays : stays c typeName (some old) req = true)
    (hapart : clash c typeName old.holding b = false) : clash c typeName req.holding b = false := by
  rw [stays, Option.any_some, Bool.and_eq_true, all_eq_true] at hstays
  rw [← Bool.not_eq_true] at hapart ⊢
  refine fun h => hapart (clash_trans ?_ h)
  rw [clash_iff]
  refine ⟨hstays.1, ?_⟩
  intro p hp
  obtain ⟨v, w, hv, -, -, hnull⟩ := sharesValue_iff.mp ((clash_iff.mp h).2 p hp)
  have hv : req.properties[p]? = some v := hv
  -- The write does not touch the property, so the version before has the same value.
  have hkept : p ∉ writeSet (some old) req.properties := by simpa using hstays.2 p hp
  have hmem : p ∈ req.properties := by
    rw [Std.ExtTreeMap.mem_iff_isSome_getElem?, hv]
    rfl
  have hsame := sameField_of_notMem_writeSet hkept hmem
  rw [hv] at hsame
  cases hold : old.properties[p]? with
  | none => simp [hold, sameField] at hsame
  | some u =>
    rw [hold, sameField] at hsame
    refine sharesValue_iff.mpr ⟨u, v, hold, hv, hsame, ?_⟩
    exact ne_null_of_same (Value.same_symm u v hsame) hnull

section

variable {S : Settings} {auth : AuthManager} {st : State} {io : Ambient} {call : Call}
  {o : Outcome} {c d : UniqueConstraint}

theorem deferred_entries {ops : List TransactionOp} {resolved : List Resolved}
    {pending : List Pending}
    (h : prepareOps (S.admission auth) st io ops = .ok (resolved, pending))
    {target : Koid × TransactionOp} (htarget : target ∈ opTargets io 0 ops) {i : Nat}
    (hd : (constraintsOf S.schemas target.2.request.metadata.typeName)[i]? = some d)
    (hstops : d.mode.stops = true) (htiming : d.timing = .deferred)
    (hpairs : presentPairs target.2.request.properties d.properties = some pairs) :
    ∃ e ∈ (pending.map Pending.ko).flatMap (collectDeferredUnique S.schemas),
      e = ⟨target.2.request.metadata.typeName, i, pairs, target.1, d.scope,
        target.2.request.metadata.tenant⟩ ∧ (e.mode S.schemas).stops = true := by
  obtain ⟨p, hp, r, -, rfl, -, security, -, rfl⟩ :=
    exists_right_of_forall₂ (prepareOps_targets h) htarget
  obtain ⟨hmem, hmode⟩ := mem_collectDeferredUnique (r.pending security).ko hd hstops htiming hpairs
  refine ⟨_, mem_flatMap.mpr ⟨_, mem_map_of_mem hp, hmem⟩, rfl, ?_⟩
  exact (congrArg EnforcementMode.stops hmode).trans hstops

theorem Staging.noConflict (h : Staging (S.admission auth) st io call o) (hst : st.store.Coherent)
    (htarget : target ∈ call.targets io)
    (hcompares : comparesStored S.schemas c call.batched target.2.metadata.typeName
      (writeSet (st.store.headObject target.1) target.2.properties) = true)
    (hpairs : presentPairs target.2.properties c.properties = some pairs) :
    uniquenessConflict st.store c.scope target.2.metadata.tenant target.2.metadata.typeName pairs
      target.1 = false := by
  rw [comparesStored, any_eq_true] at hcompares
  obtain ⟨d, hd, hfinds⟩ := hcompares
  simp only [UniqueConstraint.finds, Bool.and_eq_true, decide_eq_true_eq, Bool.or_eq_true] at hfinds
  obtain ⟨⟨⟨hproperties, hscope⟩, hstops⟩, hlooked⟩ := hfinds
  rw [← hproperties] at hpairs
  rw [← hscope]
  have hmode : d.mode ≠ .disabled := by
    intro hmode
    simp [EnforcementMode.stops, hmode] at hstops
  cases h with
  | @remember req draft hkeys hversion hdraft =>
    obtain rfl := mem_singleton.mp htarget
    have haffected : d.affected (writeSet (st.store.headObject (req.target io)) req.properties)
        = true := by
      simpa [Call.batched] using hlooked
    exact checkUniqueness_eq_ok (rememberDraft_eq_ok hdraft).unique hd hstops
      (by simp [UniqueConstraint.due, hmode, haffected]) hpairs
  | @transact ops schema txnId resolved pending hprepared =>
    obtain ⟨target, hop, rfl⟩ := mem_map.mp htarget
    by_cases htiming : d.timing = .deferred
    · -- A deferred constraint is looked at at the end.
      obtain ⟨i, hi⟩ := getElem?_of_mem hd
      obtain ⟨e, hmem, rfl, hblocks⟩ := deferred_entries hprepared hop hi hstops htiming hpairs
      have hclear := (deferredViolations_clear
        (checkDeferred_eq_ok (prepareOps_eq_ok hprepared).2.2.2).1).2 _ hmem
      rw [hblocks] at hclear
      simpa using hclear
    · obtain ⟨p, -, r, -, rfl, hagainst, security, hsecurity, -⟩ :=
        exists_right_of_forall₂ (prepareOps_targets hprepared) hop
      have hunique := (opSecurity_eq_ok hsecurity).unique
      rw [hagainst.base hst] at hunique
      have haffected : d.affected (writeSet (st.store.headObject r.koid)
          r.op.request.properties) = true := by
        simpa [Call.batched, htiming] using hlooked
      exact checkUniqueness_eq_ok hunique hd hstops
        (by simp [UniqueConstraint.due, hmode, haffected, htiming]) hpairs
  | _ => cases htarget

theorem clashes_of_shares {a b : Metadata} {i : Nat}
    (hscope : sharesScope scope typeName a b = true) (hpairs : pairsMatch ps qs = true) :
    DeferredUnique.clashes ⟨a.typeName, i, ps, koid, scope, a.tenant⟩
      ⟨b.typeName, i, qs, koid', scope, b.tenant⟩ = true := by
  cases scope with
  | type =>
    simp only [sharesScope, Bool.and_eq_true, decide_eq_true_eq] at hscope
    simp [DeferredUnique.clashes, hpairs, hscope.1, hscope.2]
  | tenant =>
    simp only [sharesScope, Bool.and_eq_true, decide_eq_true_eq] at hscope
    obtain ⟨t, ht⟩ := Option.isSome_iff_exists.mp hscope.1
    simp [DeferredUnique.clashes, hpairs, ht, ← hscope.2]
  | global => simp [DeferredUnique.clashes, hpairs]

/-- Not both of two entries would have found the other. -/
def DeferredUnique.Apart (schemas : SchemaRegistry) (a b : DeferredUnique) : Prop :=
  ¬((a.clashes b = true ∧ (a.mode schemas).stops = true) ∧
    b.clashes a = true ∧ (b.mode schemas).stops = true)

instance (schemas : SchemaRegistry) : Std.Symm (DeferredUnique.Apart schemas) where
  symm _ _ h hboth := h ⟨hboth.2, hboth.1⟩

theorem Staging.noClash (h : Staging (S.admission auth) st io call o) (hx : x ∈ call.targets io)
    (hy : y ∈ call.targets io) (hne : x.1 ≠ y.1)
    (hcompares : comparesBatch S.schemas c x.2.metadata.typeName y.2.metadata.typeName = true) :
    clash c typeName x.2.holding y.2.holding = false := by
  rw [comparesBatch, any_eq_true] at hcompares
  obtain ⟨⟨d, i⟩, hd, hfinds⟩ := hcompares
  simp only [UniqueConstraint.finds, Bool.and_eq_true, decide_eq_true_eq, Option.any_eq_true]
    at hfinds
  obtain ⟨⟨⟨⟨hproperties, hscope⟩, hstops⟩, htiming⟩, e, he, ⟨⟨hproperties', hscope'⟩, hstops'⟩,
    htiming'⟩ := hfinds
  by_contra hclash
  rw [Bool.not_eq_false] at hclash
  have hclash' := clash_symm hclash
  obtain ⟨ps, hps, -⟩ := exists_pairs (clash_iff.mp hclash).2
  obtain ⟨qs, hqs, -⟩ := exists_pairs (clash_iff.mp hclash').2
  cases h with
  | remember hkeys hversion hdraft =>
    rw [mem_singleton.mp hx, mem_singleton.mp hy] at hne
    exact hne rfl
  | transact hprepared =>
    obtain ⟨x, hopx, rfl⟩ := mem_map.mp hx
    obtain ⟨y, hopy, rfl⟩ := mem_map.mp hy
    obtain ⟨ex, hex, rfl, hblocks⟩ := deferred_entries hprepared hopx
      (mem_zipIdx_iff_getElem?.mp hd) hstops htiming (hproperties ▸ hps)
    obtain ⟨ey, hey, rfl, hblocks'⟩ := deferred_entries hprepared hopy he hstops' htiming'
      (hproperties' ▸ hqs)
    -- One of the two comes first in the batch, and would have found the other.
    have hpairwise := (deferredViolations_clear
      (checkDeferred_eq_ok (prepareOps_eq_ok hprepared).2.2.2).1).1
    have hapart : List.Pairwise (DeferredUnique.Apart S.schemas) _ :=
      hpairwise.imp fun hab hboth => by simp [hab hboth.1.1] at hboth
    refine hapart.forall hex hey (fun heq => hne (congrArg DeferredUnique.koid heq))
      ⟨⟨?_, hblocks⟩, ?_, hblocks'⟩
    · rw [hscope, hscope']
      exact clashes_of_shares (clash_iff.mp hclash).1
        (pairsMatch_of_shares (clash_iff.mp hclash).2 hps hqs)
    · rw [hscope, hscope']
      exact clashes_of_shares (clash_iff.mp hclash').1
        (pairsMatch_of_shares (clash_iff.mp hclash').2 hqs hps)
  | _ => cases hx

/-! ## One call -/

theorem Staging.holds (h : Staging (S.admission auth) st io call o) (hcall : call.isRequest = true)
    (hplain : Plain S c call) (hko : ko ∈ o.kos) :
    ∃ target ∈ call.targets io, Requested st.store target ko ∧
      ∀ p ∈ c.properties, ko.properties[p]? = target.2.properties[p]? := by
  cases h with
  | @remember req draft hkeys hversion hdraft =>
    obtain rfl := mem_singleton.mp hko
    refine ⟨_, mem_singleton_self _, ⟨rfl, rfl, rfl⟩, ?_⟩
    have hencrypt := (rememberDraft_eq_ok hdraft).properties
    simp only [Plain, hencrypt] at hplain
    exact hplain
  | transact hprepared =>
    obtain ⟨p, hp, rfl⟩ := mem_map.mp hko
    obtain ⟨target, htarget, r, -, rfl, hagainst, security, -, rfl⟩ :=
      exists_of_forall₂ (prepareOps_targets hprepared) hp
    refine ⟨_, mem_map_of_mem htarget, ⟨rfl, rfl, ?_⟩, fun _ _ => rfl⟩
    rw [← hagainst.head]
    rfl
  | schema row => cases hko
  | _ => cases hcall

theorem Requested.live (h : Requested s target ko) (hlive : ko.live = true) :
    (s.headObject target.1).all KnowledgeObject.live = true := by
  rw [KnowledgeObject.live, h.lifecycle] at hlive
  cases hhead : s.headObject target.1 with
  | none => rfl
  | some head => simpa [hhead, KnowledgeObject.live] using hlive

section

variable (h : Compared S st.store io c typeName call)
include h

theorem Compared.stored_apart (hstaging : Staging (S.admission auth) st io call o)
    (hst : st.store.Coherent) (hdistinct : st.store.Distinct c typeName)
    (hx : x ∈ call.targets io) (hlive : (st.store.headObject x.1).all KnowledgeObject.live = true)
    (hne : koid ≠ x.1) (hko : st.store.headObject koid = some ko) (hkolive : ko.live = true) :
    clash c typeName x.2.holding ko.holding = false := by
  by_cases hstays : stays c typeName (st.store.headObject x.1) x.2 = true
  · -- It is as far from the others as the version it replaces.
    cases hold : st.store.headObject x.1 with
    | none => simp [hold, stays] at hstays
    | some old =>
      rw [hold] at hstays hlive
      exact apart_of_stays hstays (hdistinct x.1 koid old ko hne.symm hold hko hlive hkolive)
  · by_contra hclash
    rw [Bool.not_eq_false] at hclash
    have henters : enters st.store c typeName x = true := by
      simp [enters, concerned, hlive, clash_self hclash, hstays]
    refine Bool.false_ne_true (Eq.trans (Eq.symm ?_) hclash)
    refine clash_eq_false_of_noConflict hst hne hko hkolive fun pairs hpairs => ?_
    rcases h.stored x hx henters with hcompares | hfree
    · exact hstaging.noConflict hst hx hcompares hpairs
    · have hpairs : presentPairs x.2.properties c.properties = some pairs := hpairs
      rw [freeOfConflict, hpairs, Option.all_some, Bool.not_eq_true'] at hfree
      exact hfree

theorem Compared.batch_apart (hstaging : Staging (S.admission auth) st io call o)
    (hst : st.store.Coherent) (hdistinct : st.store.Distinct c typeName)
    (hx : x ∈ call.targets io) (hy : y ∈ call.targets io) (hne : x.1 ≠ y.1)
    (hxlive : (st.store.headObject x.1).all KnowledgeObject.live = true)
    (hylive : (st.store.headObject y.1).all KnowledgeObject.live = true) :
    clash c typeName x.2.holding y.2.holding = false := by
  by_contra hclash
  rw [Bool.not_eq_false] at hclash
  -- If one of them stays, the other one is compared with the version it replaces.
  have hstaying : ∀ {x y : Koid × RememberRequest}, y ∈ call.targets io → x.1 ≠ y.1 →
      (st.store.headObject x.1).all KnowledgeObject.live = true →
      (st.store.headObject y.1).all KnowledgeObject.live = true →
      clash c typeName x.2.holding y.2.holding = true →
      ¬stays c typeName (st.store.headObject x.1) x.2 = true := by
    intro x y hy hne hxlive hylive hclash hstays
    cases hold : st.store.headObject x.1 with
    | none => simp [hold, stays] at hstays
    | some old =>
      rw [hold] at hstays hxlive
      have hapart := h.stored_apart hstaging hst hdistinct hy hylive hne hold hxlive
      rw [clash_comm] at hapart
      exact Bool.false_ne_true ((apart_of_stays hstays hapart).symm.trans hclash)
  have hxenters : enters st.store c typeName x = true := by
    simp [enters, concerned, hxlive, clash_self hclash, hstaying hy hne hxlive hylive hclash]
  have hyenters : enters st.store c typeName y = true := by
    simp [enters, concerned, hylive, clash_self (clash_symm hclash),
      hstaying hx hne.symm hylive hxlive (clash_symm hclash)]
  rcases h.batch x hx y hy hne hxenters hyenters with hcompares | hapart
  · exact Bool.false_ne_true ((hstaging.noClash hx hy hne hcompares).symm.trans hclash)
  · exact Bool.false_ne_true (hapart.symm.trans hclash)

theorem Compared.distinct {C : Crypto} {hlc : Nat} {batch : WriteBatch} {pipe : Pipeline}
    {tenants : Std.ExtTreeMap Text Nat} {reply : Reply} {ts : Nat} {change : Change}
    (hc : Commits (S.admission auth) C st io call hlc batch pipe tenants reply ts change o)
    (hcall : call.isRequest = true) (hst : st.store.Coherent)
    (hdistinct : st.store.Distinct c typeName) :
    (st.store.writeBatch batch).Distinct c typeName := by
  -- A version that is new is that of a request, and clashes with what the request does.
  have hnew : ∀ {asked : KnowledgeObject} {seq : Nat} {kind : EventKind}, asked ∈ o.kos →
      (asked.committed seq kind ts).live = true →
      ∃ x ∈ call.targets io, x.1 = asked.koid ∧
        (st.store.headObject x.1).all KnowledgeObject.live = true ∧
        ∀ b, clash c typeName (asked.committed seq kind ts).holding b
          = clash c typeName x.2.holding b := by
    intro asked seq kind hasked hlive
    obtain ⟨x, hx, hrequested, hproperties⟩ := hc.staging.holds hcall h.plain hasked
    exact ⟨x, hx, hrequested.koid.symm, hrequested.live hlive,
      fun b => clash_congr hrequested.metadata hproperties⟩
  intro koid koid' ko ko' hne hko hko' hlive hlive'
  rcases hc.head_cases hko with ⟨asked, hasked, rfl, seq, kind, rfl⟩ | ⟨-, -, hhead⟩
  · obtain ⟨x, hx, hxkoid, hxlive, hxclash⟩ := hnew hasked hlive
    rw [hxclash]
    rcases hc.head_cases hko' with ⟨asked', hasked', rfl, seq', kind', rfl⟩ | ⟨-, -, hhead'⟩
    · obtain ⟨y, hy, hykoid, hylive, hyclash⟩ := hnew hasked' hlive'
      rw [clash_comm, hyclash, clash_comm]
      exact h.batch_apart hc.staging hst hdistinct hx hy (by rw [hxkoid, hykoid]; exact hne)
        hxlive hylive
    · exact h.stored_apart hc.staging hst hdistinct hx hxlive (by rw [hxkoid]; exact hne.symm)
        hhead' hlive'
  · rcases hc.head_cases hko' with ⟨asked', hasked', rfl, seq', kind', rfl⟩ | ⟨-, -, hhead'⟩
    · obtain ⟨y, hy, hykoid, hylive, hyclash⟩ := hnew hasked' hlive'
      rw [clash_comm, hyclash]
      exact h.stored_apart hc.staging hst hdistinct hy hylive (by rw [hykoid]; exact hne) hhead
        hlive
    · exact hdistinct koid koid' ko ko' hne hhead hhead' hlive hlive'

end

end

/-! ## Runs -/

section

variable (S : Settings) (C : Crypto)

/-- A request whose batch is written compares what it brings into the scope of each enforced
    constraint. -/
def Turn.Compares (g : Guarded) (turn : Turn) : Prop :=
  turn.call.isRequest = true ∧ (g.writes S C turn = true →
    ∀ row ∈ S.schemas.toList, ∀ c ∈ row.2.uniqueConstraints, c.mode = .enforced →
      Compared S g.st.store turn.io c row.1 turn.call)
  deriving Decidable

/-- If everything that enters the scope of an enforced constraint is compared with what is
    there, the values are unique in every state. -/
theorem unique_kept {g : Guarded}
    (h : Runs.Reaches (Guarded.turn S C) (Turn.Compares S C) Guarded.initial g) :
    Unique S.schemas g.st.store := by
  refine Guarded.store_invariant Store.coherent_empty ?_ ?_ h
  · intro typeName c hc hmode koid koid' ko ko' hne hko
    cases hko
  · rintro g turn _ _ _ _ _ _ _ _ hst hunique ⟨hcall, hcompares⟩ hwrites hc typeName c hmem hmode
    have hcompared : Compared S g.st.store turn.io c typeName turn.call := by
      unfold constraintsOf at hmem
      cases hschema : S.schemas[typeName]? with
      | none => simp [hschema] at hmem
      | some schema =>
        rw [hschema] at hmem
        exact hcompares hwrites (typeName, schema)
          (Std.ExtTreeMap.mem_toList_iff_getElem?_eq_some.mpr hschema) c hmem hmode
    exact hcompared.distinct hc hcall hst (hunique typeName c hmem hmode)

end

/-! ## Runs with mail addresses -/

namespace Uniqueness

open Samples

def email : Text := utf8 "email"

def constraint (scope : UniquenessScope) (timing : ConstraintTiming) : UniqueConstraint :=
  ⟨[email], scope, timing, .enforced⟩

def schemas (scope : UniquenessScope) (timing : ConstraintTiming) : SchemaRegistry :=
  (∅ : SchemaRegistry).insert (utf8 "user") ⟨[constraint scope timing]⟩

def holder (koid : Koid) (typeName tenant address : String) : RememberRequest :=
  { RememberRequest.create ann ⟨utf8 typeName, some (utf8 tenant), 0, []⟩ with
    koid := some koid
    properties := (∅ : PropertyMap).insert email (.text (utf8 address)) }

def moved (req : RememberRequest) : RememberRequest :=
  { req with expectedVersion := none }

/-- Two users in a batch with one address, then two with different ones, one that takes an
    address that is given away, and one that is moved to another tenant. -/
def registrations : List Call :=
  [.transact [⟨ann, holder 1 "user" "a" "x"⟩, ⟨ann, holder 2 "user" "a" "x"⟩] none none,
    .transact [⟨ann, holder 1 "user" "a" "x"⟩, ⟨ann, holder 2 "user" "a" "y"⟩] none none,
    .remember (holder 3 "user" "a" "y"), .remember (moved (holder 2 "user" "a" "z"))]

theorem registrations_unique :
    ∃ g, Runs.run (Guarded.turn (.basic ∅ (schemas .type .deferred)) (.unsigned Sha256.fips180))
        Guarded.initial (spaced registrations) = some g ∧
      g.st.pipe.seq = 3 ∧ Unique (schemas .type .deferred) g.st.store := by
  exact Runs.exists_run (P := fun g => g.st.pipe.seq = 3) (by decide +kernel)
    (by decide +kernel) fun g hreach hseq =>
    ⟨hseq, unique_kept (.basic ∅ (schemas .type .deferred)) (.unsigned Sha256.fips180) hreach⟩

/-- Behind some requests two objects have the same address. -/
def Collides (scope : UniquenessScope) (timing : ConstraintTiming) (calls : List Call) : Prop :=
  ∃ g, Runs.run (Guarded.turn (.basic ∅ (schemas scope timing)) (.unsigned Sha256.fips180))
      Guarded.initial (spaced calls) = some g ∧
    (∀ call ∈ calls, call.isRequest = true) ∧ ¬Unique (schemas scope timing) g.st.store

def collision (scope : UniquenessScope) (timing : ConstraintTiming) (g : Guarded) : Bool :=
  (g.st.store.headObject 1).any fun a => (g.st.store.headObject 2).any fun b =>
    a.live && b.live && clash (constraint scope timing) (utf8 "user") a.holding b.holding

theorem collides_of_run {scope : UniquenessScope} {timing : ConstraintTiming} {calls : List Call}
    (hrun : ∃ g, Runs.run (Guarded.turn (.basic ∅ (schemas scope timing))
      (.unsigned Sha256.fips180)) Guarded.initial (spaced calls) = some g ∧
      collision scope timing g = true)
    (hcalls : ∀ call ∈ calls, call.isRequest = true) : Collides scope timing calls := by
  obtain ⟨g, hg, hcollision⟩ := hrun
  refine ⟨g, hg, hcalls, fun hunique => ?_⟩
  simp only [collision, Option.any_eq_true, Bool.and_eq_true] at hcollision
  obtain ⟨a, ha, b, hb, ⟨halive, hblive⟩, hclash⟩ := hcollision
  have hmem : constraint scope timing ∈ constraintsOf (schemas scope timing) (utf8 "user") := by
    simp [constraintsOf, schemas]
  have hapart := hunique _ _ hmem rfl 1 2 a b (by decide) ha hb halive hblive
  rw [hclash] at hapart
  cases hapart

/-- Two users of one batch; a user that was an account before; an account, to which a
    constraint on users does not apply; a user that comes from another tenant. -/
theorem unique_violated : Collides .type .immediate [.transact [⟨ann, holder 1 "user" "a" "x"⟩,
        ⟨ann, holder 2 "user" "a" "x"⟩] none none] ∧
      Collides .type .immediate [.remember (holder 1 "user" "a" "x"),
        .remember (holder 2 "account" "a" "x"), .remember (moved (holder 2 "user" "a" "x"))] ∧
      Collides .global .immediate [.remember (holder 1 "user" "a" "x"),
        .remember (holder 2 "account" "a" "x")] ∧
      Collides .tenant .immediate [.remember (holder 1 "user" "a" "x"),
        .remember (holder 2 "user" "b" "x"), .remember (moved (holder 2 "user" "a" "x"))] := by
  refine ⟨?_, ?_, ?_, ?_⟩ <;> exact collides_of_run (by decide +kernel) (by simp [Call.isRequest])

end Uniqueness

end Aikoql.Kernel
