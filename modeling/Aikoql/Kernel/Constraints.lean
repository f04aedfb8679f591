import Aikoql.Kernel.Calls
import Aikoql.Kernel.Values

/-!
# Unique Constraints

How the kernel looks for two objects with the same values.

A constraint belongs to the schema of a type and names properties whose values may
occur once, among the objects of the type, among those of a tenant, or everywhere. It
is looked at when an object of the type is written: the values of the object are
compared with those of every stored head in reach of the constraint that is not
deleted. A constraint none of whose properties a write touches is skipped.

Within a transaction a deferred constraint is looked at once all objects are known, and
then the objects of the batch are compared with each other too. An immediate one is
looked at object by object, and sees nothing of the batch.

A constraint that is only advisory records what it finds and stops nothing.
-/

namespace Aikoql.Kernel

open List Option

variable {pairs : List (Text × Value)}

inductive UniquenessScope where
  | type
  | tenant
  | global
  deriving DecidableEq

inductive ConstraintTiming where
  | immediate
  | deferred
  deriving DecidableEq

inductive EnforcementMode where
  | enforced
  | validated
  | advisory
  | disabled
  deriving DecidableEq

/-- Properties whose values may occur once. -/
structure UniqueConstraint where
  properties : List Text
  scope : UniquenessScope
  timing : ConstraintTiming
  mode : EnforcementMode
  deriving DecidableEq

/-- The schema of a type, as far as uniqueness goes. -/
structure Schema where
  uniqueConstraints : List UniqueConstraint

/-- The schemas that are registered, by type. -/
abbrev SchemaRegistry := Std.ExtTreeMap Text Schema

/-! ## Stored objects -/

def inScope (scope : UniquenessScope) (tenant : Option Text) (typeName : Text)
    (existing : Metadata) : Bool :=
  match scope with
  | .type => existing.typeName = typeName
  | .tenant =>
    match tenant with
    | some t => existing.tenant = some t
    | none => false
  | .global => true

/-- An object has given values. -/
def holdsPairs (properties : PropertyMap) (pairs : List (Text × Value)) : Bool :=
  pairs.all fun p =>
    match properties[p.1]? with
    | some v => v.same p.2
    | none => false

def uniquenessConflict (s : Store) (scope : UniquenessScope) (tenant : Option Text)
    (typeName : Text) (pairs : List (Text × Value)) (exclude : Koid) : Bool :=
  s.heads.toList.any fun kh =>
    kh.1 ≠ exclude && kh.2.state ≠ .deleted && match s.headObject kh.1 with
      | none => false
      | some existing =>
        inScope scope tenant typeName existing.metadata && holdsPairs existing.properties pairs

/-! ## Object by object -/

def UniqueConstraint.affected (c : UniqueConstraint) (written : List Text) : Bool :=
  c.properties.any fun p => p ∈ written

def requiredPairs (properties : PropertyMap) (names : List Text) :
    Except KError (List (Text × Value)) :=
  names.mapM fun name =>
    match properties[name]? with
    | some v => .ok (name, v)
    | none => .error (.invalidSchema (utf8 "unique constraint requires property '" ++ name ++
        utf8 "' but it is missing"))

def UniqueConstraint.check (c : UniqueConstraint) (s : Store) (ko : KnowledgeObject) :
    Except KError Unit := do
  let pairs ← requiredPairs ko.properties c.properties
  ensure (¬(uniquenessConflict s c.scope ko.metadata.tenant ko.metadata.typeName pairs ko.koid ∧
      c.mode ≠ .advisory))
    (.invalidSchema (utf8 "uniqueness constraint violated: (" ++
      joinText (utf8 ", ") c.properties ++ utf8 ") already exists"))

/-- The constraint is looked at now, for a write that touches given properties. -/
def UniqueConstraint.due (c : UniqueConstraint) (skipDeferred : Bool) (written : List Text) :
    Bool :=
  c.mode ≠ .disabled && !(skipDeferred && c.timing = .deferred) && c.affected written

def checkUniqueness (schemas : SchemaRegistry) (s : Store) (ko : KnowledgeObject)
    (skipDeferred : Bool) (written : List Text) : Except KError Unit :=
  match schemas[ko.metadata.typeName]? with
  | none => .ok ()
  | some schema => schema.uniqueConstraints.forM fun c =>
    if c.due skipDeferred written then c.check s ko else .ok ()

/-! ## At the end of a transaction -/

/-- What a deferred constraint has to look at: the constraint by its position, and the
    values, id and tenant of an object. -/
structure DeferredUnique where
  typeName : Text
  index : Nat
  pairs : List (Text × Value)
  koid : Koid
  scope : UniquenessScope
  tenant : Option Text

def presentPairs (properties : PropertyMap) (names : List Text) : Option (List (Text × Value)) :=
  names.mapM fun name => properties[name]?.map fun v => (name, v)

def collectDeferredUnique (schemas : SchemaRegistry) (ko : KnowledgeObject) : List DeferredUnique :=
  match schemas[ko.metadata.typeName]? with
  | none => []
  | some schema => schema.uniqueConstraints.zipIdx.filterMap fun ci =>
    if ci.1.timing = .deferred ∧ ci.1.mode ≠ .disabled then
      (presentPairs ko.properties ci.1.properties).map fun pairs =>
        ⟨ko.metadata.typeName, ci.2, pairs, ko.koid, ci.1.scope, ko.metadata.tenant⟩
    else none

def pairsMatch : List (Text × Value) → List (Text × Value) → Bool
  | [], [] => true
  | (n, v) :: as, (m, w) :: bs => decide (n = m) && v.same w && pairsMatch as bs
  | _, _ => false

/-- Two entries of a batch are in each other's way. -/
def DeferredUnique.clashes (a b : DeferredUnique) : Bool :=
  a.index = b.index && pairsMatch a.pairs b.pairs && match a.scope with
    | .type => a.typeName = b.typeName
    | .tenant =>
      match a.tenant, b.tenant with
      | some t, some u => t = u
      | _, _ => false
    | .global => true

structure Violation where
  constraintName : Text
  message : Text
  mode : EnforcementMode

def DeferredUnique.mode (schemas : SchemaRegistry) (d : DeferredUnique) : EnforcementMode :=
  ((schemas[d.typeName]?.bind fun schema => schema.uniqueConstraints[d.index]?).map
    UniqueConstraint.mode).getD .enforced

/-- A finding about an entry; `what` says what was found. -/
def DeferredUnique.violation (schemas : SchemaRegistry) (d : DeferredUnique) (what : Text) :
    Violation where
  constraintName := d.typeName ++ utf8 ".unique(" ++
    joinText (utf8 ",") (d.pairs.map Prod.fst) ++ utf8 ")"
  message := utf8 "deferred uniqueness violated: (" ++
    joinText (utf8 ", ") (d.pairs.map Prod.fst) ++ utf8 ") " ++ what
  mode := d.mode schemas

def deferredViolations (schemas : SchemaRegistry) (s : Store) : List DeferredUnique → List Violation
  | [] => []
  | d :: ds =>
    (ds.filter fun e => d.clashes e).map
        (fun _ => d.violation schemas (utf8 "conflicts within batch")) ++
      (if uniquenessConflict s d.scope d.tenant d.typeName d.pairs d.koid then
        [d.violation schemas (utf8 "already exists")] else []) ++
      deferredViolations schemas s ds

/-- The findings that stop a write, and those that are recorded only. -/
def Violation.blocks (v : Violation) : Bool :=
  v.mode = .enforced || v.mode = .validated

/-- Nothing was found that stops the write, or the message that names all findings. -/
def verdict (violations : List Violation) : Except KError Unit :=
  let blocking := violations.filter Violation.blocks
  let warnings := violations.filter fun v => v.mode = .advisory
  ensure (blocking = []) (.invalidSchema (joinText (utf8 "; ")
    (blocking.map (fun v => utf8 "[" ++ v.constraintName ++ utf8 "] " ++ v.message) ++
      warnings.map fun v => utf8 "[WARN:" ++ v.constraintName ++ utf8 "] " ++ v.message)))

def checkDeferred (schemas : SchemaRegistry) (s : Store) (kos : List KnowledgeObject)
    (others : List Violation) : Except KError Unit :=
  verdict (deferredViolations schemas s (kos.flatMap (collectDeferredUnique schemas)) ++ others)

/-! ## What a passed check says -/

theorem presentPairs_cons {properties : PropertyMap} {name : Text} {names : List Text} :
    presentPairs properties (name :: names) = some pairs ↔
      ∃ v rest, properties[name]? = some v ∧ presentPairs properties names = some rest ∧
        pairs = (name, v) :: rest := by
  simp only [presentPairs, mapM_cons, bind_eq_bind, bind_eq_some_iff,
    map_eq_some_iff, Option.pure_def, Option.some.injEq]
  constructor
  · rintro ⟨_, ⟨v, hv, rfl⟩, rest, hrest, rfl⟩
    exact ⟨v, rest, hv, hrest, rfl⟩
  · rintro ⟨v, rest, hv, hrest, rfl⟩
    exact ⟨_, ⟨v, hv, rfl⟩, rest, hrest, rfl⟩

theorem presentPairs_of_requiredPairs {properties : PropertyMap} {names : List Text}
    (h : requiredPairs properties names = .ok pairs) :
    presentPairs properties names = some pairs := by
  induction names generalizing pairs with
  | nil =>
    cases h
    rfl
  | cons name names ih =>
    simp only [requiredPairs, mapM_cons, bind_eq_ok, pure_eq_ok] at h
    obtain ⟨pair, hpair, rest, hrest, rfl⟩ := h
    rw [presentPairs_cons]
    cases hv : properties[name]? with
    | none => simp [hv] at hpair
    | some v =>
      rw [hv] at hpair
      cases hpair
      exact ⟨v, rest, rfl, ih hrest, rfl⟩

def constraintsOf (schemas : SchemaRegistry) (typeName : Text) : List UniqueConstraint :=
  (schemas[typeName]?.map Schema.uniqueConstraints).getD []

def EnforcementMode.stops (mode : EnforcementMode) : Bool :=
  mode = .enforced || mode = .validated

section

variable {schemas : SchemaRegistry} {s : Store} {c : UniqueConstraint}

theorem checkUniqueness_eq_ok {ko : KnowledgeObject} {skipDeferred : Bool} {written : List Text}
    (h : checkUniqueness schemas s ko skipDeferred written = .ok ())
    (hc : c ∈ constraintsOf schemas ko.metadata.typeName) (hstops : c.mode.stops = true)
    (hdue : c.due skipDeferred written = true)
    (hpairs : presentPairs ko.properties c.properties = some pairs) :
    uniquenessConflict s c.scope ko.metadata.tenant ko.metadata.typeName pairs ko.koid = false := by
  unfold constraintsOf at hc
  unfold checkUniqueness at h
  cases hschema : schemas[ko.metadata.typeName]? with
  | none => simp [hschema] at hc
  | some schema =>
    simp only [hschema, map_some, getD_some] at hc h
    have hcheck := forM_eq_ok _ _ h c hc
    rw [if_pos hdue] at hcheck
    simp only [UniqueConstraint.check, bind_eq_ok, ensure_eq_ok] at hcheck
    obtain ⟨pairs', hrequired, hnone⟩ := hcheck
    have hsame := presentPairs_of_requiredPairs hrequired
    rw [hpairs] at hsame
    cases hsame
    -- An advisory constraint lets a conflict through, but this one stops writes.
    have hmode : c.mode ≠ .advisory := by
      intro hmode
      simp [EnforcementMode.stops, hmode] at hstops
    simpa [hmode] using hnone

theorem mem_collectDeferredUnique (ko : KnowledgeObject) {i : Nat}
    (hc : (constraintsOf schemas ko.metadata.typeName)[i]? = some c) (hstops : c.mode.stops = true)
    (htiming : c.timing = .deferred) (hpairs : presentPairs ko.properties c.properties = some pairs) :
    ⟨ko.metadata.typeName, i, pairs, ko.koid, c.scope, ko.metadata.tenant⟩
        ∈ collectDeferredUnique schemas ko ∧
      (DeferredUnique.mk ko.metadata.typeName i pairs ko.koid c.scope ko.metadata.tenant).mode
        schemas = c.mode := by
  unfold constraintsOf at hc
  cases hschema : schemas[ko.metadata.typeName]? with
  | none => simp [hschema] at hc
  | some schema =>
    simp only [hschema, map_some, getD_some] at hc
    constructor
    · have hmode : c.mode ≠ .disabled := by
        intro hmode
        simp [EnforcementMode.stops, hmode] at hstops
      simp only [collectDeferredUnique, hschema, mem_filterMap]
      refine ⟨(c, i), ?_, ?_⟩
      · exact mem_zipIdx_iff_getElem?.mpr hc
      · simp [htiming, hmode, hpairs]
    · simp [DeferredUnique.mode, hschema, hc]

theorem deferredViolations_clear {ds : List DeferredUnique}
    (h : ∀ v ∈ deferredViolations schemas s ds, v.blocks = false) :
    ds.Pairwise (fun d e => d.clashes e = true → (d.mode schemas).stops = false) ∧
      ∀ d ∈ ds, uniquenessConflict s d.scope d.tenant d.typeName d.pairs d.koid = true →
        (d.mode schemas).stops = false := by
  induction ds with
  | nil => exact ⟨.nil, by simp⟩
  | cons d ds ih =>
    simp only [deferredViolations, mem_append] at h
    obtain ⟨hpairwise, hstored⟩ := ih fun v hv => h v (.inr hv)
    constructor
    · refine .cons ?_ hpairwise
      intro e he hclash
      exact h (d.violation schemas (utf8 "conflicts within batch"))
        (.inl (.inl (List.mem_map.mpr ⟨e, mem_filter.mpr ⟨he, hclash⟩, rfl⟩)))
    · refine forall_mem_cons.mpr ⟨?_, hstored⟩
      intro hconflict
      refine h (d.violation schemas (utf8 "already exists")) (.inl (.inr ?_))
      rw [if_pos hconflict]
      exact mem_singleton_self _

theorem verdict_eq_ok {violations : List Violation} (h : verdict violations = .ok ()) :
    ∀ v ∈ violations, v.blocks = false := by
  simpa only [verdict, ensure_eq_ok, filter_eq_nil_iff, Bool.not_eq_true] using h

theorem checkDeferred_eq_ok {kos : List KnowledgeObject} {others : List Violation}
    (h : checkDeferred schemas s kos others = .ok ()) :
    (∀ v ∈ deferredViolations schemas s (kos.flatMap (collectDeferredUnique schemas)),
      v.blocks = false) ∧ ∀ v ∈ others, v.blocks = false :=
  forall_mem_append.mp (verdict_eq_ok h)

end

end Aikoql.Kernel
