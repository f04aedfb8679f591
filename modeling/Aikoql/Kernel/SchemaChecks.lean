import Aikoql.Kernel.CheckExpressions
import Aikoql.Kernel.Checks

/-!
# Schema Checks

What a schema asks of an object, and when the kernel looks at it.

A schema says which properties an object of its type has and of which types they are. It
has rules about the values of properties: domain constraints on one of them, check
constraints that compare several, and windows, whose start must not be after their end. It
can ask for a recorded source, and bound the number of relationships that go out.

Types and required properties are looked at in every write. A rule about values is looked
at if the write touches a property the rule reads, and no rule is if it touches none at
all. `remember` looks at all kinds of rules and reports everything it finds. `transact`
looks at domain and check constraints, stops at the first finding, and leaves check
constraints that are deferred to the end.

A rule reads certain properties and does not tell values apart that the kernel takes for
equal. So a rule that a write does not touch comes out as it does on what was there before,
and that is nothing at all for an object that is created.

Regular expressions, and how a number is printed, are taken from elsewhere.
-/

namespace Aikoql.Kernel

open List

variable {mode : EnforcementMode} {rule : PropertyRule}
variable {head : Option KnowledgeObject} {vs : List Violation} {source : Option Text}

/-- What is taken from elsewhere. A regular expression is compiled, which can fail, and
    then captures parts of a text or does not match. -/
structure Primitives where
  floats : FloatOps
  showFloat : Nat → Text
  compile : Text → Except Text Unit
  captures : Text → Text → Option (List Text)

/-! ## Domain constraints -/

inductive DomainConstraint where
  | range (min max : Option Nat)
  | pattern (pattern : Text)
  | length (min max : Option Nat)
  | enum (values : List Value)
  | format (format : Text)

/-- A decimal number of 32 bits. -/
def parseU32 (t : Text) : Option Nat :=
  let digits := if t.head? = some 43 then t.tail else t
  let n := digits.foldl (fun n d => 10 * n + (d.val - 48)) 0
  if digits ≠ [] ∧ (digits.all fun d => decide (48 ≤ d.val ∧ d.val ≤ 57)) ∧ n < 2 ^ 32 then
    some n
  else none

def checkBound (bound : Option Nat) (keeps : Nat → Bool) (message : Nat → Text) :
    Except Text Unit :=
  match bound with
  | none => .ok ()
  | some limit => ensure (keeps limit = true) (message limit)

def checkRange (pr : Primitives) (min max : Option Nat) (n : Nat) : Except Text Unit := do
  checkBound min (fun limit => !pr.floats.lt n limit) fun limit =>
    utf8 "value " ++ pr.showFloat n ++ utf8 " is below minimum " ++ pr.showFloat limit
  checkBound max (fun limit => !pr.floats.lt limit n) fun limit =>
    utf8 "value " ++ pr.showFloat n ++ utf8 " exceeds maximum " ++ pr.showFloat limit

def checkLength (min max : Option Nat) (len : Nat) : Except Text Unit := do
  checkBound min (fun limit => decide (limit ≤ len)) fun limit =>
    utf8 "length " ++ decimal len ++ utf8 " is below minimum " ++ decimal limit
  checkBound max (fun limit => decide (len ≤ limit)) fun limit =>
    utf8 "length " ++ decimal len ++ utf8 " exceeds maximum " ++ decimal limit

def checkMatch (pr : Primitives) (pattern : String) (kind : Text) (s : Text) : Except Text Unit :=
  ensure ((pr.captures (utf8 pattern) s).isSome) (utf8 "'" ++ s ++ utf8 "' is not a valid " ++ kind)

def isDate (pr : Primitives) (s : Text) : Bool :=
  match pr.captures (utf8 "^(\\d\x7b4\x7d)-(\\d\x7b2\x7d)-(\\d\x7b2\x7d)$") s with
  | none => false
  | some caps =>
    let month := (caps[2]?.bind parseU32).getD 0
    let day := (caps[3]?.bind parseU32).getD 0
    1 ≤ month && month ≤ 12 && 1 ≤ day && day ≤ 31

def validateFormat (pr : Primitives) (format : Text) (value : Value) : Except Text Unit :=
  match value with
  | .text s =>
    if format = utf8 "email" then
      checkMatch pr "^[a-zA-Z0-9._%+-]+@[a-zA-Z0-9.-]+\\.[a-zA-Z]\x7b2,\x7d$" (utf8 "email") s
    else if format = utf8 "url" then
      checkMatch pr "^https?://[a-zA-Z0-9.-]+(:\\d+)?(/[^\\s]*)?$" (utf8 "URL") s
    else if format = utf8 "uuid" then
      checkMatch pr ("^[0-9a-fA-F]\x7b8\x7d-[0-9a-fA-F]\x7b4\x7d-[0-9a-fA-F]\x7b4\x7d-" ++
        "[0-9a-fA-F]\x7b4\x7d-[0-9a-fA-F]\x7b12\x7d$") (utf8 "UUID") s
    else if format = utf8 "date" then
      ensure (isDate pr s) (utf8 "'" ++ s ++ utf8 "' is not a valid date (YYYY-MM-DD)")
    else if format = utf8 "datetime" then
      checkMatch pr ("^\\d\x7b4\x7d-\\d\x7b2\x7d-\\d\x7b2\x7dT\\d\x7b2\x7d:\\d\x7b2\x7d:" ++
        "\\d\x7b2\x7d(\\.\\d+)?(Z|[+-]\\d\x7b2\x7d:\\d\x7b2\x7d)?$") (utf8 "datetime (ISO 8601)") s
    else .error (utf8 "unknown format: '" ++ format ++ utf8 "'")
  | other => .error (utf8 "Format constraint requires Text, got " ++ other.typeName)

def DomainConstraint.validate (pr : Primitives) (value : Value) :
    DomainConstraint → Except Text Unit
  | .range min max =>
    match value with
    | .int i => checkRange pr min max (pr.floats.ofInt i)
    | .float f => checkRange pr min max f
    | other => .error (utf8 "Range constraint requires numeric value, got " ++ other.typeName)
  | .pattern expr =>
    match value with
    | .text s =>
      match pr.compile expr with
      | .error e => .error (utf8 "invalid regex pattern '" ++ expr ++ utf8 "': " ++ e)
      | .ok () => ensure ((pr.captures expr s).isSome)
          (utf8 "value '" ++ s ++ utf8 "' does not match pattern '" ++ expr ++ utf8 "'")
    | other => .error (utf8 "Pattern constraint requires Text value, got " ++ other.typeName)
  | .length min max =>
    match value with
    | .text s => checkLength min max s.length
    | .bytes b => checkLength min max b.length
    | other => .error (utf8 "Length constraint requires Text or Bytes, got " ++ other.typeName)
  | .enum values => ensure (values.any fun v => v.same value)
      (utf8 "value is not one of the allowed enum values")
  | .format name => validateFormat pr name value

/-! ## Schemas -/

structure SchemaProperty where
  name : Text
  valueType : Text
  required : Bool
  nullable : Bool
  provenanceRequired : Bool
  domainConstraints : List DomainConstraint

structure CheckConstraint where
  name : Text
  predicate : CheckExpression
  timing : ConstraintTiming
  mode : EnforcementMode

structure CardinalityConstraint where
  name : Text
  relationshipType : Text
  minOutbound : Option Nat
  maxOutbound : Option Nat
  mode : EnforcementMode

structure TemporalConstraint where
  name : Text
  startProperty : Text
  endProperty : Text
  mode : EnforcementMode

/-- The schema of a type. What is required is allowed. -/
structure SchemaRules extends Schema where
  typeName : Text
  schemaVersion : Nat
  requiredProperties : List Text
  allowedProperties : Option (List Text)
  properties : List SchemaProperty
  checkConstraints : List CheckConstraint
  cardinalityConstraints : List CardinalityConstraint
  temporalConstraints : List TemporalConstraint
  allowed_required : ∀ allowed, allowedProperties = some allowed →
    ∀ name ∈ requiredProperties, name ∈ allowed

def SchemaRules.hasEnabledConstraints (r : SchemaRules) : Bool :=
  (r.properties.any fun p => !p.domainConstraints.isEmpty || p.provenanceRequired) ||
    (r.uniqueConstraints.any fun c => c.mode ≠ .disabled) ||
    (r.checkConstraints.any fun c => c.mode ≠ .disabled) ||
    (r.cardinalityConstraints.any fun c => c.mode ≠ .disabled) ||
    r.temporalConstraints.any fun c => c.mode ≠ .disabled

/-! ## Types and required properties -/

def Value.declaredTypes : Value → List Text
  | .null => []
  | .bool _ => [utf8 "Bool"]
  | .int _ => [utf8 "Int", utf8 "Float"]
  | .float _ => [utf8 "Float"]
  | .text _ => [utf8 "Text", utf8 "DateTime", utf8 "Json"]
  | .bytes _ => [utf8 "Bytes"]
  | .list _ => [utf8 "List"]
  | .map _ => [utf8 "Map", utf8 "Json"]

def Value.typeCheck (prop : SchemaProperty) : Value → Except Text Unit
  | .null => ensure (prop.nullable = true)
      (utf8 "property '" ++ prop.name ++ utf8 "' is not nullable but got Null")
  | value => ensure (prop.valueType ∈ value.declaredTypes)
      (utf8 "property '" ++ prop.name ++ utf8 "' type mismatch: expected " ++ prop.valueType ++
        utf8 ", got " ++ value.typeName)

def missingRequired (name : Text) : KError :=
  .invalidSchema (utf8 "missing required property: '" ++ name ++ utf8 "'")

def SchemaRules.validateAgainst (r : SchemaRules) (ko : KnowledgeObject) : Except KError Unit := do
  ensure (ko.metadata.typeName = r.typeName)
    (.invalidSchema (utf8 "type_name mismatch: expected '" ++ r.typeName ++ utf8 "', got '" ++
      ko.metadata.typeName ++ utf8 "'"))
  ensure (ko.metadata.schemaVersion = r.schemaVersion)
    (.invalidSchema (utf8 "schema_version mismatch: expected " ++ decimal r.schemaVersion ++
      utf8 ", got " ++ decimal ko.metadata.schemaVersion))
  r.requiredProperties.forM fun name =>
    ensure (ko.properties.contains name = true) (missingRequired name)
  match r.allowedProperties with
  | none => .ok ()
  | some allowed =>
    ko.properties.keys.forM fun key =>
      ensure (key ∈ allowed) (.invalidSchema (utf8 "unknown core field: '" ++ key ++ utf8 "'"))

def SchemaProperty.check (prop : SchemaProperty) (properties : PropertyMap) : Except KError Unit :=
  match properties[prop.name]? with
  | some value => (value.typeCheck prop).mapError .invalidSchema
  | none => ensure (prop.required = false) (missingRequired prop.name)

def SchemaRules.validate (r : SchemaRules) (ko : KnowledgeObject) : Except KError Unit := do
  r.validateAgainst ko
  r.properties.forM fun prop => prop.check ko.properties

/-! ## Rules about values -/

/-- Some of the names are touched by a write; all names are if it is not known what the
    write touches. -/
def affectedBy (written : Option (List Text)) (names : List Text) : Bool :=
  match written with
  | none => true
  | some ws => names.any fun name => name ∈ ws

def CheckConstraint.affected (cc : CheckConstraint) (written : Option (List Text)) : Bool :=
  affectedBy written cc.predicate.referencedProperties

def CheckConstraint.findings (fl : FloatOps) (cc : CheckConstraint) (what : Text)
    (properties : PropertyMap) : List Violation :=
  match cc.predicate.evaluate fl properties with
  | .ok true => []
  | .ok false => [⟨cc.name, what ++ utf8 " failed", cc.mode⟩]
  | .error msg => [⟨cc.name, what ++ utf8 " error: " ++ msg, cc.mode⟩]

/-- A window whose start is after its end, or whose bounds cannot be compared. A window
    with a bound that is missing or null is open. -/
def TemporalConstraint.findings (tc : TemporalConstraint) (properties : PropertyMap) :
    List Violation :=
  match properties[tc.startProperty]?, properties[tc.endProperty]? with
  | some s, some e =>
    let reversed : Violation := ⟨tc.name, utf8 "temporal '" ++ tc.name ++ utf8 "': " ++
      tc.startProperty ++ utf8 " > " ++ tc.endProperty ++ utf8 " (window reversed)", tc.mode⟩
    match s, e with
    | .int a, .int b => if b < a then [reversed] else []
    | .text a, .text b => if b < a then [reversed] else []
    | .null, _ => []
    | _, .null => []
    | s, e => [⟨tc.name, utf8 "temporal '" ++ tc.name ++
        utf8 "': window bounds must both be Int or both be Text, got " ++ s.typeName ++
        utf8 " and " ++ e.typeName, tc.mode⟩]
  | _, _ => []

def outboundCount (relationships : List RelationshipRef) (relType : Text) : Nat :=
  relationships.countP fun rel => rel.direction = .outbound && rel.relType = relType

/-- Too few or too many relationships of a type. -/
def CardinalityConstraint.findings (cc : CardinalityConstraint)
    (relationships : List RelationshipRef) : List Violation :=
  let count := outboundCount relationships cc.relationshipType
  let finding (bound : String) (limit : Nat) : Violation :=
    ⟨cc.name, utf8 "cardinality '" ++ cc.name ++ utf8 "': " ++ decimal count ++
      utf8 " outbound '" ++ cc.relationshipType ++ utf8 "' relationships, " ++ utf8 bound ++
      utf8 " " ++ decimal limit, cc.mode⟩
  match cc.minOutbound.filter (fun min => count < min),
      cc.maxOutbound.filter (fun max => max < count) with
  | some min, _ => [finding "minimum" min]
  | none, some max => [finding "maximum" max]
  | none, none => []

namespace SchemaRules

variable (pr : Primitives) (r : SchemaRules)

def domainFindings (properties : PropertyMap) (written : Option (List Text)) : List Violation :=
  r.properties.flatMap fun prop =>
    if affectedBy written [prop.name] then
      match properties[prop.name]? with
      | none => []
      | some value => prop.domainConstraints.flatMap fun dc =>
        match dc.validate pr value with
        | .ok () => []
        | .error msg => [⟨utf8 "domain." ++ prop.name, msg, .enforced⟩]
    else []

def provenanceFindings (source : Option Text) : List Violation :=
  if source.any fun s => !s.isEmpty then []
  else (r.properties.filter SchemaProperty.provenanceRequired).map fun prop =>
    ⟨utf8 "provenance." ++ prop.name, utf8 "property requires provenance but no source recorded",
      .enforced⟩

def evaluateFull (properties : PropertyMap) (written : Option (List Text))
    (source : Option Text) : List Violation :=
  if written = some [] then []
  else
    r.domainFindings pr properties written ++ r.provenanceFindings source ++
      (r.checkConstraints.flatMap fun cc =>
        if cc.mode ≠ .disabled ∧ cc.affected written then
          cc.findings pr.floats (utf8 "check constraint") properties
        else []) ++
      r.temporalConstraints.flatMap fun tc =>
        if tc.mode ≠ .disabled ∧ affectedBy written [tc.startProperty, tc.endProperty] then
          tc.findings properties
        else []

def evaluateCardinality (relationships : List RelationshipRef) : List Violation :=
  r.cardinalityConstraints.flatMap fun cc =>
    if cc.mode ≠ .disabled then cc.findings relationships else []

/-- What an operation of a transaction is stopped by; what is found and does not stop it
    is returned. -/
def evaluate (properties : PropertyMap) (written : Option (List Text)) :
    Except KError (List Violation) :=
  if written = some [] then .ok []
  else do
    r.properties.forM fun prop =>
      match affectedBy written [prop.name], properties[prop.name]? with
      | true, some value => prop.domainConstraints.forM fun dc =>
        (dc.validate pr value).mapError fun msg => .invalidSchema (utf8 "property '" ++
          prop.name ++ utf8 "' failed domain constraint: " ++ msg)
      | _, _ => .ok ()
    let events ← r.checkConstraints.mapM fun cc =>
      if cc.timing = .immediate ∧ cc.mode ≠ .disabled ∧ cc.affected written then do
        let found := cc.findings pr.floats
          (utf8 "check constraint '" ++ cc.name ++ utf8 "'") properties
        ensure (∀ v ∈ found, v.blocks = false)
          (.invalidSchema (utf8 "check constraint '" ++ cc.name ++ utf8 "' failed"))
        return found
      else .ok []
    return events.flatten

def deferredFindings (properties : PropertyMap) (written : Option (List Text)) : List Violation :=
  r.checkConstraints.flatMap fun cc =>
    if cc.timing = .deferred ∧ cc.mode ≠ .disabled ∧ cc.affected written then
      cc.findings pr.floats (utf8 "deferred check constraint '" ++ cc.name ++ utf8 "'") properties
    else []

end SchemaRules

/-! ## A kernel with schemas -/

/-- The schemas that are registered, by type. -/
abbrev RuleRegistry := Std.ExtTreeMap Text SchemaRules

def sourceOf (semantic : Option SemanticBlock) : Option Text :=
  semantic.bind SemanticBlock.source

section

variable (pr : Primitives) (rules : RuleRegistry)

def validateObject (ko : KnowledgeObject) : Except KError Unit := do
  ko.validate
  match rules[ko.metadata.typeName]? with
  | none => .ok ()
  | some r => r.validate ko

def validateRemember (ko : KnowledgeObject) (written : List Text) : Except KError Unit := do
  validateObject rules ko
  match rules[ko.metadata.typeName]? with
  | none => .ok ()
  | some r =>
    if r.hasEnabledConstraints then
      verdict (r.evaluateFull pr ko.properties (some written) (sourceOf ko.semantic) ++
        r.evaluateCardinality ko.relationships)
    else .ok ()

def validateTransact (ko : KnowledgeObject) (written : List Text) : Except KError Unit := do
  validateObject rules ko
  match rules[ko.metadata.typeName]? with
  | none => .ok ()
  | some r =>
    let _events ← r.evaluate pr ko.properties (some written)
    return ()

def deferredCheckFindings (st : State) (kos : List KnowledgeObject) : List Violation :=
  kos.flatMap fun ko =>
    match rules[ko.metadata.typeName]? with
    | none => []
    | some r => r.deferredFindings pr ko.properties
        (some (writeSet (st.store.headObject ko.koid) ko.properties))

def Settings.withRules (S : Settings) : Settings :=
  { S with
    schemas := rules.map fun _ r => r.toSchema
    validate := fun _ => validateRemember pr rules
    validateOp := fun _ => validateTransact pr rules
    deferredChecks := deferredCheckFindings pr rules }

end

/-! ## Rules and what they read -/

/-- A rule about the values of properties. -/
inductive PropertyRule where
  | domain (property : Text) (constraint : DomainConstraint)
  | check (constraint : CheckConstraint)
  | temporal (constraint : TemporalConstraint)

namespace PropertyRule

def reads : PropertyRule → List Text
  | .domain property _ => [property]
  | .check cc => cc.predicate.referencedProperties
  | .temporal tc => [tc.startProperty, tc.endProperty]

def stops : PropertyRule → Bool
  | .domain _ _ => true
  | .check cc => cc.mode.stops
  | .temporal tc => tc.mode.stops

def passes (pr : Primitives) (properties : PropertyMap) : PropertyRule → Bool
  | .domain property dc => properties[property]?.all fun value => (dc.validate pr value).isOk
  | .check cc => (cc.findings pr.floats [] properties).isEmpty
  | .temporal tc => (tc.findings properties).isEmpty

end PropertyRule

def SchemaRules.propertyRules (r : SchemaRules) : List PropertyRule :=
  (r.properties.flatMap fun prop => prop.domainConstraints.map (.domain prop.name)) ++
    r.checkConstraints.map .check ++ r.temporalConstraints.map .temporal

/-! ### Values that are alike -/

section

variable {pr : Primitives} {v v' : Value} {old new : PropertyMap}

theorem checkRange_isOk (hfl : pr.floats.Sound) {min max : Option Nat} {n n' : Nat}
    (h : FloatAlike n n') : (checkRange pr min max n).isOk = (checkRange pr min max n').isOk := by
  have hlow : ∀ limit, pr.floats.lt n limit = pr.floats.lt n' limit :=
    fun limit => hfl.lt h (.refl limit)
  have hhigh : ∀ limit, pr.floats.lt limit n = pr.floats.lt limit n' :=
    fun limit => hfl.lt (.refl limit) h
  unfold checkRange checkBound
  cases min with
  | none =>
    cases max with
    | none => rfl
    | some high =>
      simp only [ok_bind, hhigh, ensure]
      split <;> rfl
  | some low =>
    simp only [hlow, ensure]
    split
    · cases max with
      | none => rfl
      | some high =>
        simp only [ok_bind, hhigh]
        split <;> rfl
    · rfl

theorem DomainConstraint.validate_isOk (hfl : pr.floats.Sound) (h : v.Alike v')
    (dc : DomainConstraint) : (dc.validate pr v).isOk = (dc.validate pr v').isOk := by
  cases dc with
  | enum values =>
    have hsame : (values.any fun u => u.same v) = values.any fun u => u.same v' := by
      congr 1
      funext u
      exact Value.Alike.same_eq (.inl rfl) h
    simp only [DomainConstraint.validate, hsame]
  | range min max =>
    cases h.shape with
    | refl => rfl
    | float hf => exact checkRange_isOk hfl hf
    | list => rfl
    | map => rfl
  | _ => cases h.shape <;> rfl

theorem FieldAlike.cases {a b : Option Value} (h : FieldAlike a b) :
    (a = none ∧ b = none) ∨ ∃ v w, a = some v ∧ b = some w ∧ v.Alike w := by
  cases a <;> cases b <;> simp_all [FieldRel]

theorem CheckConstraint.findings_congr (hfl : pr.floats.Sound) {cc : CheckConstraint}
    (h : ∀ name ∈ cc.predicate.referencedProperties, FieldAlike old[name]? new[name]?)
    (what : Text) : cc.findings pr.floats what old = cc.findings pr.floats what new := by
  unfold CheckConstraint.findings
  rw [cc.predicate.evaluate_congr hfl h]

theorem TemporalConstraint.findings_congr {tc : TemporalConstraint}
    (hstart : FieldAlike old[tc.startProperty]? new[tc.startProperty]?)
    (hend : FieldAlike old[tc.endProperty]? new[tc.endProperty]?) :
    tc.findings old = tc.findings new := by
  unfold TemporalConstraint.findings
  rcases hstart.cases with ⟨hold, hnew⟩ | ⟨a, a', hold, hnew, ha⟩
  · rw [hold, hnew]
  · rcases hend.cases with ⟨hold', hnew'⟩ | ⟨b, b', hold', hnew', hb⟩
    · rw [hold, hnew, hold', hnew']
    · rw [hold, hnew, hold', hnew']
      cases ha.shape <;> cases hb.shape <;> (try cases a) <;> (try cases b) <;> rfl

theorem PropertyRule.passes_congr (hfl : pr.floats.Sound)
    (h : ∀ name ∈ rule.reads, FieldAlike old[name]? new[name]?) :
    rule.passes pr old = rule.passes pr new := by
  cases rule with
  | domain property dc =>
    simp only [passes]
    rcases (h property (mem_singleton_self _)).cases with
      ⟨hold, hnew⟩ | ⟨v, w, hold, hnew, halike⟩
    · rw [hold, hnew]
    · rw [hold, hnew]
      exact dc.validate_isOk hfl halike
  | check cc => exact congrArg List.isEmpty (cc.findings_congr hfl h [])
  | temporal tc =>
    exact congrArg List.isEmpty (tc.findings_congr (h _ (by simp [reads])) (h _ (by simp [reads])))

/-! ### What a write does not touch -/

def baseProperties (head : Option KnowledgeObject) : PropertyMap :=
  (head.map KnowledgeObject.properties).getD ∅

theorem fieldAlike_of_notMem_writeSet {name : Text} (h : name ∉ writeSet head new) :
    FieldAlike (baseProperties head)[name]? new[name]? := by
  cases head with
  | none =>
    have hnone : new[name]? = none := by
      simpa [writeSet] using h
    simp [baseProperties, hnone, FieldRel]
  | some old =>
    by_cases hmem : name ∈ new
    · -- The values are compared.
      have hsame := sameField_of_notMem_writeSet h hmem
      change FieldAlike old.properties[name]? new[name]?
      cases ha : old.properties[name]? <;> cases hb : new[name]? <;>
        simp_all [sameField, FieldRel, Value.Alike]
    · -- A property that is left out was not there.
      have hold : name ∉ old.properties := by
        intro hold
        refine h (mem_append_right _ (mem_filter.mpr ⟨?_, ?_⟩))
        · exact Std.ExtTreeMap.mem_keys.mpr hold
        · rw [Bool.not_eq_true', Bool.eq_false_iff]
          exact hmem
      change FieldAlike old.properties[name]? new[name]?
      rw [Std.ExtTreeMap.getElem?_eq_none hold, Std.ExtTreeMap.getElem?_eq_none hmem]
      trivial

theorem PropertyRule.passes_of_untouched (hfl : pr.floats.Sound)
    (h : affectedBy (some (writeSet head new)) rule.reads = false) :
    rule.passes pr new = rule.passes pr (baseProperties head) := by
  refine (rule.passes_congr hfl fun name hname => fieldAlike_of_notMem_writeSet ?_).symm
  simp only [affectedBy, any_eq_false, decide_eq_true_eq] at h
  exact h name hname

/-! ### What was looked at -/

theorem clear_iff_of_mode (h : ∀ v ∈ vs, v.mode = mode) :
    (∀ v ∈ vs, v.blocks = false) ↔ (mode.stops = true → vs.isEmpty = true) := by
  have hblocks : ∀ v ∈ vs, v.blocks = mode.stops := by
    intro v hv
    rw [← h v hv]
    rfl
  cases vs with
  | nil => simp
  | cons v vs =>
    rw [isEmpty_cons]
    constructor
    · intro hclear hstops
      have hv := hclear v mem_cons_self
      rw [hblocks v mem_cons_self, hstops] at hv
      exact absurd hv (by decide)
    · intro hstops u hu
      rw [hblocks u hu]
      cases hm : mode.stops with
      | false => rfl
      | true => exact absurd (hstops hm) (by decide)

theorem CheckConstraint.findings_clear (cc : CheckConstraint) (what : Text) :
    (∀ v ∈ cc.findings pr.floats what new, v.blocks = false) ↔
      ((PropertyRule.check cc).stops = true → (PropertyRule.check cc).passes pr new = true) := by
  have hmode : ∀ v ∈ cc.findings pr.floats what new, v.mode = cc.mode := by
    unfold CheckConstraint.findings
    split <;> simp
  have hwords : (cc.findings pr.floats what new).isEmpty
      = (cc.findings pr.floats [] new).isEmpty := by
    unfold CheckConstraint.findings
    split <;> rfl
  rw [clear_iff_of_mode hmode, hwords]
  rfl

variable (pr) in
theorem TemporalConstraint.findings_clear (tc : TemporalConstraint) :
    (∀ v ∈ tc.findings new, v.blocks = false) ↔ ((PropertyRule.temporal tc).stops = true →
        (PropertyRule.temporal tc).passes pr new = true) := by
  refine clear_iff_of_mode ?_
  unfold TemporalConstraint.findings
  split
  · dsimp only
    split <;> (try split) <;> simp
  · simp

variable {r : SchemaRules} {written : Option (List Text)}

theorem EnforcementMode.ne_disabled (h : mode.stops = true) : mode ≠ .disabled := by
  rintro rfl
  cases h

theorem SchemaRules.mem_propertyRules : rule ∈ r.propertyRules ↔
      (∃ prop ∈ r.properties, ∃ dc ∈ prop.domainConstraints, rule = .domain prop.name dc) ∨
        (∃ cc ∈ r.checkConstraints, rule = .check cc) ∨
        ∃ tc ∈ r.temporalConstraints, rule = .temporal tc := by
  simp only [propertyRules, mem_append, mem_flatMap, mem_map, or_assoc, eq_comm]

theorem SchemaRules.domainFindings_clear :
    (∀ v ∈ r.domainFindings pr new written, v.blocks = false) ↔
      ∀ prop ∈ r.properties, ∀ dc ∈ prop.domainConstraints, affectedBy written [prop.name] = true →
          (PropertyRule.domain prop.name dc).passes pr new = true := by
  simp only [domainFindings, forall_mem_flatMap]
  refine forall₂_congr fun prop _ => ?_
  cases haffected : affectedBy written [prop.name] with
  | false => simp
  | true =>
    cases hvalue : new[prop.name]? with
    | none => simp [PropertyRule.passes, hvalue]
    | some value =>
      simp only [if_true, forall_mem_flatMap, PropertyRule.passes, hvalue,
        Option.all_some, forall_const]
      refine forall₂_congr fun dc _ => ?_
      cases dc.validate pr value with
      | ok u => simp [Except.isOk, Except.toBool]
      | error msg => simp [Except.isOk, Except.toBool, Violation.blocks]

theorem SchemaRules.provenanceFindings_clear :
    (∀ v ∈ r.provenanceFindings source, v.blocks = false) ↔
      (r.provenanceFindings source).isEmpty = true := by
  have hmode : ∀ v ∈ r.provenanceFindings source, v.mode = .enforced := by
    unfold provenanceFindings
    split
    · simp
    · exact forall_mem_map.mpr fun _ _ => rfl
  rw [clear_iff_of_mode hmode]
  simp [EnforcementMode.stops]

def SchemaRules.RulesPass (pr : Primitives) (r : SchemaRules) (written : Option (List Text))
    (properties : PropertyMap) : Prop :=
  ∀ rule ∈ r.propertyRules, rule.stops = true → affectedBy written rule.reads = true →
    rule.passes pr properties = true

theorem SchemaRules.rulesPass_iff : r.RulesPass pr written new ↔
      (∀ prop ∈ r.properties, ∀ dc ∈ prop.domainConstraints, affectedBy written [prop.name] = true →
          (PropertyRule.domain prop.name dc).passes pr new = true) ∧
      (∀ cc ∈ r.checkConstraints, cc.mode.stops = true → cc.affected written = true →
        (PropertyRule.check cc).passes pr new = true) ∧
      ∀ tc ∈ r.temporalConstraints, tc.mode.stops = true →
        affectedBy written [tc.startProperty, tc.endProperty] = true →
          (PropertyRule.temporal tc).passes pr new = true := by
  simp only [RulesPass, mem_propertyRules]
  constructor
  · intro h
    exact ⟨fun prop hprop dc hdc => h _ (.inl ⟨prop, hprop, dc, hdc, rfl⟩) rfl,
      fun cc hcc => h _ (.inr (.inl ⟨cc, hcc, rfl⟩)),
      fun tc htc => h _ (.inr (.inr ⟨tc, htc, rfl⟩))⟩
  · rintro ⟨hdomain, hcheck, htemporal⟩ rule
      (⟨prop, hprop, dc, hdc, rfl⟩ | ⟨cc, hcc, rfl⟩ | ⟨tc, htc, rfl⟩)
    · exact fun _ => hdomain prop hprop dc hdc
    · exact hcheck cc hcc
    · exact htemporal tc htc

theorem clear_iff_of_guard {guard : Prop} [Decidable guard] {kept : Prop}
    (h : (∀ v ∈ vs, v.blocks = false) ↔ (mode.stops = true → kept)) :
    (∀ v ∈ if mode ≠ .disabled ∧ guard then vs else [], v.blocks = false) ↔
      (mode.stops = true → guard → kept) := by
  by_cases hguard : guard
  · by_cases hdisabled : mode = .disabled
    · simp [hdisabled, EnforcementMode.stops]
    · simp only [hdisabled, hguard, ne_eq, not_false_eq_true, and_self, if_true, h, forall_const]
  · simp [hguard]

theorem SchemaRules.evaluateFull_clear :
    (∀ v ∈ r.evaluateFull pr new written source, v.blocks = false) ↔ written = some [] ∨
        (r.RulesPass pr written new ∧ (r.provenanceFindings source).isEmpty = true) := by
  unfold evaluateFull
  by_cases hempty : written = some []
  · simp [hempty]
  · rw [if_neg hempty, or_iff_right hempty, rulesPass_iff]
    simp only [forall_mem_append, forall_mem_flatMap, domainFindings_clear,
      provenanceFindings_clear, clear_iff_of_guard (CheckConstraint.findings_clear _ _),
      clear_iff_of_guard (TemporalConstraint.findings_clear pr _)]
    tauto

theorem SchemaRules.evaluate_clear {events : List Violation}
    (h : r.evaluate pr new written = .ok events) (hwritten : written ≠ some []) :
    (∀ prop ∈ r.properties, ∀ dc ∈ prop.domainConstraints, affectedBy written [prop.name] = true →
          (PropertyRule.domain prop.name dc).passes pr new = true) ∧
      ∀ cc ∈ r.checkConstraints, cc.timing = .immediate → cc.mode.stops = true →
        cc.affected written = true → (PropertyRule.check cc).passes pr new = true := by
  rw [evaluate, if_neg hwritten] at h
  simp only [bind_eq_ok, pure_eq_ok] at h
  obtain ⟨_, hdomain, found, hfound, -⟩ := h
  constructor
  · intro prop hprop dc hdc haffected
    have hprop := forM_eq_ok _ _ hdomain prop hprop
    rw [haffected] at hprop
    simp only [PropertyRule.passes]
    cases hvalue : new[prop.name]? with
    | none => rfl
    | some value =>
      rw [hvalue] at hprop
      have hvalid := forM_eq_ok _ _ hprop dc hdc
      cases hdc : dc.validate pr value with
      | error msg => simp [hdc, Except.mapError] at hvalid
      | ok u => simp [hdc, Except.isOk, Except.toBool]
  · intro cc hcc htiming hstops haffected
    obtain ⟨vs, -, hvs⟩ := exists_right_of_forall₂ (mapM_eq_ok _ _ _ hfound) hcc
    rw [if_pos ⟨htiming, EnforcementMode.ne_disabled hstops, haffected⟩] at hvs
    simp only [bind_eq_ok, ensure_eq_ok, pure_eq_ok] at hvs
    obtain ⟨_, hclear, -⟩ := hvs
    exact (cc.findings_clear _).mp hclear hstops

theorem SchemaRules.deferredFindings_clear
    (h : ∀ v ∈ r.deferredFindings pr new written, v.blocks = false) :
    ∀ cc ∈ r.checkConstraints, cc.timing = .deferred → cc.mode.stops = true →
      cc.affected written = true → (PropertyRule.check cc).passes pr new = true := by
  intro cc hcc htiming hstops haffected
  simp only [deferredFindings, forall_mem_flatMap] at h
  have hclear := h cc hcc
  rw [if_pos ⟨htiming, EnforcementMode.ne_disabled hstops, haffected⟩] at hclear
  exact (cc.findings_clear _).mp hclear hstops

end

end Aikoql.Kernel
