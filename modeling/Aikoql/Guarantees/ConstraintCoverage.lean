import Aikoql.Kernel.Guarded
import Aikoql.Kernel.SchemaChecks

/-!
# Constraint Coverage

Every current version keeps all that its schema asks for, if what a write does not touch
was kept before it and the write itself keeps what its call does not look at.

A write is checked by the rules that read something it touches. That is enough for an
object of the same type that kept all rules: a rule that reads nothing touched comes out
as it did. It is not enough for an object that is created, of which nothing was there. A
rule that reads only properties the object does not have is skipped, although it may well
be broken. It is not enough either for an object that changes its type, and a write that
touches no property at all is not asked for a source.

`transact` asks no operation for a source, does not count relationships and does not look
at windows. And properties that are encrypted are stored in another form than the one that
was looked at.

## Main definitions

* `conforms`: An object keeps everything its schema asks for.
* `covered`: A call after which every object it writes does.
* `Conforming`: All current versions do.

## Main theorems

* `constraints_covered`: The current versions in every run of covered calls.
* `ConstraintCoverage.constraints_escaped`: Objects that escape their constraints.
-/

namespace Aikoql.Kernel

open List
open Storage (Sha256)

variable {head : Option KnowledgeObject} {req : RememberRequest} {stored new : PropertyMap}
  {st : State}

/-! ## Objects and schemas -/

/-- An object keeps everything its schema asks for. -/
def conforms (pr : Primitives) (rules : RuleRegistry) (ko : KnowledgeObject) : Bool :=
  rules[ko.metadata.typeName]?.all fun r =>
    (r.validate ko).isOk &&
      ((r.evaluateFull pr ko.properties none (sourceOf ko.semantic)).all fun v => !v.blocks) &&
      (r.evaluateCardinality ko.relationships).all fun v => !v.blocks

namespace SchemaRules

variable (pr : Primitives) (r : SchemaRules)

/-- The rules a write does not touch are kept by what it starts from. An object that was of the
    type before has kept all of them. -/
def keepsUntouched (head : Option KnowledgeObject) (req : RememberRequest) : Bool :=
  (head.any fun old => old.metadata.typeName = req.metadata.typeName) ||
    r.propertyRules.all fun rule => !rule.stops ||
      affectedBy (some (writeSet head req.properties)) rule.reads ||
      rule.passes pr (baseProperties head)

def mentions : List Text :=
  r.properties.map SchemaProperty.name ++ r.propertyRules.flatMap PropertyRule.reads

/-- Properties are stored under the names they were given, and those a schema mentions with
    the values they were given. -/
def leaves (properties stored : PropertyMap) : Bool :=
  stored.keys = properties.keys && r.mentions.all fun name => stored[name]? = properties[name]?

/-- What `remember` looks at suffices. -/
def coversRemember (S : Settings) (head : Option KnowledgeObject) (req : RememberRequest) : Bool :=
  r.keepsUntouched pr head req && (!(writeSet head req.properties).isEmpty ||
      (r.provenanceFindings (sourceOf req.semantic)).isEmpty) &&
    (S.encrypt req.context.tenant req.metadata.typeName req.properties).toOption.all
      (r.leaves req.properties)

/-- What an operation of a transaction looks at suffices: the request keeps what is not looked at.
    -/
def coversOp (head : Option KnowledgeObject) (req : RememberRequest) : Bool :=
  r.keepsUntouched pr head req && (r.provenanceFindings (sourceOf req.semantic)).isEmpty &&
    ((r.evaluateCardinality req.relationships).all fun v => !v.blocks) &&
    r.temporalConstraints.all fun tc => !tc.mode.stops || (tc.findings req.properties).isEmpty

end SchemaRules

/-- What a call looks at suffices for every object it is asked for. -/
def covered (S : Settings) (pr : Primitives) (rules : RuleRegistry) (s : Store) (io : Ambient) :
    Call → Bool
  | .remember req => rules[req.metadata.typeName]?.all fun r =>
    r.coversRemember pr S (s.headObject (req.target io)) req
  | .transact ops _ _ => (opTargets io 0 ops).all fun target =>
    rules[target.2.request.metadata.typeName]?.all fun r =>
      r.coversOp pr (s.headObject target.1) target.2.request
  | _ => true

def Turn.Covered (S : Settings) (C : Crypto) (pr : Primitives) (rules : RuleRegistry)
    (g : Guarded) (t : Turn) : Prop :=
  g.writes (S.withRules pr rules) C t = true → covered S pr rules g.st.store t.io t.call = true
  deriving Decidable

/-! ## From what is touched to everything -/

section

variable {pr : Primitives} {rules : RuleRegistry} {r : SchemaRules} {ko : KnowledgeObject}

theorem conforms_iff (hr : rules[ko.metadata.typeName]? = some r) : conforms pr rules ko = true ↔
      r.validate ko = .ok () ∧ r.RulesPass pr none ko.properties ∧
        (r.provenanceFindings (sourceOf ko.semantic)).isEmpty = true ∧
        ∀ v ∈ r.evaluateCardinality ko.relationships, v.blocks = false := by
  have hvalidate : (r.validate ko).isOk = true ↔ r.validate ko = .ok () :=
    ⟨eq_ok_of_isOk, fun h => by rw [h]; rfl⟩
  have hfull : (∀ v ∈ r.evaluateFull pr ko.properties none (sourceOf ko.semantic),
        v.blocks = false) ↔
      r.RulesPass pr none ko.properties ∧
        (r.provenanceFindings (sourceOf ko.semantic)).isEmpty = true := by
    rw [r.evaluateFull_clear]
    simp only [reduceCtorEq, false_or]
  simp only [conforms, hr, Option.all_some, Bool.and_eq_true, all_eq_true, Bool.not_eq_true',
    hvalidate, hfull, and_assoc]

theorem SchemaRules.rulesPass_of_touched (hfl : pr.floats.Sound)
    (htouched : r.RulesPass pr (some (writeSet head new)) new)
    (hbase : ∀ rule ∈ r.propertyRules, rule.stops = true →
      affectedBy (some (writeSet head new)) rule.reads = false →
        rule.passes pr (baseProperties head) = true) :
    r.RulesPass pr none new := by
  intro rule hrule hstops _
  cases haffected : affectedBy (some (writeSet head new)) rule.reads with
  | true => exact htouched rule hrule hstops haffected
  | false =>
    rw [rule.passes_of_untouched hfl haffected]
    exact hbase rule hrule hstops haffected

theorem SchemaRules.untouched_pass (hr : rules[req.metadata.typeName]? = some r)
    (hhead : ∀ old, head = some old → conforms pr rules old = true)
    (hkeeps : r.keepsUntouched pr head req = true) :
    ∀ rule ∈ r.propertyRules, rule.stops = true →
      affectedBy (some (writeSet head req.properties)) rule.reads = false →
        rule.passes pr (baseProperties head) = true := by
  intro rule hrule hstops haffected
  rw [keepsUntouched, Bool.or_eq_true] at hkeeps
  rcases hkeeps with hsame | hbase
  · -- The version before is of the same type, and has kept the rules of it.
    obtain ⟨old, rfl, htype⟩ : ∃ old, head = some old ∧
        old.metadata.typeName = req.metadata.typeName := by
      cases head with
      | none => cases hsame
      | some old => exact ⟨old, rfl, by simpa using hsame⟩
    rw [← htype] at hr
    exact ((conforms_iff hr).mp (hhead old rfl)).2.1 rule hrule hstops rfl
  · have hrule := all_eq_true.mp hbase rule hrule
    rw [hstops, haffected] at hrule
    simpa using hrule

theorem SchemaRules.nothing_enabled (h : r.hasEnabledConstraints = false) :
    (∀ rule ∈ r.propertyRules, rule.stops = false) ∧
      (∀ source, (r.provenanceFindings source).isEmpty = true) ∧
      ∀ relationships, r.evaluateCardinality relationships = [] := by
  simp only [hasEnabledConstraints, Bool.or_eq_false_iff, any_eq_false, Bool.not_eq_true,
    Bool.not_eq_false', decide_eq_true_eq, ne_eq, not_not] at h
  obtain ⟨⟨⟨⟨hproperties, -⟩, hchecks⟩, hcardinality⟩, htemporal⟩ := h
  refine ⟨?_, ?_, ?_⟩
  · intro rule hrule
    rcases mem_propertyRules.mp hrule with
      ⟨prop, hprop, dc, hdc, rfl⟩ | ⟨cc, hcc, rfl⟩ | ⟨tc, htc, rfl⟩
    · have hnone := (hproperties prop hprop).1
      rw [List.isEmpty_iff] at hnone
      rw [hnone] at hdc
      cases hdc
    · simp [PropertyRule.stops, hchecks cc hcc, EnforcementMode.stops]
    · simp [PropertyRule.stops, htemporal tc htc, EnforcementMode.stops]
  · intro source
    unfold provenanceFindings
    split
    · rfl
    · have hnone : r.properties.filter SchemaProperty.provenanceRequired = [] :=
        filter_eq_nil_iff.mpr fun prop hprop => by simp [(hproperties prop hprop).2]
      rw [hnone]
      rfl
  · intro relationships
    refine flatMap_eq_nil_iff.mpr fun cc hcc => ?_
    rw [if_neg (by simpa using hcardinality cc hcc)]

theorem SchemaRules.rulesPass_of_clear {written : List Text} {source : Option Text}
    (h : ∀ v ∈ r.evaluateFull pr new (some written) source, v.blocks = false) :
    r.RulesPass pr (some written) new := by
  rcases r.evaluateFull_clear.mp h with hempty | ⟨hpass, -⟩
  · intro rule _ _ haffected
    cases hempty
    simp [affectedBy] at haffected
  · exact hpass

theorem conforms_of_remember (hfl : pr.floats.Sound) (hmetadata : ko.metadata = req.metadata)
    (hproperties : ko.properties = req.properties) (hsemantic : ko.semantic = req.semantic)
    (hvalid : validateRemember pr rules ko (writeSet head req.properties) = .ok ())
    (hhead : ∀ old, head = some old → conforms pr rules old = true)
    (hr : rules[ko.metadata.typeName]? = some r) (hkeeps : r.keepsUntouched pr head req = true)
    (hsource : writeSet head req.properties = [] →
      (r.provenanceFindings (sourceOf req.semantic)).isEmpty = true) :
    conforms pr rules ko = true := by
  simp only [validateRemember, validateObject, bind_eq_ok, hr] at hvalid
  obtain ⟨_, ⟨_, -, hvalidate⟩, hfound⟩ := hvalid
  have hbase := SchemaRules.untouched_pass (hmetadata ▸ hr) hhead hkeeps
  rw [conforms_iff hr, hproperties, hsemantic]
  refine ⟨hvalidate, ?_⟩
  cases henabled : r.hasEnabledConstraints with
  | false =>
    obtain ⟨hstops, hnosource, hcardinality⟩ := r.nothing_enabled henabled
    refine ⟨?_, hnosource _, ?_⟩
    · intro rule hrule hstop
      rw [hstops rule hrule] at hstop
      cases hstop
    · simp [hcardinality]
  | true =>
    rw [henabled, if_pos rfl, hproperties, hsemantic] at hfound
    obtain ⟨hfull, hcardinality⟩ := forall_mem_append.mp (verdict_eq_ok hfound)
    refine ⟨r.rulesPass_of_touched hfl (r.rulesPass_of_clear hfull) hbase, ?_, hcardinality⟩
    rcases r.evaluateFull_clear.mp hfull with hempty | ⟨-, hfound⟩
    · exact hsource (Option.some.inj hempty)
    · exact hfound

theorem conforms_of_transact (hfl : pr.floats.Sound) (hmetadata : ko.metadata = req.metadata)
    (hproperties : ko.properties = req.properties) (hsemantic : ko.semantic = req.semantic)
    (hrelationships : ko.relationships = req.relationships)
    (hvalid : validateTransact pr rules ko (writeSet head req.properties) = .ok ())
    (hdeferred : ∀ v ∈ r.deferredFindings pr ko.properties (some (writeSet head req.properties)),
      v.blocks = false) (hhead : ∀ old, head = some old → conforms pr rules old = true)
    (hr : rules[ko.metadata.typeName]? = some r) (hcovers : r.coversOp pr head req = true) :
    conforms pr rules ko = true := by
  simp only [validateTransact, validateObject, bind_eq_ok, hr] at hvalid
  obtain ⟨_, ⟨_, -, hvalidate⟩, events, hevaluate, -⟩ := hvalid
  simp only [SchemaRules.coversOp, Bool.and_eq_true, all_eq_true, Bool.not_eq_true',
    Bool.or_eq_true] at hcovers
  obtain ⟨⟨⟨hkeeps, hsource⟩, hcardinality⟩, htemporal⟩ := hcovers
  have hbase := SchemaRules.untouched_pass (hmetadata ▸ hr) hhead hkeeps
  rw [hproperties] at hdeferred hevaluate
  rw [conforms_iff hr, hproperties, hsemantic, hrelationships]
  refine ⟨hvalidate, r.rulesPass_of_touched hfl ?_ hbase, hsource, hcardinality⟩
  rw [SchemaRules.rulesPass_iff]
  have hlooked : ∀ names, affectedBy (some (writeSet head req.properties)) names = true →
      some (writeSet head req.properties) ≠ some [] := by
    intro names haffected hempty
    rw [hempty] at haffected
    simp [affectedBy] at haffected
  refine ⟨?_, ?_, ?_⟩
  · intro prop hprop dc hdc haffected
    exact (r.evaluate_clear hevaluate (hlooked _ haffected)).1 prop hprop dc hdc haffected
  · intro cc hcc hstops haffected
    cases htiming : cc.timing with
    | immediate =>
      exact (r.evaluate_clear hevaluate (hlooked _ haffected)).2 cc hcc htiming hstops haffected
    | deferred => exact r.deferredFindings_clear hdeferred cc hcc htiming hstops haffected
  · -- Windows are not looked at, but the request keeps them.
    intro tc htc hstops _
    simpa [hstops, PropertyRule.passes] using htemporal tc htc

/-! ### Stored properties -/

theorem SchemaRules.leaves_iff {properties : PropertyMap} : r.leaves properties stored = true ↔
      stored.keys = properties.keys ∧ ∀ name ∈ r.mentions, stored[name]? = properties[name]? := by
  simp only [leaves, Bool.and_eq_true, decide_eq_true_eq, all_eq_true]

theorem SchemaRules.validate_stored (h : r.validate ko = .ok ())
    (hkeys : stored.keys = ko.properties.keys)
    (hmentions : ∀ name ∈ r.mentions, stored[name]? = ko.properties[name]?) :
    r.validate { ko with properties := stored } = .ok () := by
  have hcontains : ∀ name, stored.contains name = ko.properties.contains name := by
    intro name
    rw [Bool.eq_iff_iff, Std.ExtTreeMap.contains_iff_mem, Std.ExtTreeMap.contains_iff_mem,
      ← Std.ExtTreeMap.mem_keys, hkeys, Std.ExtTreeMap.mem_keys]
  simp only [validate, bind_eq_ok] at h ⊢
  obtain ⟨_, hagainst, hproperties⟩ := h
  refine ⟨(), ?_, forM_ok _ _ fun prop hprop => ?_⟩
  · simpa only [validateAgainst, hcontains, hkeys] using hagainst
  · have hprop' := forM_eq_ok _ _ hproperties prop hprop
    have hname : prop.name ∈ r.mentions :=
      mem_append_left _ (mem_map_of_mem hprop)
    simpa only [SchemaProperty.check, hmentions prop.name hname] using hprop'

theorem conforms_stored (hfl : pr.floats.Sound) (hko : conforms pr rules ko = true)
    (hleaves : ∀ r, rules[ko.metadata.typeName]? = some r → r.leaves ko.properties stored = true) :
    conforms pr rules { ko with properties := stored } = true := by
  cases hr : rules[ko.metadata.typeName]? with
  | none => simp [conforms, hr]
  | some r =>
    obtain ⟨hkeys, hmentions⟩ := r.leaves_iff.mp (hleaves r hr)
    obtain ⟨hvalidate, hpass, hsource, hcardinality⟩ := (conforms_iff hr).mp hko
    have hstored : rules[({ ko with properties := stored } :
        KnowledgeObject).metadata.typeName]? = some r := hr
    refine (conforms_iff hstored).mpr
      ⟨r.validate_stored hvalidate hkeys hmentions, ?_, hsource, hcardinality⟩
    intro rule hrule hstops _
    rw [rule.passes_congr hfl fun name hname => ?_]
    · exact hpass rule hrule hstops rfl
    · have hname : name ∈ r.mentions :=
        mem_append_right _ (mem_flatMap.mpr ⟨rule, hrule, hname⟩)
      rw [hmentions name hname]
      exact .refl (fun _ => .inl rfl) _

end

/-! ## Calls -/

section

variable {pr : Primitives} {rules : RuleRegistry} {S : Settings} {auth : AuthManager} {C : Crypto}

/-- Every current version conforms. -/
def Conforming (pr : Primitives) (rules : RuleRegistry) (s : Store) : Prop :=
  ∀ koid ko, s.headObject koid = some ko → conforms pr rules ko = true

theorem conforms_remembered (hfl : pr.floats.Sound) (hst : Conforming pr rules st.store)
    {koid : Koid} {draft : Draft}
    (hdraft : (S.withRules pr rules).rememberDraft auth st req koid (st.store.headObject koid)
      = .ok draft)
    (hcovers : rules[req.metadata.typeName]?.all (fun r =>
      r.coversRemember pr S (st.store.headObject koid) req) = true) :
    conforms pr rules (rememberedObject req koid (st.store.headObject koid) draft) = true := by
  have hpassed := rememberDraft_eq_ok hdraft
  cases hr : rules[req.metadata.typeName]? with
  | none => simp [conforms, rememberedObject, hr]
  | some r =>
    rw [hr, Option.all_some, SchemaRules.coversRemember, Bool.and_eq_true, Bool.and_eq_true]
      at hcovers
    obtain ⟨⟨hkeeps, hsource⟩, hencrypt⟩ := hcovers
    -- The checks see the properties of the request, and what they are encrypted to is stored.
    have hlooked : conforms pr rules (rememberedObject req koid (st.store.headObject koid)
        { draft with properties := req.properties }) = true := by
      refine conforms_of_remember hfl rfl rfl rfl hpassed.valid (fun old => hst koid old) hr
        hkeeps ?_
      intro hempty
      simpa [hempty] using hsource
    refine conforms_stored hfl hlooked fun r' hr' => ?_
    obtain rfl : r = r' := Option.some.inj (hr.symm.trans hr')
    have hstored : S.encrypt req.context.tenant req.metadata.typeName req.properties
        = .ok draft.properties := hpassed.properties
    rw [hstored] at hencrypt
    exact hencrypt

theorem conforms_pending (hfl : pr.floats.Sound) (hst : Conforming pr rules st.store)
    {r : Resolved} {security : SecurityDescriptor} (hbase : r.base = st.store.headObject r.koid)
    (hpassed : Transacts (S.withRules pr rules) auth st r security)
    (hdeferred : ∀ v ∈ deferredCheckFindings pr rules st [(r.pending security).ko],
      v.blocks = false)
    (hcovers : rules[r.op.request.metadata.typeName]?.all (fun schema =>
      schema.coversOp pr (st.store.headObject r.koid) r.op.request) = true) :
    conforms pr rules (r.pending security).ko = true := by
  cases hr : rules[r.op.request.metadata.typeName]? with
  | none => simp [conforms, Resolved.pending, hr]
  | some schema =>
    have hvalid := hpassed.valid
    rw [hbase] at hvalid
    rw [hr, Option.all_some] at hcovers
    have hfound : deferredCheckFindings pr rules st [(r.pending security).ko]
        = schema.deferredFindings pr r.op.request.properties
          (some (writeSet (st.store.headObject r.koid) r.op.request.properties)) := by
      simp [deferredCheckFindings, Resolved.pending, hr]
    rw [hfound] at hdeferred
    exact conforms_of_transact hfl rfl rfl rfl rfl hvalid hdeferred (fun old => hst r.koid old)
      hr hcovers

theorem Staging.conforms (hfl : pr.floats.Sound) {io : Ambient} {call : Call} {o : Outcome}
    (h : Staging ((S.withRules pr rules).admission auth) st io call o)
    (hcoherent : st.store.Coherent) (hst : Conforming pr rules st.store)
    (hcovered : covered S pr rules st.store io call = true) :
    ∀ ko ∈ o.kos, Kernel.conforms pr rules ko = true := by
  intro ko hko
  cases h with
  | remember hkeys hversion hdraft =>
    obtain rfl := mem_singleton.mp hko
    exact conforms_remembered hfl hst hdraft hcovered
  | transact hprepared =>
    obtain ⟨p, hp, rfl⟩ := mem_map.mp hko
    obtain ⟨target, htarget, r, -, rfl, hagainst, security, hsecurity, rfl⟩ :=
      exists_of_forall₂ (prepareOps_targets hprepared) hp
    refine conforms_pending hfl hst (hagainst.base hcoherent) (opSecurity_eq_ok hsecurity) ?_
      (all_eq_true.mp hcovered _ htarget)
    -- What the end of the transaction finds about all objects it finds about this one.
    have hclear := (checkDeferred_eq_ok (prepareOps_eq_ok hprepared).2.2.2).2
    intro v hv
    refine hclear v ?_
    simp only [deferredCheckFindings, flatMap_singleton] at hv
    exact mem_flatMap.mpr ⟨_, hko, hv⟩
  | schema | erase | recordAudit => cases hko
  | evolve hhead =>
    obtain rfl := mem_singleton.mp hko
    have hold := hst _ _ hhead
    exact hold
  | tombstone hhead =>
    obtain rfl := mem_singleton.mp hko
    have hold := hst _ _ hhead
    exact hold

/-- In every run whose calls are all covered, every current version keeps everything its
    schema asks for. -/
theorem constraints_covered (hfl : pr.floats.Sound) {g : Guarded}
    (h : Runs.Reaches (Guarded.turn (S.withRules pr rules) C)
      (Turn.Covered S C pr rules) Guarded.initial g) {koid : Koid} {ko : KnowledgeObject}
    (hko : g.st.store.headObject koid = some ko) : conforms pr rules ko = true := by
  suffices hall : Conforming pr rules g.st.store from hall koid ko hko
  refine Guarded.store_invariant Store.coherent_empty (fun koid ko hko => by cases hko) ?_ h
  intro g t _ _ _ _ _ _ _ _ hcoherent hst hcovered hwrites hc koid ko hko
  rcases hc.head_cases hko with ⟨asked, hasked, -, seq, kind, rfl⟩ | ⟨-, -, hhead⟩
  · exact hc.staging.conforms hfl hcoherent hst (hcovered hwrites) asked hasked
  · exact hst koid ko hhead

end

/-! ## Runs with people -/

namespace ConstraintCoverage

open Samples

/-- Floating point arithmetic that takes every number for the same. -/
def floats : FloatOps where
  ofInt _ := 1
  add _ _ := 1
  sub _ _ := 1
  mul _ _ := 1
  div _ _ := 1
  lt _ _ := false
  le _ _ := true

theorem floats_sound : floats.Sound where
  ofInt _ _ := rfl
  add _ _ := .refl 1
  sub _ _ := .refl 1
  mul _ _ := .refl 1
  div _ _ _ := .refl 1
  lt _ _ := rfl
  le _ _ := rfl

def primitives : Primitives := ⟨floats, fun _ => [], fun _ => .ok (), fun _ _ => none⟩

def person : SchemaRules where
  uniqueConstraints := []
  typeName := utf8 "person"
  schemaVersion := 1
  requiredProperties := [utf8 "name"]
  allowedProperties := none
  properties := [⟨utf8 "name", utf8 "Text", true, false, true, []⟩]
  checkConstraints := [⟨utf8 "of age",
    .compare .gte (.property (utf8 "age")) (.literal (.int 18)), .immediate, .enforced⟩]
  cardinalityConstraints := [⟨utf8 "acquainted", utf8 "KNOWS", some 1, none, .enforced⟩]
  temporalConstraints := []
  allowed_required := by
    intro allowed h
    cases h

def rules : RuleRegistry := (∅ : RuleRegistry).insert (utf8 "person") person

def named : PropertyMap := (∅ : PropertyMap).insert (utf8 "name") (.text (utf8 "bob"))

def aged (age : Int) : PropertyMap := named.insert (utf8 "age") (.int age)

def census : SemanticBlock := ⟨none, none, none, some (utf8 "census"), none⟩

def bob (properties : PropertyMap) : RememberRequest :=
  { RememberRequest.create ann ⟨utf8 "person", none, 1, []⟩ with
    koid := some 1
    properties := properties
    semantic := some census
    relationships := [⟨utf8 "KNOWS", 2, .outbound⟩] }

def changed (req : RememberRequest) : RememberRequest :=
  { req with expectedVersion := none }

def unsourced (req : RememberRequest) : RememberRequest :=
  { req with semantic := none }

def run (calls : List Call) : Option Guarded :=
  Runs.run (Guarded.turn ((Settings.basic ∅ ∅).withRules primitives rules)
    (.unsigned Sha256.fips180)) Guarded.initial (spaced calls)

def life : List Call :=
  [.remember (bob (aged 30)), .transact [⟨ann, changed (bob (aged 31))⟩] none none,
    .evolve ann 1 .active .human none none, .remember (changed (bob (aged 12)))]

theorem life_covered :
    ∃ g ko, run life = some g ∧ g.st.store.headObject 1 = some ko ∧ ko.version = 3 ∧
      conforms primitives rules ko = true := by
  have hend : ∃ g, run life = some g ∧
      ∃ ko, g.st.store.headObject 1 = some ko ∧ ko.version = 3 := by
    decide +kernel
  obtain ⟨g, hrun, ko, hko, hversion⟩ := hend
  refine ⟨g, ko, hrun, hko, hversion, constraints_covered (S := .basic ∅ ∅)
    (C := .unsigned Sha256.fips180) floats_sound ?_ hko⟩
  exact Runs.reaches_of_run (spaced life) (by decide +kernel) hrun

def Escapes (calls : List Call) : Prop :=
  ∃ g ko, run calls = some g ∧ g.st.store.headObject 1 = some ko ∧
    conforms primitives rules ko = false

theorem escapes_of_run {calls : List Call}
    (h : (run calls).bind (fun g => (g.st.store.headObject 1).map (conforms primitives rules))
      = some false) : Escapes calls := by
  obtain ⟨g, hrun, hhead⟩ := Option.bind_eq_some_iff.mp h
  obtain ⟨ko, hko, hconforms⟩ := Option.map_eq_some_iff.mp hhead
  exact ⟨g, ko, hrun, hko, hconforms⟩

/-- A person without an age; one whose source is dropped by a write that touches nothing;
    and in a transaction one without a source, and one that knows nobody. -/
theorem constraints_escaped : Escapes [.remember (bob named)] ∧
      Escapes [.remember (bob (aged 30)), .remember (unsourced (changed (bob (aged 30))))] ∧
      Escapes [.transact [⟨ann, unsourced (bob (aged 30))⟩] none none] ∧
      Escapes [.transact [⟨ann, { bob (aged 30) with relationships := [] }⟩] none none] := by
  refine ⟨?_, ?_, ?_, ?_⟩ <;> exact escapes_of_run (by decide +kernel)

end ConstraintCoverage

end Aikoql.Kernel
