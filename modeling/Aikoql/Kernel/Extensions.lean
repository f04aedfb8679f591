import Aikoql.Kernel.Authorization
import Aikoql.Kernel.Values

/-!
# Extension Fields

What becomes of the extension fields of a write.

Some of the fields belong to the kernel. A new object gets the ones every object has,
by the origin of the write. An update that does not restate a field keeps the value of
the version before, and what it does restate has to be in order: an authority does not
go down, an interval does not end before it begins, where something came from stays,
and evidence is only added to.

A coordination claim is released by writing null to it, so after the fields are carried
over a claim that is null is taken out. The salience of an object is computed anew by
every write.
-/

namespace Aikoql.Kernel

open Std.ExtTreeMap

/-! ## Names -/

def extEpistemicStatus : Text := utf8 "epistemic_status"

def extEpistemicHistory : Text := utf8 "epistemic_history"

def extEvidence : Text := utf8 "evidence"

def extContentTrust : Text := utf8 "content_trust"

def extValidFrom : Text := utf8 "valid_from"

def extValidTo : Text := utf8 "valid_to"

def extDerivation : Text := utf8 "derivation"

def extConfidence : Text := utf8 "confidence"

def extAuthority : Text := utf8 "authority"

def extScope : Text := utf8 "scope"

def extClaimHolder : Text := utf8 "claim_holder"

def extClaimUntil : Text := utf8 "claim_until"

def extSalience : Text := utf8 "salience"

/-- The fields an update keeps that does not restate them. -/
def carriedExtensions : List Text :=
  [extEpistemicStatus, extEpistemicHistory, extEvidence, extLifecycleHistory, extContentTrust,
    extValidFrom, extValidTo, extDerivation, extConfidence, extAuthority, extScope,
    extClaimHolder, extClaimUntil]

def claimExtensions : List Text :=
  [extClaimHolder, extClaimUntil]

/-! ## Trust -/

inductive Authority where
  | humanApproved
  | organizationPolicy
  | architectureDecision
  | sourceCode
  | testVerified
  | ciVerified
  | deploymentObserved
  | documentation
  | agentDerived
  | llmInferred
  | untrustedExternal
  deriving DecidableEq

def Authority.all : List Authority :=
  [.humanApproved, .organizationPolicy, .architectureDecision, .sourceCode, .testVerified,
    .ciVerified, .deploymentObserved, .documentation, .agentDerived, .llmInferred,
    .untrustedExternal]

def Authority.rank : Authority → Nat
  | .humanApproved => 10
  | .organizationPolicy => 9
  | .architectureDecision => 8
  | .sourceCode => 7
  | .testVerified => 6
  | .ciVerified => 5
  | .deploymentObserved => 4
  | .documentation => 3
  | .agentDerived => 2
  | .llmInferred => 1
  | .untrustedExternal => 0

def Authority.name : Authority → Text
  | .humanApproved => utf8 "human_approved"
  | .organizationPolicy => utf8 "organization_policy"
  | .architectureDecision => utf8 "architecture_decision"
  | .sourceCode => utf8 "source_code"
  | .testVerified => utf8 "test_verified"
  | .ciVerified => utf8 "ci_verified"
  | .deploymentObserved => utf8 "deployment_observed"
  | .documentation => utf8 "documentation"
  | .agentDerived => utf8 "agent_derived"
  | .llmInferred => utf8 "llm_inferred"
  | .untrustedExternal => utf8 "untrusted_external"

def Authority.fromName (t : Text) : Option Authority :=
  Authority.all.find? fun a => a.name = t

def Authority.forOrigin : Origin → Authority
  | .human => .humanApproved
  | .system => .organizationPolicy
  | .reason | .agent _ | .semanticEnrichment => .agentDerived

def authorityRank (extensions : ExtensionMap) : Option Nat :=
  ((extensions[extAuthority]?.bind valueText).bind Authority.fromName).map Authority.rank

/-- A rank as a fraction of ten, as the bit pattern of a floating point number. -/
def rankFactor : Nat → Nat
  | 0 => 0x0000000000000000
  | 1 => 0x3FB999999999999A
  | 2 => 0x3FC999999999999A
  | 3 => 0x3FD3333333333333
  | 4 => 0x3FD999999999999A
  | 5 => 0x3FE0000000000000
  | 6 => 0x3FE3333333333333
  | 7 => 0x3FE6666666666666
  | 8 => 0x3FE999999999999A
  | 9 => 0x3FECCCCCCCCCCCCD
  | _ => 0x3FF0000000000000

def authorityFactor (extensions : ExtensionMap) : Nat :=
  ((authorityRank extensions).map rankFactor).getD 0

def EpistemicStatus.forOrigin : Origin → EpistemicStatus
  | .reason => .inferred
  | .human | .agent _ => .asserted
  | .system | .semanticEnrichment => .observed

def scopeForOrigin : Origin → Text
  | .human => utf8 "user"
  | .agent _ => utf8 "session"
  | .system | .reason | .semanticEnrichment => utf8 "global"

/-! ## The fields of a write -/

def stampDefaults (origin : Origin) (extensions : ExtensionMap) : ExtensionMap :=
  ((extensions.insertIfNew extEpistemicStatus (.text (EpistemicStatus.forOrigin origin).name)
    ).insertIfNew extAuthority (.text (Authority.forOrigin origin).name)
    ).insertIfNew extScope (.text (scopeForOrigin origin))

def carryForward (keys : List Text) (head extensions : ExtensionMap) : ExtensionMap :=
  keys.foldl (fun extensions key =>
    match head[key]? with
    | some v => extensions.insertIfNew key v
    | none => extensions) extensions

def dropNullClaims (keys : List Text) (extensions : ExtensionMap) : ExtensionMap :=
  keys.foldl (fun (extensions : ExtensionMap) key =>
    match extensions[key]? with
    | some Value.null => extensions.erase key
    | _ => extensions) extensions

/-- A point in time. -/
def instantOf : Value → Option Nat
  | .int i => if 0 ≤ i then some i.toNat else none
  | _ => none

def checkEvidence (head extensions : ExtensionMap) : Except KError Unit :=
  match head[extEvidence]? with
  | some (.list old) =>
    let refusal : Except KError Unit := .error (.invalidObject
      (utf8 ("provenance field 'evidence' is append-only — existing entries cannot be " ++
        "changed or removed")))
    match extensions[extEvidence]? with
    | some (.list new) =>
      if old.length ≤ new.length ∧ sameValues (new.take old.length) old then .ok ()
      else refusal
    | _ => refusal
  | some other =>
    if sameField extensions[extEvidence]? (some other) then .ok ()
    else .error (.invalidObject
      (utf8 "provenance field 'evidence' is immutable — cannot be changed after creation"))
  | none => .ok ()

/-- Where something came from is written once. -/
def checkProvenance (key : Text) (head extensions : ExtensionMap) : Except KError Unit :=
  ensure (¬(head.contains key ∧ sameField extensions[key]? head[key]? = false))
    (.invalidObject (utf8 "provenance field '" ++ key ++
      utf8 "' is immutable — cannot be changed after creation"))

def checkExtensions (subject : Subject) (head extensions : ExtensionMap) : Except KError Unit := do
  match authorityRank head, authorityRank extensions with
  | some old, some new =>
    ensure (¬(new < old ∧ subject.isAdmin = false))
      (.invalidObject (utf8 "authority downgrade (" ++ decimal old ++ utf8 " -> " ++
        decimal new ++ utf8 ") requires admin"))
  | _, _ => .ok ()
  match extensions[extValidFrom]?.bind instantOf, extensions[extValidTo]?.bind instantOf with
  | some f, some t =>
    ensure (f ≤ t) (.invalidObject (utf8 "valid interval must satisfy valid_from <= valid_to (got "
      ++ decimal f ++ utf8 " > " ++ decimal t ++ utf8 ")"))
  | _, _ => .ok ()
  checkProvenance (utf8 "source_artifact") head extensions
  checkProvenance (utf8 "revision") head extensions
  checkEvidence head extensions

/-- The fields of a write before its salience, or why it is refused. -/
def settleExtensions (req : RememberRequest) (head : Option KnowledgeObject) :
    Except KError ExtensionMap :=
  match head with
  | none => .ok (stampDefaults req.origin req.extensions)
  | some h => do
      let extensions := dropNullClaims claimExtensions
        (carryForward carriedExtensions h.extensions req.extensions)
      checkExtensions req.context.subject h.extensions extensions
      return extensions

def stampSalience (extensions : ExtensionMap) : ExtensionMap :=
  extensions.insert extSalience (.float (authorityFactor extensions))

/-! ## Properties -/

theorem getElem?_carryForward (keys : List Text) (head extensions : ExtensionMap) (key : Text) :
    (carryForward keys head extensions)[key]?
      = if key ∈ keys then extensions[key]?.or head[key]? else extensions[key]? := by
  induction keys generalizing extensions with
  | nil => rfl
  | cons k keys ih =>
    rw [carryForward, List.foldl_cons]
    refine (ih _).trans ?_
    by_cases hkey : k = key
    · subst hkey
      cases hhead : head[k]? with
      | none => simp
      | some v =>
        rw [if_pos List.mem_cons_self, getElem?_insertIfNew]
        cases hext : extensions[k]? with
        | none | some => simp [mem_iff_isSome_getElem?, hext]
    · have hsame : (match head[k]? with
          | some v => extensions.insertIfNew k v
          | none => extensions)[key]? = extensions[key]? := by
        cases head[k]? with
        | none => rfl
        | some v => simp [getElem?_insertIfNew, hkey]
      rw [hsame]
      simp [Ne.symm hkey]

theorem getElem?_dropNullClaims (keys : List Text) (extensions : ExtensionMap) (key : Text) :
    (dropNullClaims keys extensions)[key]? = match extensions[key]? with
        | some .null => if key ∈ keys then none else some .null
        | v => v := by
  induction keys generalizing extensions with
  | nil =>
    simp only [dropNullClaims, List.foldl_nil, List.not_mem_nil, if_false]
    split <;> simp_all
  | cons k keys ih =>
    rw [dropNullClaims, List.foldl_cons]
    refine (ih _).trans ?_
    by_cases hkey : k = key
    · subst hkey
      cases hext : extensions[k]? with
      | none => simp only [hext]
      | some v => cases v <;> simp only [hext, getElem?_erase_self, List.mem_cons_self, if_true]
    · have hsame : (match extensions[k]? with
          | some Value.null => extensions.erase k
          | _ => extensions)[key]? = extensions[key]? := by
        split
        · simp [getElem?_erase, hkey]
        · rfl
      rw [hsame]
      simp [Ne.symm hkey]

end Aikoql.Kernel
