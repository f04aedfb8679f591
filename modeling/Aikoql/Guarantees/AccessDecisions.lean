import Aikoql.Kernel.Authorization

/-!
# Access Decisions

Who is let near what, as a rule about sets of names and lists of rules.

The kernel decides in order: tenants, owner, admin role, the rules of the object, the
rules of its type. The roles come from a search over a graph that may have cycles and
name roles nobody defined, and a list of rules is left as soon as one denies. None of
this order can be seen from outside. The search finds what is reachable, and a list
grants what one of its rules allows and none denies.

## Main definitions

* `Grants`: What a list of rules comes to.
* `AuthManager.Names`: The names a subject goes by, inherited roles among them.
* `AuthManager.Allows`: What a subject may do.

## Main theorems

* `AuthManager.access_decision`: A decision lets a subject do exactly what it is allowed.
-/

namespace Aikoql.Kernel

/-- A rule is about one of the names and about the action. -/
def AclEntry.Matches (names : Text → Prop) (action : Action) (e : AclEntry) : Prop :=
  (e.principal = utf8 "*" ∨ names e.principal) ∧ (e.action = action ∨ e.action = .admin)

def Grants (names : Text → Prop) (action : Action) (acl : List AclEntry) : Prop :=
  (∃ e ∈ acl, e.Matches names action ∧ e.effect = .allow) ∧
    ∀ e ∈ acl, e.Matches names action → e.effect ≠ .deny

namespace AuthManager

variable (auth : AuthManager) (subject : Subject)

def Names (name : Text) : Prop :=
  name = subject.name ∨ ∃ own ∈ subject.roles, Relation.ReflTransGen auth.Inherits own name

/-- The tenants do not stand in the way. -/
def Confines (tenant : Option Text) (action : Action) : Prop :=
  match subject.tenant, tenant with
  | some st, some kt => st = kt
  | some _, none => action ≠ .read
  | none, some _ => action = .read → auth.Names subject adminRole
  | none, none => True

def rulesOf (typeName : Text) : List AclEntry :=
  auth.policies[typeName]?.getD []

/-- What a subject may do: the tenants come first, and the rules of the type count where
    those of the object say nothing. -/
def Allows (tenant : Option Text) (security : SecurityDescriptor) (typeName : Text)
    (action : Action) : Prop :=
  auth.Confines subject tenant action ∧
    (subject.name = security.owner ∨ auth.Names subject adminRole ∨
      Grants (auth.Names subject) action security.acl ∨
      (∀ e ∈ security.acl, ¬e.Matches (auth.Names subject) action) ∧
        Grants (auth.Names subject) action (auth.rulesOf typeName))

end AuthManager

section

variable {principals : List Text} {action : Action} {acl : List AclEntry} {allowed : Bool}

theorem evalAcl_cons (e : AclEntry) [Decidable (e.Matches (· ∈ principals) action)] :
    evalAcl principals action allowed (e :: acl) = if e.Matches (· ∈ principals) action then
          if e.effect = .deny then some false else evalAcl principals action true acl
        else evalAcl principals action allowed acl := by
  rw [evalAcl]
  by_cases hname : e.principal = utf8 "*" ∨ e.principal ∈ principals
  · by_cases haction : e.action = action ∨ e.action = .admin
    · rw [if_neg (by tauto), if_neg (by tauto), if_pos ⟨hname, haction⟩]
      cases e.effect <;> rfl
    · rw [if_neg (by tauto), if_pos (by tauto), if_neg fun h => haction h.2]
  · rw [if_pos (by tauto), if_neg fun h => hname h.1]

theorem evalAcl_iff : (evalAcl principals action allowed acl = some true ↔
      (allowed = true ∨ ∃ e ∈ acl, e.Matches (· ∈ principals) action ∧ e.effect = .allow) ∧
        ∀ e ∈ acl, e.Matches (· ∈ principals) action → e.effect ≠ .deny) ∧
      (evalAcl principals action allowed acl = none ↔
        allowed = false ∧ ∀ e ∈ acl, ¬e.Matches (· ∈ principals) action) := by
  classical
  induction acl generalizing allowed with
  | nil => simp [evalAcl]
  | cons e acl ih =>
    simp only [evalAcl_cons, List.forall_mem_cons, List.exists_mem_cons_iff]
    by_cases hmatch : e.Matches (· ∈ principals) action
    · rw [if_pos hmatch]
      cases heffect : e.effect <;> simp [ih, hmatch]
    · rw [if_neg hmatch, ih.1, ih.2]
      simp [hmatch]

theorem evalAcl_grants :
    evalAcl principals action false acl = some true ↔ Grants (· ∈ principals) action acl := by
  simp [evalAcl_iff.1, Grants]

end

namespace AuthManager

section

variable (auth : AuthManager) (subject : Subject) (tenant : Option Text) (koid : Koid)
  (security : SecurityDescriptor) (typeName : Text) (action : Action)

theorem mem_effectivePrincipals : (· ∈ auth.effectivePrincipals subject) = auth.Names subject := by
  funext name
  rw [effectivePrincipals, List.mem_cons, mem_effectiveRoles]
  rfl

theorem names_of_isAdmin (h : subject.isAdmin = true) : auth.Names subject adminRole := by
  obtain ⟨role, hrole, heq⟩ := List.any_eq_true.mp h
  exact .inr ⟨role, hrole, of_decide_eq_true heq ▸ .refl⟩

theorem authorizeParts_cases :
    auth.authorizeParts subject tenant koid security typeName action = .ok () ∨
      auth.authorizeParts subject tenant koid security typeName action
        = .error (.accessDenied subject.name action koid) := by
  unfold authorizeParts
  dsimp only
  repeat' split
  all_goals simp

theorem confines_iff : auth.Confines subject tenant action ↔ ¬crossTenant subject.tenant tenant ∧
      ¬(action = .read ∧ subject.tenant.isSome ∧ tenant.isNone) ∧
      ¬(action = .read ∧ subject.tenant.isNone ∧ tenant.isSome ∧ subject.isAdmin = false ∧
        adminRole ∉ auth.effectivePrincipals subject) := by
  have hadmin := auth.names_of_isAdmin subject
  rw [← auth.mem_effectivePrincipals subject] at hadmin
  unfold Confines
  rw [← auth.mem_effectivePrincipals subject]
  cases subject.tenant <;> cases tenant <;> simp [crossTenant]
  cases hrole : subject.isAdmin <;> simp_all

theorem authorizeParts_eq_ok :
    auth.authorizeParts subject tenant koid security typeName action = .ok () ↔
      auth.Allows subject tenant security typeName action := by
  have hadmin := auth.names_of_isAdmin subject
  unfold Allows
  rw [confines_iff]
  unfold authorizeParts rulesOf
  rw [← auth.mem_effectivePrincipals subject] at hadmin ⊢
  generalize auth.effectivePrincipals subject = principals at hadmin ⊢
  rw [← evalAcl_grants, ← evalAcl_grants]
  dsimp only
  split
  · simp_all
  split
  · simp_all
  split
  · simp_all
  split
  · simp_all
    tauto
  split
  · simp_all
  -- Only the rules are left to decide.
  cases hacl : evalAcl principals action false security.acl with
  | some allowed =>
    have hspeaks := evalAcl_iff.2.not.mp (hacl ▸ Option.some_ne_none allowed)
    cases allowed <;> simp_all
  | none =>
    have hsilent := (evalAcl_iff.2.mp hacl).2
    cases auth.policies[typeName]? with
    | none => simp_all [evalAcl]
    | some rules =>
      cases hrules : evalAcl principals action false rules with
      | none => simp_all
      | some allowed => cases allowed <;> simp_all

end

/-- A decision lets a subject do exactly what it is allowed, whatever the roles inherit,
    and does not depend on the order of rules or of parents. -/
theorem access_decision (auth : AuthManager) (subject : Subject) (tenant : Option Text)
    (koid : Koid) (security : SecurityDescriptor) (typeName : Text) (action : Action) :
    (auth.authorizeParts subject tenant koid security typeName action = .ok () ↔
      auth.Allows subject tenant security typeName action) ∧
      ∀ (auth' : AuthManager) (acl : List AclEntry), acl.Perm security.acl →
        (∀ role, (auth'.parentsOf role).Perm (auth.parentsOf role)) →
        (∀ type, (auth'.rulesOf type).Perm (auth.rulesOf type)) →
        auth'.authorizeParts subject tenant koid { security with acl := acl } typeName action
          = auth.authorizeParts subject tenant koid security typeName action := by
  refine ⟨auth.authorizeParts_eq_ok subject tenant koid security typeName action, ?_⟩
  intro auth' acl hacl hparents hrules
  have hinherits : auth'.Inherits = auth.Inherits := by
    funext role parent
    exact propext (hparents role).mem_iff
  have hnames : auth'.Names subject = auth.Names subject := by
    unfold Names
    rw [hinherits]
  have hsame : auth'.authorizeParts subject tenant koid { security with acl := acl } typeName
      action = .ok () ↔
        auth.authorizeParts subject tenant koid security typeName action = .ok () := by
    rw [authorizeParts_eq_ok, authorizeParts_eq_ok]
    unfold Allows Confines Grants
    simp only [hnames, hacl.mem_iff, (hrules typeName).mem_iff]
  -- Either decision is that, or the one refusal there is.
  rcases auth.authorizeParts_cases subject tenant koid security typeName action with h | h
  · rw [h, hsame.mpr h]
  · rcases auth'.authorizeParts_cases subject tenant koid { security with acl := acl } typeName
      action with h' | h'
    · rw [hsame.mp h'] at h
      cases h
    · rw [h, h']

end AuthManager

end Aikoql.Kernel
