import Aikoql.Kernel.Calls
import Aikoql.Lib.Worklist

/-!
# Authorization

Who may do what.

Roles and policies are knowledge objects themselves. The kernel reads all of them into
a cache: a role object names the roles it inherits from, and a policy object holds
access rules for the objects of a type. Where two objects speak about the same role or
the same type the one with the larger id counts, since heads are read in the order of
ids.

A decision looks at the tenants first, so that neither an owner nor an administrator
gets around them. Then come ownership and the admin role, then the rules of the object,
then those of its type. A rule that denies wins over all rules of its list.
-/

namespace Aikoql.Kernel

open List

def roleType : Text := utf8 "aikoql:role"

def policyType : Text := utf8 "aikoql:policy"

/-- The role that may do everything. -/
def adminRole : Text := utf8 "admin"

def Subject.isAdmin (subject : Subject) : Bool :=
  subject.roles.any fun r => r = adminRole

def Action.fromName (t : Text) : Option Action :=
  if t = utf8 "read" then some .read
  else if t = utf8 "write" then some .write
  else if t = utf8 "evolve" then some .evolve
  else if t = utf8 "delete" then some .delete
  else if t = utf8 "admin" then some .admin
  else none

def Effect.fromName (t : Text) : Option Effect :=
  if t = utf8 "allow" then some .allow
  else if t = utf8 "deny" then some .deny
  else none

/-! ## Roles and policies as objects -/

def valueText : Value → Option Text
  | .text t => some t
  | _ => none

def textProp (props : PropertyMap) (key : Text) : Option Text :=
  props[key]?.bind valueText

def textList (props : PropertyMap) (key : Text) : List Text :=
  match props[key]? with
  | some (.list xs) => xs.filterMap valueText
  | _ => []

def parseAclRule : Value → Option AclEntry
  | .map m => do
      let principal ← (m.lookup (utf8 "principal")).bind valueText
      let action ← ((m.lookup (utf8 "action")).bind valueText).bind Action.fromName
      let effect ← ((m.lookup (utf8 "effect")).bind valueText).bind Effect.fromName
      return ⟨principal, action, effect⟩
  | _ => none

def parseAclRules (props : PropertyMap) (key : Text) : List AclEntry :=
  match props[key]? with
  | some (.list xs) => xs.filterMap parseAclRule
  | _ => []

/-- What an object says about roles and policies. -/
inductive AuthEntry where
  | role (name : Text) (parents : List Text)
  | policy (target : Text) (rules : List AclEntry)
  deriving DecidableEq

def KnowledgeObject.authEntry (ko : KnowledgeObject) : Option AuthEntry :=
  if ko.metadata.typeName = roleType then
    (textProp ko.properties (utf8 "name")).map fun name =>
      .role name (textList ko.properties (utf8 "parents"))
  else if ko.metadata.typeName = policyType then
    (textProp ko.properties (utf8 "target_type")).map fun target =>
      .policy target (parseAclRules ko.properties (utf8 "rules"))
  else none

/-! ## The cache -/

/-- The cache of roles and policies. -/
structure AuthManager where
  roleParents : Std.ExtTreeMap Text (List Text)
  policies : Std.ExtTreeMap Text (List AclEntry)

def AuthManager.empty : AuthManager := ⟨∅, ∅⟩

/-- Take an entry in; it replaces one about the same role or type. -/
def AuthManager.insert (auth : AuthManager) : AuthEntry → AuthManager
  | .role name parents => { auth with roleParents := auth.roleParents.insert name parents }
  | .policy target rules => { auth with policies := auth.policies.insert target rules }

def AuthManager.ofEntries (entries : List AuthEntry) : AuthManager :=
  entries.foldl AuthManager.insert .empty

/-- Read one head into the cache. The state it is in makes no difference. -/
def AuthManager.read (s : Store) (auth : AuthManager) (kh : Koid × Head) :
    Except KError AuthManager :=
  match s.getObjectVersion kh.1 kh.2.commitTs with
  | none => .error (.store (utf8 "head points at missing version"))
  | some ko => .ok (ko.authEntry.toList.foldl AuthManager.insert auth)

def AuthManager.load (s : Store) : Except KError AuthManager :=
  s.heads.toList.foldlM (AuthManager.read s) .empty

/-! ## Decisions -/

def AuthManager.parentsOf (auth : AuthManager) (role : Text) : List Text :=
  auth.roleParents[role]?.getD []

def AuthManager.parents (auth : AuthManager) : List Text :=
  auth.roleParents.toList.flatMap Prod.snd

def AuthManager.effectiveRoles (auth : AuthManager) (subject : Subject) : List Text :=
  Worklist.search auth.parentsOf (subject.roles.length + auth.parents.length) subject.roles

/-- The names a rule may speak about a subject with. -/
def AuthManager.effectivePrincipals (auth : AuthManager) (subject : Subject) : List Text :=
  subject.name :: auth.effectiveRoles subject

def evalAcl (principals : List Text) (action : Action) (allowed : Bool) :
    List AclEntry → Option Bool
  | [] => if allowed then some true else none
  | e :: entries =>
    if e.principal ≠ utf8 "*" ∧ e.principal ∉ principals then
      evalAcl principals action allowed entries
    else if e.action ≠ action ∧ e.action ≠ .admin then
      evalAcl principals action allowed entries
    else match e.effect with
      | .deny => some false
      | .allow => evalAcl principals action true entries

def crossTenant (subject object : Option Text) : Bool :=
  match subject, object with
  | some st, some kt => st ≠ kt
  | _, _ => false

/-- The decision about an object that is given by its parts. -/
def AuthManager.authorizeParts (auth : AuthManager) (subject : Subject) (tenant : Option Text)
    (koid : Koid) (security : SecurityDescriptor) (typeName : Text) (action : Action) :
    Except KError Unit :=
  let denied : Except KError Unit := .error (.accessDenied subject.name action koid)
  let principals := auth.effectivePrincipals subject
  let outcome := fun allowed : Bool => if allowed then Except.ok () else denied
  if crossTenant subject.tenant tenant then denied
  -- A subject of a tenant reads nothing that has no tenant.
  else if action = .read ∧ subject.tenant.isSome ∧ tenant.isNone then denied
  -- A subject without a tenant reads what has none, unless it is an administrator.
  else if action = .read ∧ subject.tenant.isNone ∧ tenant.isSome ∧ subject.isAdmin = false ∧
      adminRole ∉ principals then denied
  else if subject.name = security.owner ∨ subject.isAdmin then .ok ()
  else if adminRole ∈ principals then .ok ()
  else match evalAcl principals action false security.acl with
    | some allowed => outcome allowed
    | none =>
      match auth.policies[typeName]?.bind (evalAcl principals action false) with
      | some allowed => outcome allowed
      | none => denied

def AuthManager.authorize (auth : AuthManager) (subject : Subject) (ko : KnowledgeObject)
    (action : Action) : Except KError Unit :=
  auth.authorizeParts subject ko.metadata.tenant ko.koid ko.security ko.metadata.typeName action

/-! ## Properties -/

def AuthManager.Inherits (auth : AuthManager) (role parent : Text) : Prop :=
  parent ∈ auth.parentsOf role

theorem mem_parents_of_inherits {auth : AuthManager} {role parent : Text}
    (h : parent ∈ auth.parentsOf role) : parent ∈ auth.parents := by
  rw [AuthManager.parentsOf] at h
  cases hparents : auth.roleParents[role]? with
  | none => simp [hparents] at h
  | some parents =>
    rw [hparents, Option.getD_some] at h
    exact mem_flatMap.mpr ⟨(role, parents),
      Std.ExtTreeMap.mem_toList_iff_getElem?_eq_some.mpr hparents, h⟩

theorem mem_effectiveRoles (auth : AuthManager) (subject : Subject) (role : Text) :
    role ∈ auth.effectiveRoles subject ↔
      ∃ own ∈ subject.roles, Relation.ReflTransGen auth.Inherits own role := by
  have hcard : (subject.roles ++ auth.parents).toFinset.card
      ≤ subject.roles.length + auth.parents.length :=
    (toFinset_card_le _).trans_eq length_append
  refine Worklist.mem_search subject.roles ?_ ?_ hcard role
  · intro r hr
    exact mem_toFinset.mpr (mem_append_left _ hr)
  · intro r p hp
    exact mem_toFinset.mpr (mem_append_right _ (mem_parents_of_inherits hp))

section

variable {auth : AuthManager} {subject : Subject} {ko : KnowledgeObject} {action : Action}
  {t : Text}

theorem tenant_of_authorize (htenant : subject.tenant = some t)
    (h : auth.authorize subject ko action = .ok ()) :
    ko.metadata.tenant = none ∨ ko.metadata.tenant = some t := by
  unfold AuthManager.authorize AuthManager.authorizeParts at h
  cases hko : ko.metadata.tenant with
  | none => exact .inl rfl
  | some kt =>
    by_cases heq : t = kt
    · exact .inr (by rw [heq])
    · simp [htenant, hko, crossTenant, heq] at h

theorem tenant_of_authorize_read (htenant : subject.tenant = some t)
    (h : auth.authorize subject ko .read = .ok ()) : ko.metadata.tenant = some t := by
  rcases tenant_of_authorize htenant h with hnone | hsome
  · simp [AuthManager.authorize, AuthManager.authorizeParts, htenant, hnone, crossTenant] at h
  · exact hsome

end

end Aikoql.Kernel
