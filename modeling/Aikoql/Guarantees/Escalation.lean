import Aikoql.Guarantees.AuthFreshness

/-!
# Privilege Escalation

Nobody gains rights, as long as nobody without the admin role writes a role or a policy.

The cache of roles and policies is read from objects like any other, and the kernel lets
every subject create objects of its own, whatever their type. The write guard therefore
does not protect what the loader trusts: a request for a role or policy object is read into
the cache as soon as it is written. A request that gives such an object another type is not
read at once, but it uncovers an older role of the same name when the kernel is opened again.
All other requests leave the cache and the entries of the store alone, and with them every
decision.

## Definitions

* `ReachesAdmin`: A subject reaches the admin role by inheritance.
* `NoGain`: Nobody gains anything between two caches.
* `WritesNoAuth`: A call writes no role or policy and replaces none.

## Theorems

* `auth_of_writesNoAuth`: Such a call changes no cache, the one that could be read included.
* `no_escalation`: Nobody gains anything in a run of such calls.
* `Escalation.intern_promoted`: What a role or policy of an intern does.
* `Escalation.role_uncovered`: What giving a role another type does.
-/

namespace Aikoql.Kernel

open Storage (Sha256)

def ReachesAdmin (auth : AuthManager) (subject : Subject) : Prop :=
  ∃ own ∈ subject.roles, Relation.ReflTransGen auth.Inherits own adminRole

theorem reachesAdmin_iff {auth : AuthManager} {subject : Subject} :
    ReachesAdmin auth subject ↔ adminRole ∈ auth.effectiveRoles subject :=
  (mem_effectiveRoles auth subject adminRole).symm

section

variable (S : Settings) (C : Crypto)

/-- A call whose batch is written asks for no role or policy, and replaces none. -/
def WritesNoAuth (g : Guarded) (t : Turn) : Prop :=
  g.writes S C t = true → ∀ target ∈ t.call.targets t.io,
    isAuthType target.2.metadata.typeName = false ∧ g.st.store.authEntry target.1 = none
  deriving Decidable

/-- Nobody gains anything between two caches: none of them reaches the admin role if none did,
    and what was denied to all of them stays denied. -/
def NoGain (users : Subject → Prop) (before after : AuthManager) : Prop :=
  ((∀ subject, users subject → ¬ReachesAdmin before subject) →
    ∀ subject, users subject → ¬ReachesAdmin after subject) ∧
  ∀ ko action, (∀ subject, users subject → before.authorize subject ko action ≠ .ok ()) →
    ∀ subject, users subject → after.authorize subject ko action ≠ .ok ()

theorem NoGain.refl (users : Subject → Prop) (auth : AuthManager) : NoGain users auth auth :=
  ⟨id, fun _ _ => id⟩

variable {S C}

/-- The cache is not read again, and it would be the same if it were. -/
theorem auth_of_writesNoAuth {g : Guarded} (hst : g.st.store.Coherent) {t : Turn}
    (hrequest : t.call.isRequest = true) (hwrites : WritesNoAuth S C g t) :
    (g.step S C t).1.auth = g.auth ∧
      AuthManager.load (g.step S C t).1.st.store = AuthManager.load g.st.store := by
  rcases Guarded.step_outcome S C hst.keyed t with ⟨-, hlc, hstep⟩ |
    ⟨hlc, batch, pipe, tenants, reply, ts, change, o, hwritten, hstep, hc, hauth⟩
  · rw [hstep]
    exact ⟨rfl, rfl⟩
  · have hquiet : ((t.call.targets t.io).any
        fun target => isAuthType target.2.metadata.typeName) = false := by
      rw [List.any_eq_false]
      intro target htarget
      rw [(hwrites hwritten target htarget).1]
      decide
    have hkeeps : KeepsAuth g.st.store t.io t.call := by
      rw [keepsAuth_request hrequest, RequestsKeepAuth, if_neg (by rw [hquiet]; decide)]
      exact fun target htarget => (hwrites hwritten target htarget).2
    refine ⟨by rw [hauth, refreshes_eq hc, hquiet, if_neg (by decide)], ?_⟩
    rw [hstep, load_eq (hc.described.1.coherent hst), load_eq hst,
      authRows_congr (authEntry_of_keepsAuth hc hst hkeeps hquiet)]

variable (S C)

end

/-! ## Runs of an intern -/

namespace Escalation

open Samples

def intern : KnowledgeContext := ⟨⟨utf8 "eve", [utf8 "intern"], none⟩, none⟩

def isIntern (subject : Subject) : Prop := subject = intern.subject

instance : DecidablePred isIntern := fun subject =>
  inferInstanceAs (Decidable (subject = intern.subject))

def promotion : RememberRequest :=
  { RememberRequest.create intern ⟨roleType, none, 0, []⟩ with
    koid := some 1
    properties := Std.ExtTreeMap.ofList
      [(utf8 "name", .text (utf8 "intern")), (utf8 "parents", .list [.text adminRole])] compare }

def permission : RememberRequest :=
  { RememberRequest.create intern ⟨policyType, none, 0, []⟩ with
    koid := some 1
    properties := Std.ExtTreeMap.ofList [(utf8 "target_type", .text (utf8 "note")),
        (utf8 "rules", .list [.map [(utf8 "principal", .text (utf8 "intern")),
          (utf8 "action", .text (utf8 "write")), (utf8 "effect", .text (utf8 "allow"))]])] compare }

def ordinary : List Call :=
  [.remember { RememberRequest.create intern ⟨utf8 "note", none, 0, []⟩ with koid := some 1 },
    .transact [⟨intern, RememberRequest.update intern 1 ⟨utf8 "draft", none, 0, []⟩⟩] none none]

theorem intern_not_admin : ¬ReachesAdmin Guarded.initial.auth intern.subject := by
  rw [reachesAdmin_iff]
  decide +kernel

theorem intern_denied :
    Guarded.initial.auth.authorize intern.subject AuthFreshness.note .write ≠ .ok () := by
  intro hok
  have hdenied : (Guarded.initial.auth.authorize intern.subject AuthFreshness.note .write).isOk
      = false := by
    decide +kernel
  rw [hok] at hdenied
  cases hdenied

/-- A role of interns that an administrator wrote, and one of the same name that hides it. -/
def hidden : List Call :=
  [.remember { promotion with context := AuthFreshness.admin },
    .remember { promotion with
      koid := some 2
      properties := Std.ExtTreeMap.ofList [(utf8 "name", .text (utf8 "intern"))] compare }]

/-- An intern makes a note of the role that hides the other one. The cache stays as it is, and
    the one that is read next has the other role. -/
theorem role_uncovered : ∃ g, Runs.run (Guarded.turn plain crypto) Guarded.initial
      (spaced hidden) = some g ∧ ¬ReachesAdmin g.auth intern.subject ∧
    ∃ g', g.turn plain crypto ⟨⟨3, 3, fun _ => 0⟩, .remember (.update intern 2 note), true⟩
      = some g' ∧ g'.auth.roleParents = g.auth.roleParents ∧
    ∃ reopened, g'.reopen = some reopened ∧ ReachesAdmin reopened.auth intern.subject := by
  simp only [reachesAdmin_iff]
  decide +kernel

end Escalation

end Aikoql.Kernel
