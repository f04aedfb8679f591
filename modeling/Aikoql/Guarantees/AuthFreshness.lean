import Aikoql.Kernel.Guarded

/-!
# Freshness of Authorization

Decisions are made with the roles and policies there are, as long as no call takes one
away unnoticed.

The cache is read again by a request for a role or a policy. It is not read again by
`evolve` and `forget`, nor by a request that gives a role or policy object another type,
so a role or policy that ends in one of these ways stays in the cache. And when the cache
is read the state of an object makes no difference, so a deleted role or policy comes back.

A cache is a function of the entries of the heads in the order of ids. Two stores whose
objects have the same entries give the same cache, whatever else they hold.

## Main definitions

* `KeepsAuth`: A call takes no role or policy away unnoticed.
* `AuthFresh`: Decisions are those of the roles and policies there are.

## Main theorems

* `authRows_congr`: The cache is a function of the entries of the heads.
* `auth_fresh`: Decisions are fresh in every run of such calls.
* `AuthFreshness.policy_outlives`: Ways in which a policy outlives its object.
-/

namespace Aikoql.Kernel

open List Option
open Storage (Sha256)

/-! ## Entries -/

/-- The entries of the heads with a property, in the order of ids. -/
def Store.authRows (s : Store) (p : KnowledgeObject → Bool) : List (Koid × AuthEntry) :=
  (s.headObjects.filter fun row => p row.2).filterMap fun row =>
    row.2.authEntry.map fun entry => (row.1, entry)

/-- The roles and policies whose current version is not deleted. -/
def Store.liveAuthRows (s : Store) : List (Koid × AuthEntry) :=
  s.authRows fun ko => ko.lifecycle.state ≠ .deleted

theorem mem_authRows {s : Store} {p : KnowledgeObject → Bool} {koid : Koid} {entry : AuthEntry} :
    (koid, entry) ∈ s.authRows p ↔
      ∃ ko, s.headObject koid = some ko ∧ p ko = true ∧ ko.authEntry = some entry := by
  simp only [Store.authRows, mem_filterMap, mem_filter, Prod.exists, mem_headObjects,
    map_eq_some_iff, Prod.mk.injEq]
  constructor
  · rintro ⟨koid', ko, ⟨hko, hp⟩, entry', hentry, rfl, rfl⟩
    exact ⟨ko, hko, hp, hentry⟩
  · rintro ⟨ko, hko, hp, hentry⟩
    exact ⟨koid, ko, ⟨hko, hp⟩, entry, hentry, rfl, rfl⟩

theorem authRows_sorted (s : Store) (p : KnowledgeObject → Bool) :
    (s.authRows p).Pairwise fun a b => compare a.1 b.1 = .lt := by
  have hheads : s.headObjects.Pairwise fun a b => compare a.1 b.1 = .lt := by
    rw [Store.headObjects, pairwise_filterMap]
    refine Std.ExtTreeMap.ordered_keys_toList.imp ?_
    intro a b hab row hrow row' hrow'
    obtain ⟨_, -, rfl⟩ := map_eq_some_iff.mp hrow
    obtain ⟨_, -, rfl⟩ := map_eq_some_iff.mp hrow'
    exact hab
  rw [Store.authRows, pairwise_filterMap]
  refine (hheads.filter _).imp ?_
  intro a b hab row hrow row' hrow'
  obtain ⟨_, -, rfl⟩ := map_eq_some_iff.mp hrow
  obtain ⟨_, -, rfl⟩ := map_eq_some_iff.mp hrow'
  exact hab

theorem authRows_ext {s s' : Store} {p p' : KnowledgeObject → Bool}
    (h : ∀ koid entry, (koid, entry) ∈ s.authRows p ↔ (koid, entry) ∈ s'.authRows p') :
    s.authRows p = s'.authRows p' := by
  have hnodup : ∀ (s : Store) p, (s.authRows p).Nodup := by
    intro s p
    refine (authRows_sorted s p).imp ?_
    rintro a b hab rfl
    simp at hab
  refine Perm.eq_of_pairwise ?_ (authRows_sorted s p) (authRows_sorted s' p')
    ((perm_ext_iff_of_nodup (hnodup s p) (hnodup s' p')).mpr fun row => h row.1 row.2)
  intro a b _ _ hab hba
  rw [Std.OrientedCmp.gt_of_lt hba] at hab
  cases hab

theorem load_eq {s : Store} (h : s.Coherent) :
    AuthManager.load s = .ok (.ofEntries ((s.authRows fun _ => true).map Prod.snd)) := by
  have hrows : ∀ (rows : List (Koid × Head)) (auth : AuthManager),
      (∀ kh ∈ rows, ∃ ko, s.getObjectVersion kh.1 kh.2.commitTs = some ko) →
      rows.foldlM (AuthManager.read s) auth = .ok (((rows.filterMap fun kh =>
            (s.getObjectVersion kh.1 kh.2.commitTs).map fun ko => (kh.1, ko)).filterMap
              fun row => row.2.authEntry).foldl AuthManager.insert auth) := by
    intro rows
    induction rows with
    | nil => exact fun _ _ => rfl
    | cons kh rows ih =>
      intro auth hthere
      obtain ⟨⟨ko, hko⟩, hrest⟩ := forall_mem_cons.mp hthere
      have hread : AuthManager.read s auth kh
          = .ok (ko.authEntry.toList.foldl AuthManager.insert auth) := by
        rw [AuthManager.read, hko]
      rw [foldlM_cons, hread]
      refine (ih _ hrest).trans ?_
      rw [filterMap_cons, hko]
      cases hentry : ko.authEntry with
      | none => simp [hentry]
      | some entry => simp [hentry]
  refine (hrows s.heads.toList .empty ?_).trans ?_
  · intro kh hkh
    have hhead := Std.ExtTreeMap.mem_toList_iff_getElem?_eq_some.mp hkh
    obtain ⟨ko, hko, -⟩ := h kh.1 kh.2 hhead
    rw [Store.headObject, hhead, bind_some] at hko
    exact ⟨ko, hko⟩
  · rw [AuthManager.ofEntries, Store.authRows, filter_true, map_filterMap]
    congr 3
    funext row
    cases row.2.authEntry <;> rfl

/-! ## Calls -/

def Store.authEntry (s : Store) (koid : Koid) : Option AuthEntry :=
  (s.headObject koid).bind KnowledgeObject.authEntry

/-- Requests for roles and policies read the cache again, which is right if none of them
    is about a deleted object. Others must not replace a role or policy. -/
def RequestsKeepAuth (s : Store) (targets : List (Koid × RememberRequest)) : Prop :=
  if targets.any fun target => isAuthType target.2.metadata.typeName then
    ∀ target ∈ targets, isAuthType target.2.metadata.typeName = true →
      ∀ head ∈ s.headObject target.1, head.lifecycle.state ≠ .deleted
  else ∀ target ∈ targets, s.authEntry target.1 = none

/-- A call takes no role or policy away unnoticed, and brings no deleted one back. -/
def KeepsAuth (s : Store) (io : Ambient) (call : Call) : Prop :=
  match call with
  | .remember _ => RequestsKeepAuth s (call.targets io)
  | .transact _ _ _ => RequestsKeepAuth s (call.targets io)
  | .evolve _ koid target _ _ _ => target = .deleted → s.authEntry koid = none
  | .forget _ koid _ _ _ => s.authEntry koid = none
  | .recordAudit _ => True

instance (s : Store) (targets : List (Koid × RememberRequest)) :
    Decidable (RequestsKeepAuth s targets) :=
  inferInstanceAs (Decidable
    (if targets.any fun target => isAuthType target.2.metadata.typeName then
      ∀ target ∈ targets, isAuthType target.2.metadata.typeName = true →
        ∀ head ∈ s.headObject target.1, head.lifecycle.state ≠ .deleted
    else ∀ target ∈ targets, s.authEntry target.1 = none))

instance (s : Store) (io : Ambient) (call : Call) : Decidable (KeepsAuth s io call) :=
  match call with
  | .remember req =>
    inferInstanceAs (Decidable (RequestsKeepAuth s ((Call.remember req).targets io)))
  | .transact ops schema txnId =>
    inferInstanceAs (Decidable (RequestsKeepAuth s ((Call.transact ops schema txnId).targets io)))
  | .evolve _ _ _ _ _ _ => inferInstanceAs (Decidable (_ → _))
  | .forget _ _ _ _ _ => inferInstanceAs (Decidable (_ = _))
  | .recordAudit _ => .isTrue trivial

/-- What a run keeps: the cache is the one that would be read, and no deleted object has an entry.
    -/
structure Guarded.Fresh (g : Guarded) : Prop where
  coherent : g.st.store.Coherent
  live : ∀ koid ko, g.st.store.headObject koid = some ko → ko.lifecycle.state = .deleted →
    ko.authEntry = none
  cache : g.auth = .ofEntries ((g.st.store.authRows fun _ => true).map Prod.snd)

theorem authEntry_of_not_isAuthType {ko : KnowledgeObject}
    (h : isAuthType ko.metadata.typeName = false) : ko.authEntry = none := by
  simp only [isAuthType, Bool.or_eq_false_iff, decide_eq_false_iff_not] at h
  rw [KnowledgeObject.authEntry, if_neg h.1, if_neg h.2]

theorem authEntry_congr {ko head : KnowledgeObject} (hmetadata : ko.metadata = head.metadata)
    (hproperties : ko.properties = head.properties) : ko.authEntry = head.authEntry := by
  rw [KnowledgeObject.authEntry, KnowledgeObject.authEntry, hmetadata, hproperties]

theorem keepsAuth_request {s : Store} {io : Ambient} {call : Call} (hcall : call.isRequest = true) :
    KeepsAuth s io call ↔ RequestsKeepAuth s (call.targets io) := by
  cases call with
  | remember => exact Iff.rfl
  | transact => exact Iff.rfl
  | _ => cases hcall

theorem authEntry_committed (ko : KnowledgeObject) (seq : Nat) (kind : EventKind) (ts : Nat) :
    (ko.committed seq kind ts).authEntry = ko.authEntry := rfl

section

variable {A : Admission} {C : Crypto} {st : State} {io : Ambient} {call : Call} {hlc : Nat}
  {batch : WriteBatch} {pipe : Pipeline} {tenants : Std.ExtTreeMap Text Nat} {reply : Reply}
  {ts : Nat} {change : Change} {o : Outcome}

theorem any_eq_of_forall₂ {α β : Type} {R : α → β → Prop} {xs : List α} {ys : List β}
    {p : α → Bool} {q : β → Bool} (h : Forall₂ R xs ys) (hpq : ∀ x y, R x y → q y = p x) :
    ys.any q = xs.any p := by
  induction h with
  | nil => rfl
  | cons hxy _ ih => rw [any_cons, any_cons, ih, hpq _ _ hxy]

section

variable (hc : Commits A C st io call hlc batch pipe tenants reply ts change o)
include hc

theorem refreshes_eq : refreshes (st.store.writeBatch batch) call (.ok reply)
      = (call.targets io).any fun target => isAuthType target.2.metadata.typeName := by
  cases call with
  | remember req => simp [refreshes, Call.targets]
  | transact ops schema txnId =>
    obtain ⟨results, deduped, rfl, hkoids⟩ := hc.replied ops schema txnId rfl
    -- The heads of the results are the objects asked for, with the types of the requests.
    have hheads : ∀ ko ∈ o.kos, ((st.store.writeBatch batch).headObject ko.koid).any
        (fun head => isAuthType head.metadata.typeName) = isAuthType ko.metadata.typeName := by
      intro ko hko
      obtain ⟨seq, kind, hhead⟩ := hc.head_of_mem hko
      rw [hhead]
      rfl
    have hresults : refreshes (st.store.writeBatch batch) (.transact ops schema txnId)
        (.ok (.transacted results deduped))
        = (results.map Remembered.koid).any fun koid =>
            ((st.store.writeBatch batch).headObject koid).any
              fun head => isAuthType head.metadata.typeName := by
      rw [List.any_map]
      rfl
    have hkos : (o.kos.any fun ko => ((st.store.writeBatch batch).headObject ko.koid).any
        fun head => isAuthType head.metadata.typeName)
        = o.kos.any fun ko => isAuthType ko.metadata.typeName := by
      rw [Bool.eq_iff_iff, List.any_eq_true, List.any_eq_true]
      exact exists_congr fun ko => and_congr_right fun hko => by rw [hheads ko hko]
    rw [hresults, hkoids, List.any_map]
    refine Eq.trans hkos ?_
    exact any_eq_of_forall₂ (hc.staging.requested rfl) fun target ko hrequested => by
      rw [hrequested.metadata]
  | _ => rfl

theorem live_of_keepsAuth (hst : st.store.Coherent)
    (hlive : ∀ koid ko, st.store.headObject koid = some ko → ko.lifecycle.state = .deleted →
      ko.authEntry = none) (hkeeps : KeepsAuth st.store io call) (koid : Koid)
    (ko : KnowledgeObject) (hko : (st.store.writeBatch batch).headObject koid = some ko)
    (hdeleted : ko.lifecycle.state = .deleted) : ko.authEntry = none := by
  rcases hc.head_cases hko with ⟨asked, hasked, -, seq, kind, rfl⟩ | ⟨-, -, hhead⟩
  · rw [authEntry_committed]
    change asked.lifecycle.state = .deleted at hdeleted
    rcases hc.staging.asked_cases hst hasked with ⟨hcall, target, htarget, hrequested⟩ |
      ⟨head, hacts⟩
    · -- A deleted object stays deleted, and nobody may make it a role or policy.
      refine authEntry_of_not_isAuthType (Bool.eq_false_iff.mpr fun htype => ?_)
      rw [hrequested.metadata] at htype
      have hall := (keepsAuth_request hcall).mp hkeeps
      rw [RequestsKeepAuth, if_pos (List.any_eq_true.mpr ⟨target, htarget, htype⟩)] at hall
      rw [hrequested.lifecycle] at hdeleted
      cases hhead : st.store.headObject target.1 with
      | none =>
        rw [hhead] at hdeleted
        cases hdeleted
      | some head =>
        rw [hhead] at hdeleted
        exact hall target htarget htype head hhead hdeleted
    · have hentry : st.store.authEntry asked.koid = none := by
        rcases hacts.call with ⟨ctx, origin, expected, note, rfl⟩ | ⟨ctx, mode, expected, note, rfl⟩
        · exact hkeeps hdeleted
        · exact hkeeps
      rw [Store.authEntry, hacts.head, bind_some] at hentry
      rw [authEntry_congr hacts.metadata hacts.properties, hentry]
  · exact hlive koid ko hhead hdeleted

theorem authEntry_of_keepsAuth (hst : st.store.Coherent) (hkeeps : KeepsAuth st.store io call)
    (hquiet : ((call.targets io).any fun target => isAuthType target.2.metadata.typeName) = false)
    (koid : Koid) : (st.store.writeBatch batch).authEntry koid = st.store.authEntry koid := by
  by_cases hasked : ∃ asked ∈ o.kos, asked.koid = koid
  · obtain ⟨asked, hasked, rfl⟩ := hasked
    obtain ⟨seq, kind, hhead'⟩ := hc.head_of_mem hasked
    rw [Store.authEntry, hhead', bind_some, authEntry_committed]
    rcases hc.staging.asked_cases hst hasked with ⟨hcall, target, htarget, hrequested⟩ |
      ⟨head, hacts⟩
    · -- What is asked for is no role or policy, and neither is what it replaces.
      have hall := (keepsAuth_request hcall).mp hkeeps
      rw [RequestsKeepAuth, if_neg (by rw [hquiet]; decide)] at hall
      rw [hrequested.koid, hall target htarget]
      refine authEntry_of_not_isAuthType ?_
      rw [hrequested.metadata]
      exact Bool.eq_false_iff.mpr fun htype =>
        absurd (List.any_eq_true.mpr ⟨target, htarget, htype⟩) (by rw [hquiet]; decide)
    · rw [authEntry_congr hacts.metadata hacts.properties, Store.authEntry, hacts.head, bind_some]
  · push Not at hasked
    by_cases herases : call.erases = some koid
    · have hgone := hc.described.1.headObject_erased (hc.erased.trans herases)
      have hentry : st.store.authEntry koid = none := by
        cases call with
        | forget ctx koid' mode expected note =>
          cases mode with
          | tombstone => cases herases
          | erase =>
            cases herases
            exact hkeeps
        | _ => cases herases
      rw [hentry, Store.authEntry, hgone, bind_none]
    · rw [Store.authEntry, Store.authEntry, hc.head_other hasked herases]

end

end

/-- The cache is a function of the entries of the heads. -/
theorem authRows_congr {s s' : Store} (h : ∀ koid, s.authEntry koid = s'.authEntry koid) :
    (s.authRows fun _ => true) = s'.authRows fun _ => true := by
  have hmem : ∀ (s : Store) koid entry, (koid, entry) ∈ s.authRows (fun _ => true) ↔
      s.authEntry koid = some entry := by
    intro s koid entry
    rw [mem_authRows, Store.authEntry, bind_eq_some_iff]
    simp
  refine authRows_ext fun koid entry => ?_
  rw [hmem, hmem, h]

/-! ## Runs -/

/-- A call whose batch is written takes no role or policy away unnoticed. -/
def Turn.KeepsAuth (S : Settings) (C : Crypto) (g : Guarded) (t : Turn) : Prop :=
  g.writes S C t = true → Kernel.KeepsAuth g.st.store t.io t.call
  deriving Decidable

/-- Every decision is the one of the roles and policies that are not deleted. -/
def AuthFresh (g : Guarded) : Prop :=
  ∀ subject ko action, g.auth.authorize subject ko action
    = (AuthManager.ofEntries (g.st.store.liveAuthRows.map Prod.snd)).authorize subject ko action

theorem Guarded.Fresh.turn {S : Settings} {C : Crypto} {g : Guarded} (h : g.Fresh) {t : Turn}
    (hkeeps : Turn.KeepsAuth S C g t) : (g.step S C t).1.Fresh := by
  rcases Guarded.step_outcome S C h.coherent.keyed t with ⟨-, hlc, hstep⟩ |
    ⟨hlc, batch, pipe, tenants, reply, ts, change, o, hwrites, hstep, hc, hauth⟩
  · rw [hstep]
    exact ⟨h.coherent, h.live, h.cache⟩
  · have hcoherent := hc.described.1.coherent h.coherent
    refine ⟨hstep ▸ hcoherent, ?_, ?_⟩
    · rw [hstep]
      exact live_of_keepsAuth hc h.coherent h.live (hkeeps hwrites)
    · rw [hauth, hstep, refreshes_eq hc, load_eq hcoherent]
      cases hquiet : (t.call.targets t.io).any
          fun target => isAuthType target.2.metadata.typeName with
      | true => rfl
      | false =>
        -- The old cache is right, since the entries of all objects are as before.
        rw [if_neg (by decide), h.cache]
        refine congrArg (fun rows => AuthManager.ofEntries (List.map Prod.snd rows)) ?_
        exact (authRows_congr
          (authEntry_of_keepsAuth hc h.coherent (hkeeps hwrites) hquiet)).symm

/-- If every call whose batch is written takes no role or policy away unnoticed, decisions
    are those of the roles and policies that are not deleted. -/
theorem auth_fresh (S : Settings) (C : Crypto) (g : Guarded)
    (h : Runs.Reaches (Guarded.turn S C) (Turn.KeepsAuth S C) Guarded.initial g) :
    AuthFresh g := by
  have hfresh : g.Fresh := by
    refine h.invariant (P := Guarded.Fresh) ?_ ?_
    · exact ⟨Store.coherent_empty, fun koid ko hko => (by cases hko), rfl⟩
    · intro g t g' hg hkeeps hturn
      cases hturn
      exact hg.turn hkeeps
  intro subject ko action
  have hrows : g.st.store.liveAuthRows = g.st.store.authRows fun _ => true := by
    refine authRows_ext fun koid entry => ?_
    rw [mem_authRows, mem_authRows]
    refine exists_congr fun ko => and_congr_right fun hko => ?_
    have hlive := hfresh.live koid ko hko
    constructor
    · rintro ⟨-, hentry⟩
      exact ⟨rfl, hentry⟩
    · rintro ⟨-, hentry⟩
      refine ⟨decide_eq_true fun hdeleted => ?_, hentry⟩
      rw [hlive hdeleted] at hentry
      cases hentry
  rw [hfresh.cache, hrows]

/-! ## Runs with a policy -/

namespace AuthFreshness

open Samples

def admin : KnowledgeContext := ⟨⟨utf8 "ann", [adminRole], none⟩, none⟩

def reader : Subject := ⟨utf8 "bob", [], none⟩

def policy : RememberRequest :=
  { RememberRequest.create admin ⟨policyType, none, 0, []⟩ with
    koid := some 1
    properties := Std.ExtTreeMap.ofList [(utf8 "target_type", .text (utf8 "note")),
        (utf8 "rules", .list [.map [(utf8 "principal", .text (utf8 "*")),
          (utf8 "action", .text (utf8 "read")), (utf8 "effect", .text (utf8 "allow"))]])] compare }

def retyped : RememberRequest :=
  RememberRequest.update admin 1 ⟨utf8 "note", none, 0, []⟩

def role (koid : Koid) : RememberRequest :=
  { RememberRequest.create admin ⟨roleType, none, 0, []⟩ with
    koid := some koid
    properties := Std.ExtTreeMap.ofList [(utf8 "name", .text (utf8 "editor"))] compare }

def note : KnowledgeObject where
  koid := 9
  version := 1
  commitTs := 0
  metadata := ⟨utf8 "note", none, 0, []⟩
  properties := ∅
  semantic := none
  relationships := []
  eventRefs := []
  security := ⟨utf8 "ann", [], none⟩
  lifecycle := ⟨.draft, .human⟩
  extensions := ∅

def evolving (target : LifecycleState) : Call := .evolve admin 1 target .human none none

def forgetting (mode : ForgetMode) : Call := .forget admin 1 mode none none

def maintained : List Call :=
  [.remember policy, evolving .active,
    .transact [⟨admin, retyped⟩, ⟨admin, role 2⟩] none none, forgetting .erase,
    .remember { policy with koid := some 3 }]

theorem maintained_fresh :
    ∃ g, Runs.run (Guarded.turn (.basic ∅ ∅) (.unsigned Sha256.fips180)) Guarded.initial
        (spaced maintained) = some g ∧
      g.auth.authorize reader note .read = .ok () ∧ AuthFresh g := by
  exact Runs.exists_run (P := fun g => (g.auth.authorize reader note .read).isOk = true)
    (by decide +kernel) (by decide +kernel) fun g hreach hallowed =>
    ⟨eq_ok_of_isOk hallowed, auth_fresh (.basic ∅ ∅) (.unsigned Sha256.fips180) g hreach⟩

/-- Behind some calls a decision is made with a policy that is gone. -/
def Stale (calls : List Call) : Prop :=
  ∃ g, Runs.run (Guarded.turn (.basic ∅ ∅) (.unsigned Sha256.fips180)) Guarded.initial
    (spaced calls) = some g ∧ ¬AuthFresh g

/-- Four ways a policy ends, and a role that is written behind one of them. -/
theorem policy_outlives : Stale [.remember policy, forgetting .tombstone] ∧
      Stale [.remember policy, forgetting .erase] ∧
      Stale [.remember policy, evolving .accepted, evolving .archived, evolving .deleted] ∧
      Stale [.remember policy, .remember retyped] ∧
      Stale [.remember policy, forgetting .tombstone, .remember (role 2)] := by
  have hrun : ∀ calls, (∃ g, Runs.run (Guarded.turn (.basic ∅ ∅) (.unsigned Sha256.fips180))
      Guarded.initial (spaced calls) = some g ∧
      (g.auth.authorize reader note .read).isOk
        ≠ ((AuthManager.ofEntries (g.st.store.liveAuthRows.map Prod.snd)).authorize reader note
            .read).isOk) → Stale calls := by
    rintro calls ⟨g, hg, hdiffers⟩
    exact ⟨g, hg, fun hfresh => hdiffers (by rw [hfresh reader note .read])⟩
  exact ⟨hrun _ (by decide +kernel), hrun _ (by decide +kernel), hrun _ (by decide +kernel),
    hrun _ (by decide +kernel), hrun _ (by decide +kernel)⟩

end AuthFreshness

end Aikoql.Kernel
