import Aikoql.Kernel.Tenancy
import Aikoql.Kernel.Interleaving

/-!
# Quotas

A tenant with a quota has no more live objects than that, if every call that brings it an
object asks for it.

The quota is asked in one place: `remember` asks it before it creates an object, for the
tenant in the context of the request. The object is charged to the tenant in its metadata,
which may be another one. Transactions create objects without asking, and so does an update
that gives an object another tenant. What is asked is the number in memory, and that one
becomes too small when an object that is deleted already is forgotten.

Calls are interleaved as in `Interleaving`. The roles and policies the kernel knows have no
part in this, so each step may be decided by others.

## Main definitions

* `Charged`: a call that leaves no object with a tenant unasked.
* `Charges`: the call of a step is charged, if it goes as far as a batch.

## Main theorems

* `quota_kept`: the quota is kept in every interleaving of charged calls, and by no other
  request once it is used up.
* `Quotas.quota_exceeded`: an interleaving for each call that is not charged.
-/

namespace Aikoql.Kernel

open Storage (Sha256)

/-- The requests behind which an object counts for the tenant. -/
def countsAfter (s : Store) (t : Text) (targets : List (Koid × RememberRequest)) :
    List (Koid × RememberRequest) :=
  targets.filter fun target =>
    decide (((s.headObject target.1).map fun head => head.lifecycle.state) ≠ some .deleted)
      && decide (tenantName target.2.metadata.tenant = t)

/-- The requests for objects that count for the tenant already. -/
def countsBefore (s : Store) (t : Text) (targets : List (Koid × RememberRequest)) :
    List (Koid × RememberRequest) :=
  targets.filter fun target => s.livesIn t target.1

/-- A call that brings the tenant no object it is not asked for, and takes none off its
    number in memory that was taken off before. -/
def Charged (s : Store) (io : Ambient) (t : Text) : Call → Prop
  -- A new object of the tenant is created in its name, and a live one was there before.
  | .remember req => tenantName req.metadata.tenant = t →
      ((s.headObject (req.target io)).isNone = true → tenantName req.context.tenant = t) ∧
        ∀ head ∈ s.headObject (req.target io),
          head.lifecycle.state = .deleted ∨ tenantName head.metadata.tenant = t
  -- A batch brings as many objects as it takes away, at most.
  | .transact ops _ _ =>
    let targets := (opTargets io 0 ops).map fun target => (target.1, target.2.request)
    (countsAfter s t targets).length ≤ (countsBefore s t targets).length
  | .evolve _ _ _ _ _ _ => True
  | .forget _ koid _ _ _ => ∀ head ∈ s.headObject koid,
      tenantName head.metadata.tenant = t → head.lifecycle.state ≠ .deleted
  | .recordAudit _ => True

instance (s : Store) (io : Ambient) (t : Text) (call : Call) : Decidable (Charged s io t call) :=
  match call with
  | .remember _ => inferInstanceAs (Decidable (_ → _))
  | .transact _ _ _ => inferInstanceAs (Decidable (_ ≤ _))
  | .evolve _ _ _ _ _ _ => .isTrue trivial
  | .forget _ _ _ _ _ => inferInstanceAs (Decidable (∀ _ ∈ _, _))
  | .recordAudit _ => .isTrue trivial

/-- A new object, for which the quota of the tenant is asked. -/
def AsksQuota (s : Store) (io : Ambient) (t : Text) : Call → Prop
  | .remember req => s.headObject (req.target io) = none ∧ tenantName req.context.tenant = t
  | _ => False

/-! ## Calls -/

section

variable {S : Settings} {auth : AuthManager} {C : Crypto} {st : State} {io : Ambient} {call : Call}
  {hlc : Nat} {batch : WriteBatch} {pipe : Pipeline} {tenants : Std.ExtTreeMap Text Nat}
  {reply : Reply} {ts : Nat} {change : Change} {o : Outcome} {t : Text} {q : Nat}

theorem livesIn_of_act (hstaging : Staging (S.admission auth) st io call o)
    (hst : st.store.Coherent) (hcall : call.isRequest = false) (t : Text) :
    (o.kos.filter fun ko => ko.livesIn t).length
      ≤ ((o.kos.map KnowledgeObject.koid ++ call.erases.toList).filter
          (st.store.livesIn t)).length := by
  cases hstaging with
  | remember | transact | schema => cases hcall
  | @evolve ctx koid target origin expected note head hhead hauth hmove =>
    -- The object keeps its tenant, and it is not deleted before.
    have hbefore : st.store.livesIn t head.koid = head.livesIn t := by
      rw [Store.livesIn, hst.keyed koid head hhead, hhead]
      rfl
    have hafter : (evolvedObject head target origin io.millis ctx.subject.name note).livesIn t
        = true → head.livesIn t = true := by
      intro h
      have htenant := (Bool.and_eq_true _ _ ▸ h).2
      exact Bool.and_eq_true _ _ ▸ ⟨decide_eq_true (ne_deleted_of_canTransition hmove), htenant⟩
    change ([evolvedObject head target origin io.millis ctx.subject.name note].filter
      fun ko => ko.livesIn t).length ≤ ([head.koid].filter (st.store.livesIn t)).length
    rw [List.filter_singleton, List.filter_singleton, hbefore]
    cases hlives : (evolvedObject head target origin io.millis ctx.subject.name note).livesIn t with
    | false => exact Nat.zero_le _
    | true =>
      rw [hafter hlives]
      exact Nat.le_refl 1
  | _ => exact Nat.zero_le _

theorem usage_lt_of_checkCreate {quotas tenants : Std.ExtTreeMap Text Nat} {tenant : Option Text}
    (hquota : quotas[tenantName tenant]? = some q)
    (h : checkCreate quotas tenants tenant = .ok ()) : usageOf tenants (tenantName tenant) < q := by
  unfold checkCreate at h
  rw [hquota] at h
  exact ensure_eq_ok.mp h

theorem charged_request {s : Store} (hcall : call.isRequest = true) :
    Charged s io t call ↔ (countsAfter s t (call.targets io)).length
        ≤ (countsBefore s t (call.targets io)).length ∨ AsksQuota s io t call := by
  cases call with
  | remember req =>
    cases hhead : s.headObject (req.target io) with
    | none =>
      by_cases htenant : tenantName req.metadata.tenant = t <;>
        simp [Charged, AsksQuota, countsAfter, countsBefore, Call.targets, Store.livesIn, hhead,
          htenant]
    | some head =>
      by_cases htenant : tenantName req.metadata.tenant = t <;>
        by_cases hbefore : tenantName head.metadata.tenant = t <;>
        by_cases hdeleted : head.lifecycle.state = .deleted <;>
        simp [Charged, AsksQuota, countsAfter, countsBefore, Call.targets, Store.livesIn,
          KnowledgeObject.livesIn, hhead, htenant, hbefore, hdeleted]
  | transact ops schema txnId => exact (or_iff_left id).symm
  | _ => cases hcall

/-- The live objects behind a batch of requests. -/
theorem liveCount_request
    (hc : Commits (S.admission auth) C st io call hlc batch pipe tenants reply ts change o)
    (hcall : call.isRequest = true) (t : Text) :
    (st.store.writeBatch batch).liveCount t + (countsBefore st.store t (call.targets io)).length
      = st.store.liveCount t + (countsAfter st.store t (call.targets io)).length := by
  have hlive := hc.liveCount t
  obtain ⟨hkoids, hcome⟩ := Requested.livesIn_length (hc.staging.requested hcall) t
  have herases := (hc.staging.removes_nothing hcall).2
  have hgone : ((call.targets io).map Prod.fst ++ call.erases.toList).filter
      (st.store.livesIn t) = (countsBefore st.store t (call.targets io)).map Prod.fst := by
    rw [herases, Option.toList_none, List.append_nil, List.filter_map]
    rfl
  rw [hkoids, hgone, List.length_map, hcome] at hlive
  exact hlive

/-- What is in memory behind a call. -/
theorem usageOf_commits
    (hc : Commits (S.admission auth) C st io call hlc batch pipe tenants reply ts change o)
    (t : Text) : usageOf tenants t = usageOf st.tenants t
      + (o.created.map tenantName).count t - (o.deleted.map tenantName).count t := by
  rw [hc.tenants, Outcome.tenants, usageOf_foldl_recordDelete, usageOf_foldl_recordCreate]

/-- The number of live objects is within the quota, and the number in memory is not below
    it. -/
structure WithinQuota (t : Text) (q : Nat) (st : State) : Prop where
  coherent : st.store.Coherent
  kept : st.store.liveCount t ≤ q
  counted : st.store.liveCount t ≤ usageOf st.tenants t

theorem WithinQuota.request
    (hc : Commits (S.admission auth) C st io call hlc batch pipe tenants reply ts change o)
    (hst : WithinQuota t q st) (hquota : S.quotas[t]? = some q) (hcall : call.isRequest = true)
    (hcharged : Charged st.store io t call) :
    (st.store.writeBatch batch).liveCount t ≤ q ∧
      (st.store.writeBatch batch).liveCount t ≤ usageOf tenants t := by
  have hlive := liveCount_request hc hcall t
  have husage := usageOf_commits hc t
  rw [(hc.staging.removes_nothing hcall).1] at husage
  have hkept := hst.kept
  have hcounted := hst.counted
  rcases (charged_request hcall).mp hcharged with hnone | hasks
  · exact ⟨by omega, by simp at husage; omega⟩
  · -- One object is created and booked, and the quota that was asked was not used up.
    cases hc.staging with
    | @remember req draft _ _ hdraft =>
      obtain ⟨hhead, rfl⟩ := hasks
      have hfree := usage_lt_of_checkCreate hquota ((rememberDraft_eq_ok hdraft).quota hhead)
      rw [hhead] at husage
      by_cases htenant : tenantName req.metadata.tenant = tenantName req.context.tenant <;>
        simp [countsAfter, countsBefore, Call.targets, hhead, htenant, Store.livesIn]
          at hlive husage <;> omega
    | transact => cases hasks
    | schema => cases hasks
    | _ => cases hcall

/-- A call that asks for no version takes objects away at most, and what it books has
    gone. -/
theorem WithinQuota.act
    (hc : Commits (S.admission auth) C st io call hlc batch pipe tenants reply ts change o)
    (hst : WithinQuota t q st) (hcall : call.isRequest = false)
    (hcharged : Charged st.store io t call) :
    (st.store.writeBatch batch).liveCount t ≤ q ∧
      (st.store.writeBatch batch).liveCount t ≤ usageOf tenants t := by
  have hlive := hc.liveCount t
  have hacts := livesIn_of_act hc.staging hst.coherent hcall t
  have husage := usageOf_commits hc t
  have hkept := hst.kept
  have hcounted := hst.counted
  refine ⟨by omega, ?_⟩
  -- An object that is forgotten lived in the tenant it is taken off.
  have hgone : ∀ koid head, st.store.headObject koid = some head →
      (∀ head ∈ st.store.headObject koid,
        tenantName head.metadata.tenant = t → head.lifecycle.state ≠ .deleted) →
      [tenantName head.metadata.tenant].count t = ([koid].filter (st.store.livesIn t)).length := by
    intro koid head hhead hlives
    by_cases htenant : tenantName head.metadata.tenant = t
    · have hstate := hlives head hhead htenant
      simp [Store.livesIn, KnowledgeObject.livesIn, hhead, htenant, hstate]
    · simp [Store.livesIn, KnowledgeObject.livesIn, hhead, htenant]
  cases hc.staging with
  | remember | transact | schema => cases hcall
  | evolve | recordAudit =>
    simp at husage
    omega
  | @tombstone ctx koid expected note head hhead hauth =>
    have hfiltered : ([tombstonedObject head].filter fun ko => ko.livesIn t) = [] := rfl
    have hcount := hgone koid head hhead hcharged
    have hkoid : head.koid = koid := hst.coherent.keyed koid head hhead
    simp only [List.map_cons, List.map_nil, List.count_nil, Call.erases, Option.toList_none,
      List.append_nil, hfiltered, List.length_nil] at husage hlive
    rw [show (tombstonedObject head).koid = koid from hkoid] at hlive
    omega
  | @erase ctx koid expected note head hhead hauth =>
    have hcount := hgone koid head hhead hcharged
    simp only [List.map_cons, List.map_nil, List.count_nil, Call.erases, Option.toList_some,
      List.nil_append, List.filter_nil, List.length_nil] at husage hlive
    omega

theorem WithinQuota.commits
    (hc : Commits (S.admission auth) C st io call hlc batch pipe tenants reply ts change o)
    (hst : WithinQuota t q st) (hquota : S.quotas[t]? = some q)
    (hcharged : Charged st.store io t call) :
    WithinQuota t q { st with
      store := st.store.writeBatch batch, pipe := pipe, tenants := tenants } := by
  have hcounts : (st.store.writeBatch batch).liveCount t ≤ q ∧
      (st.store.writeBatch batch).liveCount t ≤ usageOf tenants t := by
    cases hcall : call.isRequest with
    | false => exact hst.act hc hcall hcharged
    | true => exact hst.request hc hquota hcall hcharged
  exact ⟨hc.described.1.coherent hst.coherent, hcounts.1, hcounts.2⟩

end

/-! ## Interleavings -/

section

variable (S : Settings) (C : Crypto)

/-- A step of one caller, decided by some roles and policies. -/
def guardedMove (sys : Shared) (e : AuthManager × Move) : Option Shared :=
  move (S.admission e.1) C sys e.2

/-- The call a step takes the lock for is charged, if it goes as far as a batch. -/
def Charges (t : Text) (sys : Shared) (e : AuthManager × Move) : Prop :=
  match sys.call e.2 with
  | none => True
  | some (io, call, _) =>
    (stage (S.admission e.1) C sys.st io call).2.isWrite = true → Charged sys.st.store io t call

instance (t : Text) (sys : Shared) (e : AuthManager × Move) : Decidable (Charges S C t sys e) :=
  match h : sys.call e.2 with
  | none => .isTrue (by simp [Charges, h])
  | some (io, call, _) =>
    decidable_of_iff ((stage (S.admission e.1) C sys.st io call).2.isWrite = true →
      Charged sys.st.store io t call) (by simp [Charges, h])

theorem withinQuota_of_reaches {t : Text} {q : Nat} (hquota : S.quotas[t]? = some q)
    {start sys : Shared} (hstart : WithinQuota t q start.st) (hidle : start.flight = none)
    (h : Runs.Reaches (guardedMove S C) (Charges S C t) start sys) : WithinQuota t q sys.st := by
  have hupholds : sys.Upholds (WithinQuota t q) := by
    refine h.invariant (P := Shared.Upholds (WithinQuota t q)) ?_ ?_
    · refine ⟨hstart, ?_⟩
      intro flight _ _ _ _ hflight
      rw [hidle] at hflight
      cases hflight
    · intro sys e sys' hsys hcharges hmove
      refine hsys.move (fun _ _ hP => ⟨hP.coherent, hP.kept, hP.counted⟩) ?_ hmove
      -- A call is staged against the rows it will be written to.
      intro io call ops batch pipe tenants reply hcall hwrite
      unfold Charges at hcharges
      rw [hcall] at hcharges
      obtain ⟨ts, change, o, hc⟩ := stage_outcome hsys.now.coherent.keyed (Prod.ext rfl hwrite)
      exact hsys.now.commits hc hquota (hcharges (by rw [hwrite]; rfl))
  exact hupholds.now

/-- A tenant that has no more live objects than its quota allows has never more, if every
    call is charged. Once the quota is used up, a request that is written keeps it only if
    it is charged. -/
theorem quota_kept {t : Text} {q : Nat} (hquota : S.quotas[t]? = some q) {start sys : Shared}
    (hstart : WithinQuota t q start.st) (hidle : start.flight = none)
    (h : Runs.Reaches (guardedMove S C) (Charges S C t) start sys) :
    sys.st.store.liveCount t ≤ q ∧
      (sys.st.store.liveCount t = q → ∀ auth io call batch pipe tenants reply,
        call.isRequest = true →
        (stage (S.admission auth) C sys.st io call).2 = .write batch pipe tenants reply →
          ((sys.st.store.writeBatch batch).liveCount t ≤ q ↔ Charged sys.st.store io t call)) := by
  have hsys := withinQuota_of_reaches S C hquota hstart hidle h
  refine ⟨hsys.kept, ?_⟩
  intro hfull auth io call batch pipe tenants reply hcall hwrite
  obtain ⟨ts, change, o, hc⟩ := stage_outcome hsys.coherent.keyed (Prod.ext rfl hwrite)
  have hlive := liveCount_request hc hcall t
  refine ⟨?_, fun hcharged => (hsys.commits hc hquota hcharged).kept⟩
  intro hkept
  exact (charged_request hcall).mpr (.inl (by omega))

end

/-! ## Runs of a tenant with room for one object -/

namespace Quotas

open Samples

def subject : Subject := ⟨utf8 "ann", [], none⟩

def workingFor (tenant : String) : KnowledgeContext := ⟨subject, some (utf8 tenant)⟩

def creating (koid : Koid) (context tenant : String) : RememberRequest :=
  { RememberRequest.create (workingFor context) (noteOf tenant) with koid := some koid }

def updating (koid : Koid) (tenant : String) : RememberRequest :=
  RememberRequest.update (workingFor tenant) koid (noteOf tenant)

def oneEach : Settings := .basic (Std.ExtTreeMap.ofList [(utf8 "a", 1)] compare) ∅

def spaced (calls : List Call) : List (AuthManager × Move) :=
  (calls.mapIdx fun i call =>
    [(AuthManager.empty, .start ⟨i + 1, i + 1, fun _ => 0⟩ call), (.empty, .finish true)]).flatten

def batched : List (AuthManager × Move) :=
  spaced [.transact [⟨workingFor "a", creating 1 "a" "a"⟩, ⟨workingFor "a", creating 2 "a" "a"⟩]
    none none]

def committed : List (AuthManager × Move) :=
  spaced [.remember (creating 1 "a" "a")] ++
    [(.empty, .beginTransaction subject (utf8 "t") 2), (.empty, .stage 0 (creating 2 "a" "a")),
      (.empty, .commit 0 ⟨3, 3, fun _ => 0⟩), (.empty, .finish true)]

def chargedElsewhere : List (AuthManager × Move) :=
  spaced [.remember (creating 1 "a" "a"), .remember (creating 2 "b" "a")]

def movedIn : List (AuthManager × Move) :=
  spaced [.remember (creating 1 "a" "a"), .remember (creating 2 "b" "b"),
    .remember (updating 2 "a")]

/-- Object 1 is tombstoned and erased while object 2 is the one the tenant has. -/
def forgottenTwice : List (AuthManager × Move) :=
  spaced [.remember (creating 1 "a" "a"), .forget (workingFor "a") 1 .tombstone none none,
    .remember (creating 2 "a" "a"), .forget (workingFor "a") 1 .erase none none,
    .remember (creating 3 "a" "a")]

def inTurn : List (AuthManager × Move) :=
  spaced [.remember (creating 1 "a" "a"), .remember (creating 2 "a" "a"),
    .remember (creating 3 "b" "b"), .transact [⟨workingFor "a", updating 1 "a"⟩] none none]

theorem withinQuota_initial : WithinQuota (utf8 "a") 1 Shared.initial.st :=
  ⟨Store.coherent_empty, by decide +kernel, by decide +kernel⟩

theorem inTurn_kept :
    ∃ sys, Runs.run (guardedMove oneEach (.unsigned Sha256.fips180)) Shared.initial inTurn
        = some sys ∧
      sys.st.pipe.seq = 3 ∧ sys.st.store.liveCount (utf8 "a") ≤ 1 := by
  exact Runs.exists_run (P := fun sys => sys.st.pipe.seq = 3) (by decide +kernel)
    (by decide +kernel) fun sys hreach hseq =>
    ⟨hseq, (quota_kept oneEach (.unsigned Sha256.fips180) (by decide +kernel) withinQuota_initial
      rfl hreach).1⟩

/-- Behind some steps a tenant has more live objects than its quota allows. -/
def Exceeds (steps : List (AuthManager × Move)) : Prop :=
  ∃ sys, Runs.run (guardedMove oneEach (.unsigned Sha256.fips180)) Shared.initial steps = some sys ∧
    ∃ q, oneEach.quotas[utf8 "a"]? = some q ∧ q < sys.st.store.liveCount (utf8 "a")

theorem quota_exceeded :
    Exceeds batched ∧ Exceeds committed ∧ Exceeds chargedElsewhere ∧ Exceeds movedIn ∧
      Exceeds forgottenTwice := by
  have hrun : ∀ steps, (∃ sys, Runs.run (guardedMove oneEach (.unsigned Sha256.fips180))
      Shared.initial steps = some sys ∧ 1 < sys.st.store.liveCount (utf8 "a")) →
      Exceeds steps := by
    rintro steps ⟨sys, hsys, hcount⟩
    exact ⟨sys, hsys, 1, by decide +kernel, hcount⟩
  exact ⟨hrun _ (by decide +kernel), hrun _ (by decide +kernel), hrun _ (by decide +kernel),
    hrun _ (by decide +kernel), hrun _ (by decide +kernel)⟩

end Quotas

end Aikoql.Kernel
