import Aikoql.Kernel.Checks
import Aikoql.Kernel.Heads

/-!
# The Kernel behind its Checks

A kernel with the roles and policies it knows.

The checks of a call ask a cache of roles and policies. It is read again by some of the
calls that may change it, once their batch is written: `remember` if the request is
about a role or a policy, and `transact` if one of the objects it wrote is one. The other
calls leave the cache as it is. If reading fails the call replies with the error although
its batch is written, and the old cache stays.

A kernel that is opened reads the cache, and the number of objects of each tenant. These
numbers are among the rows, together with the head of the journal they belong to. If that
is the head there is, they are taken as they are, otherwise the heads are counted.
-/

namespace Aikoql.Kernel

open List

/-- A kernel with the roles and policies it knows. -/
structure Guarded where
  st : State
  auth : AuthManager

/-- A kernel opened on an empty engine. -/
def Guarded.initial : Guarded := ⟨State.initial, .empty⟩

/-! ## Calls -/

def isAuthType (typeName : Text) : Bool :=
  typeName = roleType || typeName = policyType

/-- Whether a call whose batch is written makes the kernel read its cache again. -/
def refreshes (after : Store) (call : Call) (reply : Except KError Reply) : Bool :=
  match call, reply with
  | .remember req, _ => isAuthType req.metadata.typeName
  | .transact _ _ _, .ok (.transacted results _) =>
    results.any fun r =>
      (after.headObject r.koid).any fun head => isAuthType head.metadata.typeName
  | _, _ => false

section

variable (S : Settings) (C : Crypto)

def Guarded.writes (g : Guarded) (t : Turn) : Bool :=
  t.taken && (stage (S.admission g.auth) C g.st t.io t.call).2.isWrite

def Guarded.step (g : Guarded) (t : Turn) : Guarded × Except KError Reply :=
  let done := Kernel.step (S.admission g.auth) C g.st t.io t.call t.taken
  if g.writes S C t ∧ refreshes done.1.store t.call done.2 then
    match AuthManager.load done.1.store with
    | .error e => (⟨done.1, g.auth⟩, .error e)
    | .ok auth => (⟨done.1, auth⟩, done.2)
  else (⟨done.1, g.auth⟩, done.2)

/-- The kernel behind a call. -/
def Guarded.turn (g : Guarded) (t : Turn) : Option Guarded :=
  some (g.step S C t).1

end

/-! ## Opening -/

/-- The numbers among the rows, if they belong to the head of the journal. The row of a
    tenant without a name cannot be told from the place all rows have in common. -/
def loadUsage (s : Store) : Option (Std.ExtTreeMap Text Nat) :=
  match s.journal with
  | none => none
  | some head =>
    if s.usageHead = some (head.seq, head.lastTs) ∧ ∀ row ∈ s.usage.toList, row.1 ≠ [] then
      some s.usage
    else none

def rebuildUsage (s : Store) : Std.ExtTreeMap Text Nat :=
  s.heads.toList.foldl (fun usage kh =>
    if kh.2.state = .deleted then usage
    else recordCreate usage
      ((s.getObjectVersion kh.1 kh.2.commitTs).bind fun ko => ko.metadata.tenant)) ∅

def usageBatch (s : Store) (usage : Std.ExtTreeMap Text Nat) : WriteBatch where
  puts := (usage.toList.map fun row => Put.usageRow row.1 row.2) ++
    (s.journal.map fun head => Put.usageHead head.seq head.lastTs).toList
  dels := []

def openUsage (s : Store) : Store × Std.ExtTreeMap Text Nat :=
  match loadUsage s with
  | some usage => (s, usage)
  | none => (s.writeBatch (usageBatch s (rebuildUsage s)), rebuildUsage s)

/-- Close a kernel and open it again; none if the cache cannot be read. -/
def Guarded.reopen (g : Guarded) : Option Guarded :=
  match AuthManager.load (openUsage g.st.store).1 with
  | .error _ => none
  | .ok auth => some ⟨State.opened (openUsage g.st.store).1 (openUsage g.st.store).2, auth⟩

/-! ## Who calls -/

def Call.subjects : Call → List Subject
  | .remember req => [req.context.subject]
  | .transact ops _ _ => ops.map fun op => op.context.subject
  | .evolve ctx _ _ _ _ _ => [ctx.subject]
  | .forget ctx _ _ _ _ => [ctx.subject]
  | .recordAudit _ => []

/-- A call asks for objects, and it is issued by some of a set of subjects. -/
def IssuedBy (users : Subject → Prop) (t : Turn) : Prop :=
  t.call.isRequest = true ∧ ∀ subject ∈ t.call.subjects, users subject

instance (users : Subject → Prop) [DecidablePred users] (t : Turn) : Decidable (IssuedBy users t) :=
  inferInstanceAs (Decidable (_ ∧ _))

section

variable {S : Settings} {auth : AuthManager} {st : State} {io : Ambient}

theorem Resolved.Against.base {r : Resolved} (h : r.Against st.store)
    (hst : st.store.Coherent) : r.base = st.store.headObject r.koid := by
  rw [Resolved.base, Resolved.creating, h.curV, h.head]
  cases hhead : st.store.headObject r.koid with
  | none => simp
  | some head => rw [if_neg (by simpa using hst.headVersion_pos hhead)]

theorem mem_opTargets {ops : List TransactionOp} {i : Nat} {target : Koid × TransactionOp}
    (h : target ∈ opTargets io i ops) : target.2 ∈ ops := by
  induction ops generalizing i with
  | nil => cases h
  | cons op ops ih =>
    rcases mem_cons.mp h with rfl | h
    · exact mem_cons_self
    · exact mem_cons_of_mem _ (ih h)

theorem Staging.settled {call : Call} {o : Outcome}
    (h : Staging (S.admission auth) st io call o) (hst : st.store.Coherent)
    {target : Koid × RememberRequest} (htarget : target ∈ call.targets io) :
    ∃ subject ∈ call.subjects, ∃ security,
      settleSecurity auth subject target.1 (st.store.headObject target.1) target.2.security
        = .ok security := by
  cases h with
  | remember hkeys hversion hdraft =>
    obtain rfl := mem_singleton.mp htarget
    exact ⟨_, mem_singleton_self _, _, (rememberDraft_eq_ok hdraft).security⟩
  | transact hprepared =>
    obtain ⟨opTarget, hop, rfl⟩ := mem_map.mp htarget
    obtain ⟨p, -, r, -, rfl, hagainst, security, hsecurity, -⟩ :=
      exists_right_of_forall₂ (prepareOps_targets hprepared) hop
    refine ⟨_, mem_map_of_mem (mem_opTargets hop), security, ?_⟩
    rw [← hagainst.base hst]
    exact (opSecurity_eq_ok hsecurity).security
  | _ => cases htarget

end

/-! ## What a call does -/

section

variable {S : Settings} {C : Crypto} {g : Guarded}

theorem Guarded.step_st (S : Settings) (C : Crypto) (g : Guarded) (t : Turn) :
    (g.step S C t).1.st = (Kernel.step (S.admission g.auth) C g.st t.io t.call t.taken).1 := by
  unfold Guarded.step
  dsimp only
  split
  · split <;> rfl
  · rfl

theorem Guarded.step_written {t : Turn} (hkeyed : g.st.store.Keyed) (h : g.writes S C t = true) :
    ∃ hlc batch pipe tenants reply ts change o,
      stage (S.admission g.auth) C g.st t.io t.call = (hlc, .write batch pipe tenants reply) ∧
      (g.step S C t).1.st = ⟨g.st.store.writeBatch batch, pipe, hlc, tenants⟩ ∧
      Commits (S.admission g.auth) C g.st t.io t.call hlc batch pipe tenants reply ts change
        o := by
  rcases hstage : stage (S.admission g.auth) C g.st t.io t.call with ⟨hlc, staged⟩
  have hwritten : t.taken = true ∧ staged.isWrite = true := by
    simpa [Guarded.writes, hstage] using h
  cases staged with
  | done reply => cases hwritten.2
  | write batch pipe tenants reply =>
    obtain ⟨ts, change, o, hc⟩ := stage_outcome hkeyed hstage
    refine ⟨hlc, batch, pipe, tenants, reply, ts, change, o, rfl, ?_, hc⟩
    rw [Guarded.step_st]
    simp [Kernel.step, hstage, finish, hwritten.1]

theorem Guarded.step_outcome (S : Settings) (C : Crypto) (hkeyed : g.st.store.Keyed) (t : Turn) :
    (g.writes S C t = false ∧ ∃ hlc, (g.step S C t).1 = ⟨{ g.st with hlc := hlc }, g.auth⟩) ∨
      ∃ hlc batch pipe tenants reply ts change o, g.writes S C t = true ∧
        (g.step S C t).1.st = ⟨g.st.store.writeBatch batch, pipe, hlc, tenants⟩ ∧
        Commits (S.admission g.auth) C g.st t.io t.call hlc batch pipe tenants reply ts change o ∧
        (g.step S C t).1.auth = if refreshes (g.st.store.writeBatch batch) t.call (.ok reply) then
              (AuthManager.load (g.st.store.writeBatch batch)).toOption.getD g.auth
            else g.auth := by
  by_cases hwrites : g.writes S C t = true
  · obtain ⟨hlc, batch, pipe, tenants, reply, ts, change, o, hstage, hst, hc⟩ :=
      Guarded.step_written hkeyed hwrites
    refine .inr ⟨hlc, batch, pipe, tenants, reply, ts, change, o, hwrites, hst, hc, ?_⟩
    have htaken : t.taken = true := (Bool.and_eq_true_iff.mp hwrites).1
    simp only [Guarded.step, hwrites, Kernel.step, hstage, finish, htaken, if_true, true_and]
    by_cases hrefresh : refreshes (g.st.store.writeBatch batch) t.call (.ok reply) = true
    · rw [if_pos hrefresh, if_pos hrefresh]
      cases AuthManager.load (g.st.store.writeBatch batch) <;> rfl
    · rw [if_neg hrefresh, if_neg hrefresh]
  · have hkept : (g.step S C t).1
        = ⟨(Kernel.step (S.admission g.auth) C g.st t.io t.call t.taken).1, g.auth⟩ := by
      unfold Guarded.step
      dsimp only
      rw [if_neg fun h => hwrites h.1]
    rcases Kernel.step_outcome (S.admission g.auth) C t.io hkeyed t.call t.taken with
      ⟨hlc, hstep⟩ | ⟨hlc, batch, pipe, tenants, reply, ts, change, o, htaken, hstage, -⟩
    · exact .inl ⟨Bool.eq_false_iff.mpr hwrites, hlc, by rw [hkept, hstep]⟩
    · refine absurd ?_ hwrites
      rw [Guarded.writes, htaken, hstage]
      rfl

theorem Guarded.coherent (h : g.st.store.Coherent) (t : Turn) :
    (g.step S C t).1.st.store.Coherent := by
  rcases Guarded.step_outcome S C h.keyed t with ⟨-, hlc, hstep⟩ |
    ⟨hlc, batch, pipe, tenants, reply, ts, change, o, -, hstep, hc, -⟩
  · rw [hstep]
    exact h
  · rw [hstep]
    exact hc.described.1.coherent h

theorem Guarded.store_invariant {allowed : Guarded → Turn → Prop} {start : Guarded}
    {P : Store → Prop} (hcoherent : start.st.store.Coherent) (hstart : P start.st.store)
    (hwrite : ∀ {g : Guarded} {t : Turn} {hlc batch pipe tenants reply ts change o},
      g.st.store.Coherent → P g.st.store → allowed g t → g.writes S C t = true →
      Commits (S.admission g.auth) C g.st t.io t.call hlc batch pipe tenants reply ts change o →
      P (g.st.store.writeBatch batch))
    (h : Runs.Reaches (Guarded.turn S C) allowed start g) : P g.st.store := by
  suffices hall : g.st.store.Coherent ∧ P g.st.store from hall.2
  refine h.invariant (P := fun g => g.st.store.Coherent ∧ P g.st.store) ⟨hcoherent, hstart⟩ ?_
  rintro g t g' ⟨hst, hP⟩ hallowed hturn
  cases hturn
  refine ⟨Guarded.coherent hst t, ?_⟩
  rcases Guarded.step_outcome S C hst.keyed t with ⟨-, hlc, hstep⟩ |
    ⟨hlc, batch, pipe, tenants, reply, ts, change, o, hwrites, hstep, hc, -⟩
  · rw [hstep]
    exact hP
  · rw [hstep]
    exact hwrite hst hP hallowed hwrites hc

end

end Aikoql.Kernel
