import Aikoql.Kernel.Tenancy

/-!
# Tenant Usage

The kernel keeps the number of objects of each tenant in memory and among its rows, and
this is the number of live objects as long as no call changes it unnoticed.

There are three ways to do that. An update that gives a live object another tenant moves
it, and is not booked. `evolve` may delete an archived object, and is not booked either.
`forget` is booked whenever it is called, also for an object that is deleted already. A
batch may move several objects, and then it is enough that as many come to each tenant
as leave it.

A kernel that is opened again takes the numbers from the rows, or counts the heads. Both
are right if the rows are.

## Main definitions

* `KeepsUsage`: A call changes no number unnoticed.
* `UsageExact`: All numbers are those of the live objects.

## Main theorems

* `usage_exact`: The numbers in every run of such calls.
* `TenantUsage.usage_wrong`: Calls that change one.
-/

namespace Aikoql.Kernel

open List
open Storage (Sha256)

/-! ## Calls -/

/-- The live objects a call updates, with their tenants before and after. -/
def moves (s : Store) (targets : List (Koid × RememberRequest)) : List (Text × Text) :=
  targets.filterMap fun target =>
    (s.headObject target.1).bind fun head =>
      if head.lifecycle.state = .deleted then none
      else some (tenantName head.metadata.tenant, tenantName target.2.metadata.tenant)

def KeepsUsage (s : Store) (io : Ambient) : Call → Prop
  -- As many live objects come to each tenant as leave it.
  | .remember req => ((moves s [(req.target io, req)]).map Prod.fst).Perm
      ((moves s [(req.target io, req)]).map Prod.snd)
  | .transact ops _ _ =>
    let targets := (opTargets io 0 ops).map fun target => (target.1, target.2.request)
    ((moves s targets).map Prod.fst).Perm ((moves s targets).map Prod.snd)
  | .evolve _ _ target _ _ _ => target ≠ .deleted
  -- A number that is zero already is not made smaller.
  | .forget _ koid _ _ _ => ∀ head ∈ s.headObject koid,
      head.lifecycle.state ≠ .deleted ∨ s.liveCount (tenantName head.metadata.tenant) = 0
  | .recordAudit _ => True

instance (s : Store) (io : Ambient) (call : Call) : Decidable (KeepsUsage s io call) :=
  match call with
  | .remember _ => inferInstanceAs (Decidable (Perm _ _))
  | .transact _ _ _ => inferInstanceAs (Decidable (Perm _ _))
  | .evolve _ _ _ _ _ _ => inferInstanceAs (Decidable (_ ≠ _))
  | .forget _ _ _ _ _ => inferInstanceAs (Decidable (∀ _ ∈ _, _))
  | .recordAudit _ => .isTrue trivial

theorem keepsUsage_request {s : Store} {io : Ambient} {call : Call}
    (hcall : call.isRequest = true) :
    KeepsUsage s io call ↔ ∀ t, ((moves s (call.targets io)).map Prod.fst).count t
      = ((moves s (call.targets io)).map Prod.snd).count t := by
  cases call with
  | remember | transact => exact perm_iff_count
  | _ => cases hcall

theorem count_moves (s : Store) (targets : List (Koid × RememberRequest)) (t : Text) :
    (targets.filter fun target =>
        decide (((s.headObject target.1).map fun head => head.lifecycle.state) ≠ some .deleted)
          && decide (tenantName target.2.metadata.tenant = t)).length
        = ((moves s targets).map Prod.snd).count t
          + (((targets.filter fun target => (s.headObject target.1).isNone).map
              fun target => target.2.metadata.tenant).map tenantName).count t ∧
      ((targets.map Prod.fst).filter (s.livesIn t)).length
        = ((moves s targets).map Prod.fst).count t := by
  induction targets with
  | nil => exact ⟨rfl, rfl⟩
  | cons target targets ih =>
    obtain ⟨hcome, hgone⟩ := ih
    unfold moves at hcome hgone ⊢
    cases hhead : s.headObject target.1 with
    | none =>
      -- A new object comes and is booked.
      by_cases htenant : tenantName target.2.metadata.tenant = t <;>
        simp [hhead, htenant, Store.livesIn] at hcome hgone ⊢
      · omega
      · exact ⟨hcome, hgone⟩
    | some head =>
      by_cases hdeleted : head.lifecycle.state = .deleted
      · simp [hhead, hdeleted, Store.livesIn, KnowledgeObject.livesIn] at hcome hgone ⊢
        exact ⟨hcome, hgone⟩
      · by_cases hafter : tenantName target.2.metadata.tenant = t <;>
          by_cases hbefore : tenantName head.metadata.tenant = t <;>
          simp [hhead, hdeleted, hafter, hbefore, Store.livesIn, KnowledgeObject.livesIn]
            at hcome hgone ⊢ <;> omega

section

variable {A : Admission} {C : Crypto} {st : State} {io : Ambient} {call : Call} {hlc : Nat}
  {batch : WriteBatch} {pipe : Pipeline} {tenants : Std.ExtTreeMap Text Nat} {reply : Reply}
  {ts : Nat} {change : Change} {o : Outcome}

theorem liveCount_pos {s : Store} {koid : Koid} {t : Text} (h : s.livesIn t koid = true) :
    0 < s.liveCount t :=
  Finset.card_pos.mpr ⟨koid, Store.mem_headsWith.mpr h⟩

theorem forget_balance {koid : Koid} {head : KnowledgeObject}
    (hhead : st.store.headObject koid = some head) :
    (∀ head ∈ st.store.headObject koid, head.lifecycle.state ≠ .deleted ∨
        st.store.liveCount (tenantName head.metadata.tenant) = 0) ↔
      ∀ t, st.store.liveCount t + 0 - [tenantName head.metadata.tenant].count t
        + ([koid].filter (st.store.livesIn t)).length = st.store.liveCount t + 0 := by
  have hlives : ∀ t, st.store.livesIn t koid = (decide (head.lifecycle.state ≠ .deleted) &&
          decide (tenantName head.metadata.tenant = t)) := by
    intro t
    rw [Store.livesIn, hhead]
    rfl
  simp only [hhead, Option.mem_def, Option.some.injEq, forall_eq']
  by_cases hdeleted : head.lifecycle.state = .deleted
  · simp only [hdeleted, ne_eq, not_true_eq_false, false_or, filter_cons, hlives, decide_false,
      Bool.false_and, Bool.false_eq_true, if_false, filter_nil, length_nil]
    constructor
    · intro hzero t
      by_cases ht : tenantName head.metadata.tenant = t
      · rw [← ht, hzero]
        simp
      · simp [ht]
    · intro h
      have htenant := h (tenantName head.metadata.tenant)
      rw [count_singleton_self] at htenant
      omega
  · simp only [hdeleted, ne_eq, not_false_eq_true, true_or, true_iff]
    intro t
    by_cases ht : tenantName head.metadata.tenant = t
    · have hin : st.store.livesIn t koid = true := by simp [hlives, hdeleted, ht]
      have hpos := liveCount_pos hin
      simp only [filter_cons, hlives, hdeleted, ht, ne_eq, not_false_eq_true, decide_true,
        Bool.and_self, if_true, filter_nil, length_singleton, count_singleton_self]
      omega
    · simp [hlives, ht]

theorem balance_iff (hstaging : Staging A st io call o) (hst : st.store.Coherent) :
    KeepsUsage st.store io call ↔ ∀ t, st.store.liveCount t
          + (o.created.map tenantName).count t - (o.deleted.map tenantName).count t
          + ((o.kos.map KnowledgeObject.koid ++ call.erases.toList).filter
            (st.store.livesIn t)).length
        = st.store.liveCount t + (o.kos.filter fun ko => ko.livesIn t).length := by
  by_cases hcall : call.isRequest = true
  · -- Requests are not booked as deletions, so the moves have to be even.
    have hrequested := hstaging.requested hcall
    have hcreated := hstaging.created hst
    have hdeleted := hstaging.removes_nothing hcall
    rw [keepsUsage_request hcall]
    refine forall_congr' fun t => ?_
    obtain ⟨hkoids, hcome⟩ := Requested.livesIn_length hrequested t
    obtain ⟨hcount, hgone⟩ := count_moves st.store (call.targets io) t
    rw [hdeleted.1, hdeleted.2, hcreated, hkoids, hcome, hcount, Option.toList_none,
      append_nil, hgone, map_nil, count_nil]
    omega
  · cases hstaging with
    | remember | transact | schema => exact absurd rfl hcall
    | @evolve ctx koid target origin expected note head hhead hauth hmove =>
      have hstate : head.lifecycle.state ≠ .deleted := ne_deleted_of_canTransition hmove
      have hbefore : ∀ t, st.store.livesIn t head.koid
          = decide (tenantName head.metadata.tenant = t) := by
        intro t
        rw [Store.livesIn, hst.keyed koid head hhead, hhead]
        simp [KnowledgeObject.livesIn, hstate]
      have hafter : ∀ t, (evolvedObject head target origin io.millis ctx.subject.name
          note).livesIn t
            = (decide (target ≠ .deleted) && decide (tenantName head.metadata.tenant = t)) :=
        fun _ => rfl
      change target ≠ .deleted ↔ ∀ t, st.store.liveCount t + 0 - 0
        + ([head.koid].filter (st.store.livesIn t)).length = _
      simp only [filter_cons, filter_nil, hbefore, hafter]
      by_cases htarget : target = .deleted
      · simp only [htarget, ne_eq, not_true_eq_false, false_iff, not_forall]
        exact ⟨tenantName head.metadata.tenant, by simp⟩
      · simp only [htarget, ne_eq, not_false_eq_true, decide_true, Bool.true_and, true_iff]
        intro t
        split <;> rfl
    | @tombstone ctx koid expected note head hhead hauth =>
      refine (forget_balance hhead).trans (forall_congr' fun t => ?_)
      have hafter : ([tombstonedObject head].filter fun ko => ko.livesIn t) = [] := rfl
      change _ ↔ st.store.liveCount t + 0 - [tenantName head.metadata.tenant].count t
          + ([head.koid].filter (st.store.livesIn t)).length
        = st.store.liveCount t + ([tombstonedObject head].filter fun ko => ko.livesIn t).length
      rw [hst.keyed koid head hhead, hafter]
      exact Iff.rfl
    | erase hhead hauth => exact forget_balance hhead
    | recordAudit note => simp [KeepsUsage, Call.erases]

theorem usage_exact_iff (hc : Commits A C st io call hlc batch pipe tenants reply ts change o)
    (hst : st.store.Coherent) (hexact : ∀ t, usageOf st.tenants t = st.store.liveCount t) :
    (∀ t, usageOf tenants t = (st.store.writeBatch batch).liveCount t) ↔
      KeepsUsage st.store io call := by
  rw [balance_iff hc.staging hst]
  refine forall_congr' fun t => ?_
  have hlive := hc.liveCount t
  have husage : usageOf tenants t = st.store.liveCount t
      + (o.created.map tenantName).count t - (o.deleted.map tenantName).count t := by
    rw [hc.tenants, Outcome.tenants, usageOf_foldl_recordDelete, usageOf_foldl_recordCreate, hexact]
  rw [husage]
  omega

end

/-! ## Runs -/

/-- What happens to a kernel: it is called, or closed and opened again. -/
inductive Deed where
  | call (t : Turn)
  | reopen

def Guarded.act (S : Settings) (C : Crypto) (g : Guarded) : Deed → Option Guarded
  | .call t => g.turn S C t
  | .reopen => g.reopen

def Deed.KeepsUsage (S : Settings) (C : Crypto) (g : Guarded) : Deed → Prop
  | .call t => g.writes S C t = true → Kernel.KeepsUsage g.st.store t.io t.call
  | .reopen => True

instance (S : Settings) (C : Crypto) (g : Guarded) (d : Deed) :
    Decidable (Deed.KeepsUsage S C g d) :=
  match d with
  | .call _ => inferInstanceAs (Decidable (_ → _))
  | .reopen => .isTrue trivial

/-- For every tenant the number in memory, the number among the rows and the number of
    heads that are counted are the number of its live objects. -/
structure UsageExact (st : State) : Prop where
  memory : ∀ t, usageOf st.tenants t = st.store.liveCount t
  rows : ∀ t, usageOf st.store.usage t = st.store.liveCount t
  rebuilt : ∀ t, usageOf (rebuildUsage st.store) t = st.store.liveCount t

/-- What a run keeps. Counting the heads is right by itself. -/
structure Counted (st : State) : Prop where
  coherent : st.store.Coherent
  memory : ∀ t, usageOf st.tenants t = st.store.liveCount t
  rows : ∀ t, usageOf st.store.usage t = st.store.liveCount t

theorem usageOf_booked {before after rows : Std.ExtTreeMap Text Nat} {names : List Text}
    {booked : List (Text × Nat)} (h : Booked before after names booked)
    (hrows : ∀ t, usageOf rows t = usageOf before t) (t : Text) :
    usageOf (booked.foldl (fun m u => m.insert u.1 u.2) rows) t = usageOf after t := by
  rw [usageOf, getElem?_foldl_insert]
  rcases foldl_found booked rows[t]? t with ⟨hnone, hfound⟩ | ⟨row, hrow, rfl, hfound⟩
  · rw [hfound, h.others t hnone, ← hrows t, usageOf]
  · rw [hfound, Option.getD_some, h.counts row hrow]

theorem Counted.call {S : Settings} {C : Crypto} {g : Guarded} (h : Counted g.st) {t : Turn}
    (hkeeps : Deed.KeepsUsage S C g (.call t)) : Counted (g.step S C t).1.st := by
  rcases Guarded.step_outcome S C h.coherent.keyed t with ⟨-, hlc, hstep⟩ |
    ⟨hlc, batch, pipe, tenants, reply, ts, change, o, hwrites, hstep, hc, -⟩
  · rw [hstep]
    exact ⟨h.coherent, h.memory, h.rows⟩
  · have hmemory := (usage_exact_iff hc h.coherent h.memory).mpr (hkeeps hwrites)
    rw [hstep]
    refine ⟨hc.described.1.coherent h.coherent, hmemory, ?_⟩
    intro tenant
    rw [← hmemory, usage_writeBatch]
    refine usageOf_booked hc.booked (fun u => ?_) tenant
    rw [h.rows, h.memory]

theorem openUsage_counted {s : Store} (hcoherent : s.Coherent)
    (hrows : ∀ t, usageOf s.usage t = s.liveCount t) :
    (openUsage s).1.Coherent ∧ ∀ t, usageOf (openUsage s).2 t = (openUsage s).1.liveCount t ∧
      usageOf (openUsage s).1.usage t = (openUsage s).1.liveCount t := by
  unfold openUsage
  cases hload : loadUsage s with
  | some usage =>
    have husage : usage = s.usage := by
      unfold loadUsage at hload
      split at hload
      · cases hload
      · split at hload
        · exact (Option.some.inj hload).symm
        · cases hload
    subst husage
    exact ⟨hcoherent, fun t => ⟨hrows t, hrows t⟩⟩
  | none =>
    have hrebuilt := usageOf_rebuildUsage hcoherent
    have hheads : (s.writeBatch (usageBatch s (rebuildUsage s))).heads = s.heads := by
      rw [heads_writeBatch]
      cases hjournal : s.journal <;>
        simp [usageBatch, hjournal, filterMap_map, filterMap_cons, Function.comp_def, Put.asHead]
    have hobjects : (s.writeBatch (usageBatch s (rebuildUsage s))).objects = s.objects := by
      ext1 koid
      rw [objects_writeBatch]
      cases hjournal : s.journal <;>
        simp [usageBatch, hjournal, filterMap_map, filterMap_cons, Function.comp_def, Put.asObject]
    have husage : (s.writeBatch (usageBatch s (rebuildUsage s))).usage
        = (rebuildUsage s).toList.foldl (fun m u => m.insert u.1 u.2) s.usage := by
      rw [usage_writeBatch]
      cases hjournal : s.journal <;>
        simp [usageBatch, hjournal, filterMap_map, filterMap_cons, Function.comp_def, Put.asUsage]
    have hhead : ∀ koid, (s.writeBatch (usageBatch s (rebuildUsage s))).headObject koid
        = s.headObject koid := by
      intro koid
      simp only [Store.headObject, Store.getObjectVersion, hheads, hobjects]
    have hlive := Store.liveCount_congr hhead
    refine ⟨fun koid head => by rw [hheads, hhead]; exact hcoherent koid head, fun t => ?_⟩
    refine ⟨by rw [hlive, hrebuilt], ?_⟩
    -- The rows of tenants without live objects stay, and they are zero.
    rw [husage, hlive, ← hrebuilt]
    refine usageOf_booked ⟨?_, ?_, fun _ => mem_map_of_mem⟩ (fun _ => rfl) t
    · intro row hrow
      rw [usageOf, Std.ExtTreeMap.mem_toList_iff_getElem?_eq_some.mp hrow, Option.getD_some]
    · intro u _
      rw [hrebuilt, hrows]

theorem Counted.reopen {g g' : Guarded} (h : Counted g.st) (hreopen : g.reopen = some g') :
    Counted g'.st := by
  unfold Guarded.reopen at hreopen
  split at hreopen
  · cases hreopen
  · cases hreopen
    obtain ⟨hcoherent, hnumbers⟩ := openUsage_counted h.coherent h.rows
    exact ⟨hcoherent, fun t => (hnumbers t).1, fun t => (hnumbers t).2⟩

/-- If every call whose batch is written keeps the numbers, they are those of the live
    objects, in memory, among the rows and when the heads are counted. -/
theorem usage_exact (S : Settings) (C : Crypto) (g : Guarded)
    (h : Runs.Reaches (Guarded.act S C) (Deed.KeepsUsage S C) Guarded.initial g) :
    UsageExact g.st := by
  have hcounted : Counted g.st := by
    refine h.invariant (P := fun g => Counted g.st) ?_ ?_
    · exact ⟨Store.coherent_empty, fun t => (Store.liveCount_empty t).symm,
        fun t => (Store.liveCount_empty t).symm⟩
    · intro g deed g' hg hkeeps hact
      cases deed with
      | call t =>
        cases hact
        exact hg.call hkeeps
      | reopen => exact hg.reopen hact
  exact ⟨hcounted.memory, hcounted.rows, usageOf_rebuildUsage hcounted.coherent⟩

/-! ## Runs with two tenants -/

namespace TenantUsage

open Samples

def creating (koid : Koid) (tenant : String) : Call :=
  .remember { RememberRequest.create ann (noteOf tenant) with koid := some koid }

def updating (koid : Koid) (tenant : String) : Call :=
  .remember (RememberRequest.update ann koid (noteOf tenant))

def evolving (koid : Koid) (target : LifecycleState) : Call :=
  .evolve ann koid target .human none none

def forgetting (koid : Koid) (mode : ForgetMode) : Call :=
  .forget ann koid mode none none

def reopened (calls : List Call) : List Deed :=
  (calls.mapIdx fun i call => .call ⟨⟨i + 1, i + 1, fun _ => 0⟩, call, true⟩) ++ [.reopen]

/-- A live object is given another tenant. -/
def moved : List Call := [creating 1 "a", updating 1 "b"]

def evolvedAway : List Call :=
  [creating 1 "a", evolving 1 .accepted, evolving 1 .archived, evolving 1 .deleted]

def forgottenTwice : List Call :=
  [creating 1 "a", creating 2 "a", forgetting 1 .tombstone, forgetting 1 .erase]

def exchanged : List Call :=
  [creating 1 "a", creating 2 "b", evolving 1 .active,
    .transact [⟨ann, RememberRequest.update ann 1 (noteOf "b")⟩,
      ⟨ann, RememberRequest.update ann 2 (noteOf "a")⟩] none none,
    forgetting 2 .tombstone, updating 2 "c", forgetting 1 .erase, creating 1 ""]

theorem exchanged_exact :
    ∃ g, Runs.run (Guarded.act plain (.unsigned Sha256.fips180)) Guarded.initial
        (reopened exchanged) = some g ∧
      g.st.pipe.seq = 9 ∧ UsageExact g.st := by
  exact Runs.exists_run (P := fun g => g.st.pipe.seq = 9) (by decide +kernel)
    (by decide +kernel) fun g hreach hseq =>
    ⟨hseq, usage_exact plain (.unsigned Sha256.fips180) g hreach⟩

/-- Behind some calls a tenant has another number of live objects than it is said to have. -/
def Miscounts (calls : List Call) : Prop :=
  ∃ g, Runs.run (Guarded.act plain (.unsigned Sha256.fips180)) Guarded.initial (reopened calls)
    = some g ∧ ¬UsageExact g.st

theorem usage_wrong : Miscounts moved ∧ Miscounts evolvedAway ∧ Miscounts forgottenTwice := by
  have hrun : ∀ calls, (∃ g, Runs.run (Guarded.act plain (.unsigned Sha256.fips180))
      Guarded.initial (reopened calls) = some g ∧
      usageOf g.st.tenants (utf8 "a") ≠ g.st.store.liveCount (utf8 "a")) → Miscounts calls := by
    rintro calls ⟨g, hg, hdiffers⟩
    exact ⟨g, hg, fun hexact => hdiffers (hexact.memory _)⟩
  exact ⟨hrun _ (by decide +kernel), hrun _ (by decide +kernel), hrun _ (by decide +kernel)⟩

end TenantUsage

end Aikoql.Kernel
