import Aikoql.Kernel.Effects

/-!
# What a Call Stages

Every call that goes as far as a batch, with the batch described.

A call first reads the heads it is about and asks the checks, and only then builds the
objects it is going to commit. `Staging` has one case for each way this can go and says
what was checked and which objects come out of it. The objects become commits, and the
tenants that gain or lose an object are booked in memory and in the batch alike.

## Theorems

* `stage_batched`: The ways in which a call stages a batch.
-/

namespace Aikoql.Kernel

open List Put

variable {resolved : List Resolved} {ops : List TransactionOp} {expected : Option Nat} {koid : Koid}
variable {rep : Ready → Reply} {txnId : Option Text} {ke : KnowledgeEvent}

section

variable {C : Crypto} {st : State} {A : Admission} {io : Ambient}

/-! ## The operations of a transaction -/

theorem checkVersion_eq_ok {found : Nat} {u : Unit} :
    checkVersion koid expected found = .ok u ↔ expected.getD found = found := by
  unfold checkVersion
  split <;> simp_all

/-- An operation of a transaction was resolved against the store. -/
structure Resolved.Against (s : Store) (r : Resolved) : Prop where
  head : r.head = s.headObject r.koid
  curV : r.curV = s.headVersion r.koid
  named : ∀ koid, r.op.request.koid = some koid → r.koid = koid
  expected : r.op.request.expectedVersion.getD r.curV = r.curV

def opLists (io : Ambient) : Nat → List TransactionOp → List (Koid × List RelationshipRef)
  | _, [] => []
  | i, op :: ops =>
    (op.request.koid.getD (io.fresh i), op.request.relationships) ::
      opLists io (if op.request.koid.isSome then i else i + 1) ops

theorem resolveOps_against {io : Ambient} {i : Nat} (h : resolveOps st io i ops = .ok resolved) :
    resolved.map Resolved.op = ops ∧ (∀ r ∈ resolved, r.Against st.store) ∧
      (resolved.map fun r => (r.koid, r.op.request.relationships)) = opLists io i ops := by
  induction ops generalizing i resolved with
  | nil =>
    cases h
    simp [opLists]
  | cons op ops ih =>
    simp only [resolveOps, bind_eq_ok, pure_eq_ok, ensure_eq_ok, checkVersion_eq_ok,
      exists_const] at h
    obtain ⟨-, -, hexpected, rest, hrest, rfl⟩ := h
    obtain ⟨hops, hrest, hlists⟩ := ih hrest
    refine ⟨by simp [hops], forall_mem_cons.mpr ⟨⟨rfl, rfl, ?_, hexpected⟩, hrest⟩,
      by simp [opLists, hlists]⟩
    intro koid hkoid
    exact congrArg (fun named => Option.getD named (io.fresh i)) hkoid

theorem firstRepeat_eq_none {seen : List Koid} (h : firstRepeat seen resolved = none) :
    (resolved.map Resolved.koid).Nodup ∧ ∀ r ∈ resolved, r.koid ∉ seen := by
  induction resolved generalizing seen with
  | nil => simp
  | cons r rs ih =>
    unfold firstRepeat at h
    split at h
    · cases h
    · rename_i hr
      obtain ⟨hnodup, hfresh⟩ := ih h
      constructor
      · rw [map_cons, nodup_cons]
        refine ⟨?_, hnodup⟩
        intro hmem
        obtain ⟨r', hr', heq⟩ := mem_map.mp hmem
        exact hfresh r' hr' (heq ▸ mem_cons_self)
      · exact forall_mem_cons.mpr ⟨hr, fun r' hr' hseen => hfresh r' hr' (mem_cons_of_mem _ hseen)⟩

theorem Resolved.Against.pending {s : Store} {r : Resolved} (h : r.Against s)
    (security : SecurityDescriptor) : (r.pending security).OnTop s where
  version := congrArg (· + 1) h.curV
  curV := h.curV
  eventRefs := by simp [Resolved.pending, h.head, Store.headRefs]
  prevRels := by simp [Resolved.pending, h.head, Store.headRels]

theorem mapM_pending {f : Resolved → Except KError SecurityDescriptor} {pending : List Pending}
    (h : (resolved.mapM fun r => do let security ← f r return r.pending security) = .ok pending) :
    Forall₂ (fun r p => ∃ security, f r = .ok security ∧ p = Resolved.pending r security)
      resolved pending := by
  induction resolved generalizing pending with
  | nil =>
    cases h
    exact .nil
  | cons r rs ih =>
    simp only [mapM_cons, bind_eq_ok, pure_eq_ok] at h
    obtain ⟨p, ⟨security, hsecurity, rfl⟩, ps, hps, rfl⟩ := h
    exact .cons ⟨security, hsecurity, rfl⟩ (ih hps)

theorem kindOf_ne_audit (origin : Origin) (creating : Bool) : kindOf origin creating ≠ .audit := by
  cases origin <;> cases creating <;> simp [kindOf]

theorem prepareOps_eq_ok {pending : List Pending}
    (h : prepareOps A st io ops = .ok (resolved, pending)) : resolveOps st io 0 ops = .ok resolved ∧
      Forall₂ (fun r p => ∃ security, A.transact st resolved r = .ok security ∧
        p = Resolved.pending r security) resolved pending ∧
      (resolved.map Resolved.koid).Nodup ∧
      A.deferred st (pending.map Pending.ko) = .ok () := by
  simp only [prepareOps, bind_eq_ok] at h
  obtain ⟨resolved', hresolved, h⟩ := h
  cases hrepeat : firstRepeat [] resolved' with
  | some r => simp [hrepeat] at h
  | none =>
    simp only [hrepeat, bind_eq_ok, pure_eq_ok, Prod.mk.injEq] at h
    obtain ⟨pending', hpending, _, hdeferred, rfl, rfl⟩ := h
    exact ⟨hresolved, mapM_pending hpending, (firstRepeat_eq_none hrepeat).1, hdeferred⟩

theorem onTop_of_pending {s : Store} {pending : List Pending}
    (hagainst : ∀ r ∈ resolved, r.Against s)
    (h : Forall₂ (fun r p => ∃ security, p = Resolved.pending r security) resolved pending) :
    (∀ p ∈ pending, p.OnTop s) ∧ (∀ p ∈ pending, p.kind ≠ .audit) ∧
      (pending.map fun p => (p.ko.koid, p.ko.relationships))
        = resolved.map fun r => (r.koid, r.op.request.relationships) := by
  induction h with
  | nil => simp
  | cons hp _ ih =>
    obtain ⟨security, rfl⟩ := hp
    obtain ⟨hr, hrs⟩ := forall_mem_cons.mp hagainst
    obtain ⟨hontop, hkinds, hasked⟩ := ih hrs
    exact ⟨forall_mem_cons.mpr ⟨hr.pending security, hontop⟩,
      forall_mem_cons.mpr ⟨kindOf_ne_audit _ _, hkinds⟩, congrArg (_ :: ·) hasked⟩

theorem onTop_of_prepareOps {pending : List Pending}
    (h : prepareOps A st io ops = .ok (resolved, pending)) :
    (∀ p ∈ pending, p.OnTop st.store) ∧ (∀ p ∈ pending, p.kind ≠ .audit) ∧
      (pending.map fun p => (p.ko.koid, p.ko.relationships)) = opLists io 0 ops := by
  obtain ⟨hresolved, hpending, -, -⟩ := prepareOps_eq_ok h
  obtain ⟨-, hagainst, hlists⟩ := resolveOps_against hresolved
  rw [← hlists]
  refine onTop_of_pending hagainst (hpending.imp ?_)
  rintro r p ⟨security, -, rfl⟩
  exact ⟨security, rfl⟩

/-! ## Bookings -/

@[simp]
theorem parts_createdRows (tenants : Std.ExtTreeMap Text Nat) (created : List (Option Text)) :
    (createdRows tenants created).filterMap asUsage = ((created.map tenantName).dedup.map fun t =>
            (t, usageOf tenants t + (created.map tenantName).count t)) ∧
      (createdRows tenants created).filterMap asUsageHead = [] ∧
      (createdRows tenants created).filterMap asTomb = [] ∧
      (createdRows tenants created).filterMap asType = [] ∧
      (createdRows tenants created).filterMap asEvent = [] ∧
      (createdRows tenants created).filterMap asJournal = [] ∧
      (createdRows tenants created).filterMap asHead = [] ∧
      (createdRows tenants created).filterMap asObject = [] ∧
      (createdRows tenants created).filterMap asRelOut = [] ∧
      (createdRows tenants created).filterMap asRelIn = [] := by
  unfold createdRows
  induction (created.map tenantName).dedup with
  | nil => simp
  | cons t ts ih =>
    simp [filterMap_cons, asUsage, asUsageHead, asTomb, asType,
      asEvent, asJournal, asHead, asObject, asRelOut, asRelIn, ih]

theorem usageOf_recordCreate (tenants : Std.ExtTreeMap Text Nat) (tenant : Option Text) (t : Text) :
    usageOf (recordCreate tenants tenant) t
      = usageOf tenants t + if tenantName tenant = t then 1 else 0 := by
  unfold usageOf recordCreate
  simp only [Std.ExtTreeMap.getElem?_insert, Std.LawfulEqCmp.compare_eq_iff_eq]
  by_cases ht : tenantName tenant = t
  · rw [if_pos ht, if_pos ht, Option.getD_some, usageOf, ht]
  · rw [if_neg ht, if_neg ht, Nat.add_zero]

theorem usageOf_recordDelete (tenants : Std.ExtTreeMap Text Nat) (tenant : Option Text) (t : Text) :
    usageOf (recordDelete tenants tenant) t
      = usageOf tenants t - if tenantName tenant = t then 1 else 0 := by
  unfold usageOf recordDelete
  by_cases ht : tenantName tenant = t
  · subst ht
    cases hcount : tenants[tenantName tenant]? with
    | none => simp [hcount]
    | some count => simp
  · rw [if_neg ht, Nat.sub_zero]
    split
    · simp only [Std.ExtTreeMap.getElem?_insert, Std.LawfulEqCmp.compare_eq_iff_eq, if_neg ht]
    · rfl

theorem usageOf_foldl_recordCreate (created : List (Option Text))
    (tenants : Std.ExtTreeMap Text Nat) (t : Text) :
    usageOf (created.foldl recordCreate tenants) t
      = usageOf tenants t + (created.map tenantName).count t := by
  induction created generalizing tenants with
  | nil => simp
  | cons tenant created ih =>
    rw [foldl_cons, ih, usageOf_recordCreate, map_cons, count_cons]
    simp only [beq_iff_eq]
    omega

theorem usageOf_foldl_recordDelete (deleted : List (Option Text))
    (tenants : Std.ExtTreeMap Text Nat) (t : Text) :
    usageOf (deleted.foldl recordDelete tenants) t
      = usageOf tenants t - (deleted.map tenantName).count t := by
  induction deleted generalizing tenants with
  | nil => simp
  | cons tenant deleted ih =>
    rw [foldl_cons, ih, usageOf_recordDelete, map_cons, count_cons]
    simp only [beq_iff_eq]
    omega

structure Booked (before after : Std.ExtTreeMap Text Nat) (names : List Text)
    (rows : List (Text × Nat)) : Prop where
  counts : ∀ row ∈ rows, row.2 = usageOf after row.1
  others : ∀ t, (∀ row ∈ rows, row.1 ≠ t) → usageOf after t = usageOf before t
  named : ∀ row ∈ rows, row.1 ∈ names

theorem Booked.refl (tenants : Std.ExtTreeMap Text Nat) : Booked tenants tenants [] [] :=
  ⟨by simp, fun _ _ => rfl, by simp⟩

theorem Booked.recordCreate (tenants : Std.ExtTreeMap Text Nat) (tenant : Option Text) :
    Booked tenants (recordCreate tenants tenant) [tenantName tenant]
      [(tenantName tenant, usageOf tenants (tenantName tenant) + 1)] := by
  refine ⟨?_, ?_, by simp⟩
  · intro row hrow
    rw [mem_singleton.mp hrow, usageOf_recordCreate, if_pos rfl]
  · intro t ht
    rw [usageOf_recordCreate, if_neg (ht _ mem_cons_self), Nat.add_zero]

theorem Booked.recordDelete (tenants : Std.ExtTreeMap Text Nat) (tenant : Option Text) :
    Booked tenants (recordDelete tenants tenant) [tenantName tenant]
      [(tenantName tenant, usageOf tenants (tenantName tenant) - 1)] := by
  refine ⟨?_, ?_, by simp⟩
  · intro row hrow
    rw [mem_singleton.mp hrow, usageOf_recordDelete, if_pos rfl]
  · intro t ht
    rw [usageOf_recordDelete, if_neg (ht _ mem_cons_self), Nat.sub_zero]

theorem Booked.created (tenants : Std.ExtTreeMap Text Nat) (created : List (Option Text)) :
    Booked tenants (created.foldl Kernel.recordCreate tenants) (created.map tenantName)
      ((created.map tenantName).dedup.map fun t =>
        (t, usageOf tenants t + (created.map tenantName).count t)) := by
  refine ⟨?_, ?_, ?_⟩
  · exact forall_mem_map.mpr fun t _ => (usageOf_foldl_recordCreate created tenants t).symm
  · intro t ht
    rw [usageOf_foldl_recordCreate, Nat.add_eq_left, count_eq_zero]
    intro hmem
    exact ht _ (mem_map_of_mem (mem_dedup.mpr hmem)) rfl
  · exact forall_mem_map.mpr fun t => mem_dedup.mp

/-! ## Outcomes -/

/-- What a call is going to commit: objects, and the tenants that gain or lose one. -/
structure Outcome where
  kos : List KnowledgeObject
  created : List (Option Text)
  deleted : List (Option Text)

def Outcome.tenants (o : Outcome) (tenants : Std.ExtTreeMap Text Nat) : Std.ExtTreeMap Text Nat :=
  o.deleted.foldl recordDelete (o.created.foldl recordCreate tenants)

def RememberRequest.target (req : RememberRequest) (io : Ambient) : Koid :=
  req.koid.getD (io.fresh 0)

def evolvedObject (head : KnowledgeObject) (target : LifecycleState) (origin : Origin)
    (millis : Nat) (actor : Text) (note : Option Text) : KnowledgeObject :=
  { head with version := head.version + 1, lifecycle := ⟨target, origin⟩ }.pushLifecycleHistory
    head.lifecycle.state target millis actor note

def tombstonedObject (head : KnowledgeObject) : KnowledgeObject :=
  { head with version := head.version + 1, lifecycle := ⟨.deleted, .system⟩ }

def createdTenants (resolved : List Resolved) : List (Option Text) :=
  (resolved.filter Resolved.creating).map fun r => r.op.request.metadata.tenant

/-- How the objects of a call come about, with what was checked. -/
inductive Staging (A : Admission) (st : State) (io : Ambient) : Call → Outcome → Prop
  | remember {req : RememberRequest} {draft : Draft}
      (hkeys : ∀ key ∈ kernelManagedExtensions, key ∉ req.extensions)
      (hversion : req.expectedVersion.getD (st.store.headVersion (req.target io))
        = st.store.headVersion (req.target io))
      (hdraft : A.remember st req (req.target io) (st.store.headObject (req.target io))
        = .ok draft) :
      Staging A st io (.remember req)
        ⟨[rememberedObject req (req.target io) (st.store.headObject (req.target io)) draft],
          if (st.store.headObject (req.target io)).isNone then [req.metadata.tenant] else [], []⟩
  | transact {ops : List TransactionOp} {schema : Option (Text × Bytes)} {txnId : Option Text}
      {resolved : List Resolved} {pending : List Pending}
      (hprepared : prepareOps A st io ops = .ok (resolved, pending)) :
      Staging A st io (.transact ops schema txnId)
        ⟨pending.map Pending.ko, createdTenants resolved, []⟩
  | schema (row : Text × Bytes) : Staging A st io (.transact [] (some row) none) ⟨[], [], []⟩
  | evolve {ctx : KnowledgeContext} {koid : Koid} {target : LifecycleState} {origin : Origin}
      {expected : Option Nat} {note : Option Text} {head : KnowledgeObject}
      (hhead : st.store.headObject koid = some head)
      (hauth : A.authorize st.store ctx.subject head .evolve = .ok ())
      (hmove : head.lifecycle.state.canTransition target = true) :
      Staging A st io (.evolve ctx koid target origin expected note)
        ⟨[evolvedObject head target origin io.millis ctx.subject.name note], [], []⟩
  | tombstone {ctx : KnowledgeContext} {koid : Koid} {expected : Option Nat} {note : Option Text}
      {head : KnowledgeObject} (hhead : st.store.headObject koid = some head)
      (hauth : A.authorize st.store ctx.subject head .delete = .ok ()) :
      Staging A st io (.forget ctx koid .tombstone expected note)
        ⟨[tombstonedObject head], [], [head.metadata.tenant]⟩
  | erase {ctx : KnowledgeContext} {koid : Koid} {expected : Option Nat} {note : Option Text}
      {head : KnowledgeObject} (hhead : st.store.headObject koid = some head)
      (hauth : A.authorize st.store ctx.subject head .delete = .ok ()) :
      Staging A st io (.forget ctx koid .erase expected note) ⟨[], [], [head.metadata.tenant]⟩
  | recordAudit (note : Text) : Staging A st io (.recordAudit note) ⟨[], [], []⟩

def eraseBatch (st : State) (head : KnowledgeObject) (koid : Koid) (ke : KnowledgeEvent)
    (ts : Nat) : WriteBatch where
  puts := [.event ke.seq ke, .journal ⟨ke.seq, ke.auditHash, ts⟩, .usageHead ke.seq ts,
    .usageRow (tenantName head.metadata.tenant)
      (usageOf st.tenants (tenantName head.metadata.tenant) - 1),
    .tomb koid ke.payloadHash ke.seq]
  dels := [.head koid, .typeRow head.metadata.typeName koid] ++
    (st.store.objects koid).keys.map (Del.object koid)

def auditBatch (ke : KnowledgeEvent) (ts : Nat) : WriteBatch :=
  ⟨[.event ke.seq ke, .journal ⟨ke.seq, ke.auditHash, ts⟩, .usageHead ke.seq ts], []⟩

/-- How a call comes to the batch it stages. -/
inductive Batched (A : Admission) (C : Crypto) (st : State) (io : Ambient) :
    Call → Nat → WriteBatch → Pipeline → Std.ExtTreeMap Text Nat → Reply → Prop
  | remember {req : RememberRequest} {head : Option KnowledgeObject} {draft : Draft}
      {rep hlc batch pipe after reply}
      (hkeys : kernelManagedExtensions.find? (fun key => req.extensions.contains key) = none)
      (hidem : (req.idempotencyKey.map (idemScope req.metadata.tenant)).bind
        (fun key => st.store.idem[key]?) = none)
      (hhead : st.store.headObject (req.target io) = head)
      (hfound : ¬(head.isNone ∧ req.koid.isSome ∧ req.expectedVersion.isNone))
      (hversion : checkVersion (req.target io) req.expectedVersion
        ((head.map KnowledgeObject.version).getD 0) = .ok ())
      (hdraft : A.remember st req (req.target io) head = .ok draft)
      (hstaged : stagedOf
          (if head.isNone then recordCreate st.tenants req.metadata.tenant else st.tenants) rep
          (commitVersion C st io.hlcMillis (rememberedObject req (req.target io) head draft)
            (kindOf req.origin head.isNone) req.origin req.context.subject.name req.note
            (req.idempotencyKey.map (idemScope req.metadata.tenant))
            (head.map KnowledgeObject.relationships)
            (if head.isNone then some (tenantName req.metadata.tenant,
              usageOf st.tenants (tenantName req.metadata.tenant) + 1) else none))
        = (hlc, .write batch pipe after reply)) :
      Batched A C st io (.remember req) hlc batch pipe after reply
  | schema (row : Text × Bytes) :
      Batched A C st io (.transact [] (some row) none) st.hlc ⟨[.schema row.1 row.2], []⟩ st.pipe
        st.tenants (.transacted [] false)
  | transact {ops : List TransactionOp} {schema : Option (Text × Bytes)} {txnId : Option Text}
      {hlc batch pipe after reply} (hbody : ¬(ops.isEmpty ∧ txnId.isNone))
      (hfresh : transactFresh A C st io ops schema txnId = (hlc, .write batch pipe after reply)) :
      Batched A C st io (.transact ops schema txnId) hlc batch pipe after reply
  | evolve {ctx : KnowledgeContext} {koid : Koid} {target : LifecycleState} {origin : Origin}
      {expected : Option Nat} {note : Option Text} {head : KnowledgeObject}
      {rep hlc batch pipe after reply} (hhead : st.store.headObject koid = some head)
      (hauth : A.authorize st.store ctx.subject head .evolve = .ok ())
      (hmove : head.lifecycle.state.canTransition target = true)
      (hstaged : stagedOf st.tenants rep (commitVersion C st io.hlcMillis
          (evolvedObject head target origin io.millis ctx.subject.name note) .lifecycleChanged
          origin ctx.subject.name note none (some head.relationships) none)
        = (hlc, .write batch pipe after reply)) :
      Batched A C st io (.evolve ctx koid target origin expected note) hlc batch pipe after reply
  | tombstone {ctx : KnowledgeContext} {koid : Koid} {expected : Option Nat} {note : Option Text}
      {head : KnowledgeObject} {rep hlc batch pipe after reply}
      (hhead : st.store.headObject koid = some head)
      (hauth : A.authorize st.store ctx.subject head .delete = .ok ())
      (hstaged : stagedOf (recordDelete st.tenants head.metadata.tenant) rep
          (commitVersion C st io.hlcMillis (tombstonedObject head) .forgotten .system
            ctx.subject.name note none (some head.relationships)
            (some (tenantName head.metadata.tenant,
              usageOf st.tenants (tenantName head.metadata.tenant) - 1)))
        = (hlc, .write batch pipe after reply)) :
      Batched A C st io (.forget ctx koid .tombstone expected note) hlc batch pipe after reply
  | erase {ctx : KnowledgeContext} {koid : Koid} {expected : Option Nat} {note : Option Text}
      {head : KnowledgeObject} {ke : KnowledgeEvent} {reply}
      (hhead : st.store.headObject koid = some head)
      (hauth : A.authorize st.store ctx.subject head .delete = .ok ())
      (hke : eraseEvent C st head koid (hlcNow st.hlc io.hlcMillis) ctx.subject.name note
        = .ok ke) :
      Batched A C st io (.forget ctx koid .erase expected note) (hlcNow st.hlc io.hlcMillis)
        (eraseBatch st head koid ke (hlcNow st.hlc io.hlcMillis)) (st.pipe.past ke)
        (recordDelete st.tenants head.metadata.tenant) reply
  | recordAudit {note : Text} {ke : KnowledgeEvent} {reply}
      (hke : auditEvent C st (hlcNow st.hlc io.hlcMillis) note = .ok ke) :
      Batched A C st io (.recordAudit note) (hlcNow st.hlc io.hlcMillis)
        (auditBatch ke (hlcNow st.hlc io.hlcMillis)) (st.pipe.past ke) st.tenants reply

theorem actOn_eq_ok {ctx : KnowledgeContext} {action : Action}
    {check : KnowledgeObject → Except KError Unit} {head : KnowledgeObject}
    (h : actOn A st ctx koid action expected check = .ok head) :
    st.store.headObject koid = some head ∧
      A.authorize st.store ctx.subject head action = .ok () ∧ check head = .ok () := by
  unfold actOn at h
  cases hhead : st.store.headObject koid with
  | none => simp [hhead] at h
  | some head' =>
    simp only [hhead, bind_eq_ok, pure_eq_ok] at h
    obtain ⟨_, hauth, _, hcheck, -, -, rfl⟩ := h
    exact ⟨rfl, hauth, hcheck⟩

theorem stage_batched {call : Call} {hlc : Nat} {batch : WriteBatch} {pipe : Pipeline}
    {after : Std.ExtTreeMap Text Nat} {reply : Reply}
    (h : stage A C st io call = (hlc, .write batch pipe after reply)) :
    Batched A C st io call hlc batch pipe after reply := by
  cases call with
  | remember req =>
    simp only [stage, remember] at h
    split at h
    · simp [refused] at h
    · next hkeys =>
        split at h
        · next hidem =>
            simp only [rememberFresh] at h
            split at h
            · simp [refused] at h
            · next hfound =>
                split at h
                · simp [refused] at h
                · simp [refused] at h
                · next hversion hdraft => exact .remember hkeys hidem rfl hfound hversion hdraft h
        · split at h <;> simp [refused] at h
  | transact ops schema txnId =>
    simp only [stage, transact] at h
    split at h
    · next hempty =>
        cases schema with
        | none => simp at h
        | some row =>
          simp only [Prod.mk.injEq, Staged.write.injEq] at h
          obtain ⟨rfl, rfl, rfl, rfl, rfl⟩ := h
          obtain rfl := List.isEmpty_iff.mp hempty.1
          obtain rfl := Option.isNone_iff_eq_none.mp hempty.2
          exact .schema row
    · next hbody =>
        split at h
        · exact .transact hbody h
        · split at h <;> simp [refused] at h
  | evolve ctx koid target origin expected note =>
    simp only [stage, evolve] at h
    split at h
    · simp [refused] at h
    · next head hact =>
        obtain ⟨hhead, hauth, hcheck⟩ := actOn_eq_ok hact
        refine .evolve hhead hauth ?_ h
        by_contra hmove
        rw [if_neg hmove] at hcheck
        cases hcheck
  | forget ctx koid mode expected note =>
    simp only [stage, forget] at h
    split at h
    · simp [refused] at h
    · next head hact =>
        obtain ⟨hhead, hauth, -⟩ := actOn_eq_ok hact
        cases mode with
        | tombstone => exact .tombstone hhead hauth h
        | erase =>
          simp only [erase, Prod.mk.injEq] at h
          obtain ⟨rfl, h⟩ := h
          split at h
          · cases h
          · next ke hke =>
              cases h
              exact .erase hhead hauth hke
  | recordAudit note =>
    simp only [stage, recordAudit, Prod.mk.injEq] at h
    obtain ⟨rfl, h⟩ := h
    split at h
    · cases h
    · next ke hke =>
        cases h
        exact .recordAudit hke

def Call.lists (st : State) (io : Ambient) : Call → List (Koid × List RelationshipRef)
  | .remember req =>
    [(req.koid.getD (io.fresh 0),
      nextRels (st.store.headObject (req.koid.getD (io.fresh 0))) req.relationships)]
  | .transact ops _ _ => opLists io 0 ops
  | .evolve _ koid _ _ _ _ => [(koid, st.store.headRels koid)]
  | .forget _ koid .tombstone _ _ => [(koid, st.store.headRels koid)]
  | .forget _ _ .erase _ _ => []
  | .recordAudit _ => []

def Call.erases : Call → Option Koid
  | .forget _ koid .erase _ _ => some koid
  | _ => none

theorem lists_of_head (hkeyed : st.store.Keyed) {head ko : KnowledgeObject}
    (hhead : st.store.headObject koid = some head)
    (hko : ko.koid = head.koid ∧ ko.relationships = head.relationships) :
    [(ko.koid, ko.relationships)] = [(koid, st.store.headRels koid)] := by
  rw [(Store.head_eq hhead).1, hko.1, hko.2, hkeyed koid head hhead]

theorem Staging.lists {call : Call} {o : Outcome} (h : Staging A st io call o)
    (hkeyed : st.store.Keyed) :
    (o.kos.map fun ko => (ko.koid, ko.relationships)) = call.lists st io := by
  cases h with
  | remember | schema | erase | recordAudit => rfl
  | transact hprepared =>
    rw [Call.lists, ← (onTop_of_prepareOps hprepared).2.2, map_map]
    rfl
  | evolve hhead => exact lists_of_head hkeyed hhead ⟨rfl, rfl⟩
  | tombstone hhead => exact lists_of_head hkeyed hhead ⟨rfl, rfl⟩

/-! ## Batches -/

def Staged.DescribedBy (C : Crypto) (st : State) (io : Ambient) (hlc : Nat) (batch : WriteBatch)
    (pipe : Pipeline) (ts : Nat) (change : Change) : Prop :=
  Describes C.sha256 st ts batch pipe change ∧
    (st.pipe.pairPin = none → change.events ≠ [] → ts = hlc ∧ hlc = hlcNow st.hlc io.hlcMillis)

/-- A batch with the change it makes and the outcome it comes from. -/
structure Commits (A : Admission) (C : Crypto) (st : State) (io : Ambient) (call : Call)
    (hlc : Nat) (batch : WriteBatch) (pipe : Pipeline) (after : Std.ExtTreeMap Text Nat)
    (reply : Reply) (ts : Nat) (change : Change) (o : Outcome) : Prop where
  described : Staged.DescribedBy C st io hlc batch pipe ts change
  made : Made ts o.kos change.commits
  erased : change.erased = call.erases
  staging : Staging A st io call o
  tenants : after = o.tenants st.tenants
  booked : Booked st.tenants after (o.created.map tenantName ++ o.deleted.map tenantName)
    (batch.puts.filterMap asUsage)
  replied : ∀ ops schema txnId, call = .transact ops schema txnId →
    ∃ results deduped, reply = .transacted results deduped ∧
      results.map Remembered.koid = o.kos.map KnowledgeObject.koid

section

variable {hlc : Nat} {batch : WriteBatch} {pipe : Pipeline}
  {tenants after : Std.ExtTreeMap Text Nat} {reply : Reply} {ko head : KnowledgeObject}
  {koid : Koid} {kind : EventKind} {origin : Origin} {actor : Text} {note idem : Option Text}
  {prevRels : Option (List RelationshipRef)} {usage : Option (Text × Nat)}

theorem commitVersion_ts {millis : Nat} {ready : Ready}
    (h : commitVersion C st millis ko kind origin actor note idem prevRels usage
      = (hlc, .ok ready)) (hpin : st.pipe.pairPin = none) :
    ready.commitTs = hlc ∧ hlc = hlcNow st.hlc millis := by
  have hvalid := validate_of_commitVersion h
  simp only [commitVersion, hvalid, hpin, Prod.mk.injEq, bind_eq_ok, pure_eq_ok] at h
  obtain ⟨rfl, ke, -, rfl⟩ := h
  exact ⟨rfl, rfl⟩

theorem commitVersion_usage {millis : Nat} {ready : Ready}
    (h : commitVersion C st millis ko kind origin actor note idem prevRels usage
      = (hlc, .ok ready)) : ready.batch.puts.filterMap asUsage = usage.toList := by
  have hvalid := validate_of_commitVersion h
  simp only [commitVersion, hvalid, Prod.mk.injEq, bind_eq_ok, pure_eq_ok] at h
  obtain ⟨rfl, ke, -, rfl⟩ := h
  cases usage <;> cases idem <;> simp [filterMap_cons, asUsage]

theorem stagedOf_write {r : Nat × Except KError Ready}
    (h : stagedOf tenants rep r = (hlc, .write batch pipe after reply)) :
    ∃ ready, r = (hlc, .ok ready) ∧ batch = ready.batch ∧ pipe = ready.pipe ∧
      after = tenants ∧ reply = rep ready := by
  obtain ⟨now, result⟩ := r
  cases result with
  | error e => simp [stagedOf] at h
  | ok ready =>
    cases h
    exact ⟨ready, rfl, rfl, rfl, rfl, rfl⟩

theorem stagedOf_commits
    (h : stagedOf tenants rep (commitVersion C st io.hlcMillis ko kind origin actor note idem
      prevRels usage) = (hlc, .write batch pipe after reply)) (hkind : kind ≠ .audit)
    (hprev : prevRels.getD [] = st.store.headRels ko.koid)
    (hversion : ko.version = st.store.headVersion ko.koid + 1)
    (hrefs : ko.eventRefs = st.store.headRefs ko.koid) :
    ∃ ts c ready, Staged.DescribedBy C st io hlc batch pipe ts ⟨[c], [c.ke], none⟩ ∧
      Made ts [ko] [c] ∧ after = tenants ∧ batch.puts.filterMap asUsage = usage.toList ∧
      reply = rep ready := by
  obtain ⟨ready, hcommit, rfl, rfl, rfl, rfl⟩ := stagedOf_write h
  obtain ⟨ke, hdescribes⟩ := commitVersion_describes hcommit hkind hprev hversion hrefs
  exact ⟨ready.commitTs, _, ready, ⟨hdescribes, fun hpin _ => commitVersion_ts hcommit hpin⟩,
    .cons ⟨_, _, rfl⟩ .nil, rfl, commitVersion_usage hcommit, rfl⟩

theorem stagedOf_head_commits
    (h : stagedOf tenants rep (commitVersion C st io.hlcMillis ko kind origin actor note idem
      (some head.relationships) usage) = (hlc, .write batch pipe after reply))
    (hkind : kind ≠ .audit) (hkeyed : st.store.Keyed)
    (hhead : st.store.headObject koid = some head)
    (hko : ko.koid = head.koid ∧ ko.version = head.version + 1 ∧ ko.eventRefs = head.eventRefs) :
    ∃ ts c ready, Staged.DescribedBy C st io hlc batch pipe ts ⟨[c], [c.ke], none⟩ ∧
      Made ts [ko] [c] ∧ after = tenants ∧ batch.puts.filterMap asUsage = usage.toList ∧
      reply = rep ready := by
  obtain ⟨hk, hversion, hrefs⟩ := hko
  rw [hkeyed koid head hhead] at hk
  obtain ⟨hprev, hnumber, hrefs'⟩ := Store.head_eq hhead
  exact stagedOf_commits h hkind (hk ▸ hprev.symm) (by rw [hk, hversion, hnumber])
    (by rw [hk, hrefs, hrefs'])

theorem transactFresh_prepared {schema : Option (Text × Bytes)}
    (h : transactFresh A C st io ops schema txnId = (hlc, .write batch pipe after reply)) :
    ∃ resolved pending chain, prepareOps A st io ops = .ok (resolved, pending) ∧
      chainOps C (hlcNow st.hlc io.hlcMillis) st.pipe pending = .ok chain := by
  unfold transactFresh at h
  split at h
  · cases h
  · next hprepared =>
      dsimp only at h
      split at h
      · cases h
      · next hchain => exact ⟨_, _, _, hprepared, hchain⟩

theorem transactFresh_commits {schema : Option (Text × Bytes)}
    (h : transactFresh A C st io ops schema txnId = (hlc, .write batch pipe after reply)) :
    ∃ commits o, Commits A C st io (.transact ops schema txnId) hlc batch pipe after reply hlc
      ⟨commits, commits.map Commit.ke, none⟩ o ∧ ∃ resolved pending,
      prepareOps A st io ops = .ok (resolved, pending) ∧ o.kos = pending.map Pending.ko ∧
      reply = .transacted
        (commits.map fun c => ⟨c.ko.koid, c.ko.version, hlc, c.ke.seq⟩) false := by
  obtain ⟨resolved, pending, chain, hprepared, hchain⟩ := transactFresh_prepared h
  obtain ⟨hontop, hkinds, hlists⟩ := onTop_of_prepareOps hprepared
  obtain ⟨hresolved, hpending, hnodup, -⟩ := prepareOps_eq_ok hprepared
  obtain ⟨-, -, hasked⟩ := resolveOps_against hresolved
  simp only [transactFresh, hprepared, hchain, Prod.mk.injEq, Staged.write.injEq] at h
  obtain ⟨rfl, rfl, rfl, rfl, rfl⟩ := h
  obtain ⟨commits, hc⟩ := chainOps_chained hchain hontop hkinds
  have hkoids : (commits.map fun c => c.ko.koid) = pending.map fun p => p.ko.koid := by
    have := congrArg (List.map Prod.fst) hc.made.lists
    simpa [Commit.lists, Function.comp_def] using this
  refine ⟨commits, ⟨pending.map Pending.ko, createdTenants resolved, []⟩,
    ⟨⟨?_, fun _ _ => ⟨rfl, rfl⟩⟩, hc.made, rfl, .transact hprepared, rfl, ?_, ?_⟩,
    resolved, pending, hprepared, rfl, by rw [hc.results]⟩
  · constructor
    case rows =>
      constructor
      all_goals
        cases schema <;> cases txnId <;> simp [WriteBatch.append, filterMap_cons, asObject, asHead,
            asType, asRelOut, asRelIn, hc.rows.objects, hc.rows.heads,
            hc.rows.types, hc.rows.relOut, hc.rows.relIn, hc.rows.delOut, hc.rows.delIn]
    case onTop => exact hc.onTop
    case nodup =>
      have hresolvedKoids := congrArg (List.map Prod.fst) (hlists.trans hasked.symm)
      simp only [map_map, Function.comp_def] at hresolvedKoids
      rw [hkoids, hresolvedKoids]
      exact hnodup
    case journaled => exact fun c hmem => mem_map_of_mem hmem
    case payloads => exact hc.payloads
    case sources => exact fun ke hke => .inl (mem_map.mp hke)
    case stamped =>
      exact forall_mem_map.mpr fun c hmem => (hc.payloads c hmem).2.1
    case follow => exact hc.follow
    case events =>
      cases schema <;> cases txnId <;>
        simp [WriteBatch.append, filterMap_cons, asEvent, hc.events, Function.comp_def]
    case journal =>
      cases schema <;> cases txnId <;>
        simp [WriteBatch.append, filterMap_cons, asJournal, hc.journal]
    case watermark =>
      cases schema <;> cases txnId <;>
        simp [WriteBatch.append, filterMap_cons, asJournal, asUsageHead, hc.journal, hc.watermark]
    case tombs =>
      cases schema <;> cases txnId <;> simp [WriteBatch.append, filterMap_cons, asTomb, hc.tombs]
    case delHeads => simp [WriteBatch.append, hc.delHeads]
    case delObjects => simp [WriteBatch.append, hc.delObjects]
    case delTypes => simp [WriteBatch.append, hc.delTypes]
    case alone => simp
  · have hrows := Booked.created st.tenants (createdTenants resolved)
    cases schema <;> cases txnId <;> simpa [WriteBatch.append, filterMap_cons, asUsage, hc.usage,
        createdTenants] using hrows
  · intro _ _ _ _
    refine ⟨chain.results, false, rfl, ?_⟩
    rw [hc.results, map_map, map_map]
    exact hkoids

end

theorem erase_describes {head : KnowledgeObject} {ts : Nat} {actor : Text} {note : Option Text}
    (hhead : st.store.headObject koid = some head)
    (hke : eraseEvent C st head koid ts actor note = .ok ke) :
    Describes C.sha256 st ts (eraseBatch st head koid ke ts) (st.pipe.past ke)
      ⟨[], [ke], some koid⟩ := by
  obtain ⟨hfollows, hkoid, hts⟩ := eraseEvent_follows hke
  unfold eraseBatch
  constructor
  case rows =>
    constructor <;> simp [filterMap_cons, filterMap_map, asObject, asHead,
      asType, asRelOut, asRelIn, Del.asRelOut, Del.asRelIn, Function.comp_def]
  case sources => simp [hkoid]
  case stamped => simpa using hts
  case follow => exact .one hfollows
  case events => simp [filterMap_cons, asEvent]
  case journal => simp [filterMap_cons, asJournal, Pipeline.past]
  case watermark => simp [filterMap_cons, asJournal, asUsageHead]
  case tombs => simp [filterMap_cons, asTomb]
  case delHeads => simp [filterMap_cons, filterMap_map, Del.asHead, Function.comp_def]
  case delObjects =>
    simp [filterMap_cons, filterMap_map, Del.asObject, Function.comp_def]
  case delTypes =>
    simp [filterMap_cons, filterMap_map, Del.asType, Function.comp_def, hhead]
  case alone => simp [hhead]
  -- No version is committed.
  all_goals simp

theorem recordAudit_describes {ts : Nat} {note : Text} (hke : auditEvent C st ts note = .ok ke) :
    Describes C.sha256 st ts (auditBatch ke ts) (st.pipe.past ke) ⟨[], [ke], none⟩ := by
  obtain ⟨hfollows, hkind, hts⟩ := auditEvent_follows hke
  constructor
  case rows => exact ⟨rfl, rfl, rfl, rfl, rfl, rfl, rfl⟩
  case sources => simp [hkind]
  case stamped => simpa using hts
  case follow => exact .one hfollows
  case journal => exact .inl rfl
  all_goals first | rfl | simp

theorem schema_describes (row : Text × Bytes) :
    Describes C.sha256 st 0 ⟨[.schema row.1 row.2], []⟩ st.pipe ⟨[], [], none⟩ := by
  constructor
  case rows => exact ⟨rfl, rfl, rfl, rfl, rfl, rfl, rfl⟩
  case follow => exact .nil _
  case journal => exact .inr ⟨rfl, rfl⟩
  all_goals first | rfl | simp

/-! ## All calls -/

section

variable {call : Call} {hlc : Nat} {batch : WriteBatch} {pipe : Pipeline}
  {tenants : Std.ExtTreeMap Text Nat} {reply : Reply}

theorem stage_outcome (hkeyed : st.store.Keyed)
    (h : stage A C st io call = (hlc, .write batch pipe tenants reply)) :
    ∃ ts change o, Commits A C st io call hlc batch pipe tenants reply ts change o := by
  cases stage_batched h with
  | remember hkeys hidem hhead hfound hversion hdraft hstaged =>
    subst hhead
    obtain ⟨ts, c, ready, hdescribed, hmade, rfl, husage, rfl⟩ :=
      stagedOf_commits hstaged (kindOf_ne_audit _ _) rfl rfl rfl
    refine ⟨ts, _, _, hdescribed, hmade, rfl, .remember (by simpa using find?_eq_none.mp hkeys)
      (checkVersion_eq_ok.mp hversion) hdraft, ?_, ?_, by simp⟩
    · -- Only a new object is booked.
      unfold Outcome.tenants
      split <;> rfl
    · rw [husage]
      split
      · exact .recordCreate st.tenants _
      · exact .refl st.tenants
  | schema row =>
    exact ⟨0, ⟨[], [], none⟩, ⟨[], [], []⟩, ⟨schema_describes row, by simp⟩, .nil, rfl,
      .schema row, rfl, .refl _, fun _ _ _ _ => ⟨[], false, rfl, rfl⟩⟩
  | transact hbody hfresh =>
    obtain ⟨commits, o, hcommits, -⟩ := transactFresh_commits hfresh
    exact ⟨hlc, _, o, hcommits⟩
  | evolve hhead hauth hmove hstaged =>
    obtain ⟨ts, c, ready, hdescribed, hmade, rfl, husage, rfl⟩ := stagedOf_head_commits hstaged
      (by decide) hkeyed hhead ⟨rfl, rfl, rfl⟩
    exact ⟨ts, _, _, hdescribed, hmade, rfl, .evolve hhead hauth hmove, rfl, husage ▸ .refl _,
      by simp⟩
  | tombstone hhead hauth hstaged =>
    obtain ⟨ts, c, ready, hdescribed, hmade, rfl, husage, rfl⟩ := stagedOf_head_commits hstaged
      (by decide) hkeyed hhead ⟨rfl, rfl, rfl⟩
    exact ⟨ts, _, _, hdescribed, hmade, rfl, .tombstone hhead hauth, rfl,
      husage ▸ .recordDelete st.tenants _, by simp⟩
  | erase hhead hauth hke =>
    exact ⟨_, ⟨[], _, _⟩, ⟨[], [], _⟩, ⟨erase_describes hhead hke, fun _ _ => ⟨rfl, rfl⟩⟩, .nil,
      rfl, .erase hhead hauth, rfl, .recordDelete st.tenants _, by simp⟩
  | recordAudit hke =>
    exact ⟨_, ⟨[], _, _⟩, ⟨[], [], []⟩, ⟨recordAudit_describes hke, fun _ _ => ⟨rfl, rfl⟩⟩, .nil,
      rfl, .recordAudit _, rfl, .refl _, by simp⟩

theorem stage_describes (hkeyed : st.store.Keyed)
    (h : stage A C st io call = (hlc, .write batch pipe tenants reply)) :
    ∃ ts change, Staged.DescribedBy C st io hlc batch pipe ts change ∧
      change.commits.map Commit.lists = call.lists st io ∧ change.erased = call.erases := by
  obtain ⟨ts, change, o, hc⟩ := stage_outcome hkeyed h
  exact ⟨ts, change, hc.described, hc.made.lists.trans (hc.staging.lists hkeyed), hc.erased⟩

end

/-! ## Steps -/

theorem step_outcome (A : Admission) (C : Crypto) (io : Ambient) (hkeyed : st.store.Keyed)
    (call : Call) (taken : Bool) :
    (∃ hlc, (step A C st io call taken).1 = { st with hlc := hlc }) ∨
      ∃ hlc batch pipe tenants reply ts change o, taken = true ∧
        stage A C st io call = (hlc, .write batch pipe tenants reply) ∧
        step A C st io call taken = (⟨st.store.writeBatch batch, pipe, hlc, tenants⟩, .ok reply) ∧
        Commits A C st io call hlc batch pipe tenants reply ts change o := by
  rcases hstage : stage A C st io call with ⟨hlc, staged⟩
  cases staged with
  | done reply => exact .inl ⟨hlc, by simp [step, hstage, finish]⟩
  | write batch pipe tenants reply =>
    cases taken with
    | false => exact .inl ⟨hlc, by simp [step, hstage, finish]⟩
    | true =>
      obtain ⟨ts, change, o, hc⟩ := stage_outcome hkeyed hstage
      exact .inr ⟨hlc, batch, pipe, tenants, reply, ts, change, o, rfl, rfl,
        by simp [step, hstage, finish], hc⟩

theorem step_cases (A : Admission) (C : Crypto) (io : Ambient) (hkeyed : st.store.Keyed)
    (call : Call) (taken : Bool) :
    ((step A C st io call taken).1.store = st.store ∧
        (step A C st io call taken).1.pipe = st.pipe) ∨
      ∃ batch ts change, (taken = true ∧ (stage A C st io call).2.isWrite = true) ∧
        (step A C st io call taken).1.store = st.store.writeBatch batch ∧
          Describes C.sha256 st ts batch (step A C st io call taken).1.pipe change ∧
          change.commits.map Commit.lists = call.lists st io ∧ change.erased = call.erases := by
  rcases step_outcome A C io hkeyed call taken with ⟨hlc, hstep⟩ |
    ⟨hlc, batch, pipe, tenants, reply, ts, change, o, rfl, hstage, hstep, hc⟩
  · exact .inl (by rw [hstep]; exact ⟨rfl, rfl⟩)
  · refine .inr ⟨batch, ts, change, ⟨rfl, by rw [hstage]; rfl⟩, by rw [hstep],
      by rw [hstep]; exact hc.described.1, hc.made.lists.trans (hc.staging.lists hkeyed),
      hc.erased⟩

end

end Aikoql.Kernel
