import Aikoql.Kernel.Outcomes

/-!
# Interleaved Calls

Writers, snapshots and transactions of one kernel, step by step.

A writer takes the pipe lock, draws its time stamp and builds its batch, and some time
later the engine takes the batch or refuses it and the lock is released. These are two
steps here, with one call at most in flight between them. Time stamps for readers come
from the clock alone, so `snapshotNow` and `beginTransaction` may come at any time.

A transaction reads at the time stamp it began with. A write is staged with the
version of the object at that time stamp as the one it expects, and a commit is a call
like any other.

Two things are remembered only to be spoken about: which objects were erased, and
which versions a transaction had read when it staged a write.
-/

namespace Aikoql.Kernel

open Option

variable {sys sys' : Shared} {m : Move} {batch : WriteBatch} {pipe : Pipeline}

/-! ## Transactions -/

/-- A staged write, with the versions of its object that were read before it was
    staged. -/
structure StagedOp where
  op : TransactionOp
  basis : List KnowledgeObject

/-- A transaction that is not over, with what its reads returned. -/
structure Txn where
  id : Text
  subject : Subject
  snapshotTs : Nat
  staged : List StagedOp
  reads : List (Koid × KnowledgeObject)

def Txn.readsOf (txn : Txn) (koid : Koid) : List KnowledgeObject :=
  (txn.reads.filter fun r => r.1 = koid).map Prod.snd

/-- Read at the time stamp of the transaction. -/
def Txn.get (A : Admission) (s : Store) (txn : Txn) (koid : Koid) :
    Except KError KnowledgeObject := do
  match s.objectAt koid txn.snapshotTs with
  | none => .error (.notFound koid)
  | some ko =>
    A.authorize s txn.subject ko .read
    return ko

def Txn.stage (s : Store) (txn : Txn) (req : RememberRequest) : Except KError Txn :=
  if req.context.subject ≠ txn.subject then
    .error (.invalidObject (utf8 "staged request subject '" ++ req.context.subject.name ++
      utf8 "' does not match transaction subject '" ++ txn.subject.name ++ utf8 "'"))
  else
    let pinned := match req.koid with
      | none => req
      | some koid =>
        let found := s.objectAt koid txn.snapshotTs
        { req with expectedVersion := some ((found.map KnowledgeObject.version).getD 0) }
    let basis := (req.koid.map txn.readsOf).getD []
    .ok { txn with staged := txn.staged ++ [⟨⟨req.context, pinned⟩, basis⟩] }

/-! ## Steps -/

/-- A call that holds the pipe lock, with the staged writes if it commits a
    transaction. -/
structure Flight where
  staged : Staged
  ops : List StagedOp

/-- The kernel as its callers share it. Transactions have a handle for ever, which is
    empty once they are over. -/
structure Shared where
  st : State
  flight : Option Flight
  txns : List (Option Txn)
  erased : List Koid

/-- A kernel on an empty engine that nobody uses yet. -/
def Shared.initial : Shared := ⟨State.initial, none, [], []⟩

inductive Move where
  | start (io : Ambient) (call : Call)
  | finish (taken : Bool)
  | snapshotNow (millis : Nat)
  | beginTransaction (subject : Subject) (id : Text) (millis : Nat)
  | get (handle : Nat) (koid : Koid)
  | stage (handle : Nat) (req : RememberRequest)
  | commit (handle : Nat) (io : Ambient)
  | rollback (handle : Nat)

def Shared.txn (sys : Shared) (handle : Nat) : Option Txn :=
  sys.txns[handle]?.bind id

def Staged.erases : Staged → List Koid
  | .done _ => []
  | .write batch _ _ _ => batch.dels.filterMap Del.asHead

section

variable (A : Admission) (C : Crypto)

/-- Take the pipe lock and go as far as the engine. -/
def Shared.take (sys : Shared) (io : Ambient) (call : Call) (ops : List StagedOp) : Option Shared :=
  if sys.flight.isSome then none
  else
    let staged := stage A C sys.st io call
    some { sys with st := { sys.st with hlc := staged.1 }, flight := some ⟨staged.2, ops⟩ }

/-- One step of one caller; none if the caller has to wait or has no such handle. -/
def move (sys : Shared) : Move → Option Shared
  | .start io call => sys.take A C io call []
  | .finish taken =>
    sys.flight.map fun flight =>
      { sys with
        st := (finish sys.st flight.staged taken).1
        flight := none
        erased := sys.erased ++ if taken then flight.staged.erases else [] }
  | .snapshotNow millis =>
    some { sys with st := { sys.st with hlc := hlcNow sys.st.hlc millis } }
  | .beginTransaction subject id millis =>
    -- An empty id is refused before the clock is asked.
    if id.isEmpty then some sys
    else
      let ts := hlcNow sys.st.hlc millis
      some { sys with
        st := { sys.st with hlc := ts }
        txns := sys.txns ++ [some ⟨id, subject, ts, [], []⟩] }
  | .get handle koid =>
    (sys.txn handle).map fun txn =>
      match txn.get A sys.st.store koid with
      | .error _ => sys
      | .ok ko =>
        { sys with
          txns := sys.txns.set handle (some { txn with reads := txn.reads ++ [(koid, ko)] }) }
  | .stage handle req =>
    (sys.txn handle).map fun txn =>
      match txn.stage sys.st.store req with
      | .error _ => sys
      | .ok txn => { sys with txns := sys.txns.set handle (some txn) }
  | .commit handle io =>
    (sys.txn handle).bind fun txn =>
      Shared.take A C { sys with txns := sys.txns.set handle none } io
        (.transact (txn.staged.map StagedOp.op) none (some txn.id)) txn.staged
  | .rollback handle =>
    (sys.txn handle).map fun _ => { sys with txns := sys.txns.set handle none }

end

/-! ## What a step does -/

/-- The call a step takes the lock for, with the staged writes it commits. -/
def Shared.call (sys : Shared) : Move → Option (Ambient × Call × List StagedOp)
  | .start io call => some (io, call, [])
  | .commit handle io => (sys.txn handle).map fun txn =>
    (io, .transact (txn.staged.map StagedOp.op) none (some txn.id), txn.staged)
  | _ => none

def Move.reading : Move → Option Nat
  | .start io _ => some io.hlcMillis
  | .snapshotNow millis => some millis
  | .beginTransaction _ _ millis => some millis
  | .commit _ io => some io.hlcMillis
  | _ => none

theorem commitVersion_hlc (C : Crypto) (st : State) (millis : Nat) (ko : KnowledgeObject)
    (kind : EventKind) (origin : Origin) (actor : Text) (note idem : Option Text)
    (prevRels : Option (List RelationshipRef)) (usage : Option (Text × Nat)) :
    (commitVersion C st millis ko kind origin actor note idem prevRels usage).1 = st.hlc ∨
      (commitVersion C st millis ko kind origin actor note idem prevRels usage).1
        = hlcNow st.hlc millis := by
  unfold commitVersion
  split
  · exact .inl rfl
  · dsimp only
    split
    · exact .inl rfl
    · exact .inr rfl

theorem stage_hlc (A : Admission) (C : Crypto) (st : State) (io : Ambient) (call : Call) :
    (stage A C st io call).1 = st.hlc ∨ (stage A C st io call).1 = hlcNow st.hlc io.hlcMillis := by
  cases call with
  | remember req =>
    simp only [stage, remember]
    split
    · exact .inl rfl
    · split
      · simp only [rememberFresh]
        split
        · exact .inl rfl
        · split
          · exact .inl rfl
          · exact .inl rfl
          · exact commitVersion_hlc C st io.hlcMillis _ _ _ _ _ _ _ _
      · split
        · exact .inl rfl
        · exact .inl rfl
  | transact ops schema txnId =>
    simp only [stage, transact]
    split
    · exact .inl rfl
    · split
      · simp only [transactFresh]
        split
        · exact .inl rfl
        · exact .inr rfl
      · split
        · exact .inl rfl
        · exact .inl rfl
  | evolve ctx koid target origin expected note =>
    simp only [stage, evolve]
    split
    · exact .inl rfl
    · exact commitVersion_hlc C st io.hlcMillis _ _ _ _ _ _ _ _
  | forget ctx koid mode expected note =>
    simp only [stage, forget]
    split
    · exact .inl rfl
    · cases mode with
      | tombstone => exact commitVersion_hlc C st io.hlcMillis _ _ _ _ _ _ _ _
      | erase => exact .inr rfl
  | recordAudit note => exact .inr rfl

theorem move_cases {A : Admission} {C : Crypto} (h : move A C sys m = some sys') :
    (∃ io call ops, sys.call m = some (io, call, ops) ∧ m.reading = some io.hlcMillis ∧
        sys'.st = { sys.st with hlc := (stage A C sys.st io call).1 } ∧
        sys'.flight = some ⟨(stage A C sys.st io call).2, ops⟩ ∧ sys'.erased = sys.erased) ∨
      (∃ flight batch pipe tenants reply, m = .finish true ∧ sys.flight = some flight ∧
        flight.staged = .write batch pipe tenants reply ∧
        sys' = { sys with
          st := { sys.st with
            store := sys.st.store.writeBatch batch, pipe := pipe, tenants := tenants }
          flight := none
          erased := sys.erased ++ batch.dels.filterMap Del.asHead }) ∨
      ∃ hlc, (hlc = sys.st.hlc ∨ ∃ millis ∈ m.reading, hlc = hlcNow sys.st.hlc millis) ∧
        sys'.st = { sys.st with hlc := hlc } ∧ (sys'.flight = sys.flight ∨ sys'.flight = none) ∧
        sys'.erased = sys.erased := by
  -- A step that leaves the kernel alone is of the third kind.
  have hquiet : ∀ sys' : Shared, sys'.st = sys.st →
      (sys'.flight = sys.flight ∨ sys'.flight = none) → sys'.erased = sys.erased →
      ∃ hlc, (hlc = sys.st.hlc ∨ ∃ millis ∈ m.reading, hlc = hlcNow sys.st.hlc millis) ∧
        sys'.st = { sys.st with hlc := hlc } ∧ (sys'.flight = sys.flight ∨ sys'.flight = none) ∧
        sys'.erased = sys.erased :=
    fun sys' hst hflight herased => ⟨sys.st.hlc, .inl rfl, hst, hflight, herased⟩
  cases m with
  | start io call =>
    simp only [move, Shared.take] at h
    split at h
    · cases h
    · cases h
      exact .inl ⟨io, call, [], rfl, rfl, rfl, rfl, rfl⟩
  | finish taken =>
    obtain ⟨⟨staged, ops⟩, hflight, rfl⟩ := map_eq_some_iff.mp h
    cases staged with
    | done reply =>
      exact .inr (.inr (hquiet _ rfl (.inr rfl) (by simp [Staged.erases])))
    | write batch pipe tenants reply =>
      cases taken with
      | false => exact .inr (.inr (hquiet _ rfl (.inr rfl) (by simp)))
      | true => exact .inr (.inl ⟨_, batch, pipe, tenants, reply, rfl, hflight, rfl, rfl⟩)
  | snapshotNow millis =>
    cases h
    exact .inr (.inr ⟨_, .inr ⟨millis, rfl, rfl⟩, rfl, .inl rfl, rfl⟩)
  | beginTransaction subject id millis =>
    simp only [move] at h
    split at h
    · cases h
      exact .inr (.inr (hquiet _ rfl (.inl rfl) rfl))
    · cases h
      exact .inr (.inr ⟨_, .inr ⟨millis, rfl, rfl⟩, rfl, .inl rfl, rfl⟩)
  | get handle koid =>
    obtain ⟨txn, -, rfl⟩ := map_eq_some_iff.mp h
    cases txn.get A sys.st.store koid with
    | error | ok => exact .inr (.inr (hquiet _ rfl (.inl rfl) rfl))
  | stage handle req =>
    obtain ⟨txn, -, rfl⟩ := map_eq_some_iff.mp h
    cases txn.stage sys.st.store req with
    | error | ok => exact .inr (.inr (hquiet _ rfl (.inl rfl) rfl))
  | commit handle io =>
    obtain ⟨txn, htxn, h⟩ := bind_eq_some_iff.mp h
    simp only [Shared.take] at h
    split at h
    · cases h
    · cases h
      exact .inl ⟨io, _, _, by rw [Shared.call, htxn]; rfl, rfl, rfl, rfl, rfl⟩
  | rollback handle =>
    obtain ⟨txn, -, rfl⟩ := map_eq_some_iff.mp h
    exact .inr (.inr (hquiet _ rfl (.inl rfl) rfl))

/-! ## The call in flight -/

theorem stage_of_flight {A : Admission} {C : Crypto} {st : State} {io : Ambient} {call : Call}
    {ops : List StagedOp} {flight : Flight} {tenants : Std.ExtTreeMap Text Nat} {reply : Reply}
    (hstaged : sys.flight = some ⟨(stage A C st io call).2, ops⟩)
    (hflight : sys.flight = some flight)
    (hwrite : flight.staged = .write batch pipe tenants reply) :
    stage A C st io call = ((stage A C st io call).1, .write batch pipe tenants reply) := by
  rw [hflight, Option.some.injEq] at hstaged
  subst hstaged
  exact Prod.ext rfl hwrite

/-- The time stamp of a version in flight has a property, and the batch in flight is
    described by a change of the rows as they are. -/
structure Shared.Sound (C : Crypto) (P : Nat → Prop) (sys : Shared) : Prop where
  keyed : sys.st.store.Keyed
  pin : sys.st.pipe.pairPin = none
  flight : ∀ flight batch pipe tenants reply, sys.flight = some flight →
    flight.staged = .write batch pipe tenants reply →
      ∃ ts change, Describes C.sha256 sys.st ts batch pipe change ∧ (change.commits ≠ [] → P ts)

theorem Describes.of_hlc {H : Storage.Sha256} {st : State} {ts hlc : Nat} {change : Change}
    (h : Describes H st ts batch pipe change) :
    Describes H { st with hlc := hlc } ts batch pipe change :=
  ⟨h.rows, h.onTop, h.nodup, h.journaled, h.payloads, h.sources, h.stamped, h.follow, h.events,
    h.journal, h.watermark, h.tombs, h.delHeads, h.delObjects, h.delTypes, h.alone⟩

theorem Shared.sound_initial (C : Crypto) (P : Nat → Prop) : Shared.initial.Sound C P where
  keyed := by
    intro koid ko hko
    cases hko
  pin := rfl
  flight := by
    intro flight _ _ _ _ hflight
    cases hflight

/-- Every step keeps the system sound, if the time stamp it may draw has the
    property. -/
theorem Shared.Sound.move {A : Admission} {C : Crypto} {P : Nat → Prop} (h : sys.Sound C P)
    (hdraw : ∀ millis ∈ m.reading, P (hlcNow sys.st.hlc millis))
    (hmove : Kernel.move A C sys m = some sys') : sys'.Sound C P := by
  rcases move_cases hmove with ⟨io, call, ops, -, hreading, hst, hstaged, -⟩ |
    ⟨flight, batch, pipe, tenants, reply, -, hflight, hwrite, rfl⟩ | ⟨hlc, -, hst, hflight, -⟩
  · -- A call that is in flight now was staged against the rows as they are.
    refine ⟨hst ▸ h.keyed, hst ▸ h.pin, ?_⟩
    intro flight batch pipe tenants reply hflight hwrite
    have hstage := stage_of_flight hstaged hflight hwrite
    obtain ⟨ts, change, ⟨hdescribes, hts⟩, -, -⟩ := stage_describes h.keyed hstage
    refine ⟨ts, change, hst ▸ hdescribes.of_hlc, ?_⟩
    intro hcommits
    obtain ⟨rfl, hdrawn⟩ := hts h.pin (hdescribes.events_ne_nil hcommits)
    rw [hdrawn]
    exact hdraw io.hlcMillis hreading
  · -- Nothing is in flight behind the end of a call.
    obtain ⟨ts, change, hdescribes, -⟩ := h.flight flight batch pipe tenants reply hflight hwrite
    refine ⟨hdescribes.keyed h.keyed, hdescribes.follow.pairPin.trans h.pin, ?_⟩
    intro _ _ _ _ _ hnone
    cases hnone
  · refine ⟨hst ▸ h.keyed, hst ▸ h.pin, ?_⟩
    intro flight batch pipe tenants reply hflight' hwrite
    rcases hflight with hflight | hflight
    · obtain ⟨ts, change, hdescribes, hts⟩ := h.flight flight batch pipe tenants reply
        (hflight ▸ hflight') hwrite
      exact ⟨ts, change, hst ▸ hdescribes.of_hlc, hts⟩
    · rw [hflight] at hflight'
      cases hflight'

/-! ## Properties of the kernel under interleaving -/

/-- The kernel has a property, and will have it when the batch in flight is written. -/
structure Shared.Upholds (P : State → Prop) (sys : Shared) : Prop where
  now : P sys.st
  next : ∀ flight batch pipe tenants reply, sys.flight = some flight →
    flight.staged = .write batch pipe tenants reply →
      P { sys.st with store := sys.st.store.writeBatch batch, pipe := pipe, tenants := tenants }

/-- A property that has nothing to do with the clock is kept by every step, if the calls
    that take the lock keep it. -/
theorem Shared.Upholds.move {A : Admission} {C : Crypto} {P : State → Prop} (h : sys.Upholds P)
    (hclock : ∀ st hlc, P st → P { st with hlc := hlc })
    (hcall : ∀ io call ops batch pipe tenants reply, sys.call m = some (io, call, ops) →
      (stage A C sys.st io call).2 = .write batch pipe tenants reply →
        P { sys.st with store := sys.st.store.writeBatch batch, pipe := pipe, tenants := tenants })
    (hmove : Kernel.move A C sys m = some sys') : sys'.Upholds P := by
  rcases move_cases hmove with ⟨io, call, ops, hstart, -, hst, hstaged, -⟩ |
    ⟨flight, batch, pipe, tenants, reply, -, hflight, hwrite, rfl⟩ | ⟨hlc, -, hst, hflight, -⟩
  · refine ⟨hst ▸ hclock _ _ h.now, ?_⟩
    intro flight batch pipe tenants reply hflight hwrite
    rw [hst]
    have hstage := stage_of_flight hstaged hflight hwrite
    exact hclock _ _ (hcall io call ops batch pipe tenants reply hstart (by rw [hstage]))
  · refine ⟨h.next flight batch pipe tenants reply hflight hwrite, ?_⟩
    intro _ _ _ _ _ hnone
    cases hnone
  · refine ⟨hst ▸ hclock _ _ h.now, ?_⟩
    intro flight batch pipe tenants reply hflight' hwrite
    rw [hst]
    rcases hflight with hflight | hflight
    · exact hclock _ _ (h.next flight batch pipe tenants reply (hflight ▸ hflight') hwrite)
    · rw [hflight] at hflight'
      cases hflight'

end Aikoql.Kernel
