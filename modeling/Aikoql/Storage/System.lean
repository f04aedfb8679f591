import Aikoql.Lib.Runs
import Aikoql.Storage.Open
import Aikoql.Storage.Read
import Aikoql.Storage.Replication

/-!
# The Running System

The database as a state machine whose steps are its critical sections.

Callers, the flush and the compactions interleave at the boundaries of the
locks they take, so a step is what happens under one hold of the state lock, or
one unlocked phase. One flush is in progress at a time, any number of
compactions may be, and an object call may have resolved or reserved its ids and
not written yet. A step may carry the failure of a file operation. Stopping the
process forgets the memory and everything in progress; so does a crash, which
may also cut a publication short.

The history is kept with the state: the batches applied to memory, each with
the operations that took effect, and those of them that were acknowledged. The flush
a batch sets off is a step of its own here. If it fails, the caller gets its error for a
batch that counts as acknowledged in the history.

## Main definitions

* `Sys`: Memory, files, what is in progress, and the history.
* `step`: One event, possible or not.

## Theorems

* `step_stepped`: What a step that is possible does.
-/

namespace Aikoql.Storage

variable {sys sys' : Sys}

/-- How far the flush in progress is. -/
inductive FlushStage where
  | planned (plan : FlushPlan)
  | built (build : FlushBuild) (walTruncateLen : Nat)

/-- An object call in progress: a put that found no object and has not reserved
    its ids yet, or a batch that is about to be written. -/
inductive Call where
  | reserving (oid : ObjectId) (key value : Bytes)
  | submitting (ops : List Op)

/-- A batch applied to memory: the frame that was logged, the operations that
    took effect, and whether the write was acknowledged. -/
structure Batch where
  frame : WalFrame
  effect : List Op
  acked : Bool

def Batch.applied (b : Batch) : WalFrame :=
  ⟨b.frame.seq, b.effect⟩

/-- The system. -/
structure Sys where
  st : State
  disk : Disk
  flush : Option FlushStage
  compactions : List CompactCapture
  calls : List Call
  history : List Batch

def Sys.acked (sys : Sys) : List WalFrame :=
  (sys.history.filter Batch.acked).map Batch.frame

/-- The steps of the system. -/
inductive Event where
  | write (ops : List Op) (io : AppendIo)
  | group (batches : List (List Op)) (io : GroupIo)
  | createObject
  | putObject (oid : ObjectId) (key value : Bytes)
  | deleteObject (oid : ObjectId) (key : Bytes)
  | reserve (call : Nat)
  | submit (call : Nat) (io : AppendIo)
  | rotate
  | flushA
  | flushB (fault : Option Nat)
  | flushC (fault : Option Nat) (ckp : Option (List DirectoryFile))
  | compactA (policy : RetentionPolicy)
  | compactC (capture : Nat) (kept : List Nat) (ckp : Option (List DirectoryFile))
  | reopen
  | crash
  | flushCrash (done : Nat) (ckp : Option (List DirectoryFile))
  | compactCrash (capture : Nat) (kept : List Nat) (ckp : Option (List DirectoryFile))
      (done : Nat)

/-! ## History -/

/-- The operations of a batch that take effect: those up to the first one a gate
    refuses, whose row is applied before its gate. -/
def takesEffect (grouped : Bool) : Directories → List Op → List Op
  | _, [] => []
  | dirs, op :: ops =>
    match gate grouped dirs op with
    | (_, some _) => [op]
    | (dirs, none) => op :: takesEffect grouped dirs ops

def appliedBy (H : Sha256) (st : State) (ops : List Op) (io : AppendIo) (acked : Bool) :
    List Batch :=
  match checkBatch ops, drawSeq st with
  | .ok (), .ok (seq, _) =>
    if (encodeFrame H seq ops).isOk ∧ io = .done then
      [⟨⟨seq, ops⟩, takesEffect false st.dirs ops, acked⟩]
    else
      []
  | _, _ => []

def takesEffectAll (acked : Bool) : State → List (U64 × List Op) → List Batch
  | _, [] => []
  | st, (seq, ops) :: group =>
    ⟨⟨seq, ops⟩, takesEffect true st.dirs ops, acked⟩ ::
      takesEffectAll acked (applyOps true seq.val st ops).1 group

def appliedByGroup (H : Sha256) (st : State) (disk : Disk) (batches : List (List Op))
    (io : GroupIo) (acked : Bool) : List Batch :=
  match appendGroup H st disk io batches with
  | (st, _, drawn, .ok ()) => if io = .unsynced then [] else takesEffectAll acked st drawn
  | (_, _, _, .error _) => []

/-! ## Steps -/

section

variable (H : Sha256) (cfg : Config)

def Sys.write (sys : Sys) (ops : List Op) (io : AppendIo) : Sys :=
  let r := writeAt H sys.st sys.disk ops none io
  { sys with
    st := r.1
    disk := r.2.1
    history := sys.history ++ appliedBy H sys.st ops io r.2.2.isOk }

def Sys.commit (sys : Sys) (batches : List (List Op)) (io : GroupIo) : Sys :=
  let r := commitGroup H sys.st sys.disk batches io
  { sys with
    st := r.1
    disk := r.2.1
    history := sys.history ++ appliedByGroup H sys.st sys.disk batches io r.2.2.2.isOk }

def Sys.recover (sys : Sys) : Option Sys :=
  match dbOpen H cfg sys.disk with
  | .error _ => none
  | .ok (st, disk) =>
    some { sys with st := st, disk := disk, flush := none, compactions := [], calls := [] }

def Sys.idle (sys : Sys) : Bool :=
  sys.flush.isNone && sys.compactions.isEmpty && sys.calls.isEmpty

def Sys.flushB (sys : Sys) (plan : FlushPlan) (fault : Option Nat) : Sys :=
  let written := flushPhaseB H cfg FlushBuild.empty (plan.immutables.zip plan.segmentIds)
  match fault.filter fun k => k < written.1.length, written.2 with
  | some k, _ => { sys with disk := sys.disk.applyAll (written.1.take k), flush := none }
  | none, .error _ => { sys with disk := sys.disk.applyAll written.1, flush := none }
  | none, .ok build =>
    { sys with
      disk := sys.disk.applyAll written.1
      flush := some (.built build plan.walTruncateLen) }

def Sys.flushPublication (sys : Sys) (build : FlushBuild) (walTruncateLen : Nat)
    (ckp : Option (List DirectoryFile)) : Publication :=
  flushPhaseC H cfg sys.st build walTruncateLen sys.disk.wal ckp

/-- One step; none if it is not possible in this state, or if it opens the
    database and the open fails. -/
def step (sys : Sys) : Event → Option Sys
  | .write ops io => some (sys.write H ops io)
  -- Batches come in through the database, which checks them. Those of a `CommitWriter`
  -- handle, which only has to find them non-empty, are no events of this system.
  | .group batches io =>
    if batches.all fun ops => (checkBatch ops).isOk then some (sys.commit H batches io) else none
  | .createObject =>
    match createObject H sys.st.dirs with
    | .error _ => some sys
    | .ok (created, dirs) =>
      some { sys with
        st := { sys.st with dirs := dirs }
        calls := sys.calls ++ [.submitting created.2] }
  | .putObject oid key value =>
    match resolve sys.st.dirs oid with
    | .error _ => some sys
    | .ok none => some { sys with calls := sys.calls ++ [.reserving oid key value] }
    | .ok (some rid) =>
      some { sys with calls := sys.calls ++ [.submitting (putObject rid key value)] }
  | .deleteObject oid key =>
    match deleteObject sys.st.dirs oid key with
    | .error _ => some sys
    | .ok ops => some { sys with calls := sys.calls ++ [.submitting ops] }
  | .reserve i =>
    match sys.calls[i]? with
    | some (.reserving oid key value) =>
      match putNewObject sys.st.dirs oid key value with
      | .error _ => some { sys with calls := sys.calls.eraseIdx i }
      | .ok (ops, dirs) =>
        some { sys with
          st := { sys.st with dirs := dirs }
          calls := sys.calls.set i (.submitting ops) }
    | _ => none
  | .submit i io =>
    match sys.calls[i]? with
    | some (.submitting ops) =>
      some ({ sys with calls := sys.calls.eraseIdx i }.write H ops io)
    | _ => none
  | .rotate => some { sys with st := rotate sys.st }
  | .flushA =>
    match sys.flush with
    | some _ => none
    | none =>
      let planned := flushPhaseA sys.st sys.disk.wal.length
      some { sys with st := planned.1, flush := planned.2.map .planned }
  | .flushB fault =>
    match sys.flush with
    | some (.planned plan) => some (sys.flushB H cfg plan fault)
    | _ => none
  | .flushC fault ckp =>
    match sys.flush with
    | some (.built build len) =>
      let r := (sys.flushPublication H cfg build len ckp).run sys.disk fault
      some { sys with st := r.1, disk := r.2.1, flush := none }
    | _ => none
  | .compactA policy =>
    match compactPhaseA sys.st policy with
    | none => some sys
    | some capture => some { sys with compactions := sys.compactions ++ [capture] }
  | .compactC i kept ckp =>
    match sys.compactions[i]? with
    | some capture =>
      let r := (compactPhaseC H cfg sys.st capture kept ckp).run sys.disk none
      some { sys with st := r.1, disk := r.2.1, compactions := sys.compactions.eraseIdx i }
    | none => none
  | .reopen => if sys.idle then sys.recover H cfg else none
  | .crash => sys.recover H cfg
  | .flushCrash done ckp =>
    match sys.flush with
    | some (.built build len) =>
      let ops := (sys.flushPublication H cfg build len ckp).ops
      { sys with disk := sys.disk.applyAll (ops.take done) }.recover H cfg
    | _ => none
  | .compactCrash i kept ckp done =>
    match sys.compactions[i]? with
    | some capture =>
      let ops := (compactPhaseC H cfg sys.st capture kept ckp).ops
      { sys with disk := sys.disk.applyAll (ops.take done) }.recover H cfg
    | none => none

inductive Stepped (sys : Sys) : Event → Sys → Prop
  | write {ops : List Op} {io : AppendIo} : Stepped sys (.write ops io) (sys.write H ops io)
  | group {batches : List (List Op)} {io : GroupIo}
      (checked : ∀ ops ∈ batches, checkBatch ops = .ok ()) :
      Stepped sys (.group batches io) (sys.commit H batches io)
  /-- Ids may be drawn, and calls start or end. -/
  | call {e : Event} {dirs : Directories} {calls : List Call}
      (drawn : dirs = sys.st.dirs ∨ ∃ ids, reserveIdentity sys.st.dirs = .ok (ids, dirs)) :
      Stepped sys e { sys with st := { sys.st with dirs := dirs }, calls := calls }
  | submit {i : Nat} {io : AppendIo} {ops : List Op}
      (call : sys.calls[i]? = some (.submitting ops)) :
      Stepped sys (.submit i io) ({ sys with calls := sys.calls.eraseIdx i }.write H ops io)
  | rotate : Stepped sys .rotate { sys with st := rotate sys.st }
  | flushA (free : sys.flush = none) :
      Stepped sys .flushA { sys with
          st := (flushPhaseA sys.st sys.disk.wal.length).1
          flush := (flushPhaseA sys.st sys.disk.wal.length).2.map .planned }
  | flushB {plan : FlushPlan} {fault : Option Nat} (planned : sys.flush = some (.planned plan)) :
      Stepped sys (.flushB fault) (sys.flushB H cfg plan fault)
  | flushC {build : FlushBuild} {len : Nat} {fault : Option Nat}
      {ckp : Option (List DirectoryFile)} {r : State × Disk × Except FormatError Unit}
      (built : sys.flush = some (.built build len))
      (run : (sys.flushPublication H cfg build len ckp).run sys.disk fault = r) :
      Stepped sys (.flushC fault ckp) { sys with st := r.1, disk := r.2.1, flush := none }
  | compactA {policy : RetentionPolicy} {capture : CompactCapture}
      (captured : compactPhaseA sys.st policy = some capture) :
      Stepped sys (.compactA policy) { sys with compactions := sys.compactions ++ [capture] }
  | compactC {i : Nat} {kept : List Nat} {ckp : Option (List DirectoryFile)}
      {capture : CompactCapture} {r : State × Disk × Except FormatError Unit}
      (captured : sys.compactions[i]? = some capture)
      (run : (compactPhaseC H cfg sys.st capture kept ckp).run sys.disk none = r) :
      Stepped sys (.compactC i kept ckp)
        { sys with st := r.1, disk := r.2.1, compactions := sys.compactions.eraseIdx i }
  | reopened {e : Event} {sys' : Sys} (event : e = .reopen ∨ e = .crash)
      (recovered : sys.recover H cfg = some sys') : Stepped sys e sys'
  /-- A publication is cut short by a crash. -/
  | crashed {e : Event} {ops : List FileOp} {done : Nat} {sys' : Sys}
      (event : (∃ ckp build len, e = .flushCrash done ckp ∧ sys.flush = some (.built build len) ∧
          ops = (sys.flushPublication H cfg build len ckp).ops) ∨
        ∃ i kept ckp capture, e = .compactCrash i kept ckp done ∧
          sys.compactions[i]? = some capture ∧
          ops = (compactPhaseC H cfg sys.st capture kept ckp).ops)
      (recovered : { sys with disk := sys.disk.applyAll (ops.take done) }.recover H cfg
        = some sys') : Stepped sys e sys'

variable {H cfg}

theorem step_stepped {e : Event} (h : step H cfg sys e = some sys') : Stepped H cfg sys e sys' := by
  cases e <;> rw [step] at h
  case write | rotate =>
    cases h
    constructor
  case group batches io =>
    split at h
    · rename_i hall
      cases h
      exact .group fun ops hops => eq_ok_of_isOk (List.all_eq_true.mp hall ops hops)
    · cases h
  case createObject =>
    split at h
    · cases h
      exact .call (.inl rfl)
    · rename_i created dirs hcreate
      cases h
      simp only [createObject, bind_eq_ok, pure_eq_ok] at hcreate
      rcases hcreate with ⟨⟨ids, dirs'⟩, hreserve, heq⟩
      obtain ⟨_, rfl⟩ := Prod.mk.inj heq
      exact .call (.inr ⟨ids, hreserve⟩)
  case putObject | deleteObject =>
    split at h <;> cases h <;> exact .call (.inl rfl)
  case reserve i =>
    split at h
    · split at h
      · cases h
        exact .call (.inl rfl)
      · rename_i ops dirs hput
        cases h
        simp only [putNewObject, bind_eq_ok, pure_eq_ok] at hput
        rcases hput with ⟨⟨ids, dirs'⟩, hreserve, heq⟩
        obtain ⟨_, rfl⟩ := Prod.mk.inj heq
        exact .call (.inr ⟨ids, hreserve⟩)
    · cases h
  case submit =>
    split at h <;> cases h
    exact .submit ‹_›
  case flushA =>
    split at h <;> cases h
    exact .flushA ‹_›
  case flushB =>
    split at h <;> cases h
    exact .flushB ‹_›
  case flushC =>
    split at h <;> cases h
    exact .flushC ‹_› rfl
  case compactC =>
    split at h <;> cases h
    exact .compactC ‹_› rfl
  case compactA policy =>
    split at h
    · cases h
      exact .call (.inl rfl)
    · cases h
      exact .compactA ‹_›
  case reopen =>
    split at h
    · exact .reopened (.inl rfl) h
    · cases h
  case crash => exact .reopened (.inr rfl) h
  case flushCrash done ckp =>
    split at h
    · rename_i build len hflush
      exact .crashed (.inl ⟨ckp, build, len, rfl, hflush, rfl⟩) h
    · cases h
  case compactCrash i kept ckp done =>
    split at h
    · rename_i capture hcapture
      exact .crashed (.inr ⟨i, kept, ckp, capture, rfl, hcapture, rfl⟩) h
    · cases h

end

/-! ## The start -/

/-- The memory of a database that was just created. -/
def State.fresh : State where
  active := Memtable.new
  immutables := []
  segments := []
  segmentRecords := []
  nextSeq := 1
  nextSegmentId := 1
  generation := 1
  dirs :=
    { identity := ∅
      replicas := ∅
      placements := ∅
      pendingIdentity := []
      pendingReplicas := []
      pendingPlacements := []
      nextLogicalId := 1
      nextReplicaId := 1
      nextPlacementGeneration := 1 }
  identityMark := ⟨0, 0⟩
  replicaMark := ⟨0, 0⟩
  placementMark := ⟨0, 0⟩

/-- A database that was just created. -/
def Sys.initial : Sys where
  st := State.fresh
  disk := freshDisk Disk.empty
  flush := none
  compactions := []
  calls := []
  history := []

theorem dbOpen_empty (H : Sha256) (cfg : Config) (h : cfg.blockTarget ≠ 0) :
    dbOpen H cfg Disk.empty = .ok (Sys.initial.st, Sys.initial.disk) := by
  rw [dbOpen, ensure_pos h, ok_bind]
  rfl

end Aikoql.Storage
