import Aikoql.Kernel.Calls
import Aikoql.Lib.MergeMaps

/-!
# Jobs

The scheduler that runs long work outside the kernel's own calls.

A job has a row with its status and, once it is completed, a row with its result. A
submit goes through stages and other submits may come in between any two of them: it
looks up whether its input is known, reads the limit, claims a slot, draws an id, writes
the row of the job, registers the input, has the admission recorded in the journal and
starts a worker.
A write, the recording and the start of the worker may fail. Behind the write of the row
a failure takes the row back, and the write that takes it back may fail unnoticed.

A scheduler that is recovered reads the rows. It marks the jobs that were running as
failed and starts drawing from the largest id it finds.

A submit is known by its ticket, so that one can tell which submit wrote a row. Nothing
the scheduler does depends on tickets.
-/

namespace Aikoql.Kernel

inductive JobStatus where
  | running
  | completed
  | failed
  deriving DecidableEq

inductive JobKind where
  | reason
  | infer
  | predict
  deriving DecidableEq

/-- The row of a job. -/
structure JobRecord where
  jobId : Nat
  status : JobStatus
  kind : JobKind
  inputHash : Bytes
  error : Option Text
  subjectName : Text
  subjectRoles : List Text
  subjectTenant : Option Text
  deriving DecidableEq

structure JobHandle where
  jobId : Nat
  inputHash : Bytes
  joined : Bool
  deriving DecidableEq

/-- How far a submit came. -/
inductive Stage where
  | unknownInput
  | limited (max : Nat)
  | claimed
  | drawn (jobId : Nat)
  | placed (jobId : Nat)
  | registered (jobId : Nat)
  | recorded (jobId : Nat)
  deriving DecidableEq

/-- A submit that has not returned. -/
structure Submission where
  kind : JobKind
  inputHash : Bytes
  subject : Subject
  stage : Stage
  deriving DecidableEq

/-- The rows of the jobs, the memory of the scheduler, the submits that have not
    returned, and the ids of the workers that have not ended, which one that panics never
    does. Beside that the handles that were returned, and for each id the ticket of the
    submit that last wrote its row. -/
structure Scheduler where
  jobs : Std.ExtTreeMap Nat JobRecord
  results : Std.ExtTreeMap Nat Bytes
  nextId : Nat
  running : Nat
  maxRunning : Nat
  byHash : Std.ExtTreeMap Bytes Nat
  inFlight : Std.ExtTreeMap Nat Submission
  workers : List Nat
  tickets : Nat
  handles : List JobHandle
  writer : Std.ExtTreeMap Nat Nat

def Scheduler.initial (maxRunning : Nat) : Scheduler :=
  ⟨∅, ∅, 0, 0, maxRunning, ∅, ∅, [], 0, [], ∅⟩

/-! ## Submits -/

def Submission.record (sub : Submission) (jobId : Nat) : JobRecord :=
  ⟨jobId, .running, sub.kind, sub.inputHash, none, sub.subject.name, sub.subject.roles,
    sub.subject.tenant⟩

/-- A submit comes to another stage. -/
def Scheduler.advance (s : Scheduler) (ticket : Nat) (sub : Submission) (stage : Stage) :
    Scheduler :=
  { s with inFlight := s.inFlight.insert ticket { sub with stage := stage } }

/-- A submit returns. -/
def Scheduler.leave (s : Scheduler) (ticket : Nat) : Scheduler :=
  { s with inFlight := s.inFlight.erase ticket }

/-- Take an admission back. The row stays if the write fails. -/
def Scheduler.abortAdmission (s : Scheduler) (jobId : Nat) (inputHash : Bytes) (taken : Bool) :
    Scheduler :=
  { s with
    jobs := if taken then s.jobs.erase jobId else s.jobs
    byHash := s.byHash.erase inputHash
    running := s.running - 1 }

/-- The last write of a worker. -/
def Scheduler.finish (s : Scheduler) (jobId : Nat) (res : Except Text Bytes) (taken : Bool) :
    Scheduler :=
  match s.jobs[jobId]? with
  | none => s
  | some row =>
    match res with
    | .ok blob =>
      if taken then
        { s with
          jobs := s.jobs.insert jobId { row with status := .completed }
          results := s.results.insert jobId blob }
      else s
    | .error text =>
      let row := { row with status := .failed, error := some text }
      { s with
        jobs := if taken then s.jobs.insert jobId row else s.jobs
        byHash := s.byHash.erase row.inputHash }

/-! ## Recovery -/

def interrupt (markInterrupted : Bool) (row : JobRecord) : JobRecord :=
  if markInterrupted && decide (row.status = .running) then
    { row with status := .failed, error := some (utf8 "interrupted by process exit") }
  else row

def recoverNext (jobs : Std.ExtTreeMap Nat JobRecord) : Nat :=
  jobs.foldl (fun next _ row => max next row.jobId) 0

def recoverHashes (jobs : Std.ExtTreeMap Nat JobRecord) : Std.ExtTreeMap Bytes Nat :=
  jobs.foldl (fun known _ row =>
    if row.status ≠ .failed then known.insert row.inputHash row.jobId else known) ∅

def Scheduler.recover (s : Scheduler) (maxRunning : Nat) (markInterrupted : Bool) : Scheduler :=
  let jobs := s.jobs.map fun _ row => interrupt markInterrupted row
  { s with
    jobs := jobs
    nextId := recoverNext jobs
    running := 0
    maxRunning := maxRunning
    byHash := recoverHashes jobs
    inFlight := ∅
    workers := [] }

/-! ## Steps -/

/-- A submit starts or comes to its next stage, a worker ends, the limit is set, or the
    process is restarted. -/
inductive JobEvent where
  | submit (kind : JobKind) (inputHash : Bytes) (subject : Subject)
  | readLimit (ticket : Nat)
  | claim (ticket : Nat)
  | draw (ticket : Nat)
  | place (ticket : Nat) (taken : Bool)
  | register (ticket : Nat)
  | record (ticket : Nat) (recorded undone : Bool)
  | spawn (ticket : Nat) (started undone : Bool)
  | finish (jobId : Nat) (res : Except Text Bytes) (taken : Bool)
  | setMaxRunning (n : Nat)
  | recover (maxRunning : Nat) (markInterrupted : Bool)

/-- The submit that makes a step. -/
def JobEvent.ticket : JobEvent → Option Nat
  | .readLimit ticket => some ticket
  | .claim ticket => some ticket
  | .draw ticket => some ticket
  | .place ticket _ => some ticket
  | .register ticket => some ticket
  | .record ticket _ _ => some ticket
  | .spawn ticket _ _ => some ticket
  | _ => none

def Scheduler.lookUp (s : Scheduler) (kind : JobKind) (inputHash : Bytes) (subject : Subject) :
    Scheduler :=
  match s.byHash[inputHash]? with
  | some jobId =>
    { s with handles := ⟨jobId, inputHash, true⟩ :: s.handles, tickets := s.tickets + 1 }
  | none =>
    { s with
      inFlight := s.inFlight.insert s.tickets ⟨kind, inputHash, subject, .unknownInput⟩
      tickets := s.tickets + 1 }

def Scheduler.proceed (s : Scheduler) (ticket : Nat) (sub : Submission) :
    JobEvent → Stage → Option Scheduler
  | .readLimit _, .unknownInput => some (s.advance ticket sub (.limited s.maxRunning))
  -- The count is read again until it can be raised, but not the limit.
  | .claim _, .limited max =>
    if max ≤ s.running then some (s.leave ticket)
    else some { s.advance ticket sub .claimed with running := s.running + 1 }
  | .draw _, .claimed =>
    some { s.advance ticket sub (.drawn s.nextId) with nextId := s.nextId + 1 }
  | .place _ taken, .drawn jobId =>
    if taken then
      some { s.advance ticket sub (.placed jobId) with
        jobs := s.jobs.insert jobId (sub.record jobId)
        writer := s.writer.insert jobId ticket }
    else some { s.leave ticket with running := s.running - 1 }
  | .register _, .placed jobId =>
    some { s.advance ticket sub (.registered jobId) with
      byHash := s.byHash.insert sub.inputHash jobId }
  | .record _ recorded undone, .registered jobId =>
    if recorded then some (s.advance ticket sub (.recorded jobId))
    else some ((s.abortAdmission jobId sub.inputHash undone).leave ticket)
  | .spawn _ started undone, .recorded jobId =>
    if started then
      some { s.leave ticket with
        workers := jobId :: s.workers
        handles := ⟨jobId, sub.inputHash, false⟩ :: s.handles }
    else some ((s.abortAdmission jobId sub.inputHash undone).leave ticket)
  | _, _ => none

def Scheduler.step (s : Scheduler) (e : JobEvent) : Option Scheduler :=
  match e with
  | .submit kind inputHash subject => some (s.lookUp kind inputHash subject)
  | .finish jobId res taken =>
    if jobId ∈ s.workers then
      some { s.finish jobId res taken with
        workers := s.workers.erase jobId
        running := s.running - 1 }
    else none
  | .setMaxRunning n => some { s with maxRunning := n }
  | .recover maxRunning markInterrupted => some (s.recover maxRunning markInterrupted)
  | e =>
    e.ticket.bind fun ticket =>
      s.inFlight[ticket]?.bind fun sub => s.proceed ticket sub e sub.stage

def Scheduler.admitted (s : Scheduler) : List Nat :=
  (s.handles.filter fun handle => !handle.joined).map JobHandle.jobId

end Aikoql.Kernel
