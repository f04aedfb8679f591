import Aikoql.Storage.State

/-!
# The Write Path

How a batch reaches the log, the memtable and the directories.

A write holds the state lock from the draw of its sequence number to the end of
its application. It draws the number first, so a batch the encoder refuses or an
append that fails has used one up. It appends and syncs the frame before the
merge gates see the operations, so a batch a gate refuses is in the log all the
same, with the operations in front of the refused one applied. A group commit
does the same for several batches with one sync, and shares one outcome among
them.

The file operations of an append can fail in three ways: before anything was
written, with a beginning of the frame written, or at the sync with the whole
frame written.
-/

namespace Aikoql.Storage

/-- How an append goes. -/
inductive AppendIo where
  | done
  | unwritten
  | torn (n : Nat)
  | unsynced
  deriving DecidableEq

/-- The bytes an append leaves in the log: a torn one leaves a strict beginning
    of the frame. -/
def AppendIo.written (frame : Bytes) : AppendIo → Bytes
  | .done => frame
  | .unwritten => []
  | .torn n => frame.take (min n (frame.length - 1))
  | .unsynced => frame

def applyOp (grouped : Bool) (seq : Nat) (st : State) (op : Op) : State × Option FormatError :=
  let gated := gate grouped st.dirs op
  ({ st with active := applyRow seq st.active op, dirs := gated.1 }, gated.2)

/-- Apply the operations of a batch up to the first one a gate refuses. -/
def applyOps (grouped : Bool) (seq : Nat) : State → List Op → State × Option FormatError
  | st, [] => (st, none)
  | st, op :: ops =>
    match applyOp grouped seq st op with
    | (st, some e) => (st, some e)
    | (st, none) => applyOps grouped seq st ops

def checkBatch (ops : List Op) : Except FormatError Unit := do
  ensure (ops ≠ []) (.invalid "empty write batch")
  match (ops.map Op.key).find? fun k => maxKeyLen < k.length with
  | some k =>
    let len := k.length
    .error (.invalid s!"key length {len} exceeds the {maxKeyLen} byte format limit")
  | none => .ok ()

/-- Draw a sequence number; the allocator must stay within 64 bits. -/
def drawSeq (st : State) : Except FormatError (U64 × State) := do
  let seq ← draw st.nextSeq
  ensure (st.nextSeq + 1 < 18446744073709551616) (.invalid "attempt to add with overflow")
  return (seq, { st with nextSeq := st.nextSeq + 1 })

/-- The write under the state lock, after the checks and the draw. -/
def appendAndApply (H : Sha256) (st : State) (disk : Disk) (seq : U64) (ops : List Op)
    (io : AppendIo) : State × Disk × Except FormatError U64 :=
  match encodeFrame H seq ops with
  | .error e => (st, disk, .error e)
  | .ok frame =>
    let disk := disk.apply (.walAppend (io.written frame))
    if io = .done then
      match applyOps false seq.val st ops with
      | (st, some e) => (st, disk, .error e)
      | (st, none) => (st, disk, .ok seq)
    else
      (st, disk, .error ioError)

/-- The write. `expected` is the sequence number a replicated batch must get: an
    older one was applied already, a newer one would leave a hole. -/
def writeAt (H : Sha256) (st : State) (disk : Disk) (ops : List Op) (expected : Option U64)
    (io : AppendIo) : State × Disk × Except FormatError U64 :=
  match checkBatch ops with
  | .error e => (st, disk, .error e)
  | .ok () =>
    match expected.filter fun e => e.val < st.nextSeq with
    | some e => (st, disk, .ok e)
    | none =>
      match expected.filter fun e => st.nextSeq < e.val with
      | some e =>
        let next := st.nextSeq
        (st, disk, .error (.invalid
          s!"replicated frame {e} skips {next}: the follower never holds a hole"))
      | none =>
        match drawSeq st with
        | .error e => (st, disk, .error e)
        | .ok (seq, st) => appendAndApply H st disk seq ops io

/-! ## Group commit -/

/-- How the appends of a group go: all of them and the sync, an append that
    fails at some batch, or the sync. -/
inductive GroupIo where
  | done
  | failed (batch : Nat) (io : AppendIo)
  | unsynced
  deriving DecidableEq

def GroupIo.head : GroupIo → AppendIo
  | .done => .done
  | .failed 0 io => io
  | .failed (_ + 1) _ => .done
  | .unsynced => .done

/-- How the rest of a group goes after its head. -/
def GroupIo.tail : GroupIo → GroupIo
  | .done => .done
  | .failed n io => .failed (n - 1) io
  | .unsynced => .unsynced

/-- Append the frames of a group up to the first failure. The result lists the
    batches that drew a sequence number. -/
def appendGroup (H : Sha256) : State → Disk → GroupIo → List (List Op) →
    State × Disk × List (U64 × List Op) × Except FormatError Unit
  | st, disk, _, [] => (st, disk, [], .ok ())
  | st, disk, io, ops :: group =>
    match drawSeq st with
    | .error e => (st, disk, [], .error e)
    | .ok (seq, st) =>
      match encodeFrame H seq ops with
      | .error e => (st, disk, [(seq, ops)], .error e)
      | .ok frame =>
        let disk := disk.apply (.walAppend (io.head.written frame))
        if io.head = .done then
          let rest := appendGroup H st disk io.tail group
          (rest.1, rest.2.1, (seq, ops) :: rest.2.2.1, rest.2.2.2)
        else
          (st, disk, [(seq, ops)], .error ioError)

/-- Apply the batches of a group. A refused batch does not stop the ones behind
    it, but the outcome of all is then the last refusal. -/
def applyGroup : State → List (U64 × List Op) → Except FormatError Unit →
    State × Except FormatError Unit
  | st, [], outcome => (st, outcome)
  | st, (seq, ops) :: group, outcome =>
    match applyOps true seq.val st ops with
    | (st, some e) => applyGroup st group (.error e)
    | (st, none) => applyGroup st group outcome

/-- The group commit up to the flush it may set off: append all, sync once, apply all. The
    outcome is shared by all batches. -/
def commitGroup (H : Sha256) (st : State) (disk : Disk) (group : List (List Op)) (io : GroupIo) :
    State × Disk × List (U64 × List Op) × Except FormatError Unit :=
  match appendGroup H st disk io group with
  | (st, disk, drawn, .error e) => (st, disk, drawn, .error e)
  | (st, disk, drawn, .ok ()) =>
    if io = .unsynced then
      (st, disk, drawn, .error ioError)
    else
      let applied := applyGroup st drawn (.ok ())
      (applied.1, disk, drawn, applied.2)

/-! ## Object calls -/

def objectIdOf (H : Sha256) (lid : LogicalId) : ObjectId :=
  ObjectId.fromBytes ((H.digest (u64Bytes lid)).take 16)

def createObject (H : Sha256) (dirs : Directories) :
    Except FormatError ((ObjectId × List Op) × Directories) := do
  let (ids, dirs) ← reserveIdentity dirs
  let oid := objectIdOf H ids.1
  return ((oid, [.createObject oid ids.1 ids.2.1 ids.2.2]), dirs)

def resolve (dirs : Directories) (oid : ObjectId) : Except FormatError (Option ReplicaId) :=
  match dirs.identity[oid]? with
  | none => .ok none
  | some lid =>
    match dirs.replicas[lid]? with
    | none =>
      let name := lid.val
      .error (.corrupt s!"logical LogicalId({name}) has no local replica")
    | some rid => .ok (some rid)

def putObject (rid : ReplicaId) (key value : Bytes) : List Op :=
  [.putObject rid key value]

def putNewObject (dirs : Directories) (oid : ObjectId) (key value : Bytes) :
    Except FormatError (List Op × Directories) := do
  let (ids, dirs) ← reserveIdentity dirs
  return ([.createObject oid ids.1 ids.2.1 ids.2.2, .putObject ids.2.1 key value], dirs)

def deleteObject (dirs : Directories) (oid : ObjectId) (key : Bytes) :
    Except FormatError (List Op) := do
  let name := ObjectId.display oid
  match ← resolve dirs oid with
  | none => .error (.invalid s!"delete_object on unknown ObjectId ObjectId({name})")
  | some rid => .ok [.deleteObject rid key]

/-! ## Rotation -/

def rotate (st : State) : State :=
  if st.active.isEmpty then st
  else { st with active := Memtable.new, immutables := st.immutables ++ [st.active] }

end Aikoql.Storage
