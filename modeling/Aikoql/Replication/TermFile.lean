import Aikoql.Lib.Runs
import Mathlib.Logic.Function.Basic

/-!
# The Term File

A node keeps its term and role in a file of its data directory, and a directory
without the file is that of a leader at term 0. The procedures that write the
file are lists of file operations, and a crash ends such a list early. Operations
that neither put a term file in place nor move a directory (temporary files,
syncing, the history, the leader's address) have no part in what is read, and a
crash behind one of them is a crash behind the operation before it.
-/

namespace Aikoql.Replication

inductive Role where
  | leader
  | standby
  | fenced
deriving DecidableEq, Repr

/-- The data directory and its siblings. -/
inductive Place where
  | dir
  | new
  | old
deriving DecidableEq

/-- Whether a directory is there, and the term file in it. -/
abbrev Disk := Place → Option (Option (Nat × Role))

inductive Op where
  | storeTerm (p : Place) (term : Nat) (role : Role)
  | removeDirAll (p : Place)
  /-- A snapshot is restored; it has no term file. -/
  | restoreFrom (p : Place)
  | rename (src dst : Place)
deriving DecidableEq

def Op.run (d : Disk) : Op → Disk
  | .storeTerm p term role => Function.update d p (some (some (term, role)))
  | .removeDirAll p => Function.update d p none
  | .restoreFrom p => Function.update d p (some none)
  | .rename src dst => Function.update (Function.update d dst (d src)) src none

def Disk.loadTerm (d : Disk) : Nat × Role :=
  ((d .dir).bind id).getD (0, .leader)

structure TermDir where
  disk : Disk
  /-- The term of the lease the running process holds. -/
  lease : Option Nat
  /-- The term of a snapshot that was shipped to replace the directory. -/
  pending : Option Nat
  /-- How many claims of a term have taken effect. -/
  claims : Nat

inductive Procedure where
  /-- The lease names this node at a term, or it has just won it. -/
  | begin (term : Nat)
  | claimLeadership
  /-- A handshake with a leader, which may ship a snapshot. -/
  | follow (term : Nat) (rebootstrap : Bool)
  | serveStandby (theirTerm : Nat)
  /-- The renewer fences its own node. -/
  | fence
  | rebootstrap

def claimTerm (term : Nat) : List Op := [.storeTerm .dir term .leader]

def rebootstrap (d : Disk) (term : Nat) : List Op :=
  [.removeDirAll .new, .restoreFrom .new, .storeTerm .new term .standby, .removeDirAll .old] ++
    (if (d .dir).isSome then [.rename .dir .old] else []) ++
    [.rename .new .dir, .removeDirAll .old]

namespace TermDir

def ops (s : TermDir) : Procedure → List Op
  | .begin term =>
    if s.disk.loadTerm.1 < term ∨ s.disk.loadTerm.1 = term ∧ s.disk.loadTerm.2 ≠ .leader then
      claimTerm term
    else []
  | .claimLeadership =>
    if s.disk.loadTerm.2 = .standby then claimTerm (s.disk.loadTerm.1 + 1) else []
  | .follow term shipped =>
    if term < s.disk.loadTerm.1 ∨ shipped ∨ s.disk.loadTerm = (term, .standby) then []
    else [.storeTerm .dir term .standby]
  | .serveStandby theirTerm =>
    if s.disk.loadTerm.2 ≠ .fenced ∧ s.disk.loadTerm.1 < theirTerm then
      [.storeTerm .dir theirTerm .fenced]
    else []
  | .fence => s.lease.toList.map fun term => .storeTerm .dir term .fenced
  | .rebootstrap => s.pending.toList.flatMap (rebootstrap s.disk)

/-- The first operations of a procedure are carried out. If some are missing the
    process has crashed, and a process that fences itself ends. -/
def step (s : TermDir) (e : Procedure × Nat) : Option TermDir :=
  let done := (s.ops e.1).take e.2
  let ends := done.length < (s.ops e.1).length
  some
    { disk := done.foldl Op.run s.disk
      lease := match e.1 with
        | .begin term => if ends ∨ term < s.disk.loadTerm.1 then none else some term
        | .fence => none
        | _ => if ends then none else s.lease
      pending := match e.1 with
        | .follow term true => if term < s.disk.loadTerm.1 then s.pending else some term
        | .rebootstrap => if ends then s.pending else none
        | _ => s.pending
      claims := s.claims + match e.1 with
        | .begin _ | .claimLeadership => done.length
        | _ => 0 }

end TermDir

end Aikoql.Replication
