import Aikoql.Replication.TermFile

/-!
# The Lease

Failover runs over one record in a store whose only write is a compare-and-swap
on a version. A node that starts reads the record (`begin`): it creates one if
there is none, resumes its own, and otherwise stands by. A standby takes the
record over at the next term once it has not changed for a while; the holder
renews it.

The version of a record is its place in the list of all records, and 0 stands
for no record. A node acts on the record it read, which may be stale by then. A
request that is answered lands when it is sent; one whose answer is lost may
land at any later time, also after its sender has restarted, or never. When a
lease counts as lapsed is a matter of clocks and of the standby's log, and here
an input. Addresses are left out.
-/

namespace Aikoql.Replication

structure Lease where
  holder : Nat
  term : Nat
  /-- The holder's last sequence number at the last renewal. -/
  seq : Nat
  beat : Nat
deriving DecidableEq

/-- A write of the record, sent for a version. -/
structure LeaseRequest where
  lease : Lease
  expected : Nat
  /-- It makes the sender the holder, of a new term. -/
  wins : Bool
deriving DecidableEq

/-- What becomes of a request. -/
inductive Fate where
  | answered
  | lost
deriving DecidableEq

inductive Phase where
  | idle
  | read (got : Option (Lease × Nat))
  | holds (lease : Lease) (ver : Nat)
deriving DecidableEq

/-- A node: the term and role in its directory, and the state of its process. -/
structure Node where
  term : Nat := 0
  role : Role := .leader
  standsBy : Bool := false
  phase : Phase := .idle
deriving DecidableEq

/-- The records there have been, the nodes, the requests that may still land, the
    terms that were won and those that were claimed. -/
structure Agents where
  records : List Lease := []
  nodes : Nat → Node := fun _ => {}
  inflight : List LeaseRequest := []
  wins : List (Nat × Nat) := []
  claims : List (Nat × Nat) := []

inductive AgentEvent where
  | read (n : Nat)
  | act (n : Nat) (lapsed : Bool) (seq : Nat) (fate : Fate)
  | renew (n seq : Nat) (fate : Fate)
  /-- The holder could not renew the lease in time. -/
  | selfFence (n : Nat)
  | arrive (i : Nat)
  /-- A handshake leaves the directory at a term, as a standby or fenced. -/
  | hear (n term : Nat) (role : Role)
  | restart (n : Nat)

namespace Agents

def set (s : Agents) (n : Nat) (node : Node) : Agents :=
  { s with nodes := Function.update s.nodes n node }

/-- The compare-and-swap: the version it leaves, if the expected one is there. -/
def write (s : Agents) (r : LeaseRequest) : Agents × Option Nat :=
  if r.expected = s.records.length then
    ({ s with
        records := s.records ++ [r.lease]
        wins := if r.wins then s.wins ++ [(r.lease.holder, r.lease.term)] else s.wins },
      some (s.records.length + 1))
  else (s, none)

def claimTerm (s : Agents) (n term : Nat) : Agents :=
  { s.set n { s.nodes n with term := term, role := .leader } with
    claims := s.claims ++ [(n, term)] }

def restart (s : Agents) (n : Nat) : Agents :=
  s.set n { s.nodes n with standsBy := false, phase := .idle }

def toPhase (s : Agents) (n : Nat) (phase : Phase) : Agents :=
  s.set n { s.nodes n with phase := phase }

def fence (s : Agents) (n term : Nat) : Agents :=
  (s.set n { s.nodes n with term := term, role := .fenced }).restart n

def send (s : Agents) (r : LeaseRequest) (fate : Fate) (won : Agents → Nat → Agents)
    (failed : Agents → Bool → Agents) : Agents :=
  match fate with
  | .lost => failed { s with inflight := r :: s.inflight } false
  | .answered =>
    match s.write r with
    | (s', some ver) => won s' ver
    | (s', none) => failed s' true

def begin (s : Agents) (n seq : Nat) (fate : Fate) : Option (Lease × Nat) → Agents
  | none =>
    let lease : Lease := ⟨n, (s.nodes n).term + 1, seq, 0⟩
    s.send ⟨lease, 0, true⟩ fate
      (fun s ver => (s.claimTerm n lease.term).toPhase n (.holds lease ver))
      fun s _ => s.toPhase n .idle
  | some (rec, ver) =>
    if rec.holder = n ∧ (s.nodes n).term ≤ rec.term then
      let s := if (s.nodes n).term < rec.term ∨ (s.nodes n).role ≠ .leader
        then s.claimTerm n rec.term else s
      let next : Lease := { rec with beat := rec.beat + 1 }
      s.send ⟨next, ver, false⟩ fate (fun s ver => s.toPhase n (.holds next ver))
        fun s _ => s.toPhase n .idle
    else s.set n { s.nodes n with standsBy := true, phase := .idle }

/-- One round of the serving standby; a win re-executes the process. -/
def standBy (s : Agents) (n : Nat) (lapsed : Bool) (seq : Nat) (fate : Fate) :
    Option (Lease × Nat) → Agents
  | none =>
    s.send ⟨⟨n, (s.nodes n).term + 1, seq, 0⟩, 0, true⟩ fate (fun s _ => s.restart n)
      fun s _ => s.toPhase n .idle
  | some (rec, ver) =>
    if lapsed then
      s.send ⟨⟨n, max (s.nodes n).term rec.term + 1, seq, 0⟩, ver, true⟩ fate
        (fun s _ => s.restart n) fun s _ => s.toPhase n .idle
    else s.toPhase n .idle

def step (s : Agents) : AgentEvent → Option Agents
  | .read n =>
    if (s.nodes n).phase = .idle then
      some (s.toPhase n (.read (s.records.getLast?.map fun rec => (rec, s.records.length))))
    else none
  | .act n lapsed seq fate =>
    match (s.nodes n).phase with
    | .read got =>
      some (if (s.nodes n).standsBy then s.standBy n lapsed seq fate got
        else s.begin n seq fate got)
    | _ => none
  | .renew n seq fate =>
    match (s.nodes n).phase with
    | .holds lease ver =>
      let next : Lease := { lease with beat := lease.beat + 1, seq := seq }
      some (s.send ⟨next, ver, false⟩ fate (fun s ver => s.toPhase n (.holds next ver))
        fun s conflict => if conflict then s.fence n lease.term else s)
    | _ => none
  | .selfFence n =>
    match (s.nodes n).phase with
    | .holds lease _ => some (s.fence n lease.term)
    | _ => none
  | .arrive i => (s.inflight[i]?).map fun r => (s.write r).1
  | .hear n term role =>
    if (s.nodes n).term ≤ term ∧ role ≠ .leader then
      some (s.set n { s.nodes n with term := term, role := role })
    else none
  | .restart n => some (s.restart n)

end Agents

end Aikoql.Replication
