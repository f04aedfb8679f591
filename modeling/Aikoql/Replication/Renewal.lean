import Aikoql.Lib.Runs
import Mathlib.Logic.Function.Basic

/-!
# Lease Timing

The renewal loop of a leader and any number of watching standbys over the
versions of one lease record. All clocks run at one rate. The leader's sleeps
last exactly as long as they say and its requests return within a third of the
time to live; when a write takes effect, and whether one whose error came back
took effect or still will, is open. A standby may look at any time, at any
version there has been, which covers every reading that takes some time and
every fifth of the time to live it sleeps. Durations are rounded down.
-/

namespace Aikoql.Replication

inductive LeaderPhase where
  | sleeping (wake : Nat)
  /-- A renewal; whether it took effect, once it was carried out. -/
  | renewing (started : Nat) (landed : Option Bool)
  | fenced (time : Nat)
deriving DecidableEq

structure Watch where
  now : Nat
  version : Nat
  phase : LeaderPhase
  /-- The start of the last successful renewal. -/
  lastOk : Nat
  /-- The version the leader expects. -/
  ver : Nat
  /-- Renewals that may take effect after their error came back. -/
  late : List Nat
  /-- What each standby saw last, and when it saw it first. -/
  seen : Nat → Option (Nat × Nat)
  /-- The versions that take-overs were sent for. -/
  sent : List Nat

inductive WatchEvent where
  | tick (time : Nat)
  | wake
  | land
  | ok
  | conflict
  | error
  | lateLand (i : Nat)
  | look (standby ver : Nat)
  | goFor (standby : Nat)
  | takeOver (i : Nat)

def LeaderPhase.deadline (ttl : Nat) : LeaderPhase → Option Nat
  | .sleeping wake => some wake
  | .renewing started _ => some (started + ttl / 3)
  | .fenced _ => none

namespace Watch

/-- The renewal that started at 0 has taken effect. -/
def initial : Watch := ⟨0, 1, .renewing 0 (some true), 0, 0, [], fun _ => none, []⟩

def write (w : Watch) (expected : Nat) : Watch :=
  if w.version = expected then { w with version := w.version + 1 } else w

/-- The leader looks at the time only when an error comes back. -/
def step (ttl : Nat) (w : Watch) : WatchEvent → Option Watch
  | .tick time =>
      if ∀ t ∈ w.phase.deadline ttl, w.now + time ≤ t then some { w with now := w.now + time }
      else none
  | .wake =>
      if w.phase = .sleeping w.now then some { w with phase := .renewing w.now none } else none
  | .land =>
      match w.phase with
      | .renewing started none =>
          some { w.write w.ver with phase := .renewing started (some (w.version = w.ver)) }
      | _ => none
  | .ok =>
      match w.phase with
      | .renewing started (some true) =>
          some { w with
            phase := .sleeping (w.now + ttl / 3)
            lastOk := started
            ver := w.ver + 1 }
      | _ => none
  | .conflict =>
      match w.phase with
      | .renewing _ (some false) => some { w with phase := .fenced w.now }
      | _ => none
  | .error =>
      match w.phase with
      | .renewing _ _ =>
          some { w with
            late := w.ver :: w.late
            phase := if ttl * 2 / 3 ≤ w.now - w.lastOk then .fenced w.now
              else .sleeping (w.now + ttl / 3) }
      | _ => none
  | .lateLand i => (w.late[i]?).map w.write
  | .look standby ver =>
      if ver ≤ w.version then
        some { w with
          seen := Function.update w.seen standby
            (if (w.seen standby).map Prod.fst = some ver then w.seen standby
              else some (ver, w.now)) }
      else none
  | .goFor standby =>
      match w.seen standby with
      | some (ver, since) =>
          if ttl ≤ w.now - since then some { w with sent := ver :: w.sent } else none
      | none => none
  | .takeOver i => if w.sent[i]? = some w.version then some (w.write w.version) else none

end Watch

end Aikoql.Replication
