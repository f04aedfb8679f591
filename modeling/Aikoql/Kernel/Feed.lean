import Aikoql.Kernel.Object
import Aikoql.Lib.MergeMaps
import Mathlib.Data.List.Basic

/-!
# The Change Feed

Subscribers, their cursors, and the events they are told.

A commit writes its events and tells them to the live subscribers one after the other,
with the pipe locked. A subscriber that was away replays the journal behind the last event it
acknowledged, which is its cursor. Cursors are among the rows, and in memory.

On a standby the journal is written by the replication stream. `catchUp` reads the head of
the journal and the position the kernel has reached, scans the events between them, moves
the position and tells the events. Each of these is a step by itself, and any number of
threads may be somewhere in between. Subscriptions of a standby are not stored.

The machine keeps a few numbers that the program does not have: the last event that was
told, where a subscriber started, and the highest event that was acknowledged under each
name. The last starts with the cursor of the subscription.
-/

namespace Aikoql.Kernel

open List

/-! ## Subscriptions -/

structure EventFilter where
  koid : Option Koid
  kinds : Option (List EventKind)
  deriving DecidableEq

def EventFilter.matches (f : EventFilter) (ke : KnowledgeEvent) : Bool :=
  (f.koid.all fun koid => koid = ke.koid) && f.kinds.all fun kinds => ke.kind ∈ kinds

/-- A subscription as it is stored. -/
structure SubscriptionRecord where
  filter : EventFilter
  lastSeq : Nat
  deriving DecidableEq

/-- A live subscriber, with what its channel was sent. `since` is the last event that had
    been told when it subscribed, and `start` the last one in the journal. -/
structure ActiveSub where
  filter : EventFilter
  received : List KnowledgeEvent
  connected : Bool
  since : Nat
  start : Nat

def ActiveSub.notify (sub : ActiveSub) (ke : KnowledgeEvent) : Option ActiveSub :=
  if sub.filter.matches ke then
    if sub.connected then some { sub with received := sub.received ++ [ke] } else none
  else some sub

def broadcast (active : Std.ExtTreeMap Text ActiveSub) (ke : KnowledgeEvent) :
    Std.ExtTreeMap Text ActiveSub :=
  active.filterMap fun _ sub => sub.notify ke

/-! ## The machine -/

/-- How far a call that catches up has come: it has read the head of the journal, compared
    it with the position `base`, scanned the events behind it, and moved the position. -/
inductive CatchUp where
  | headRead (head : Nat)
  | compared (head base : Nat)
  | scanned (head base : Nat) (events : List KnowledgeEvent)
  | moved (head base : Nat) (events : List KnowledgeEvent)

/-- A kernel with its journal and its subscribers. `sending` are the events of a commit
    that are not told yet; the pipe is locked until there are none. -/
structure Feed where
  journal : List KnowledgeEvent
  rows : Std.ExtTreeMap Text SubscriptionRecord
  standby : Bool
  seq : Nat
  sending : List KnowledgeEvent
  active : Std.ExtTreeMap Text ActiveSub
  persisted : Std.ExtTreeMap Text SubscriptionRecord
  calls : Std.ExtTreeMap Nat CatchUp
  announced : Nat
  acked : Std.ExtTreeMap Text Nat

/-- A kernel opened on an empty engine. -/
def Feed.initial (standby : Bool) : Feed :=
  ⟨[], ∅, standby, 0, [], ∅, ∅, ∅, 0, ∅⟩

def numbered : Nat → List KnowledgeEvent → List KnowledgeEvent
  | _, [] => []
  | n, ke :: kes => { ke with seq := n + 1 } :: numbered (n + 1) kes

inductive FeedEvent where
  | commit (kes : List KnowledgeEvent) (taken : Bool)
  | send
  | replicate (kes : List KnowledgeEvent)
  | subscribe (id : Text) (filter : EventFilter) (taken : Bool)
  | unsubscribe (id : Text) (taken : Bool)
  | hangUp (id : Text)
  | ack (id : Text) (seq : Nat) (taken : Bool)
  | readHead (thread : Nat)
  | compare (thread : Nat)
  | scan (thread : Nat)
  | move (thread : Nat)
  | announce (thread : Nat)
  | reopen (standby : Bool)

def Feed.scanEventsAfter (sys : Feed) (seq : Nat) : List KnowledgeEvent :=
  sys.journal.filter fun ke => seq < ke.seq

def Feed.replay (sys : Feed) (id : Text) : Option (List KnowledgeEvent) :=
  sys.persisted[id]?.map fun record =>
    (sys.scanEventsAfter record.lastSeq).filter record.filter.matches

/-- Whether a subscription is written: a standby keeps it in memory, and a write may
    fail. -/
def Feed.writes (sys : Feed) (taken : Bool) : Bool :=
  !sys.standby && taken

/-- Whether storing a subscription succeeds. -/
def Feed.persists (sys : Feed) (taken : Bool) : Bool :=
  sys.standby || taken

/-- Subscribe under a name. A name that is known keeps its cursor. -/
def Feed.subscribe (sys : Feed) (id : Text) (filter : EventFilter) (taken : Bool) : Feed :=
  let lastSeq := (sys.persisted[id]?.map SubscriptionRecord.lastSeq).getD sys.journal.length
  let record : SubscriptionRecord := ⟨filter, lastSeq⟩
  if sys.persists taken then
    { sys with
      rows := if sys.writes taken then sys.rows.insert id record else sys.rows
      persisted := sys.persisted.insert id record
      active := sys.active.insert id ⟨filter, [], true, sys.announced, sys.journal.length⟩
      acked := if sys.persisted[id]?.isSome then sys.acked else sys.acked.insert id lastSeq }
  else sys

def Feed.unsubscribe (sys : Feed) (id : Text) (taken : Bool) : Feed :=
  { sys with
    rows := if sys.writes taken then sys.rows.erase id else sys.rows
    persisted := sys.persisted.erase id
    active := sys.active.erase id
    acked := sys.acked.erase id }

/-- Acknowledge an event. The cursor in memory moves before the row is written, and if that
    fails the caller is told that the event is not acknowledged. -/
def Feed.ack (sys : Feed) (id : Text) (seq : Nat) (taken : Bool) : Feed :=
  match sys.persisted[id]? with
  | none => sys
  | some record =>
    let record := { record with lastSeq := seq }
    { sys with
      rows := if sys.writes taken then sys.rows.insert id record else sys.rows
      persisted := sys.persisted.insert id record
      acked := if sys.persists taken then
          sys.acked.insert id (max (sys.acked[id]?.getD 0) seq)
        else sys.acked }

/-- Close the kernel, however far its threads have come, and open it again. -/
def Feed.reopen (sys : Feed) (standby : Bool) : Feed :=
  { sys with
    standby := standby
    seq := sys.journal.length
    sending := []
    active := ∅
    persisted := sys.rows
    calls := ∅
    announced := sys.journal.length
    acked := sys.rows.map fun id record => sys.acked[id]?.getD record.lastSeq }

def Feed.catchUp (sys : Feed) (thread : Nat) (e : FeedEvent) (call : CatchUp) : Option Feed :=
  match e, call with
  | .compare _, .headRead head =>
    -- The position is read with the pipe locked.
    if sys.sending = [] then
      some { sys with
        calls := if head ≤ sys.seq then sys.calls.erase thread
          else sys.calls.insert thread (.compared head sys.seq) }
    else none
  | .scan _, .compared head base =>
    some { sys with
      calls := sys.calls.insert thread (.scanned head base (sys.scanEventsAfter base)) }
  | .move _, .scanned head base events =>
    if sys.sending = [] then
      some { sys with seq := head, calls := sys.calls.insert thread (.moved head base events) }
    else none
  | .announce _, .moved head _ events =>
    some { sys with
      active := (events.filter fun ke => ke.seq ≤ head).foldl broadcast sys.active
      calls := sys.calls.erase thread
      announced := head }
  | _, _ => none

def Feed.step (sys : Feed) (e : FeedEvent) : Option Feed :=
  match e with
  | .commit kes taken =>
    if sys.standby = false ∧ sys.sending = [] ∧ kes ≠ [] then
      some (if taken then
        { sys with
          journal := sys.journal ++ numbered sys.seq kes
          seq := sys.seq + kes.length
          sending := numbered sys.seq kes }
      else sys)
    else none
  | .send =>
    match sys.sending with
    | [] => none
    | ke :: kes =>
      some { sys with
        sending := kes
        active := broadcast sys.active ke
        announced := ke.seq }
  | .replicate kes =>
    if sys.standby then
      some { sys with journal := sys.journal ++ numbered sys.journal.length kes }
    else none
  | .subscribe id filter taken => some (sys.subscribe id filter taken)
  | .unsubscribe id taken => some (sys.unsubscribe id taken)
  | .hangUp id =>
    sys.active[id]?.map fun sub =>
      { sys with active := sys.active.insert id { sub with connected := false } }
  | .ack id seq taken => some (sys.ack id seq taken)
  | .readHead thread =>
    if sys.calls[thread]?.isNone then
      some (if sys.journal = [] then sys
        else { sys with calls := sys.calls.insert thread (.headRead sys.journal.length) })
    else none
  | .compare thread | .scan thread | .move thread | .announce thread =>
    sys.calls[thread]?.bind fun call => sys.catchUp thread e call
  | .reopen standby => some (sys.reopen standby)

/-! ## Positions -/

def segment (journal : List KnowledgeEvent) (a b : Nat) : List KnowledgeEvent :=
  (journal.take b).drop a

def NumberedFrom : Nat → List KnowledgeEvent → Prop
  | _, [] => True
  | n, ke :: kes => ke.seq = n + 1 ∧ NumberedFrom (n + 1) kes

section

variable {journal kes : List KnowledgeEvent} {n a b c : Nat}

theorem numberedFrom_numbered (n : Nat) (kes : List KnowledgeEvent) :
    NumberedFrom n (numbered n kes) := by
  induction kes generalizing n with
  | nil => trivial
  | cons ke kes ih => exact ⟨rfl, ih (n + 1)⟩

theorem length_numbered (n : Nat) (kes : List KnowledgeEvent) :
    (numbered n kes).length = kes.length := by
  induction kes generalizing n with
  | nil => rfl
  | cons ke kes ih => rw [numbered, length_cons, length_cons, ih]

theorem NumberedFrom.append (h : NumberedFrom n journal)
    (h' : NumberedFrom (n + journal.length) kes) : NumberedFrom n (journal ++ kes) := by
  induction journal generalizing n with
  | nil => exact h'
  | cons ke journal ih =>
    refine ⟨h.1, ih h.2 ?_⟩
    rw [length_cons] at h'
    rwa [Nat.add_right_comm, Nat.add_assoc]

theorem NumberedFrom.seq_get (h : NumberedFrom n journal) {i : Nat} {ke : KnowledgeEvent}
    (hi : journal[i]? = some ke) : ke.seq = n + i + 1 := by
  induction journal generalizing n i with
  | nil => simp at hi
  | cons first journal ih =>
    cases i with
    | zero =>
      cases hi
      exact h.1
    | succ i =>
      have hseq := ih h.2 hi
      omega

theorem NumberedFrom.segment_eq_filter (h : NumberedFrom n journal) (a b : Nat) :
    segment journal (a - n) (b - n)
      = journal.filter fun ke => decide (a < ke.seq) && decide (ke.seq ≤ b) := by
  unfold segment
  induction journal generalizing n with
  | nil => simp
  | cons ke journal ih =>
    have hseq : ke.seq = n + 1 := h.1
    have hrest := ih h.2
    rw [filter_cons, hseq, ← hrest]
    by_cases hb : n + 1 ≤ b
    · have hb' : b - n = b - (n + 1) + 1 := by omega
      rw [hb', take_succ_cons]
      by_cases ha : a ≤ n
      · have ha₀ : a - n = 0 := by omega
        have ha₁ : a - (n + 1) = 0 := by omega
        simp [ha₀, ha₁, hb, Nat.lt_succ_iff.mpr ha]
      · have ha' : a - n = a - (n + 1) + 1 := by omega
        have hnot : ¬a < n + 1 := by omega
        rw [ha', drop_succ_cons]
        simp [hnot]
    · have hb₀ : b - n = 0 := by omega
      have hb₁ : b - (n + 1) = 0 := by omega
      simp [hb₀, hb₁, hb]

theorem segment_self : segment journal a a = [] := by
  rw [segment, drop_eq_nil_iff]
  exact length_take_le a journal

theorem segment_append (hb : b ≤ journal.length) (kes : List KnowledgeEvent) :
    segment (journal ++ kes) a b = segment journal a b := by
  rw [segment, segment, take_append_of_le_length hb]

theorem segment_succ {ke : KnowledgeEvent} (hke : journal[b]? = some ke) (hab : a ≤ b) :
    segment journal a (b + 1) = segment journal a b ++ [ke] := by
  have hlt := (List.getElem?_eq_some_iff.mp hke).1
  rw [segment, segment, take_add_one, hke, Option.toList_some, drop_append_of_le_length]
  rw [length_take]
  omega

theorem eq_of_segment_cons {ke : KnowledgeEvent} (h : ke :: kes = segment journal a b) :
    journal[a]? = some ke ∧ kes = segment journal (a + 1) b ∧ a < b := by
  have hlt : a < b := by
    by_contra hge
    have hnil : segment journal a b = [] := by
      rw [segment, drop_eq_nil_iff, length_take]
      omega
    rw [hnil] at h
    cases h
  have hget : (segment journal a b)[0]? = some ke := by rw [← h]; rfl
  rw [segment, getElem?_drop, Nat.add_zero, getElem?_take_of_lt hlt] at hget
  refine ⟨hget, ?_, hlt⟩
  have htail := congrArg List.tail h
  rw [tail_cons, segment, tail_drop] at htail
  exact htail

end

end Aikoql.Kernel
