import Aikoql.Kernel.Feed
import Aikoql.Lib.Runs

/-!
# Change Feed

Whether subscribers are told everything once, and where a replay starts.

A commit tells its events while it holds the pipe, so on a primary they come in order and
once. A call that catches up compares the head of the journal with the position, and moves
the position later. Two such calls that overlap tell the same events twice, or the later
events first, and the slower one moves the position back (`feed_wrong`).

An acknowledgement sets the cursor to whatever event it names, so one that comes late
moves the cursor back and the next replay repeats what was acknowledged. The cursor in
memory moves even if the row cannot be written.

If every acknowledgement is of an event behind the cursor and is stored, and a call that
catches up moves the position only if it still is where it was and everything up to
it has been told, then subscribers are told all events in order and once, cursors do
not move back, and a replay is of the events behind the highest that was acknowledged.

## Main definitions

* `Feed.Told`: Subscribers were sent what matches, in order and once.
* `Feed.CursorsKept`: No cursor moves back.
* `Feed.ReplaysRest`: A replay is of what was not acknowledged.
* `Orderly`: The steps that keep all this.

## Main theorems

* `feed_exact`: The feed in every run of orderly steps.
* `ChangeFeed.feed_wrong`: What steps out of order do to it.
-/

namespace Aikoql.Kernel

open List Std.ExtTreeMap Option

variable {events : List FeedEvent} {e : FeedEvent} {id : Text} {taken : Bool}

/-! ## What is promised -/

/-- A call has moved the position and has not told its events yet. -/
def CatchUp.isMoved : CatchUp → Bool
  | .moved _ _ _ => true
  | _ => false

/-- Nobody is telling events. -/
def Feed.quiet (sys : Feed) : Prop :=
  sys.sending = [] ∧ ∀ c ∈ sys.calls.toList, c.2.isMoved = false

/-- Every connected subscriber was sent the events that match and were told since it
    subscribed, in order and once. Events that come into the journal after it subscribed
    are among them once they are told, and when nobody is telling events all up to
    the position are. On a primary the position is the end of the journal. -/
def Feed.Told (sys : Feed) : Prop :=
  (∀ (id : Text) (sub : ActiveSub), sys.active[id]? = some sub → sub.connected = true →
      sub.since ≤ sub.start ∧
      sub.received = sys.journal.filter fun ke =>
        decide (sub.since < ke.seq) && decide (ke.seq ≤ sys.announced) && sub.filter.matches ke) ∧
    (sys.quiet → sys.announced = sys.seq) ∧
    (sys.standby = false → sys.seq = sys.journal.length)

/-- No cursor moves back, in memory or among the rows. -/
def Feed.CursorsKept (sys sys' : Feed) : Prop :=
  ∀ (id : Text) (old new : SubscriptionRecord),
    (sys.persisted[id]? = some old → sys'.persisted[id]? = some new → old.lastSeq ≤ new.lastSeq) ∧
    (sys.persisted[id]?.isSome = true → sys.rows[id]? = some old → sys'.rows[id]? = some new →
      old.lastSeq ≤ new.lastSeq)

/-- A replay is of the events that match behind the highest one that was acknowledged. -/
def Feed.ReplaysRest (sys : Feed) : Prop :=
  ∀ (id : Text) (record : SubscriptionRecord), sys.persisted[id]? = some record →
    ∃ n, sys.acked[id]? = some n ∧ sys.replay id
      = some (sys.journal.filter fun ke => decide (n < ke.seq) && record.filter.matches ke)

/-! ## The condition -/

/-- The position a call was compared with, when it has scanned the events behind it. -/
def CatchUp.scannedFrom : CatchUp → Option Nat
  | .scanned _ base _ => some base
  | _ => none

/-- An acknowledgement is of an event that is not before the cursor, and it is stored. A
    call that catches up moves the position if it still is the one it was compared with and
    no other call has events to tell. A kernel that is closed has stored its
    subscriptions. -/
def Orderly (sys : Feed) : FeedEvent → Prop
  | .ack id seq taken =>
    sys.persists taken = true ∧ ∀ record ∈ sys.persisted[id]?, record.lastSeq ≤ seq
  | .move thread =>
    (∀ call ∈ sys.calls[thread]?, ∀ base ∈ call.scannedFrom, sys.seq = base) ∧
      ∀ c ∈ sys.calls.toList, c.2.isMoved = false
  | .reopen _ => ∀ row ∈ sys.persisted.toList, sys.rows[row.1]? = some row.2
  | _ => True

instance (sys : Feed) (e : FeedEvent) : Decidable (Orderly sys e) :=
  match e with
  | .ack _ _ _ => inferInstanceAs (Decidable (_ ∧ ∀ _ ∈ sys.persisted[_]?, _))
  | .move thread => inferInstanceAs
      (Decidable ((∀ call ∈ sys.calls[thread]?, ∀ base ∈ call.scannedFrom, sys.seq = base) ∧ _))
  | .reopen _ => inferInstanceAs (Decidable (∀ _ ∈ sys.persisted.toList, _))
  | .commit _ _ | .send | .replicate _ | .subscribe _ _ _ | .unsubscribe _ _ | .hangUp _
  | .readHead _ | .compare _ | .scan _ | .announce _ => .isTrue trivial

/-! ## Subscribers -/

/-- Every connected subscriber was sent what matches of the events told since it subscribed. -/
def SubscribersTold (journal : List KnowledgeEvent) (announced : Nat)
    (active : Std.ExtTreeMap Text ActiveSub) : Prop :=
  ∀ (id : Text) (sub : ActiveSub), active[id]? = some sub →
    sub.since ≤ announced ∧ sub.since ≤ sub.start ∧ (sub.connected = true →
        sub.received = (segment journal sub.since announced).filter sub.filter.matches)

section

variable {journal kes : List KnowledgeEvent} {announced : Nat}
  {active : Std.ExtTreeMap Text ActiveSub}

section

variable (h : SubscribersTold journal announced active)
include h

theorem SubscribersTold.append (hle : announced ≤ journal.length) (kes : List KnowledgeEvent) :
    SubscribersTold (journal ++ kes) announced active := by
  intro id sub hsub
  rw [segment_append hle]
  exact h id sub hsub

theorem SubscribersTold.insert {id : Text} {sub : ActiveSub}
    (hsub : sub.since ≤ announced ∧ sub.since ≤ sub.start ∧ (sub.connected = true →
        sub.received = (segment journal sub.since announced).filter sub.filter.matches)) :
    SubscribersTold journal announced (active.insert id sub) := by
  intro id' sub' hsub'
  rcases getElem?_insert_cases hsub' with ⟨-, rfl⟩ | ⟨-, hsub'⟩
  · exact hsub
  · exact h id' sub' hsub'

theorem SubscribersTold.erase (id : Text) : SubscribersTold journal announced (active.erase id) :=
  fun id' sub hsub => h id' sub (getElem?_erase_cases hsub).2

theorem SubscribersTold.broadcast {ke : KnowledgeEvent} (hke : journal[announced]? = some ke) :
    SubscribersTold journal (announced + 1) (broadcast active ke) := by
  intro id sub' hsub'
  rw [Kernel.broadcast, getElem?_filterMap'] at hsub'
  obtain ⟨sub, hsub, hnotify⟩ := bind_eq_some_iff.mp hsub'
  obtain ⟨hsince, hstart, hreceived⟩ := h id sub hsub
  have hnext : (segment journal sub.since (announced + 1)).filter sub.filter.matches
      = (segment journal sub.since announced).filter sub.filter.matches ++
        [ke].filter sub.filter.matches := by
    rw [segment_succ hke hsince, filter_append]
  unfold ActiveSub.notify at hnotify
  by_cases hmatch : sub.filter.matches ke = true
  · rw [if_pos hmatch] at hnotify
    by_cases hconn : sub.connected = true
    · rw [if_pos hconn] at hnotify
      cases hnotify
      refine ⟨by dsimp only; omega, hstart, fun _ => ?_⟩
      dsimp only
      rw [hnext, hreceived hconn, filter_cons_of_pos hmatch, filter_nil]
    · rw [if_neg hconn] at hnotify
      cases hnotify
  · rw [if_neg hmatch] at hnotify
    cases hnotify
    refine ⟨by omega, hstart, fun hconn => ?_⟩
    rw [hnext, hreceived hconn, filter_cons_of_neg hmatch, filter_nil, append_nil]

theorem SubscribersTold.broadcasts {b : Nat} (hkes : kes = segment journal announced b)
    (hb : announced ≤ b) (hlen : b ≤ journal.length) :
    SubscribersTold journal b (kes.foldl Kernel.broadcast active) := by
  induction kes generalizing announced active with
  | nil =>
    have hlength := congrArg List.length hkes
    rw [segment, length_nil, length_drop, length_take] at hlength
    obtain rfl : announced = b := by omega
    exact h
  | cons ke kes ih =>
    obtain ⟨hke, hrest, hlt⟩ := eq_of_segment_cons hkes
    exact ih (h.broadcast hke) hrest hlt

end

end

/-! ## The invariant -/

def CatchUp.Sound (journal : List KnowledgeEvent) : CatchUp → Prop
  | .headRead head => head ≤ journal.length
  | .compared head base => base < head ∧ head ≤ journal.length
  | .scanned head base events | .moved head base events =>
    base < head ∧ head ≤ journal.length ∧
      (events.filter fun ke => ke.seq ≤ head) = segment journal base head

structure Feed.Sound (sys : Feed) : Prop where
  inOrder : NumberedFrom 0 sys.journal
  announced_le : sys.announced ≤ sys.seq
  seq_le : sys.seq ≤ sys.journal.length
  primary : sys.standby = false → sys.seq = sys.journal.length
  standby : sys.standby = true → sys.sending = []
  unsent : (∀ c ∈ sys.calls.toList, c.2.isMoved = false) →
    sys.sending = segment sys.journal sys.announced sys.seq
  calls : ∀ (thread : Nat) (call : CatchUp), sys.calls[thread]? = some call →
    call.Sound sys.journal ∧ (sys.standby = false → ∃ head, call = .headRead head)
  moved : ∀ (thread head base : Nat) (events : List KnowledgeEvent),
    sys.calls[thread]? = some (.moved head base events) → base = sys.announced ∧ head = sys.seq ∧
      ∀ (other : Nat) (call : CatchUp), sys.calls[other]? = some call → call.isMoved = true →
        other = thread
  active : SubscribersTold sys.journal sys.announced sys.active
  cursors : ∀ id : Text, sys.acked[id]? = sys.persisted[id]?.map SubscriptionRecord.lastSeq
  stored : sys.standby = false → ∀ (id : Text) (record : SubscriptionRecord),
    sys.persisted[id]? = some record → sys.rows[id]? = some record

theorem Feed.Sound.initial (standby : Bool) : (Feed.initial standby).Sound where
  inOrder := trivial
  announced_le := Nat.le_refl 0
  seq_le := Nat.le_refl 0
  primary := fun _ => rfl
  standby := fun _ => rfl
  unsent := fun _ => rfl
  calls := by simp [Feed.initial]
  moved := by simp [Feed.initial]
  active := by simp [SubscribersTold, Feed.initial]
  cursors := by simp [Feed.initial]
  stored := by simp [Feed.initial]

section

variable {sys sys' : Feed} {thread : Nat} {call : CatchUp} {journal : List KnowledgeEvent}

theorem forall_isMoved_iff {calls : Std.ExtTreeMap Nat CatchUp} :
    (∀ c ∈ calls.toList, c.2.isMoved = false) ↔
      ∀ (thread : Nat) (call : CatchUp), calls[thread]? = some call → call.isMoved = false := by
  constructor
  · intro h thread call hcall
    exact h (thread, call) (mem_toList_iff_getElem?_eq_some.mpr hcall)
  · intro h c hc
    exact h c.1 c.2 (mem_toList_iff_getElem?_eq_some.mp hc)

theorem CatchUp.Sound.append (h : call.Sound journal) (kes : List KnowledgeEvent) :
    call.Sound (journal ++ kes) := by
  have hlen : journal.length ≤ (journal ++ kes).length := by simp
  cases call with
  | headRead head => exact Nat.le_trans h hlen
  | compared head base => exact ⟨h.1, Nat.le_trans h.2 hlen⟩
  | scanned | moved =>
    exact ⟨h.1, Nat.le_trans h.2.1 hlen, h.2.2.trans (segment_append h.2.1 kes).symm⟩

theorem Feed.Sound.none_moved (h : sys.Sound) (hprimary : sys.standby = false) :
    ∀ c ∈ sys.calls.toList, c.2.isMoved = false := by
  refine forall_isMoved_iff.mpr fun thread call hcall => ?_
  obtain ⟨head, rfl⟩ := (h.calls thread call hcall).2 hprimary
  rfl

theorem Feed.Sound.standby_of_call (h : sys.Sound) (hcall : sys.calls[thread]? = some call)
    (hread : ∀ head, call ≠ .headRead head) : sys.standby = true := by
  by_contra hprimary
  obtain ⟨head, rfl⟩ := (h.calls thread call hcall).2 (Bool.not_eq_true _ ▸ hprimary)
  exact hread head rfl

theorem Feed.Sound.announced_eq (h : sys.Sound) (hquiet : sys.quiet) : sys.announced = sys.seq := by
  have hunsent := congrArg List.length (h.unsent hquiet.2)
  have hannounced := h.announced_le
  have hseq := h.seq_le
  rw [hquiet.1, segment, length_nil, length_drop, length_take] at hunsent
  omega

/-! ## Steps -/

section

variable (h : sys.Sound)
include h

theorem Feed.Sound.commit (hprimary : sys.standby = false) (hidle : sys.sending = [])
    (kes : List KnowledgeEvent) :
    Feed.Sound { sys with
      journal := sys.journal ++ numbered sys.seq kes
      seq := sys.seq + kes.length
      sending := numbered sys.seq kes } := by
  have hseq := h.primary hprimary
  have hannounced := h.announced_eq ⟨hidle, h.none_moved hprimary⟩
  have hlen : (sys.journal ++ numbered sys.seq kes).length = sys.seq + kes.length := by
    rw [length_append, length_numbered, hseq]
  exact { h with
    inOrder := by
      refine h.inOrder.append ?_
      rw [Nat.zero_add, ← hseq]
      exact numberedFrom_numbered sys.seq kes
    announced_le := Nat.le_add_right_of_le h.announced_le
    seq_le := Nat.le_of_eq hlen.symm
    primary := fun _ => hlen.symm
    standby := fun hstandby => nomatch hprimary.symm.trans hstandby
    unsent := by
      intro _
      -- The new events are those behind the old end.
      dsimp only
      rw [segment, hannounced, ← hlen, take_length, hseq, drop_left]
    calls := by
      intro thread call hcall
      obtain ⟨hsound, hread⟩ := h.calls thread call hcall
      exact ⟨hsound.append _, hread⟩
    moved := by
      intro thread head base events hcall
      obtain ⟨_, hread⟩ := (h.calls thread _ hcall).2 hprimary
      cases hread
    active := h.active.append (Nat.le_trans h.announced_le h.seq_le) _ }

theorem Feed.Sound.send {ke : KnowledgeEvent} {kes : List KnowledgeEvent}
    (hsending : sys.sending = ke :: kes) :
    Feed.Sound { sys with
      sending := kes
      active := broadcast sys.active ke
      announced := ke.seq } := by
  have hprimary : sys.standby = false := by
    by_contra hstandby
    rw [h.standby (Bool.not_eq_false _ ▸ hstandby)] at hsending
    cases hsending
  have hunsent := h.unsent (h.none_moved hprimary)
  rw [hsending] at hunsent
  obtain ⟨hke, hrest, hlt⟩ := eq_of_segment_cons hunsent
  have hseq : ke.seq = sys.announced + 1 := by
    have hnumber := h.inOrder.seq_get hke
    omega
  rw [hseq]
  exact { h with
    announced_le := hlt
    standby := fun hstandby => nomatch hprimary.symm.trans hstandby
    unsent := fun _ => hrest
    active := h.active.broadcast hke
    moved := by
      intro thread head base events hcall
      obtain ⟨_, hread⟩ := (h.calls thread _ hcall).2 hprimary
      cases hread }

theorem Feed.Sound.replicate (hstandby : sys.standby = true) (kes : List KnowledgeEvent) :
    Feed.Sound { sys with journal := sys.journal ++ numbered sys.journal.length kes } :=
  { h with
    inOrder := by
      refine h.inOrder.append ?_
      rw [Nat.zero_add]
      exact numberedFrom_numbered _ kes
    seq_le := by
      have hseq := h.seq_le
      dsimp only
      rw [length_append]
      omega
    primary := fun hprimary => nomatch hprimary.symm.trans hstandby
    unsent := by
      intro hnone
      dsimp only
      rw [segment_append h.seq_le]
      exact h.unsent hnone
    calls := by
      intro thread call hcall
      obtain ⟨hsound, hread⟩ := h.calls thread call hcall
      exact ⟨hsound.append _, hread⟩
    active := h.active.append (Nat.le_trans h.announced_le h.seq_le) _ }

theorem Feed.Sound.withSubscriptions {active : Std.ExtTreeMap Text ActiveSub}
    {persisted rows : Std.ExtTreeMap Text SubscriptionRecord} {acked : Std.ExtTreeMap Text Nat}
    (hactive : SubscribersTold sys.journal sys.announced active)
    (hcursors : ∀ id : Text, acked[id]? = persisted[id]?.map SubscriptionRecord.lastSeq)
    (hstored : sys.standby = false → ∀ (id : Text) (record : SubscriptionRecord),
      persisted[id]? = some record → rows[id]? = some record) :
    Feed.Sound { sys with
      rows := rows
      active := active
      persisted := persisted
      acked := acked } :=
  { h with active := hactive, cursors := hcursors, stored := hstored }

theorem Feed.Sound.withCalls {calls : Std.ExtTreeMap Nat CatchUp}
    (hcalls : ∀ (thread : Nat) (call : CatchUp), calls[thread]? = some call →
      call.Sound sys.journal ∧ (sys.standby = false → ∃ head, call = .headRead head))
    (hmoved : ∀ (thread : Nat) (call : CatchUp), call.isMoved = true →
      (calls[thread]? = some call ↔ sys.calls[thread]? = some call)) :
    Feed.Sound { sys with calls := calls } :=
  { h with
    unsent := by
      intro hnone
      refine h.unsent (forall_isMoved_iff.mpr fun thread call hcall => ?_)
      by_contra hmove
      rw [Bool.not_eq_false] at hmove
      have hcall' := (hmoved thread call hmove).mpr hcall
      rw [forall_isMoved_iff.mp hnone thread call hcall'] at hmove
      cases hmove
    calls := hcalls
    moved := by
      intro thread head base events hcall
      obtain ⟨hbase, hhead, hothers⟩ := h.moved thread head base events ((hmoved _ _ rfl).mp hcall)
      refine ⟨hbase, hhead, ?_⟩
      intro other call hother hmove
      exact hothers other call ((hmoved other call hmove).mp hother) hmove }

theorem Feed.Sound.stored_insert (hprimary : sys.standby = false) {id' : Text}
    {record record' : SubscriptionRecord}
    (hrecord : (sys.persisted.insert id record)[id']? = some record') :
    (sys.rows.insert id record)[id']? = some record' := by
  rcases getElem?_insert_cases hrecord with ⟨rfl, rfl⟩ | ⟨hid, hrecord⟩
  · exact getElem?_insert_self
  · rw [getElem?_insert_eq, if_neg hid]
    exact h.stored hprimary id' record' hrecord

end

theorem Feed.writes_eq (hpersists : sys.persists taken = true) (hprimary : sys.standby = false) :
    sys.writes taken = true := by
  simp_all [Feed.writes, Feed.persists]

section

variable (h : sys.Sound)
include h

theorem Feed.Sound.subscribe (id : Text) (filter : EventFilter) (taken : Bool) :
    (sys.subscribe id filter taken).Sound := by
  unfold Feed.subscribe
  by_cases hpersists : sys.persists taken = true
  · rw [if_pos hpersists]
    refine h.withSubscriptions ?_ ?_ ?_
    · refine h.active.insert ⟨Nat.le_refl _, Nat.le_trans h.announced_le h.seq_le, fun _ => ?_⟩
      dsimp only
      rw [segment_self, filter_nil]
    · intro id'
      rw [getElem?_insert_eq]
      by_cases hid : id = id'
      · subst hid
        rw [if_pos rfl]
        have hcursor := h.cursors id
        cases hknown : sys.persisted[id]? with
        | none => simp
        | some record =>
          rw [hknown] at hcursor
          simpa using hcursor
      · rw [if_neg hid, ← h.cursors id']
        split
        · rfl
        · rw [getElem?_insert_eq, if_neg hid]
    · intro hprimary id' record hrecord
      rw [if_pos (Feed.writes_eq hpersists hprimary)]
      exact h.stored_insert hprimary hrecord
  · rw [if_neg hpersists]
    exact h

theorem Feed.Sound.unsubscribe (id : Text) (taken : Bool) : (sys.unsubscribe id taken).Sound := by
  unfold Feed.unsubscribe
  refine h.withSubscriptions (h.active.erase id) ?_ ?_
  · intro id'
    rw [getElem?_erase_eq, getElem?_erase_eq]
    by_cases hid : id = id'
    · rw [if_pos hid, if_pos hid]
      rfl
    · rw [if_neg hid, if_neg hid]
      exact h.cursors id'
  · intro hprimary id' record hrecord
    obtain ⟨hid, hrecord⟩ := getElem?_erase_cases hrecord
    have hrow := h.stored hprimary id' record hrecord
    split
    · rw [getElem?_erase_eq, if_neg hid]
      exact hrow
    · exact hrow

theorem Feed.Sound.hangUp {sub : ActiveSub} (hsub : sys.active[id]? = some sub) :
    Feed.Sound { sys with active := sys.active.insert id { sub with connected := false } } := by
  obtain ⟨hsince, hstart, -⟩ := h.active id sub hsub
  refine h.withSubscriptions (h.active.insert ⟨hsince, hstart, ?_⟩) h.cursors h.stored
  intro hconn
  cases hconn

theorem Feed.Sound.ack {seq : Nat} (horderly : Orderly sys (.ack id seq taken)) :
    (sys.ack id seq taken).Sound := by
  obtain ⟨hpersists, hforward⟩ := horderly
  unfold Feed.ack
  cases hknown : sys.persisted[id]? with
  | none => exact h
  | some record =>
    have hcursor := h.cursors id
    rw [hknown] at hcursor
    have hle : record.lastSeq ≤ seq := hforward record hknown
    refine h.withSubscriptions h.active ?_ ?_
    · intro id'
      rw [if_pos hpersists, getElem?_insert_eq, getElem?_insert_eq]
      by_cases hid : id = id'
      · rw [if_pos hid, if_pos hid, hcursor]
        exact congrArg some (Nat.max_eq_right hle)
      · rw [if_neg hid, if_neg hid]
        exact h.cursors id'
    · intro hprimary id' record' hrecord
      rw [if_pos (Feed.writes_eq hpersists hprimary)]
      exact h.stored_insert hprimary hrecord

theorem Feed.Sound.setCall (hold : ∀ old ∈ sys.calls[thread]?, old.isMoved = false)
    (hcall : call.Sound sys.journal ∧ (sys.standby = false → ∃ head, call = .headRead head))
    (hmove : call.isMoved = false) :
    Feed.Sound { sys with calls := sys.calls.insert thread call } := by
  refine h.withCalls ?_ ?_
  · intro other call' hother
    rcases getElem?_insert_cases hother with ⟨-, rfl⟩ | ⟨-, hother⟩
    · exact hcall
    · exact h.calls other call' hother
  · intro other call' hmoved
    rw [getElem?_insert_eq]
    by_cases hthread : thread = other
    · subst hthread
      rw [if_pos rfl]
      constructor
      · rintro ⟨⟩
        cases hmove.symm.trans hmoved
      · intro hother
        cases (hold call' hother).symm.trans hmoved
    · rw [if_neg hthread]

theorem Feed.Sound.endCall (hold : ∀ old ∈ sys.calls[thread]?, old.isMoved = false) :
    Feed.Sound { sys with calls := sys.calls.erase thread } := by
  refine h.withCalls ?_ ?_
  · exact fun other call' hother => h.calls other call' (getElem?_erase_cases hother).2
  · intro other call' hmoved
    rw [getElem?_erase_eq]
    by_cases hthread : thread = other
    · subst hthread
      rw [if_pos rfl]
      refine ⟨nofun, fun hother => ?_⟩
      cases (hold call' hother).symm.trans hmoved
    · rw [if_neg hthread]

theorem Feed.Sound.move {head base : Nat} {events : List KnowledgeEvent}
    (hcall : sys.calls[thread]? = some (.scanned head base events)) (hidle : sys.sending = [])
    (hseq : sys.seq = base) (hnone : ∀ c ∈ sys.calls.toList, c.2.isMoved = false) :
    Feed.Sound { sys with
      seq := head
      calls := sys.calls.insert thread (.moved head base events) } := by
  have hsound := (h.calls thread _ hcall).1
  have hstandby := h.standby_of_call hcall (by simp)
  have hannounced := h.announced_eq ⟨hidle, hnone⟩
  -- No other call had moved the position.
  have honly : ∀ (other : Nat) (call : CatchUp),
      (sys.calls.insert thread (.moved head base events))[other]? = some call →
      call.isMoved = true → other = thread ∧ call = .moved head base events := by
    intro other call hother hmove
    rcases getElem?_insert_cases hother with ⟨rfl, rfl⟩ | ⟨-, hother⟩
    · exact ⟨rfl, rfl⟩
    · rw [forall_isMoved_iff.mp hnone other call hother] at hmove
      cases hmove
  exact { h with
    announced_le := by
      have hlt := hsound.1
      dsimp only
      omega
    seq_le := hsound.2.1
    primary := fun hprimary => nomatch hprimary.symm.trans hstandby
    unsent := by
      intro hnone'
      have hmoved := forall_isMoved_iff.mp hnone' thread (.moved head base events)
        getElem?_insert_self
      cases hmoved
    calls := by
      intro other call hother
      rcases getElem?_insert_cases hother with ⟨-, rfl⟩ | ⟨-, hother⟩
      · exact ⟨hsound, fun hprimary => nomatch hprimary.symm.trans hstandby⟩
      · exact h.calls other call hother
    moved := by
      intro other head' base' events' hother
      obtain ⟨rfl, heq⟩ := honly other _ hother rfl
      cases heq
      exact ⟨by rw [hannounced, hseq], rfl, fun other' call' hother' hmove =>
        (honly other' call' hother' hmove).1⟩ }

theorem Feed.Sound.announce {head base : Nat} {events : List KnowledgeEvent}
    (hcall : sys.calls[thread]? = some (.moved head base events)) :
    Feed.Sound { sys with
      active := (events.filter fun ke => ke.seq ≤ head).foldl broadcast sys.active
      calls := sys.calls.erase thread
      announced := head } := by
  have hevents := (h.calls thread _ hcall).1.2.2
  have hstandby := h.standby_of_call hcall (by simp)
  obtain ⟨rfl, rfl, honly⟩ := h.moved thread head base events hcall
  have hothers : ∀ (other : Nat) (call : CatchUp), (sys.calls.erase thread)[other]? = some call →
      sys.calls[other]? = some call ∧ call.isMoved = false := by
    intro other call hother
    obtain ⟨hthread, hother⟩ := getElem?_erase_cases hother
    refine ⟨hother, ?_⟩
    by_contra hmove
    exact hthread (honly other call hother (Bool.not_eq_false _ ▸ hmove)).symm
  exact { h with
    announced_le := Nat.le_refl _
    unsent := by
      intro _
      dsimp only
      rw [segment_self]
      exact h.standby hstandby
    calls := fun other call hother => h.calls other call (hothers other call hother).1
    moved := by
      intro other head' base' events' hother
      have hmove := (hothers other _ hother).2
      cases hmove
    active := h.active.broadcasts hevents h.announced_le h.seq_le }

theorem Feed.Sound.catchUp
    (he : e = .compare thread ∨ e = .scan thread ∨ e = .move thread ∨ e = .announce thread)
    (horderly : Orderly sys e) (hcall : sys.calls[thread]? = some call)
    (hstep : sys.catchUp thread e call = some sys') : sys'.Sound := by
  have hsound := h.calls thread call hcall
  have hold : call.isMoved = false → ∀ old ∈ sys.calls[thread]?, old.isMoved = false := by
    rintro hmove old hold
    cases hcall.symm.trans hold
    exact hmove
  unfold Feed.catchUp at hstep
  split at hstep
  next head =>
    simp only [ite_none_right_eq_some, Option.some.injEq] at hstep
    obtain ⟨-, rfl⟩ := hstep
    have hhead : head ≤ sys.journal.length := hsound.1
    by_cases hle : head ≤ sys.seq
    · rw [if_pos hle]
      exact h.endCall (hold rfl)
    · rw [if_neg hle]
      refine h.setCall (hold rfl) ⟨⟨by omega, hhead⟩, ?_⟩ rfl
      intro hprimary
      have hseq := h.primary hprimary
      omega
  next head base =>
    cases hstep
    obtain ⟨⟨hlt, hlen⟩, hread⟩ := hsound
    refine h.setCall (hold rfl) ⟨⟨hlt, hlen, ?_⟩, ?_⟩ rfl
    · rw [Feed.scanEventsAfter, List.filter_filter]
      have hsegment := h.inOrder.segment_eq_filter base head
      rw [Nat.sub_zero, Nat.sub_zero] at hsegment
      rw [hsegment]
      refine filter_congr fun ke _ => ?_
      rw [Bool.and_comm]
    · intro hprimary
      obtain ⟨_, heq⟩ := hread hprimary
      cases heq
  next other head base events =>
    obtain rfl : other = thread := by simpa using he
    simp only [ite_none_right_eq_some, Option.some.injEq] at hstep
    obtain ⟨hidle, rfl⟩ := hstep
    exact h.move hcall hidle (horderly.1 _ hcall base rfl) horderly.2
  next head base events =>
    cases hstep
    exact h.announce hcall
  next => cases hstep

theorem Feed.Sound.reopen {standby : Bool} (hsaved : Orderly sys (.reopen standby)) :
    (sys.reopen standby).Sound where
  inOrder := h.inOrder
  announced_le := Nat.le_refl _
  seq_le := Nat.le_refl _
  primary := fun _ => rfl
  standby := fun _ => rfl
  unsent := fun _ => segment_self.symm
  calls := by simp [Feed.reopen]
  moved := by simp [Feed.reopen]
  active := by simp [SubscribersTold, Feed.reopen]
  cursors := by
    intro id
    change (sys.rows.map _)[id]? = sys.rows[id]?.map _
    rw [Std.ExtTreeMap.getElem?_map]
    cases hrow : sys.rows[id]? with
    | none => rfl
    | some record =>
      -- What is known under the name is the stored record.
      have hcursor := h.cursors id
      cases hknown : sys.persisted[id]? with
      | none =>
        rw [hknown] at hcursor
        rw [hcursor]
        rfl
      | some known =>
        have hsame := hsaved (id, known) (mem_toList_iff_getElem?_eq_some.mpr hknown)
        rw [hrow] at hsame
        cases hsame
        rw [hknown] at hcursor
        rw [hcursor]
        rfl
  stored := fun _ _ _ hrecord => hrecord

theorem Feed.Sound.step (horderly : Orderly sys e) (hstep : sys.step e = some sys') :
    sys'.Sound := by
  have hcatchUp : ∀ {thread : Nat},
      (e = .compare thread ∨ e = .scan thread ∨ e = .move thread ∨ e = .announce thread) →
      (sys.calls[thread]?.bind fun call => sys.catchUp thread e call) = some sys' →
      sys'.Sound := by
    intro thread he hstep
    obtain ⟨call, hcall, hstep⟩ := bind_eq_some_iff.mp hstep
    exact h.catchUp he horderly hcall hstep
  cases e with
  | commit kes taken =>
    simp only [Feed.step, ite_none_right_eq_some, Option.some.injEq] at hstep
    obtain ⟨⟨hprimary, hidle, -⟩, rfl⟩ := hstep
    cases taken with
    | true => exact h.commit hprimary hidle kes
    | false => exact h
  | send =>
    simp only [Feed.step] at hstep
    split at hstep
    · cases hstep
    · next ke kes hsending =>
        cases hstep
        exact h.send hsending
  | replicate kes =>
    simp only [Feed.step, ite_none_right_eq_some, Option.some.injEq] at hstep
    obtain ⟨hstandby, rfl⟩ := hstep
    exact h.replicate hstandby kes
  | subscribe id filter taken =>
    cases hstep
    exact h.subscribe id filter taken
  | unsubscribe id taken =>
    cases hstep
    exact h.unsubscribe id taken
  | hangUp id =>
    obtain ⟨sub, hsub, rfl⟩ := map_eq_some_iff.mp hstep
    exact h.hangUp hsub
  | ack id seq taken =>
    cases hstep
    exact h.ack horderly
  | readHead thread =>
    simp only [Feed.step, ite_none_right_eq_some, Option.some.injEq] at hstep
    obtain ⟨hfree, rfl⟩ := hstep
    split
    · exact h
    · refine h.setCall (fun old hold => ?_) ⟨Nat.le_refl _, fun _ => ⟨_, rfl⟩⟩ rfl
      cases (isNone_iff_eq_none.mp hfree).symm.trans hold
  | compare thread => exact hcatchUp (.inl rfl) hstep
  | scan thread => exact hcatchUp (.inr (.inl rfl)) hstep
  | move thread => exact hcatchUp (.inr (.inr (.inl rfl))) hstep
  | announce thread => exact hcatchUp (.inr (.inr (.inr rfl))) hstep
  | reopen standby =>
    cases hstep
    exact h.reopen horderly

end

/-! ## What follows -/

theorem Feed.Sound.told (h : sys.Sound) : sys.Told := by
  refine ⟨?_, h.announced_eq, h.primary⟩
  intro id sub hsub hconn
  obtain ⟨-, hstart, hreceived⟩ := h.active id sub hsub
  refine ⟨hstart, ?_⟩
  have hsegment := h.inOrder.segment_eq_filter sub.since sys.announced
  rw [Nat.sub_zero, Nat.sub_zero] at hsegment
  rw [hreceived hconn, hsegment, List.filter_filter]
  exact filter_congr fun ke _ => Bool.and_comm _ _

theorem Feed.Sound.replaysRest (h : sys.Sound) : sys.ReplaysRest := by
  intro id record hrecord
  have hcursor := h.cursors id
  rw [hrecord] at hcursor
  refine ⟨record.lastSeq, hcursor, ?_⟩
  rw [Feed.replay, hrecord, map_some, Feed.scanEventsAfter, List.filter_filter]
  exact congrArg some (filter_congr fun ke _ => Bool.and_comm _ _)

theorem lastSeq_le_of_same {m : Std.ExtTreeMap Text SubscriptionRecord}
    {old new : SubscriptionRecord} (hold : m[id]? = some old) (hnew : m[id]? = some new) :
    old.lastSeq ≤ new.lastSeq :=
  Nat.le_of_eq (congrArg _ (Option.some.inj (hold.symm.trans hnew)))

theorem Feed.cursorsKept_of_eq (hpersisted : sys'.persisted = sys.persisted)
    (hrows : sys'.rows = sys.rows) : sys.CursorsKept sys' := by
  intro id old new
  rw [hpersisted, hrows]
  exact ⟨lastSeq_le_of_same, fun _ => lastSeq_le_of_same⟩

theorem Feed.Sound.cursorsKept_insert (h : sys.Sound) {record : SubscriptionRecord}
    (hpersisted : sys'.persisted = sys.persisted.insert id record)
    (hrows : sys'.rows = if sys.writes taken then sys.rows.insert id record else sys.rows)
    (hle : ∀ old ∈ sys.persisted[id]?, old.lastSeq ≤ record.lastSeq) : sys.CursorsKept sys' := by
  intro id' old new
  rw [hpersisted, hrows]
  by_cases hid : id = id'
  · subst hid
    constructor
    · intro hold hnew
      rw [getElem?_insert_self] at hnew
      cases hnew
      exact hle old hold
    · intro hknown hold hnew
      by_cases hwrites : sys.writes taken = true
      · -- The row is written by a primary, whose rows are what it knows.
        rw [if_pos hwrites, getElem?_insert_self] at hnew
        cases hnew
        have hprimary : sys.standby = false := by
          rw [Feed.writes, Bool.and_eq_true] at hwrites
          simpa using hwrites.1
        obtain ⟨known, hknown⟩ := isSome_iff_exists.mp hknown
        rw [h.stored hprimary id known hknown] at hold
        cases hold
        exact hle old hknown
      · rw [if_neg hwrites] at hnew
        exact lastSeq_le_of_same hold hnew
  · constructor
    · intro hold hnew
      rw [getElem?_insert_eq, if_neg hid] at hnew
      exact lastSeq_le_of_same hold hnew
    · intro _ hold hnew
      refine lastSeq_le_of_same hold ?_
      split at hnew
      · rwa [getElem?_insert_eq, if_neg hid] at hnew
      · exact hnew

theorem Feed.cursorsKept_unsubscribe (sys : Feed) (id : Text) (taken : Bool) :
    sys.CursorsKept (sys.unsubscribe id taken) := by
  have herase : ∀ {m : Std.ExtTreeMap Text SubscriptionRecord} {id' : Text}
      {old new : SubscriptionRecord}, m[id']? = some old → (m.erase id)[id']? = some new →
      old.lastSeq ≤ new.lastSeq := fun hold hnew =>
    lastSeq_le_of_same hold (getElem?_erase_cases hnew).2
  intro id' old new
  refine ⟨herase, fun _ hold hnew => ?_⟩
  unfold Feed.unsubscribe at hnew
  dsimp only at hnew
  split at hnew
  · exact herase hold hnew
  · exact lastSeq_le_of_same hold hnew

theorem Feed.Sound.cursorsKept (h : sys.Sound) (horderly : Orderly sys e)
    (hstep : sys.step e = some sys') : sys.CursorsKept sys' := by
  cases e with
  | commit kes taken =>
    simp only [Feed.step, ite_none_right_eq_some, Option.some.injEq] at hstep
    obtain ⟨-, rfl⟩ := hstep
    cases taken <;> exact Feed.cursorsKept_of_eq rfl rfl
  | send =>
    simp only [Feed.step] at hstep
    split at hstep
    · cases hstep
    · cases hstep
      exact Feed.cursorsKept_of_eq rfl rfl
  | replicate kes =>
    simp only [Feed.step, ite_none_right_eq_some, Option.some.injEq] at hstep
    obtain ⟨-, rfl⟩ := hstep
    exact Feed.cursorsKept_of_eq rfl rfl
  | subscribe id filter taken =>
    cases hstep
    unfold Feed.subscribe
    split
    · refine h.cursorsKept_insert rfl rfl ?_
      intro old hold
      rw [mem_def] at hold
      rw [hold]
      exact Nat.le_refl _
    · exact Feed.cursorsKept_of_eq rfl rfl
  | unsubscribe id taken =>
    cases hstep
    exact Feed.cursorsKept_unsubscribe sys id taken
  | hangUp id =>
    obtain ⟨sub, hsub, rfl⟩ := map_eq_some_iff.mp hstep
    exact Feed.cursorsKept_of_eq rfl rfl
  | ack id seq taken =>
    cases hstep
    unfold Feed.ack
    split
    · exact Feed.cursorsKept_of_eq rfl rfl
    · exact h.cursorsKept_insert rfl rfl horderly.2
  | readHead thread =>
    simp only [Feed.step, ite_none_right_eq_some, Option.some.injEq] at hstep
    obtain ⟨-, rfl⟩ := hstep
    split <;> exact Feed.cursorsKept_of_eq rfl rfl
  | reopen standby =>
    cases hstep
    intro id old new
    constructor
    · intro hold hnew
      have hsame := horderly (id, old) (mem_toList_iff_getElem?_eq_some.mpr hold)
      exact lastSeq_le_of_same hsame hnew
    · exact fun _ hold hnew => lastSeq_le_of_same hold hnew
  | _ =>
    obtain ⟨call, -, hstep⟩ := bind_eq_some_iff.mp hstep
    unfold Feed.catchUp at hstep
    split at hstep
    all_goals try split at hstep
    all_goals cases hstep
    all_goals exact Feed.cursorsKept_of_eq rfl rfl

/-- In every run of orderly steps, subscribers were told the events that match in order and
    once, a replay is of what was not acknowledged, and the next step moves no cursor
    back. -/
theorem feed_exact {standby : Bool}
    (h : Runs.Reaches Feed.step Orderly (Feed.initial standby) sys) :
    sys.Told ∧ sys.ReplaysRest ∧
      ∀ e sys', Orderly sys e → sys.step e = some sys' → sys.CursorsKept sys' := by
  have hsound : sys.Sound := by
    refine h.invariant (Feed.Sound.initial standby) ?_
    intro sys e sys' hsys horderly hstep
    exact hsys.step horderly hstep
  exact ⟨hsound.told, hsound.replaysRest, fun e sys' horderly hstep =>
    hsound.cursorsKept horderly hstep⟩

end

/-! ## Runs of a subscriber -/

namespace ChangeFeed

def about (koid : Koid) : KnowledgeEvent :=
  { seq := 0
    koid := koid
    version := 1
    kind := .created
    origin := .human
    actor := []
    commitTs := 0
    payloadHash := []
    prevAuditHash := []
    auditHash := []
    signature := none
    auditSignature := none
    note := none }

def all : EventFilter := ⟨none, none⟩

def ann : Text := utf8 "ann"

def catchingUp (thread : Nat) : List FeedEvent :=
  [.readHead thread, .compare thread, .scan thread, .move thread, .announce thread]

def inTurn : List FeedEvent :=
  [.subscribe ann ⟨some 1, none⟩ true, .replicate [about 1, about 2]] ++ catchingUp 0 ++
    [.replicate [about 1]] ++ catchingUp 1 ++ [.unsubscribe ann true, .reopen false,
      .subscribe ann all true, .commit [about 1, about 2] true, .send, .send, .ack ann 4 true,
      .ack ann 4 true, .reopen false, .subscribe ann all true, .commit [about 3] true, .send]

def heard (sys : Feed) : Option (List Nat) × Option (List Nat) :=
  (sys.active[ann]?.map fun sub => sub.received.map KnowledgeEvent.seq,
    (sys.replay ann).map fun kes => kes.map KnowledgeEvent.seq)

theorem inTurn_exact : ∃ sys, Runs.run Feed.step (Feed.initial true) inTurn = some sys ∧
      heard sys = (some [6], some [5, 6]) ∧ sys.Told ∧ sys.ReplaysRest := by
  exact Runs.exists_run (P := fun sys => heard sys = (some [6], some [5, 6]))
    (by decide +kernel) (by decide +kernel) fun sys hreach hheard =>
    ⟨hheard, (feed_exact hreach).1, (feed_exact hreach).2.1⟩

def overlapping : List FeedEvent :=
  [.subscribe ann all true, .replicate [about 1], .readHead 0, .compare 0, .readHead 1,
    .compare 1, .scan 0, .move 0, .announce 0, .scan 1, .move 1, .announce 1]

def overtaken : List FeedEvent :=
  [.subscribe ann all true, .replicate [about 1], .readHead 0, .compare 0, .scan 0, .move 0,
    .replicate [about 2]] ++ catchingUp 1 ++ [.announce 0]

def ackedLate : List FeedEvent :=
  [.subscribe ann all true, .commit [about 1, about 2] true, .send, .send, .ack ann 2 true]

def ackLost : List FeedEvent :=
  [.subscribe ann all true, .commit [about 1] true, .send, .ack ann 1 false]

/-- Behind some steps there is a subscriber that was not told what it should have been. -/
def Misinforms (standby : Bool) (events : List FeedEvent) : Prop :=
  ∃ sys, Runs.run Feed.step (Feed.initial standby) events = some sys ∧ ¬sys.Told

def Misreplays (events : List FeedEvent) : Prop :=
  ∃ sys, Runs.run Feed.step (Feed.initial false) events = some sys ∧ ¬sys.ReplaysRest

def MovesBack (events : List FeedEvent) (e : FeedEvent) : Prop :=
  ∃ sys sys', Runs.run Feed.step (Feed.initial false) events = some sys ∧
    sys.step e = some sys' ∧ ¬sys.CursorsKept sys'

theorem misinforms_of {standby : Bool} {events : List FeedEvent}
    (h : ∃ sys, Runs.run Feed.step (Feed.initial standby) events = some sys ∧
      ∃ sub, sys.active[ann]? = some sub ∧ sub.connected = true ∧ sub.received ≠
        sys.journal.filter fun ke => decide (sub.since < ke.seq) &&
          decide (ke.seq ≤ sys.announced) && sub.filter.matches ke) :
    Misinforms standby events := by
  obtain ⟨sys, hrun, sub, hsub, hconn, hdiffers⟩ := h
  exact ⟨sys, hrun, fun htold => hdiffers (htold.1 ann sub hsub hconn).2⟩

theorem misreplays_of {events : List FeedEvent}
    (h : ∃ sys, Runs.run Feed.step (Feed.initial false) events = some sys ∧
      ∃ record, sys.persisted[ann]? = some record ∧ sys.replay ann
        ≠ sys.acked[ann]?.map fun n => sys.journal.filter fun ke =>
          decide (n < ke.seq) && record.filter.matches ke) : Misreplays events := by
  obtain ⟨sys, hrun, record, hrecord, hdiffers⟩ := h
  refine ⟨sys, hrun, fun hreplays => ?_⟩
  obtain ⟨n, hacked, hreplay⟩ := hreplays ann record hrecord
  rw [hacked] at hdiffers
  exact hdiffers hreplay

theorem movesBack_of {events : List FeedEvent} {e : FeedEvent}
    (h : ∃ sys, Runs.run Feed.step (Feed.initial false) events = some sys ∧
      ∃ sys', sys.step e = some sys' ∧ ∃ old, sys.persisted[ann]? = some old ∧
        ∃ new, sys'.persisted[ann]? = some new ∧ ¬old.lastSeq ≤ new.lastSeq) :
    MovesBack events e := by
  obtain ⟨sys, hrun, sys', hstep, old, hold, new, hnew, hback⟩ := h
  exact ⟨sys, sys', hrun, hstep, fun hkept => hback ((hkept ann old new).1 hold hnew)⟩

/-- Overlapping calls repeat events or tell them out of order. A late acknowledgement moves
    the cursor back, and one that is not stored is forgotten or taken for granted. -/
theorem feed_wrong : Misinforms true overlapping ∧ Misinforms true overtaken ∧
      MovesBack ackedLate (.ack ann 1 true) ∧ Misreplays (ackedLate ++ [.ack ann 1 true]) ∧
      MovesBack ackLost (.reopen false) ∧ Misreplays ackLost :=
  ⟨misinforms_of (by decide +kernel), misinforms_of (by decide +kernel),
    movesBack_of (by decide +kernel), misreplays_of (by decide +kernel),
    movesBack_of (by decide +kernel), misreplays_of (by decide +kernel)⟩

end ChangeFeed

end Aikoql.Kernel
