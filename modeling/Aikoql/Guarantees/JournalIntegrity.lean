import Aikoql.Kernel.Outcomes

/-!
# Journal Integrity

The journal behind every sequence of calls.

Each of the four places that build a batch numbers its events from the pipe and
hashes them over the audit hash of the event before, and the pipe moves on only when
the engine took the batch. So whichever batches fail, the stored events are numbered
without gap, every event is linked to the one before it, and the pipe is where the
next one continues. A version adds the reference of its own event to those of the
version before, so a head has as many references as it has versions.

## Main definitions

* `Linked`: Events are numbered without gap and linked.
* `JournalIntact`: The journal, the heads and the pipe agree.

## Main theorems

* `journal_intact`: The journal behind every sequence of calls.
-/

namespace Aikoql.Kernel

open Std.ExtTreeMap
open Storage (Sha256)

variable {s : Store} {st : State} {batch : WriteBatch}

def hashAt (events : Std.ExtTreeMap Nat KnowledgeEvent) (seq : Nat) : Bytes :=
  (events[seq]?.map KnowledgeEvent.auditHash).getD zeroHash

/-- Events with the numbers from one to `n`, each linked to the one before it. -/
structure Linked (H : Sha256) (events : Std.ExtTreeMap Nat KnowledgeEvent) (n : Nat) : Prop where
  gapless : ∀ seq : Nat, (∃ ke, events[seq]? = some ke) ↔ 1 ≤ seq ∧ seq ≤ n
  numbered : ∀ (seq : Nat) (ke : KnowledgeEvent), events[seq]? = some ke → ke.seq = seq
  linked : ∀ (seq : Nat) (ke : KnowledgeEvent), events[seq]? = some ke →
    ke.prevAuditHash = hashAt events (seq - 1)
  hashed : ∀ (seq : Nat) (ke : KnowledgeEvent), events[seq]? = some ke →
    ke.auditHash = auditHashOf H ke.prevAuditHash ke.seq ke.koid ke.version ke.kind ke.commitTs
      ke.payloadHash ke.signature ke.actor ke.note

/-- Every head names a version, which has as many references as the head says, each to a stored
    event of the object. -/
def HeadsReferenced (s : Store) : Prop :=
  ∀ (koid : Koid) (head : Head), s.heads[koid]? = some head →
    ∃ ko, s.getObjectVersion koid head.commitTs = some ko ∧ ko.koid = koid ∧
      ko.version = head.version ∧ ko.eventRefs.length = head.version ∧
      ∀ ref ∈ ko.eventRefs, ∃ ke : KnowledgeEvent, s.events[ref.seq]? = some ke ∧ ke.koid = koid

/-- The events are linked, the row of the journal's head is that of the last event, the
    heads refer to events, and the pipe is behind the last event. A journal without
    events may have no row. -/
def JournalIntact (H : Sha256) (st : State) : Prop :=
  ∃ n, Linked H st.store.events n ∧ (st.store.journal = none → n = 0) ∧
    (∀ head, st.store.journal = some head → head.seq = n ∧ head.audit = hashAt st.store.events n) ∧
    HeadsReferenced st.store ∧
    st.pipe.seq = n ∧ st.pipe.audit = hashAt st.store.events n

/-! ## Events -/

section

variable {H : Sha256} {events : Std.ExtTreeMap Nat KnowledgeEvent} {pipe pipe' : Pipeline}
  {ke : KnowledgeEvent}

theorem hashAt_insert_self (ke : KnowledgeEvent) (seq : Nat) :
    hashAt (events.insert seq ke) seq = ke.auditHash := by
  simp [hashAt]

theorem hashAt_insert_ne {seq seq' : Nat} (hne : seq ≠ seq') (ke : KnowledgeEvent) :
    hashAt (events.insert seq ke) seq' = hashAt events seq' := by
  simp [hashAt, getElem?_insert, hne]

theorem Linked.insert (h : Linked H events pipe.seq) (haudit : pipe.audit = hashAt events pipe.seq)
    (hke : Follows H pipe ke) : Linked H (events.insert ke.seq ke) (pipe.past ke).seq where
  gapless := by
    intro seq
    rw [getElem?_insert]
    by_cases hseq : ke.seq = seq
    · subst hseq
      have := hke.seq
      simp [Pipeline.past]
      omega
    · have hcase : compare ke.seq seq ≠ .eq := by simpa using hseq
      rw [if_neg hcase, h.gapless]
      have := hke.seq
      simp only [Pipeline.past]
      omega
  numbered := by
    intro seq e he
    rcases getElem?_insert_cases he with ⟨hseq, rfl⟩ | ⟨-, he⟩
    · exact hseq
    · exact h.numbered seq e he
  linked := by
    intro seq e he
    rcases getElem?_insert_cases he with ⟨hseq, rfl⟩ | ⟨-, he⟩
    · -- The new event is linked to the one the pipe is behind.
      have hprev : seq - 1 = pipe.seq := by
        rw [← hseq, hke.seq, Nat.add_sub_cancel]
      rw [hke.prev, hprev, hashAt_insert_ne (by rw [hke.seq]; omega), haudit]
    · have hmem := (h.gapless seq).mp ⟨e, he⟩
      rw [h.linked seq e he, hashAt_insert_ne]
      rw [hke.seq]
      omega
  hashed := by
    intro seq e he
    rcases getElem?_insert_cases he with ⟨-, rfl⟩ | ⟨-, he⟩
    · exact hke.audit
    · exact h.hashed seq e he

theorem Linked.extend {kes : List KnowledgeEvent} (hkes : Extends H pipe kes pipe')
    (h : Linked H events pipe.seq) (haudit : pipe.audit = hashAt events pipe.seq) :
    let events' := (kes.map fun ke => (ke.seq, ke)).foldl (fun m e => m.insert e.1 e.2) events
    Linked H events' pipe'.seq ∧ pipe'.audit = hashAt events' pipe'.seq ∧
      (∀ (seq : Nat) (e : KnowledgeEvent), events[seq]? = some e → events'[seq]? = some e) ∧
      ∀ e ∈ kes, events'[e.seq]? = some e := by
  induction hkes generalizing events with
  | nil => exact ⟨h, haudit, fun _ _ he => he, by simp⟩
  | @cons pipe pipe' ke kes hke hrest ih =>
    have hlast : (pipe.past ke).audit = hashAt (events.insert ke.seq ke) (pipe.past ke).seq :=
      (hashAt_insert_self ke ke.seq).symm
    obtain ⟨hlinked, haudit', hkept, hnew⟩ := ih (h.insert haudit hke) hlast
    have hother : ∀ (seq : Nat) (e : KnowledgeEvent), events[seq]? = some e →
        (events.insert ke.seq ke)[seq]? = some e := by
      intro seq e he
      have hmem := (h.gapless seq).mp ⟨e, he⟩
      have hseq := hke.seq
      rw [getElem?_insert, if_neg]
      · exact he
      · simp only [Nat.compare_eq_eq]
        omega
    exact ⟨hlinked, haudit', fun seq e he => hkept seq e (hother seq e he),
      List.forall_mem_cons.mpr ⟨hkept _ _ (by simp), hnew⟩⟩

end

/-! ## Heads -/

theorem HeadsReferenced.headObject (h : HeadsReferenced s) {koid : Koid} {ko : KnowledgeObject}
    (hko : s.headObject koid = some ko) :
    ko.koid = koid ∧ ko.eventRefs.length = ko.version ∧
      ∀ ref ∈ ko.eventRefs, ∃ ke : KnowledgeEvent, s.events[ref.seq]? = some ke ∧ ke.koid = koid := by
  obtain ⟨head, hhead, hversion⟩ := Option.bind_eq_some_iff.mp hko
  obtain ⟨ko', hko', hkoid, hv, hlength, hrefs⟩ := h koid head hhead
  obtain rfl := Option.some.inj (hversion.symm.trans hko')
  exact ⟨hkoid, hlength.trans hv.symm, hrefs⟩

theorem HeadsReferenced.keyed (h : HeadsReferenced s) : s.Keyed :=
  fun _ _ hko => (h.headObject hko).1

theorem HeadsReferenced.headRefs (h : HeadsReferenced s) (koid : Koid) :
    (s.headRefs koid).length = s.headVersion koid ∧ ∀ ref ∈ s.headRefs koid,
        ∃ ke : KnowledgeEvent, s.events[ref.seq]? = some ke ∧ ke.koid = koid := by
  unfold Store.headRefs Store.headVersion
  cases hko : s.headObject koid with
  | none => simp
  | some ko => exact (h.headObject hko).2

theorem HeadsReferenced.writeBatch {H : Sha256} {ts : Nat} {pipe : Pipeline} {change : Change}
    (h : HeadsReferenced st.store) (hbatch : Describes H st ts batch pipe change)
    (hkept : ∀ (seq : Nat) (e : KnowledgeEvent), st.store.events[seq]? = some e →
      (st.store.writeBatch batch).events[seq]? = some e)
    (hnew : ∀ e ∈ change.events, (st.store.writeBatch batch).events[e.seq]? = some e) :
    HeadsReferenced (st.store.writeBatch batch) := by
  intro koid head hhead
  by_cases hcommits : ∀ c ∈ change.commits, c.ko.koid ≠ koid
  · by_cases herased : change.erased = some koid
    · rw [hbatch.heads_erased herased] at hhead
      cases hhead
    · -- The object is not touched, and its events are still there.
      rw [hbatch.heads_other hcommits herased] at hhead
      obtain ⟨ko, hko, hkoid, hversion, hlength, hrefs⟩ := h koid head hhead
      refine ⟨ko, ?_, hkoid, hversion, hlength, ?_⟩
      · rw [Store.getObjectVersion, hbatch.objects_other hcommits herased]
        exact hko
      · intro ref href
        obtain ⟨ke, hke, heq⟩ := hrefs ref href
        exact ⟨ke, hkept ref.seq ke hke, heq⟩
  · -- The version is new: its own event is the last reference.
    push Not at hcommits
    obtain ⟨c, hc, rfl⟩ := hcommits
    have hontop := hbatch.onTop c hc
    obtain ⟨hlength, hrefs⟩ := h.headRefs c.ko.koid
    rw [hbatch.heads_commit hc] at hhead
    cases hhead
    refine ⟨c.ko, ?_, rfl, rfl, ?_, ?_⟩
    · rw [Store.getObjectVersion, hbatch.objects_commit hc, getElem?_insert_self]
    · rw [hontop.eventRefs, hontop.version, List.length_append, hlength]
      rfl
    · intro ref href
      rw [hontop.eventRefs] at href
      rcases List.mem_append.mp href with href | href
      · obtain ⟨ke, hke, heq⟩ := hrefs ref href
        exact ⟨ke, hkept ref.seq ke hke, heq⟩
      · obtain rfl := List.mem_singleton.mp href
        exact ⟨c.ke, hnew c.ke (hbatch.journaled c hc), hontop.koid⟩

/-! ## Runs -/

theorem journalIntact_initial (H : Sha256) : JournalIntact H State.initial := by
  refine ⟨0, ?_, fun _ => rfl, fun head hhead => (by cases hhead), ?_, rfl, rfl⟩
  · constructor
    case gapless =>
      intro seq
      simp [State.initial, State.opened, Store.empty]
      omega
    all_goals
      intro seq ke hke
      cases hke
  · intro koid head hhead
    cases hhead

theorem JournalIntact.writeBatch {H : Sha256} {st' : State} {ts : Nat} {change : Change}
    (h : JournalIntact H st) (hbatch : Describes H st ts batch st'.pipe change)
    (hstore : st'.store = st.store.writeBatch batch) : JournalIntact H st' := by
  obtain ⟨n, hlinked, hnone, hsome, hheads, rfl, haudit⟩ := h
  obtain ⟨hlinked', haudit', hkept, hnew⟩ := hlinked.extend hbatch.follow haudit
  have hevents : st'.store.events = _ := hstore ▸ events_writeBatch st.store batch
  rw [hbatch.events] at hevents
  rw [← hevents] at hlinked' haudit' hkept hnew
  have hheads' : HeadsReferenced st'.store := by
    rw [hstore] at hkept hnew ⊢
    exact hheads.writeBatch hbatch hkept hnew
  have hjournal : st'.store.journal = _ := hstore ▸ journal_writeBatch st.store batch
  rcases hbatch.journal with hrow | ⟨hrow, hnil⟩
  · -- The row of the head is written from the pipe behind the batch.
    rw [hrow] at hjournal
    have hjournal : st'.store.journal = some ⟨st'.pipe.seq, st'.pipe.audit, ts⟩ := hjournal
    refine ⟨st'.pipe.seq, hlinked', ?_, ?_, hheads', rfl, haudit'⟩
    · rw [hjournal]
      intro hcase
      cases hcase
    · rw [hjournal]
      rintro head ⟨⟩
      exact ⟨rfl, haudit'⟩
  · -- Without events the row, the events and the pipe are those before.
    rw [hrow] at hjournal
    rw [hnil] at hevents
    have hpipe : st'.pipe = st.pipe := (hnil ▸ hbatch.follow).eq_of_nil
    have hjournal : st'.store.journal = st.store.journal := hjournal
    have hevents : st'.store.events = st.store.events := hevents
    refine ⟨st.pipe.seq, hevents ▸ hlinked, ?_, ?_, hheads', by rw [hpipe], ?_⟩
    · rw [hjournal]
      exact hnone
    · rw [hjournal, hevents]
      exact hsome
    · rw [hpipe, hevents]
      exact haudit

theorem JournalIntact.step {A : Admission} {C : Crypto} (h : JournalIntact C.sha256 st)
    (io : Ambient) (call : Call) (taken : Bool) :
    JournalIntact C.sha256 (Kernel.step A C st io call taken).1 := by
  have hkeyed : st.store.Keyed := by
    obtain ⟨_, -, -, -, hheads, -⟩ := h
    exact hheads.keyed
  rcases step_cases A C io hkeyed call taken with
    ⟨hstore, hpipe⟩ | ⟨batch, ts, change, -, hstore, hbatch, -, -⟩
  · unfold JournalIntact
    rw [hstore, hpipe]
    exact h
  · exact h.writeBatch hbatch hstore

/-- Behind every sequence of calls on a new kernel, of which any batch may fail, the
    events are numbered without gap and linked, the head of the journal is the last of
    them, every head has as many references as versions, each to an event of its
    object, and the pipe is behind the last event. -/
theorem journal_intact (A : Admission) (C : Crypto) (st : State)
    (h : Runs.Reaches (turn A C) (fun _ _ => True) State.initial st) :
    JournalIntact C.sha256 st := by
  refine h.invariant (journalIntact_initial C.sha256) ?_
  rintro st t st' hst - hstep
  cases hstep
  exact hst.step t.io t.call t.taken

/-- A run in which an object is created, a batch fails, and the object is updated and
    moved along its lifecycle. -/
def journalRun : List Turn :=
  let ctx : KnowledgeContext := ⟨⟨utf8 "ann", [], none⟩, none⟩
  let note : Metadata := ⟨utf8 "note", none, 0, []⟩
  let io (millis : Nat) : Ambient := ⟨millis, millis, fun _ => 7⟩
  [⟨io 1, .remember (.create ctx note), true⟩, ⟨io 2, .recordAudit (utf8 "refused"), false⟩,
    ⟨io 3, .transact [⟨ctx, .update ctx 7 note⟩] none (some (utf8 "t")), true⟩,
    ⟨io 4, .evolve ctx 7 .active .human none none, true⟩]

theorem journalRun_intact :
    ∃ st, Runs.run (turn .unrestricted (.unsigned Sha256.fips180)) State.initial journalRun
        = some st ∧
      st.pipe.seq = 3 ∧ JournalIntact Sha256.fips180 st := by
  exact Runs.exists_run (P := fun st => st.pipe.seq = 3) (by decide +kernel)
    (Runs.meets_of_forall journalRun (fun _ _ _ => trivial) State.initial)
    fun st hreach hseq =>
    ⟨hseq, journal_intact .unrestricted (.unsigned Sha256.fips180) st hreach⟩

end Aikoql.Kernel
