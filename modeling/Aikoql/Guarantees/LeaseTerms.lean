import Aikoql.Replication.Lease
import Mathlib.Data.List.Pairwise
import Mathlib.Tactic.Common

/-!
# One Holder per Term

Terms along the records of a lease, and who holds them.

A request is made from a record its sender read, and it lands only if that
record is still the last one. So it is enough that every request, also one that
is still in flight, either goes to a later term than the record it expects, or
keeps that record's term and holder (`Legit`). Creation, take-over, resumption
and renewal all make such requests, from whatever the sender's directory says.

## Main definitions

* `Legit`: A request that may land.
* `Ordered`: Terms never decrease, and each has one holder.

## Main theorems

* `Ordered.step`: What an event keeps.
* `one_holder_per_term`: Terms and holders in every run.
-/

namespace Aikoql.Replication

open List

variable {fate : Fate} {rec : Lease} {got : Option (Lease × Nat)}

def Written (s : Agents) (rec : Lease) (ver : Nat) : Prop :=
  0 < ver ∧ s.records[ver - 1]? = some rec

/-- A request goes past the term of the record it expects, or keeps its term and holder. -/
def Legit (s : Agents) (r : LeaseRequest) : Prop :=
  if r.wins then r.expected = 0 ∨ ∃ rec, Written s rec r.expected ∧ rec.term < r.lease.term
  else ∃ rec, Written s rec r.expected ∧ rec.term = r.lease.term ∧ rec.holder = r.lease.holder

/-- What a process holds on to was written. -/
def Knows (s : Agents) (n : Nat) : Phase → Prop
  | .idle | .read none => True
  | .read (some (rec, ver)) => Written s rec ver
  | .holds lease ver => Written s lease ver ∧ lease.holder = n

structure Ordered (s : Agents) : Prop where
  records : s.records.Pairwise fun a b => a.term ≤ b.term ∧ (a.term = b.term → a.holder = b.holder)
  won : ∀ rec ∈ s.records, (rec.holder, rec.term) ∈ s.wins
  claimed : ∀ c ∈ s.claims, c ∈ s.wins
  known : ∀ n, Knows s n (s.nodes n).phase
  legit : ∀ r ∈ s.inflight, Legit s r

section

variable {s s' : Agents} {n : Nat} {r : LeaseRequest}

theorem Written.mem {ver : Nat} (h : Written s rec ver) : rec ∈ s.records :=
  mem_of_getElem? h.2

theorem Written.mono {ver : Nat} (h : Written s rec ver) (hrecords : s.records <+: s'.records) :
    Written s' rec ver := by
  obtain ⟨later, hlater⟩ := hrecords
  refine ⟨h.1, ?_⟩
  rw [← hlater, getElem?_append_left (List.getElem?_eq_some_iff.mp h.2).1]
  exact h.2

theorem Legit.mono (h : Legit s r) (hrecords : s.records <+: s'.records) : Legit s' r := by
  unfold Legit at h ⊢
  split_ifs at h ⊢
  · exact h.imp_right fun ⟨rec, hrec, hterm⟩ => ⟨rec, hrec.mono hrecords, hterm⟩
  · obtain ⟨rec, hrec, hsame⟩ := h
    exact ⟨rec, hrec.mono hrecords, hsame⟩

theorem Knows.mono {phase : Phase} (h : Knows s n phase) (hrecords : s.records <+: s'.records) :
    Knows s' n phase := by
  match phase with
  | .idle | .read none => trivial
  | .read (some _) => exact Written.mono h hrecords
  | .holds _ _ => exact ⟨h.1.mono hrecords, h.2⟩

section

variable (h : Ordered s)
include h

theorem Ordered.set {node : Node} (hnode : Knows s n node.phase) : Ordered (s.set n node) := by
  refine ⟨h.records, h.won, h.claimed, fun k => ?_, h.legit⟩
  by_cases hk : k = n
  · subst hk
    simp only [Agents.set, Function.update_self]
    exact hnode.mono prefix_rfl
  · simp only [Agents.set, Function.update_of_ne hk]
    exact (h.known k).mono prefix_rfl

theorem Ordered.claimTerm {term : Nat} (hwon : (n, term) ∈ s.wins) : Ordered (s.claimTerm n term) :=
  have hset : Ordered (s.set n { s.nodes n with term := term, role := .leader }) :=
    h.set (h.known n)
  ⟨hset.records, hset.won, fun c hc => by
    rcases mem_append.mp hc with hc | hc
    · exact h.claimed c hc
    · rwa [mem_singleton.mp hc], hset.known, hset.legit⟩

theorem Ordered.fence (term : Nat) : Ordered (s.fence n term) :=
  have hset : Ordered (s.set n { s.nodes n with term := term, role := .fenced }) :=
    h.set (h.known n)
  hset.set trivial

/-- A legitimate request keeps the order, and if it lands it is the record of the
    version it leaves. -/
theorem Ordered.write (hr : Legit s r) : Ordered (s.write r).1 ∧ ∀ ver, (s.write r).2 = some ver →
      Written (s.write r).1 r.lease ver ∧ (r.lease.holder, r.lease.term) ∈ (s.write r).1.wins := by
  unfold Agents.write
  by_cases hexpected : r.expected = s.records.length
  · rw [if_pos hexpected]
    -- the record the request expects is the last one, if there is one
    have hlast : ∀ {rec}, Written s rec r.expected → ∀ a ∈ s.records, a.term ≤ rec.term ∧
        (a.term = rec.term → a.holder = rec.holder) := by
      intro rec hrec a ha
      obtain ⟨i, hi, rfl⟩ := getElem_of_mem ha
      obtain ⟨hj, hrec'⟩ := List.getElem?_eq_some_iff.mp hrec.2
      rcases Nat.lt_or_eq_of_le (show i ≤ r.expected - 1 by omega) with hlt | rfl
      · rw [← hrec']
        exact pairwise_iff_getElem.mp h.records i _ hi hj hlt
      · exact ⟨Nat.le_of_eq (congrArg _ hrec'), fun _ => congrArg _ hrec'⟩
    have hnew : ∀ a ∈ s.records, a.term ≤ r.lease.term ∧
        (a.term = r.lease.term → a.holder = r.lease.holder) := by
      intro a ha
      unfold Legit at hr
      split_ifs at hr
      · rcases hr with hzero | ⟨rec, hrec, hterm⟩
        · rw [eq_nil_of_length_eq_zero (hexpected.symm.trans hzero)] at ha
          cases ha
        · have := (hlast hrec a ha).1
          exact ⟨by omega, fun heq => by omega⟩
      · obtain ⟨rec, hrec, hterm, hholder⟩ := hr
        rw [← hterm, ← hholder]
        exact hlast hrec a ha
    have hwins : (r.lease.holder, r.lease.term) ∈
        if r.wins then s.wins ++ [(r.lease.holder, r.lease.term)] else s.wins := by
      unfold Legit at hr
      split_ifs at hr ⊢
      · exact mem_append_right _ mem_cons_self
      · obtain ⟨rec, hrec, hterm, hholder⟩ := hr
        rw [← hterm, ← hholder]
        exact h.won rec hrec.mem
    have hkept : ∀ w ∈ s.wins, w ∈
        if r.wins then s.wins ++ [(r.lease.holder, r.lease.term)] else s.wins := by
      intro w hw
      split_ifs
      · exact mem_append_left _ hw
      · exact hw
    have hprefix : s.records <+: s.records ++ [r.lease] := prefix_append _ _
    refine ⟨⟨pairwise_append.mpr ⟨h.records, pairwise_singleton _ _, fun a ha b hb => ?_⟩,
      fun rec hrec => ?_, fun c hc => hkept c (h.claimed c hc), fun k => (h.known k).mono hprefix,
      fun q hq => (h.legit q hq).mono hprefix⟩, fun ver hver => ⟨?_, hwins⟩⟩
    · rw [mem_singleton.mp hb]
      exact hnew a ha
    · rcases mem_append.mp hrec with hrec | hrec
      · exact hkept _ (h.won rec hrec)
      · rwa [mem_singleton.mp hrec]
    · cases hver
      exact ⟨Nat.succ_pos _, by simp⟩
  · rw [if_neg hexpected]
    exact ⟨h, fun ver hver => by cases hver⟩

theorem Ordered.send (hr : Legit s r) {won : Agents → Nat → Agents}
    {failed : Agents → Bool → Agents}
    (hwon : ∀ s' ver, Ordered s' → Written s' r.lease ver →
      (r.lease.holder, r.lease.term) ∈ s'.wins → Ordered (won s' ver))
    (hfailed : ∀ s' conflict, Ordered s' → Ordered (failed s' conflict)) :
    Ordered (s.send r fate won failed) := by
  obtain ⟨hwrite, hver⟩ := h.write hr
  unfold Agents.send
  cases fate with
  | lost =>
    exact hfailed _ _ ⟨h.records, h.won, h.claimed, h.known, forall_mem_cons.mpr ⟨hr, h.legit⟩⟩
  | answered =>
    rcases hs : s.write r with ⟨s', _ | ver⟩
    · rw [hs] at hwrite
      exact hfailed s' true hwrite
    · rw [hs] at hwrite hver
      obtain ⟨hwritten, hwins⟩ := hver ver rfl
      exact hwon s' ver hwrite hwritten hwins

theorem Ordered.begin {seq : Nat} (hgot : Knows s n (.read got)) :
    Ordered (s.begin n seq fate got) := by
  match got, hgot with
  | none, _ =>
    unfold Agents.begin
    refine h.send (by simp [Legit]) (fun s' ver hs' hwritten hwins => ?_)
      fun s' _ hs' => hs'.set trivial
    exact (hs'.claimTerm hwins).set ⟨hwritten.mono prefix_rfl, rfl⟩
  | some (rec, ver), hrec =>
    simp only [Agents.begin]
    split_ifs with hown hclaim
    · -- this node's own lease was won by it
      have hwon := h.won rec hrec.mem
      rw [hown.1] at hwon
      refine (h.claimTerm hwon).send (by simpa [Legit] using ⟨rec, hrec, rfl, rfl⟩)
        (fun s' ver hs' hwritten _ => hs'.set ⟨hwritten, hown.1⟩) fun s' _ hs' => hs'.set trivial
    · refine h.send (by simpa [Legit] using ⟨rec, hrec, rfl, rfl⟩)
        (fun s' ver hs' hwritten _ => hs'.set ⟨hwritten, hown.1⟩) fun s' _ hs' => hs'.set trivial
    · exact h.set trivial

theorem Ordered.standBy {lapsed : Bool} {seq : Nat} (hgot : Knows s n (.read got)) :
    Ordered (s.standBy n lapsed seq fate got) := by
  match got, hgot with
  | none, _ =>
    unfold Agents.standBy
    exact h.send (by simp [Legit]) (fun s' _ hs' _ _ => hs'.set trivial)
      fun s' _ hs' => hs'.set trivial
  | some (rec, ver), hrec =>
    simp only [Agents.standBy]
    split_ifs
    · refine h.send ?_ (fun s' _ hs' _ _ => hs'.set trivial) fun s' _ hs' => hs'.set trivial
      have hterm : rec.term < max (s.nodes n).term rec.term + 1 := by omega
      rw [Legit, if_pos rfl]
      exact .inr ⟨rec, hrec, hterm⟩
    · exact h.set trivial

theorem Ordered.step {e : AgentEvent} (hstep : s.step e = some s') : Ordered s' := by
  cases e <;> simp only [Agents.step] at hstep
  case read n =>
    split_ifs at hstep
    cases hstep
    refine h.set ?_
    rcases hlast : s.records.getLast? with _ | rec
    · exact trivial
    · have hpos : s.records ≠ [] := by
        rintro hnil
        simp [hnil] at hlast
      exact ⟨length_pos_iff.mpr hpos, by rw [← getLast?_eq_getElem?]; exact hlast⟩
  case act n lapsed seq fate =>
    have hknown := h.known n
    split at hstep
    · rename_i got hphase
      rw [hphase] at hknown
      cases hstep
      split_ifs
      · exact h.standBy hknown
      · exact h.begin hknown
    · cases hstep
  case renew n seq fate =>
    have hknown := h.known n
    split at hstep
    · rename_i lease ver hphase
      rw [hphase] at hknown
      cases hstep
      refine h.send (by simpa [Legit] using ⟨lease, hknown.1, rfl, rfl⟩)
        (fun s' ver hs' hwritten _ => hs'.set ⟨hwritten, hknown.2⟩) fun s' conflict hs' => ?_
      split_ifs
      · exact hs'.fence _
      · exact hs'
    · cases hstep
  case selfFence n =>
    split at hstep
    · cases hstep
      exact h.fence _
    · cases hstep
  case arrive i =>
    obtain ⟨r, hr, rfl⟩ := Option.map_eq_some_iff.mp hstep
    exact (h.write (h.legit r (mem_of_getElem? hr))).1
  case hear n term role =>
    split_ifs at hstep
    cases hstep
    exact h.set (h.known n)
  case restart n =>
    cases hstep
    exact h.set trivial

end

end

/-- In every run, the terms of the records never decrease, records of one term
    have one holder, and every term a node claimed is one whose lease it won. -/
theorem one_holder_per_term (s : Agents) (h : Runs.Reaches Agents.step (fun _ _ => True) {} s) :
    s.records.Pairwise (fun a b => a.term ≤ b.term) ∧
      (∀ a ∈ s.records, ∀ b ∈ s.records, a.term = b.term → a.holder = b.holder) ∧
      ∀ n term, (n, term) ∈ s.claims → (n, term) ∈ s.wins := by
  have hs : Ordered s := h.invariant (P := Ordered)
    ⟨.nil, by simp, by simp, fun _ => trivial, by simp⟩ fun s e s' hs _ hstep => hs.step hstep
  refine ⟨hs.records.imp fun hab => hab.1, fun a ha b hb heq => ?_,
    fun n term => hs.claimed (n, term)⟩
  have hpairs := pairwise_iff_getElem.mp hs.records
  obtain ⟨i, hi, rfl⟩ := getElem_of_mem ha
  obtain ⟨j, hj, rfl⟩ := getElem_of_mem hb
  rcases Nat.lt_trichotomy i j with hij | rfl | hji
  · exact (hpairs i j hi hj hij).2 heq
  · rfl
  · exact ((hpairs j i hj hi hji).2 heq.symm).symm

def failover : List AgentEvent :=
  [.read 0, .act 0 false 0 .answered, .renew 0 3 .answered, .read 1, .act 1 false 2 .answered,
    .read 1, .act 1 true 3 .lost, .restart 1, .arrive 0, .read 1, .act 1 false 3 .answered,
    .renew 0 4 .answered]

theorem failover_one_holder :
    ∃ s, Runs.run Agents.step {} failover = some s ∧ s.claims = [(0, 1), (1, 2)] ∧
      s.records.length = 4 ∧ ∀ n term, (n, term) ∈ s.claims → (n, term) ∈ s.wins := by
  exact Runs.exists_run (P := fun s => s.claims = [(0, 1), (1, 2)] ∧ s.records.length = 4)
    (by decide +kernel) (Runs.meets_of_forall _ (fun _ _ _ => trivial) _)
    fun s hreach hs => ⟨hs.1, hs.2, (one_holder_per_term s hreach).2.2⟩

end Aikoql.Replication
