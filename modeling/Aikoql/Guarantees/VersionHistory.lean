import Aikoql.Guarantees.SnapshotReads
import Aikoql.Guarantees.TenantReads
import Aikoql.Lib.MergeMaps

/-!
# Version Histories

What the rows of an object are in every store a kernel writes.

As long as the clock does not run over, every version is committed with a time stamp behind
all others. So the head of an object is its newest version and the index lists the object
under its type, the versions are numbered from one in the order of their time stamps, and a
read at a time stamp that was drawn finds the version that was current then, until the
object is erased.

## Main definitions

* `Store.Numbered`: The versions of an object are numbered from one.
* `State.Timed`: The clock is ahead of every version.

## Main theorems

* `indexed_of_reaches`: The head is the newest version, and is listed under its type.
* `versions_numbered`: No version number is missing or used twice.
* `past_reads_exact`: A time stamp finds what was current then.
-/

namespace Aikoql.Kernel

open List Option Std.ExtTreeMap
open Storage (Sha256)

variable {g : Guarded} {koid : Koid}

/-- The versions of an object are numbered from one in the order of their time stamps, and the
    last number is that of the head. -/
def Store.Numbered (s : Store) : Prop :=
  ∀ koid, (s.objects koid).toList.map (fun row => row.2.version)
    = List.range' 1 (s.headVersion koid)

/-! ## The stores of a kernel -/

section

variable {H : Sha256} {st : State} {ts : Nat} {batch : WriteBatch} {pipe : Pipeline}
  {change : Change}

theorem Describes.indexed (h : Describes H st ts batch pipe change) (hst : st.store.Indexed)
    (hlate : change.commits ≠ [] →
      ∀ koid ts' ko, st.store.getObjectVersion koid ts' = some ko → ts' < ts) :
    (st.store.writeBatch batch).Indexed := by
  constructor
  · intro koid ko hko
    rcases h.headObject_cases hko with ⟨c, hc, rfl, rfl⟩ | ⟨hothers, herased, hhead⟩
    · refine ⟨ts, ?_, ?_⟩
      · rw [Store.getObjectVersion, h.objects_commit hc, getElem?_insert_self]
      · intro ts' ko' hversion
        rcases h.version_cases hversion with ⟨-, -, -, -, rfl⟩ | hold
        · exact le_rfl
        · exact (hlate (ne_nil_of_mem hc) _ ts' ko' hold).le
    · unfold Store.getObjectVersion
      rw [h.objects_other hothers herased]
      exact hst.newest koid ko hhead
  · intro koid ts' ko hversion
    by_cases hcommits : ∀ c ∈ change.commits, c.ko.koid ≠ koid
    · by_cases herased : change.erased = some koid
      · rw [Store.getObjectVersion, h.objects_erased herased] at hversion
        simp at hversion
      · rw [Store.getObjectVersion, h.objects_other hcommits herased] at hversion
        rw [h.headObject_other hcommits herased]
        exact hst.headed koid ts' ko hversion
    · push Not at hcommits
      obtain ⟨c, hc, rfl⟩ := hcommits
      rw [h.headObject_commit hc]
      rfl
  · intro koid ko hko hcatalog
    rw [h.mem_types]
    rcases h.headObject_cases hko with ⟨c, hc, rfl, rfl⟩ | ⟨hothers, herased, hhead⟩
    · refine ⟨.inr ⟨c, hc, ?_⟩, by simp [h.erased_eq_none hc]⟩
      simp [Commit.typeRows, hcatalog]
    · refine ⟨.inl (hst.listed koid ko hhead hcatalog), ?_⟩
      rintro ⟨_, hgone, _⟩
      exact herased hgone
  · intro row hrow
    rw [h.mem_types] at hrow
    rcases hrow.1 with hold | ⟨c, -, hnew⟩
    · exact hst.catalog row hold
    · unfold Commit.typeRows at hnew
      split at hnew
      · cases hnew
      · rename_i hcatalog
        rw [mem_singleton.mp hnew]
        simpa using hcatalog

theorem Describes.numbered (h : Describes H st ts batch pipe change) (hst : st.store.Numbered)
    (hlate : change.commits ≠ [] →
      ∀ koid ts' ko, st.store.getObjectVersion koid ts' = some ko → ts' < ts) :
    (st.store.writeBatch batch).Numbered := by
  intro koid
  by_cases hcommits : ∀ c ∈ change.commits, c.ko.koid ≠ koid
  · by_cases herased : change.erased = some koid
    · rw [h.objects_erased herased, Store.headVersion, h.headObject_erased herased]
      rfl
    · rw [h.objects_other hcommits herased, Store.headVersion, h.headObject_other hcommits herased]
      exact hst koid
  · push Not at hcommits
    obtain ⟨c, hc, rfl⟩ := hcommits
    have hlast : ∀ row ∈ (st.store.objects c.ko.koid).toList, row.1 < ts := fun row hrow =>
      hlate (ne_nil_of_mem hc) _ row.1 row.2 (mem_toList_iff_getElem?_eq_some.mp hrow)
    rw [h.objects_commit hc, toList_insert_last _ _ _ hlast, List.map_append, hst,
      (Store.head_eq (h.headObject_commit hc)).2.1, (h.onTop c hc).version, range'_concat]
    simp [Nat.add_comm, (h.onTop c hc).version]

end

/-- The store is indexed and numbered, and the clock is ahead of every version. -/
structure State.Timed (st : State) : Prop where
  coherent : st.store.Coherent
  indexed : st.store.Indexed
  numbered : st.store.Numbered
  past : ∀ koid ts ko, st.store.getObjectVersion koid ts = some ko → ts ≤ st.hlc
  pin : st.pipe.pairPin = none

/-- The clock does not run over in a call. -/
def Turn.InTime (g : Guarded) (turn : Turn) : Prop :=
  turn.io.hlcMillis < 2 ^ 48 ∧ g.st.hlc + 1 < 2 ^ 64
  deriving Decidable

theorem step_hlc (A : Admission) (C : Crypto) (st : State) (io : Ambient) (call : Call)
    (taken : Bool) : (step A C st io call taken).1.hlc = (stage A C st io call).1 := by
  rcases hstage : stage A C st io call with ⟨hlc, staged⟩
  cases staged with
  | done reply => simp [step, hstage, finish]
  | write batch pipe tenants reply => cases taken <;> simp [step, hstage, finish]

/-- A call in time changes nothing but the clock, or it writes a batch whose versions have
    the time stamp that was just drawn. -/
theorem Guarded.step_inTime (S : Settings) (C : Crypto) (h : g.st.Timed) (turn : Turn)
    (htime : turn.InTime g) :
    g.st.hlc ≤ (g.step S C turn).1.st.hlc ∧
      ((∃ hlc, (g.step S C turn).1.st = { g.st with hlc := hlc }) ∨
        ∃ batch pipe ts change, (g.step S C turn).1.st.store = g.st.store.writeBatch batch ∧
          (g.step S C turn).1.st.pipe = pipe ∧ Describes C.sha256 g.st ts batch pipe change ∧
          change.erased = turn.call.erases ∧
          (change.commits ≠ [] → ts = (g.step S C turn).1.st.hlc ∧ g.st.hlc < ts)) := by
  have hforward := lt_hlcNow htime.1 htime.2
  refine ⟨?_, ?_⟩
  · rw [Guarded.step_st, step_hlc]
    rcases stage_hlc (S.admission g.auth) C g.st turn.io turn.call with heq | heq
    · rw [heq]
    · rw [heq]
      exact hforward.le
  rcases Guarded.step_outcome S C h.coherent.keyed turn with ⟨-, hlc, hstep⟩ |
    ⟨hlc, batch, pipe, tenants, reply, ts, change, o, -, hstep, hc, -⟩
  · exact .inl ⟨hlc, by rw [hstep]⟩
  · rw [hstep]
    refine .inr ⟨batch, pipe, ts, change, rfl, rfl, hc.described.1, hc.erased, fun hcommits => ?_⟩
    obtain ⟨hts, hhlc⟩ := hc.described.2 h.pin (hc.described.1.events_ne_nil hcommits)
    exact ⟨hts, by rw [hts, hhlc]; exact hforward⟩

theorem Guarded.timed (S : Settings) (C : Crypto) (h : g.st.Timed) (turn : Turn)
    (htime : turn.InTime g) : (g.step S C turn).1.st.Timed := by
  obtain ⟨hle, ⟨hlc, hstep⟩ | ⟨batch, pipe, ts, change, hstore, hpipe, hdescribes, -, hdrawn⟩⟩ :=
    Guarded.step_inTime S C h turn htime
  · rw [hstep] at hle ⊢
    exact ⟨h.coherent, h.indexed, h.numbered,
      fun koid ts ko hko => (h.past koid ts ko hko).trans hle, h.pin⟩
  · have hlate : change.commits ≠ [] →
        ∀ koid ts' ko, g.st.store.getObjectVersion koid ts' = some ko → ts' < ts :=
      fun hcommits koid ts' ko hko => (h.past koid ts' ko hko).trans_lt (hdrawn hcommits).2
    constructor
    case coherent => exact hstore ▸ hdescribes.coherent h.coherent
    case indexed => exact hstore ▸ hdescribes.indexed h.indexed hlate
    case numbered => exact hstore ▸ hdescribes.numbered h.numbered hlate
    case past =>
      intro koid ts' ko hko
      rw [hstore] at hko
      rcases hdescribes.version_cases hko with ⟨c, hmem, -, -, rfl⟩ | hold
      · exact (hdrawn (ne_nil_of_mem hmem)).1.le
      · exact (h.past koid ts' ko hold).trans hle
    case pin => exact hpipe ▸ hdescribes.follow.pairPin.trans h.pin

theorem timed_of_reaches (S : Settings) (C : Crypto)
    (h : Runs.Reaches (Guarded.turn S C) (fun g turn => turn.InTime g) Guarded.initial g) :
    g.st.Timed := by
  refine h.invariant (P := fun g => g.st.Timed) ?_ ?_
  · refine ⟨Store.coherent_empty, Store.indexed_empty, fun _ => rfl, ?_, rfl⟩
    intro koid ts ko hko
    cases hko
  · rintro g turn g' htimed htime hturn
    cases hturn
    exact Guarded.timed S C htimed turn htime

namespace VersionHistory

open Samples

/-- A note is created, written again and forgotten. -/
def turns : List Turn :=
  [⟨⟨1, 1, fun _ => 0⟩,
      .remember { RememberRequest.create ann ⟨utf8 "note", none, 0, []⟩ with koid := some 1 }, true⟩,
    ⟨⟨2, 2, fun _ => 0⟩, .remember (RememberRequest.update ann 1 ⟨utf8 "note", none, 0, []⟩), true⟩,
    ⟨⟨3, 3, fun _ => 0⟩, .forget ann 1 .tombstone none none, true⟩]

end VersionHistory

/-- The stores a kernel writes are indexed, as long as its clock does not run over. -/
theorem indexed_of_reaches (S : Settings) (C : Crypto)
    (h : Runs.Reaches (Guarded.turn S C) (fun g turn => turn.InTime g) Guarded.initial g) :
    g.st.store.Indexed :=
  (timed_of_reaches S C h).indexed

theorem indexed_forgotten :
    ∃ g, Runs.run (Guarded.turn (.basic ∅ ∅) (.unsigned Sha256.fips180)) Guarded.initial
        VersionHistory.turns = some g ∧ g.st.store.scanType (utf8 "note") = [1] ∧
      g.st.store.Indexed :=
  Runs.exists_run (C := fun g turn => turn.InTime g) (by decide +kernel) (by decide +kernel)
    fun _ hreach hlisted => ⟨hlisted, indexed_of_reaches _ _ hreach⟩

/-- No version number is missing or used twice. -/
theorem versions_numbered (S : Settings) (C : Crypto)
    (h : Runs.Reaches (Guarded.turn S C) (fun g turn => turn.InTime g) Guarded.initial g) :
    g.st.store.Numbered :=
  (timed_of_reaches S C h).numbered

theorem versions_numbered_forgotten :
    ∃ g, Runs.run (Guarded.turn (.basic ∅ ∅) (.unsigned Sha256.fips180)) Guarded.initial
        VersionHistory.turns = some g ∧
      (g.st.store.objects 1).toList.map (fun row => row.2.version) = [1, 2, 3] := by
  refine Runs.exists_run (C := fun g turn => turn.InTime g)
    (P := fun g => g.st.store.headVersion 1 = 3) (by decide +kernel) (by decide +kernel) ?_
  intro g hreach hversion
  rw [versions_numbered _ _ hreach 1, hversion]
  rfl

/-! ## Versions at a time stamp -/

/-- The clock does not run over in a call, and the call does not erase an object. -/
def Keeps (koid : Koid) (g : Guarded) (turn : Turn) : Prop :=
  turn.InTime g ∧ turn.call.erases ≠ some koid
  deriving Decidable

section

variable {S : Settings} {C : Crypto} {snap : Nat}

/-- A call leaves the versions of an object up to a time stamp alone. -/
theorem Keeps.rows {turn : Turn} (h : g.st.Timed) (hkeeps : Keeps koid g turn)
    (hsnap : snap ≤ g.st.hlc) {c : Nat} (hc : c ≤ snap) :
    (g.step S C turn).1.st.store.getObjectVersion koid c = g.st.store.getObjectVersion koid c := by
  obtain ⟨-, ⟨hlc, hstep⟩ | ⟨batch, pipe, ts, change, hstore, -, hdescribes, herased, hdrawn⟩⟩ :=
    Guarded.step_inTime S C h turn hkeeps.1
  · rw [hstep]
  · rw [hstore, hdescribes.rows_upTo (fun hcommits => hsnap.trans_lt (hdrawn hcommits).2) koid hc,
      if_neg (herased ▸ hkeeps.2)]

theorem objectAt_of_reaches {g' : Guarded} (h : g.st.Timed) (hsnap : snap ≤ g.st.hlc)
    (hreach : Runs.Reaches (Guarded.turn S C) (Keeps koid) g g') :
    g'.st.store.objectAt koid snap = g.st.store.objectAt koid snap := by
  refine objectAt_congr (hreach.invariant (P := fun g' => g'.st.Timed ∧ snap ≤ g'.st.hlc ∧
    ∀ c ≤ snap, g'.st.store.getObjectVersion koid c = g.st.store.getObjectVersion koid c)
    ⟨h, hsnap, fun _ _ => rfl⟩ ?_).2.2
  rintro g₁ turn g₂ ⟨htimed, hle, hrows⟩ hkeeps hturn
  cases hturn
  refine ⟨Guarded.timed S C htimed turn hkeeps.1,
    hle.trans (Guarded.step_inTime S C htimed turn hkeeps.1).1, fun c hc => ?_⟩
  rw [hkeeps.rows htimed hle hc, hrows c hc]

/-- The newest version of an object is its current one. -/
theorem objectAt_hlc (h : g.st.Timed) :
    g.st.store.objectAt koid g.st.hlc = g.st.store.headObject koid := by
  cases hhead : g.st.store.headObject koid with
  | none =>
    refine Option.eq_none_iff_forall_ne_some.mpr fun ko hko => ?_
    obtain ⟨ts, hversion⟩ := Store.exists_of_objectAt hko
    have hsome := h.indexed.headed koid ts ko hversion
    rw [hhead] at hsome
    cases hsome
  | some ko =>
    obtain ⟨ts, hversion, hmax⟩ := h.indexed.newest koid ko hhead
    have hrow : (ts, ko) ∈ (g.st.store.objects koid).toList.filter fun row => row.1 ≤ g.st.hlc :=
      mem_filter.mpr ⟨Std.ExtTreeMap.mem_toList_iff_getElem?_eq_some.mpr hversion,
        decide_eq_true (h.past koid ts ko hversion)⟩
    obtain ⟨last, hlast⟩ := Option.ne_none_iff_exists'.mp
      (mt getLast?_eq_none_iff.mp (ne_nil_of_mem hrow))
    rw [Store.objectAt, Store.getVersionAt, hlast]
    obtain ⟨older, hrows⟩ := getLast?_eq_some_iff.mp hlast
    rw [hrows] at hrow
    rcases mem_append.mp hrow with holder | hnewest
    · -- Time stamps increase along the rows, and none is behind the one of the head.
      have hsorted : (older ++ [last]).Pairwise fun a b => a.1 < b.1 := by
        rw [← hrows]
        exact (Std.ExtTreeMap.ordered_keys_toList.imp Nat.compare_eq_lt.mp).filter _
      have hlt := (pairwise_append.mp hsorted).2.2 _ holder last (mem_singleton_self last)
      have hmem : last ∈ (g.st.store.objects koid).toList :=
        mem_of_mem_filter (hrows ▸ mem_append_right older (mem_singleton_self last))
      have hle := hmax last.1 last.2 (Std.ExtTreeMap.mem_toList_iff_getElem?_eq_some.mp hmem)
      omega
    · rw [← mem_singleton.mp hnewest]
      rfl

end

/-- What was current in some state is found in every later one, at the time stamp the clock
    showed then, unless it was erased. -/
theorem past_reads_exact (S : Settings) (C : Crypto) (koid : Koid) (g g' : Guarded)
    (h : Runs.Reaches (Guarded.turn S C) (fun g turn => turn.InTime g) Guarded.initial g)
    (hlater : Runs.Reaches (Guarded.turn S C) (Keeps koid) g g') :
    g'.st.store.objectAt koid g.st.hlc = g.st.store.headObject koid := by
  have htimed := timed_of_reaches S C h
  rw [objectAt_of_reaches htimed le_rfl hlater, objectAt_hlc htimed]

/-- The first version of the note, behind the other two. -/
theorem past_reads_forgotten :
    ∃ g, Runs.run (Guarded.turn (.basic ∅ ∅) (.unsigned Sha256.fips180)) Guarded.initial
        (VersionHistory.turns.take 1) = some g ∧
      ∃ g', Runs.run (Guarded.turn (.basic ∅ ∅) (.unsigned Sha256.fips180)) g
          (VersionHistory.turns.drop 1) = some g' ∧
        (g'.st.store.objectAt 1 g.st.hlc).map KnowledgeObject.version = some 1 := by
  refine Runs.exists_run (C := fun g turn => turn.InTime g) (P := fun g =>
    (g.st.store.headObject 1).map KnowledgeObject.version = some 1 ∧
      Runs.Meets (Guarded.turn (.basic ∅ ∅) (.unsigned Sha256.fips180)) (Keeps 1) g
        (VersionHistory.turns.drop 1))
    (by decide +kernel) (by decide +kernel) fun g hreach ⟨hversion, hmeets⟩ => ?_
  refine Runs.exists_run (C := Keeps 1) (P := fun _ => True) ?_ hmeets fun g' hlater _ => ?_
  · exact ⟨_, rfl, trivial⟩
  · rw [past_reads_exact _ _ 1 g g' hreach hlater, hversion]

end Aikoql.Kernel
