import Aikoql.Lib.MergeMaps
import Aikoql.Kernel.Calls
import Aikoql.Kernel.Batches

/-!
# What a Batch Does

The kernel builds its batches in four places, and every batch does the same kind of
thing: it commits versions, appends events to the journal, and may erase an object.
This is said once, for all of them.

A commit is a version together with its event. It is on top of the head it was read
from: its version number is one more, and its references are those of the head and
its own. Its event carries the hash of its bytes. The events of a batch continue the
journal from the pipe one after the other, and the pipe afterwards is the one behind
the last of them.

## Theorems

* `commitVersion_describes`, `chainOps_chained`: The batches of one version and of
  several.
* `Describes.mem_relOut`, `Describes.mem_relIn`: The relationship rows behind a batch.
-/

namespace Aikoql.Kernel

open Std.ExtTreeMap
open List Option Put
open Storage (Sha256)

variable {ke : KnowledgeEvent} {ko : KnowledgeObject} {koid : Koid} {pipe : Pipeline} {c : Commit}
  {note : Option Text} {kind : EventKind} {ts : Nat} {H : Sha256} {s : Store} {actor : Text}

/-! ## Journal -/

/-- The event continues the journal from the pipe, and its hash is right. -/
structure Follows (H : Sha256) (pipe : Pipeline) (ke : KnowledgeEvent) : Prop where
  seq : ke.seq = pipe.seq + 1
  prev : ke.prevAuditHash = pipe.audit
  audit : ke.auditHash = auditHashOf H ke.prevAuditHash ke.seq ke.koid ke.version ke.kind
    ke.commitTs ke.payloadHash ke.signature ke.actor ke.note

/-- Events that continue the journal one after the other, from one pipe to another. -/
inductive Extends (H : Sha256) : Pipeline → List KnowledgeEvent → Pipeline → Prop
  | nil (pipe : Pipeline) : Extends H pipe [] pipe
  | cons {pipe pipe' : Pipeline} {ke : KnowledgeEvent} {kes : List KnowledgeEvent}
      (first : Follows H pipe ke) (rest : Extends H (pipe.past ke) kes pipe') :
      Extends H pipe (ke :: kes) pipe'

theorem Extends.one (h : Follows H pipe ke) : Extends H pipe [ke] (pipe.past ke) :=
  .cons h (.nil _)

theorem Extends.eq_of_nil {pipe' : Pipeline} (h : Extends H pipe [] pipe') : pipe' = pipe := by
  cases h
  rfl

theorem Extends.pairPin {pipe' : Pipeline} {kes : List KnowledgeEvent}
    (h : Extends H pipe kes pipe') : pipe'.pairPin = pipe.pairPin := by
  induction h with
  | nil => rfl
  | cons first rest ih => exact ih

/-! ## Changes -/

structure Commit where
  ko : KnowledgeObject
  ke : KnowledgeEvent

def Store.headRels (s : Store) (koid : Koid) : List RelationshipRef :=
  ((s.headObject koid).map KnowledgeObject.relationships).getD []

def Store.headVersion (s : Store) (koid : Koid) : Nat :=
  ((s.headObject koid).map KnowledgeObject.version).getD 0

def Store.headRefs (s : Store) (koid : Koid) : List EventRef :=
  ((s.headObject koid).map KnowledgeObject.eventRefs).getD []

theorem Store.head_eq {head : KnowledgeObject} (h : s.headObject koid = some head) :
    s.headRels koid = head.relationships ∧ s.headVersion koid = head.version ∧
      s.headRefs koid = head.eventRefs := by
  simp [Store.headRels, Store.headVersion, Store.headRefs, h]

/-- A commit on top of the current version. -/
structure Commit.OnTop (s : Store) (ts : Nat) (c : Commit) : Prop where
  version : c.ko.version = s.headVersion c.ko.koid + 1
  commitTs : c.ko.commitTs = ts
  eventRefs : c.ko.eventRefs = s.headRefs c.ko.koid ++ [⟨c.ke.seq, c.ke.kind, ts⟩]
  koid : c.ke.koid = c.ko.koid

def Commit.edges (c : Commit) : List Edge :=
  c.ko.relationships.map (RelationshipRef.edge c.ko.koid)

def Commit.removed (s : Store) (c : Commit) : List Edge :=
  (removedRels (s.headRels c.ko.koid) c.ko.relationships).map (RelationshipRef.edge c.ko.koid)

def Commit.typeRows (c : Commit) : List (Text × Koid) :=
  if isCatalogType c.ko.metadata.typeName then [] else [(c.ko.metadata.typeName, c.ko.koid)]

def Commit.lists (c : Commit) : Koid × List RelationshipRef :=
  (c.ko.koid, c.ko.relationships)

theorem swapRemove_perm {α : Type} (xs : List α) (i : Nat) (hi : i < xs.length) :
    (xs[i] :: swapRemove xs i).Perm xs := by
  rcases eq_nil_or_concat xs with rfl | ⟨ys, last, rfl⟩
  · cases hi
  · rw [concat_eq_append] at hi
    simp only [concat_eq_append, swapRemove, getLast?_append, getLast?_singleton, Option.some_or]
    by_cases hlast : i < ys.length
    · -- The last element takes the place of the one that goes.
      rw [set_append_left _ _ hlast, dropLast_concat, getElem_append_left hlast]
      calc
        Perm (ys[i] :: ys.set i last) (ys[i] :: last :: ys.eraseIdx i) :=
          (set_perm_cons_eraseIdx hlast last).cons _
        Perm _ (last :: ys[i] :: ys.eraseIdx i) := Perm.swap _ _ _
        Perm _ (last :: ys) := (getElem_cons_eraseIdx_perm hlast).cons _
        Perm _ (ys ++ [last]) := (perm_append_singleton last ys).symm
    · have hi : i = ys.length := by
        rw [length_append, length_singleton] at hi
        omega
      subst hi
      simpa using (perm_append_singleton last ys).symm

theorem count_removedRels (prev rels : List RelationshipRef) (rel : RelationshipRef) :
    (removedRels prev rels).count rel = prev.count rel - rels.count rel := by
  unfold removedRels
  induction rels generalizing prev with
  | nil => simp
  | cons r rels ih =>
    rw [foldl_cons, ih, count_cons]
    cases hfind : prev.findIdx? fun p => p = r with
    | none =>
      -- Nothing to take out: the version before has no more of this one.
      have hnot : r ∉ prev := by
        intro hr
        have := findIdx?_eq_none_iff.mp hfind r hr
        simp at this
      by_cases hrel : r = rel
      · subst hrel
        rw [count_eq_zero_of_not_mem hnot]
        omega
      · rw [if_neg (by simpa using hrel), Nat.add_zero]
    | some i =>
      obtain ⟨hi, hr, -⟩ := findIdx?_eq_some_iff_getElem.mp hfind
      have hr : prev[i] = r := by simpa using hr
      have hperm := (swapRemove_perm prev i hi).count_eq rel
      rw [hr, count_cons] at hperm
      change (swapRemove prev i).count rel - rels.count rel = _
      omega

theorem mem_removed {s : Store} {c : Commit} {e : Edge} :
    e ∈ c.removed s ↔ ∃ rel ∈ s.headRels c.ko.koid,
      c.ko.relationships.count rel < (s.headRels c.ko.koid).count rel ∧ rel.edge c.ko.koid = e := by
  have hmem : ∀ rel, rel ∈ removedRels (s.headRels c.ko.koid) c.ko.relationships ↔
      c.ko.relationships.count rel < (s.headRels c.ko.koid).count rel := by
    intro rel
    rw [← count_pos_iff, count_removedRels]
    omega
  rw [Commit.removed, List.mem_map]
  constructor
  · rintro ⟨rel, hrel, he⟩
    have hlt := (hmem rel).mp hrel
    exact ⟨rel, count_pos_iff.mp (by omega), hlt, he⟩
  · rintro ⟨rel, -, hlt, he⟩
    exact ⟨rel, (hmem rel).mpr hlt, he⟩

structure Change where
  commits : List Commit
  events : List KnowledgeEvent
  erased : Option Koid

/-- The rows of versions, for a batch that holds no other rows of the same tables. -/
structure Rows (s : Store) (ts : Nat) (commits : List Commit) (batch : WriteBatch) : Prop where
  objects : batch.puts.filterMap asObject = commits.map fun c => (c.ko.koid, ts, c.ko)
  heads : batch.puts.filterMap asHead
    = commits.map fun c => (c.ko.koid, ⟨c.ko.version, ts, c.ko.lifecycle.state⟩)
  types : batch.puts.filterMap asType = commits.flatMap Commit.typeRows
  relOut : batch.puts.filterMap asRelOut = commits.flatMap Commit.edges
  relIn : batch.puts.filterMap asRelIn = commits.flatMap Commit.edges
  delOut : batch.dels.filterMap Del.asRelOut = commits.flatMap (Commit.removed s)
  delIn : batch.dels.filterMap Del.asRelIn = commits.flatMap (Commit.removed s)

structure Describes (H : Sha256) (st : State) (ts : Nat) (batch : WriteBatch) (pipe : Pipeline)
    (change : Change) : Prop where
  rows : Rows st.store ts change.commits batch
  onTop : ∀ c ∈ change.commits, c.OnTop st.store ts
  nodup : (change.commits.map fun c => c.ko.koid).Nodup
  journaled : ∀ c ∈ change.commits, c.ke ∈ change.events
  payloads : ∀ c ∈ change.commits,
    c.ke.payloadHash = H.digest (encodeKo c.ko) ∧ c.ke.commitTs = ts ∧ c.ke.kind ≠ .audit
  sources : ∀ ke ∈ change.events,
    (∃ c ∈ change.commits, c.ke = ke) ∨ ke.kind = .audit ∨ change.erased = some ke.koid
  stamped : ∀ ke ∈ change.events, ke.commitTs = ts
  follow : Extends H st.pipe change.events pipe
  events : batch.puts.filterMap asEvent = change.events.map fun ke => (ke.seq, ke)
  journal : batch.puts.filterMap asJournal = [⟨pipe.seq, pipe.audit, ts⟩] ∨
    batch.puts.filterMap asJournal = [] ∧ change.events = []
  watermark : batch.puts.filterMap asUsageHead
    = (batch.puts.filterMap asJournal).map fun head => (head.seq, head.lastTs)
  tombs : (batch.puts.filterMap asTomb).map Prod.fst = change.erased.toList
  delHeads : batch.dels.filterMap Del.asHead = change.erased.toList
  delObjects : batch.dels.filterMap Del.asObject = change.erased.toList.flatMap fun koid =>
    (st.store.objects koid).keys.map fun commitTs => (koid, commitTs)
  delTypes : batch.dels.filterMap Del.asType = change.erased.toList.flatMap fun koid =>
    (st.store.headObject koid).toList.map fun head => (head.metadata.typeName, koid)
  alone : ∀ koid, change.erased = some koid →
    change.commits = [] ∧ (st.store.headObject koid).isSome

def Made (ts : Nat) (kos : List KnowledgeObject) (commits : List Commit) : Prop :=
  Forall₂ (fun ko c => ∃ seq kind, c.ko = ko.committed seq kind ts) kos commits

theorem Made.lists {kos : List KnowledgeObject} {commits : List Commit} (h : Made ts kos commits) :
    commits.map Commit.lists = kos.map fun ko => (ko.koid, ko.relationships) := by
  induction h with
  | nil => rfl
  | cons hc _ ih =>
    obtain ⟨seq, kind, hc⟩ := hc
    rw [map_cons, map_cons, ih, Commit.lists, hc]
    rfl

/-! ## Parts of a batch -/

@[simp]
theorem parts_relationPuts (koid : Koid) (rels : List RelationshipRef) :
    (relationPuts koid rels).filterMap asEvent = [] ∧
      (relationPuts koid rels).filterMap asTomb = [] ∧
      (relationPuts koid rels).filterMap asType = [] ∧
      (relationPuts koid rels).filterMap asUsage = [] ∧
      (relationPuts koid rels).filterMap asUsageHead = [] ∧
      (relationPuts koid rels).filterMap asJournal = [] ∧
      (relationPuts koid rels).filterMap asHead = [] ∧
      (relationPuts koid rels).filterMap asObject = [] ∧
      (relationPuts koid rels).filterMap asRelOut = rels.map (RelationshipRef.edge koid) ∧
      (relationPuts koid rels).filterMap asRelIn = rels.map (RelationshipRef.edge koid) := by
  induction rels with
  | nil => simp [relationPuts]
  | cons rel rels ih =>
    simpa [relationPuts, writeRelIndex, filterMap_cons, asEvent, asTomb, asType, asUsage,
      asUsageHead, asJournal, asHead, asObject, asRelOut, asRelIn] using ih

@[simp]
theorem parts_relationDels (koid : Koid) (prev rels : List RelationshipRef) :
    (relationDels koid prev rels).filterMap Del.asHead = [] ∧
      (relationDels koid prev rels).filterMap Del.asType = [] ∧
      (relationDels koid prev rels).filterMap Del.asObject = [] ∧
      (relationDels koid prev rels).filterMap Del.asRelOut
        = (removedRels prev rels).map (RelationshipRef.edge koid) ∧
      (relationDels koid prev rels).filterMap Del.asRelIn
        = (removedRels prev rels).map (RelationshipRef.edge koid) := by
  unfold relationDels
  induction removedRels prev rels with
  | nil => simp
  | cons rel rels ih =>
    simpa [delRelIndex, filterMap_cons, Del.asHead, Del.asType, Del.asObject,
      Del.asRelOut, Del.asRelIn] using ih

@[simp]
theorem parts_writeTypeIndex (typeName : Text) (koid : Koid) :
    (writeTypeIndex typeName koid).filterMap asType
        = (if isCatalogType typeName then [] else [(typeName, koid)]) ∧
      (writeTypeIndex typeName koid).filterMap asEvent = [] ∧
      (writeTypeIndex typeName koid).filterMap asTomb = [] ∧
      (writeTypeIndex typeName koid).filterMap asUsage = [] ∧
      (writeTypeIndex typeName koid).filterMap asUsageHead = [] ∧
      (writeTypeIndex typeName koid).filterMap asJournal = [] ∧
      (writeTypeIndex typeName koid).filterMap asHead = [] ∧
      (writeTypeIndex typeName koid).filterMap asObject = [] ∧
      (writeTypeIndex typeName koid).filterMap asRelOut = [] ∧
      (writeTypeIndex typeName koid).filterMap asRelIn = [] := by
  unfold writeTypeIndex
  split <;> exact ⟨rfl, rfl, rfl, rfl, rfl, rfl, rfl, rfl, rfl, rfl⟩

/-! ## Events -/

section

variable {C : Crypto} {st : State}

theorem versionEvent_follows {origin : Origin}
    (h : versionEvent C pipe.audit pipe.prevSig (pipe.seq + 1) ko kind origin actor note = .ok ke) :
    Follows C.sha256 pipe ke ∧ ke.koid = ko.koid ∧ ke.kind = kind ∧
      ke.payloadHash = C.sha256.digest (encodeKo ko) ∧ ke.commitTs = ko.commitTs := by
  simp only [versionEvent, bind_eq_ok, pure_eq_ok] at h
  obtain ⟨_, -, rfl⟩ := h
  exact ⟨⟨rfl, rfl, rfl⟩, rfl, rfl, rfl, rfl⟩

theorem eraseEvent_follows {head : KnowledgeObject}
    (h : eraseEvent C st head koid ts actor note = .ok ke) :
    Follows C.sha256 st.pipe ke ∧ ke.koid = koid ∧ ke.commitTs = ts := by
  simp only [eraseEvent, bind_eq_ok, pure_eq_ok] at h
  obtain ⟨_, -, rfl⟩ := h
  exact ⟨⟨rfl, rfl, rfl⟩, rfl, rfl⟩

theorem auditEvent_follows {note : Text} (h : auditEvent C st ts note = .ok ke) :
    Follows C.sha256 st.pipe ke ∧ ke.kind = .audit ∧ ke.commitTs = ts := by
  simp only [auditEvent, bind_eq_ok, pure_eq_ok] at h
  obtain ⟨_, -, rfl⟩ := h
  exact ⟨⟨rfl, rfl, rfl⟩, rfl, rfl⟩

/-! ## One version -/

@[simp]
theorem removedRels_nil (rels : List RelationshipRef) : removedRels [] rels = [] := by
  induction rels with
  | nil => rfl
  | cons rel rels ih => exact ih

theorem onTop_committed {seq : Nat} (ts : Nat) (hversion : ko.version = s.headVersion ko.koid + 1)
    (hrefs : ko.eventRefs = s.headRefs ko.koid) (hseq : ke.seq = seq) (hkoid : ke.koid = ko.koid)
    (hkind : ke.kind = kind) : Commit.OnTop s ts ⟨ko.committed seq kind ts, ke⟩ where
  version := hversion
  commitTs := rfl
  eventRefs := by
    subst hseq hkind
    exact congrArg (· ++ [_]) hrefs
  koid := hkoid

section

variable {millis hlc : Nat} {ko : KnowledgeObject} {kind : EventKind} {origin : Origin}
  {actor : Text} {note idem : Option Text} {prevRels : Option (List RelationshipRef)}
  {usage : Option (Text × Nat)} {ready : Ready}

theorem validate_of_commitVersion
    (h : commitVersion C st millis ko kind origin actor note idem prevRels usage
      = (hlc, .ok ready)) : ko.validate = .ok () := by
  cases hvalid : ko.validate with
  | error e => simp [commitVersion, hvalid] at h
  | ok u => rfl

theorem commitVersion_describes
    (h : commitVersion C st millis ko kind origin actor note idem prevRels usage
      = (hlc, .ok ready)) (hkind : kind ≠ .audit)
    (hprev : prevRels.getD [] = st.store.headRels ko.koid)
    (hversion : ko.version = st.store.headVersion ko.koid + 1)
    (hrefs : ko.eventRefs = st.store.headRefs ko.koid) :
    ∃ ke, Describes C.sha256 st ready.commitTs ready.batch ready.pipe
      ⟨[⟨ko.committed (st.pipe.seq + 1) kind ready.commitTs, ke⟩], [ke], none⟩ := by
  have hvalid := validate_of_commitVersion h
  simp only [commitVersion, hvalid, Prod.mk.injEq, bind_eq_ok, pure_eq_ok] at h
  obtain ⟨-, ke, hke, rfl⟩ := h
  obtain ⟨hfollows, hkoid, rfl, hpayload⟩ := versionEvent_follows hke
  have hontop := onTop_committed (st.pipe.pairPin.getD (hlcNow st.hlc millis))
    hversion hrefs hfollows.seq hkoid rfl
  have hdel : ∀ rels, ((prevRels.map fun prev => relationDels ko.koid prev rels).getD [])
      = relationDels ko.koid (st.store.headRels ko.koid) rels := by
    intro rels
    rw [← hprev]
    cases prevRels with
    | none => simp [relationDels]
    | some prev => rfl
  refine ⟨ke, ?_⟩
  constructor
  case rows =>
    constructor
    case delOut => simp [hdel, Commit.removed, KnowledgeObject.committed]
    case delIn => simp [hdel, Commit.removed, KnowledgeObject.committed]
    all_goals
      cases usage <;> cases idem <;> simp [filterMap_cons, asObject, asHead, asType, asRelOut,
          asRelIn, Commit.edges, Commit.typeRows, KnowledgeObject.committed]
  case onTop => simpa using hontop
  case nodup => simp
  case journaled => simp
  case payloads => simpa using ⟨hpayload.1, hpayload.2, hkind⟩
  case sources => simp
  case stamped => exact fun e he => (mem_singleton.mp he) ▸ hpayload.2
  case follow => exact .one hfollows
  case events =>
    cases usage <;> cases idem <;> simp [filterMap_cons, asEvent, hfollows.seq]
  case journal =>
    cases usage <;> cases idem <;> simp [filterMap_cons, asJournal, Pipeline.past, hfollows.seq]
  case watermark =>
    cases usage <;> cases idem <;> simp [filterMap_cons, asJournal, asUsageHead]
  case tombs => cases usage <;> cases idem <;> simp [filterMap_cons, asTomb]
  case delHeads => simp [hdel, KnowledgeObject.committed, Del.asHead]
  case delObjects => simp [hdel, KnowledgeObject.committed, Del.asObject]
  case delTypes => simp [hdel, KnowledgeObject.committed, Del.asType]
  case alone => simp

end

/-! ## Several versions -/

structure Pending.OnTop (s : Store) (p : Pending) : Prop where
  version : p.ko.version = s.headVersion p.ko.koid + 1
  curV : p.curV = s.headVersion p.ko.koid
  eventRefs : p.ko.eventRefs = s.headRefs p.ko.koid
  prevRels : p.prevRels = s.headRels p.ko.koid

/-- The versions of a transaction as commits. -/
structure Chained (C : Crypto) (s : Store) (ts : Nat) (pipe : Pipeline) (pending : List Pending)
    (chain : Chain) (commits : List Commit) : Prop where
  rows : Rows s ts commits chain.batch
  onTop : ∀ c ∈ commits, c.OnTop s ts
  payloads : ∀ c ∈ commits,
    c.ke.payloadHash = C.sha256.digest (encodeKo c.ko) ∧ c.ke.commitTs = ts ∧ c.ke.kind ≠ .audit
  made : Made ts (pending.map Pending.ko) commits
  follow : Extends C.sha256 pipe (commits.map Commit.ke) chain.pipe
  events : chain.batch.puts.filterMap asEvent = commits.map fun c => (c.ke.seq, c.ke)
  journal : chain.batch.puts.filterMap asJournal = []
  usage : chain.batch.puts.filterMap asUsage = []
  watermark : chain.batch.puts.filterMap asUsageHead = []
  tombs : chain.batch.puts.filterMap asTomb = []
  delHeads : chain.batch.dels.filterMap Del.asHead = []
  delObjects : chain.batch.dels.filterMap Del.asObject = []
  delTypes : chain.batch.dels.filterMap Del.asType = []
  results : chain.results = commits.map fun c => ⟨c.ko.koid, c.ko.version, ts, c.ke.seq⟩

theorem chainOps_chained {pending : List Pending} {chain : Chain}
    (h : chainOps C ts pipe pending = .ok chain) (hpending : ∀ p ∈ pending, p.OnTop s)
    (hkinds : ∀ p ∈ pending, p.kind ≠ .audit) :
    ∃ commits, Chained C s ts pipe pending chain commits := by
  induction pending generalizing pipe chain with
  | nil =>
    cases h
    exact ⟨[], ⟨rfl, rfl, rfl, rfl, rfl, rfl, rfl⟩, by simp, by simp, .nil, .nil _, rfl, rfl,
      rfl, rfl, rfl, rfl, rfl, rfl, rfl⟩
  | cons p ps ih =>
    simp only [chainOps, bind_eq_ok, pure_eq_ok] at h
    obtain ⟨_, -, ke, hke, rest, hrest, rfl⟩ := h
    obtain ⟨hfollows, hkoid, hkind, hpayload⟩ := versionEvent_follows hke
    obtain ⟨commits, hc⟩ := ih hrest (fun p hp => hpending p (mem_cons_of_mem _ hp))
      fun p hp => hkinds p (mem_cons_of_mem _ hp)
    have hp := hpending p mem_cons_self
    have hontop := onTop_committed ts hp.version hp.eventRefs hfollows.seq hkoid hkind
    refine ⟨⟨p.ko.committed (pipe.seq + 1) p.kind ts, ke⟩ :: commits, ?_⟩
    constructor
    case rows =>
      constructor
      case delOut =>
        simp [WriteBatch.append, hc.rows.delOut, hp.prevRels, Commit.removed,
          KnowledgeObject.committed]
      case delIn =>
        simp [WriteBatch.append, hc.rows.delIn, hp.prevRels, Commit.removed,
          KnowledgeObject.committed]
      all_goals
        simp [WriteBatch.append, filterMap_cons, asObject, asHead, asType, asRelOut, asRelIn,
          Commit.edges, Commit.typeRows, hc.rows.objects, hc.rows.heads, hc.rows.types,
          hc.rows.relOut, hc.rows.relIn, KnowledgeObject.committed]
    case onTop => simpa using ⟨hontop, hc.onTop⟩
    case payloads =>
      have hfirst : ke.kind ≠ .audit := hkind ▸ hkinds p mem_cons_self
      simpa using ⟨⟨hpayload.1, hpayload.2, hfirst⟩, hc.payloads⟩
    case made => exact .cons ⟨_, _, rfl⟩ hc.made
    case follow => exact .cons hfollows hc.follow
    case events =>
      simp [WriteBatch.append, filterMap_cons, asEvent, hc.events, hfollows.seq]
    case journal => simp [WriteBatch.append, filterMap_cons, asJournal, hc.journal]
    case usage => simp [WriteBatch.append, filterMap_cons, asUsage, hc.usage]
    case watermark =>
      simp [WriteBatch.append, filterMap_cons, asUsageHead, hc.watermark]
    case tombs => simp [WriteBatch.append, filterMap_cons, asTomb, hc.tombs]
    case delHeads => simp [WriteBatch.append, hc.delHeads]
    case delObjects => simp [WriteBatch.append, hc.delObjects]
    case delTypes => simp [WriteBatch.append, hc.delTypes]
    case results =>
      simp [hc.results, hp.curV, hfollows.seq, ← hp.version, KnowledgeObject.committed]

/-! ## The tables behind a batch -/

section

variable {H : Sha256} {ts : Nat} {batch : WriteBatch} {pipe : Pipeline} {change : Change}

section

variable (h : Describes H st ts batch pipe change)
include h

theorem Describes.koid_ne {c' : Commit} (hc : c ∈ change.commits) (hc' : c' ∈ change.commits)
    (hne : c' ≠ c) : c'.ko.koid ≠ c.ko.koid := by
  intro heq
  exact hne (inj_on_of_nodup_map h.nodup hc' hc heq)

theorem Describes.events_ne_nil (hcommits : change.commits ≠ []) : change.events ≠ [] := by
  obtain ⟨c, hc⟩ := exists_mem_of_ne_nil _ hcommits
  exact ne_nil_of_mem (h.journaled c hc)

theorem Describes.erased_eq_none (hc : c ∈ change.commits) : change.erased = none := by
  cases herased : change.erased with
  | none => rfl
  | some koid =>
    rw [(h.alone koid herased).1] at hc
    cases hc

theorem Describes.objects_commit (hc : c ∈ change.commits) :
    (st.store.writeBatch batch).objects c.ko.koid
      = (st.store.objects c.ko.koid).insert ts c.ko := by
  rw [objects_writeBatch, h.delObjects, h.rows.objects, h.erased_eq_none hc]
  simp only [toList_none, flatMap_nil, foldl_nil, foldl_map]
  rw [foldl_eq_one hc (.of_map _ h.nodup), if_pos rfl]
  intro c' hc' hne m
  rw [if_neg fun heq => h.koid_ne hc hc' hne heq.symm]

theorem Describes.objects_other (hcommits : ∀ c ∈ change.commits, c.ko.koid ≠ koid)
    (herased : change.erased ≠ some koid) :
    (st.store.writeBatch batch).objects koid = st.store.objects koid := by
  rw [objects_writeBatch, h.delObjects, h.rows.objects]
  simp only [foldl_map]
  rw [foldl_eq_self, foldl_eq_self]
  · intro c hc m
    rw [if_neg (Ne.symm (hcommits c hc))]
  · intro d hd m
    rw [if_neg]
    rintro rfl
    obtain ⟨koid', hkoid', hd⟩ := mem_flatMap.mp hd
    obtain ⟨_, -, rfl⟩ := List.mem_map.mp hd
    exact herased (mem_toList.mp hkoid')

theorem Describes.objects_erased (herased : change.erased = some koid) :
    (st.store.writeBatch batch).objects koid = ∅ := by
  rw [objects_writeBatch, h.delObjects, h.rows.objects, (h.alone koid herased).1, herased]
  simp only [map_nil, foldl_nil, toList_some, flatMap_cons,
    flatMap_nil, append_nil, foldl_map, if_true]
  exact foldl_erase_keys _

theorem Describes.version_cases {ts' : Nat}
    (hko : (st.store.writeBatch batch).getObjectVersion koid ts' = some ko) :
    (∃ c ∈ change.commits, c.ko.koid = koid ∧ c.ko = ko ∧ ts = ts') ∨
      st.store.getObjectVersion koid ts' = some ko := by
  unfold Store.getObjectVersion at hko ⊢
  by_cases hcommits : ∀ c ∈ change.commits, c.ko.koid ≠ koid
  · by_cases herased : change.erased = some koid
    · rw [h.objects_erased herased] at hko
      simp at hko
    · exact .inr (h.objects_other hcommits herased ▸ hko)
  · push Not at hcommits
    obtain ⟨c, hc, rfl⟩ := hcommits
    rw [h.objects_commit hc] at hko
    rcases getElem?_insert_cases hko with ⟨hts, heq⟩ | ⟨-, hko⟩
    · exact .inl ⟨c, hc, rfl, heq, hts⟩
    · exact .inr hko

theorem Describes.heads_commit (hc : c ∈ change.commits) :
    (st.store.writeBatch batch).heads[c.ko.koid]?
      = some ⟨c.ko.version, ts, c.ko.lifecycle.state⟩ := by
  rw [heads_writeBatch, h.delHeads, h.rows.heads, h.erased_eq_none hc, toList_none, foldl_nil,
    getElem?_foldl_insert, foldl_map, foldl_eq_one hc (.of_map _ h.nodup), if_pos rfl]
  intro c' hc' hne m
  rw [if_neg (h.koid_ne hc hc' hne)]

theorem Describes.heads_other (hcommits : ∀ c ∈ change.commits, c.ko.koid ≠ koid)
    (herased : change.erased ≠ some koid) :
    (st.store.writeBatch batch).heads[koid]? = st.store.heads[koid]? := by
  have hputs : (List.foldl (fun m kh => m.insert kh.1 kh.2) st.store.heads
      (change.commits.map fun c =>
        (c.ko.koid, (⟨c.ko.version, ts, c.ko.lifecycle.state⟩ : Head))))[koid]?
      = st.store.heads[koid]? := by
    rw [getElem?_foldl_insert, foldl_map, foldl_eq_self]
    intro c hc m
    rw [if_neg (hcommits c hc)]
  rw [heads_writeBatch, h.delHeads, h.rows.heads, ← hputs]
  cases hcase : change.erased with
  | none => rfl
  | some koid' =>
    rw [toList_some, foldl_cons, foldl_nil, getElem?_erase, if_neg]
    rw [Std.LawfulEqCmp.compare_eq_iff_eq]
    rintro rfl
    exact herased hcase

theorem Describes.heads_erased (herased : change.erased = some koid) :
    (st.store.writeBatch batch).heads[koid]? = none := by
  rw [heads_writeBatch, h.delHeads, herased, toList_some, foldl_cons, foldl_nil,
    getElem?_erase_self]

theorem Describes.headObject_commit (hc : c ∈ change.commits) :
    (st.store.writeBatch batch).headObject c.ko.koid = some c.ko := by
  rw [Store.headObject, h.heads_commit hc, bind_some, Store.getObjectVersion,
    h.objects_commit hc, getElem?_insert_self]

theorem Describes.headObject_other (hcommits : ∀ c ∈ change.commits, c.ko.koid ≠ koid)
    (herased : change.erased ≠ some koid) :
    (st.store.writeBatch batch).headObject koid = st.store.headObject koid := by
  simp only [Store.headObject, h.heads_other hcommits herased, Store.getObjectVersion,
    h.objects_other hcommits herased]

theorem Describes.headObject_erased (herased : change.erased = some koid) :
    (st.store.writeBatch batch).headObject koid = none := by
  rw [Store.headObject, h.heads_erased herased, bind_none]

theorem Describes.headObject_cases (hko : (st.store.writeBatch batch).headObject koid = some ko) :
    (∃ c ∈ change.commits, c.ko.koid = koid ∧ c.ko = ko) ∨
      ((∀ c ∈ change.commits, c.ko.koid ≠ koid) ∧ change.erased ≠ some koid ∧
        st.store.headObject koid = some ko) := by
  by_cases hcommits : ∀ c ∈ change.commits, c.ko.koid ≠ koid
  · by_cases herased : change.erased = some koid
    · rw [h.headObject_erased herased] at hko
      cases hko
    · exact .inr ⟨hcommits, herased, h.headObject_other hcommits herased ▸ hko⟩
  · push Not at hcommits
    obtain ⟨c, hc, rfl⟩ := hcommits
    rw [h.headObject_commit hc] at hko
    exact .inl ⟨c, hc, rfl, Option.some.inj hko⟩

end

def Store.Keyed (s : Store) : Prop :=
  ∀ koid ko, s.headObject koid = some ko → ko.koid = koid

section

variable (h : Describes H st ts batch pipe change)
include h

theorem Describes.keyed (hkeyed : st.store.Keyed) : (st.store.writeBatch batch).Keyed := by
  intro koid ko hko
  rcases h.headObject_cases hko with ⟨c, -, hkoid, rfl⟩ | ⟨-, -, hhead⟩
  · exact hkoid
  · exact hkeyed koid ko hhead

theorem Describes.mem_types (row : Text × Koid) : row ∈ (st.store.writeBatch batch).types ↔
      (row ∈ st.store.types ∨ ∃ c ∈ change.commits, row ∈ c.typeRows) ∧
        ¬∃ head, change.erased = some row.2 ∧ st.store.headObject row.2 = some head ∧
          head.metadata.typeName = row.1 := by
  rw [types_writeBatch, mem_foldl_erase, mem_foldl_insert, h.rows.types, h.delTypes]
  simp only [mem_flatMap, mem_toList, List.mem_map]
  refine and_congr_right fun _ => not_congr ?_
  constructor
  · rintro ⟨koid, herased, head, hhead, rfl⟩
    exact ⟨head, herased, hhead, rfl⟩
  · rintro ⟨head, herased, hhead, htype⟩
    exact ⟨row.2, herased, head, hhead, Prod.ext htype rfl⟩

theorem Describes.mem_relOut (e : Edge) : e ∈ (st.store.writeBatch batch).relOut ↔
      (e ∈ st.store.relOut ∨ ∃ c ∈ change.commits, e ∈ c.edges) ∧
        ∀ c ∈ change.commits, e ∉ c.removed st.store := by
  rw [mem_relOut_writeBatch, h.rows.relOut, h.rows.delOut]
  simp only [mem_flatMap, not_exists, not_and]

theorem Describes.mem_relIn (e : Edge) : e ∈ (st.store.writeBatch batch).relIn ↔
      (e ∈ st.store.relIn ∨ ∃ c ∈ change.commits, e ∈ c.edges) ∧
        ∀ c ∈ change.commits, e ∉ c.removed st.store := by
  rw [mem_relIn_writeBatch, h.rows.relIn, h.rows.delIn]
  simp only [mem_flatMap, not_exists, not_and]

end

end

end

end Aikoql.Kernel
