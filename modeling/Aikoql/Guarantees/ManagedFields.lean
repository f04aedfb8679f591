import Aikoql.Kernel.Guarded

/-!
# Fields of the Kernel

Some extension fields and relationships of an object belong to the kernel: what is known
of it, who vouches for it, what it rests on, who holds a claim to it. Requests do not
change them, if they leave them alone.

`remember` refuses a request that names such a field, and an update keeps the fields of
the head that are on a list. Two fields are not on the list, so every update drops them.
A relationship the kernel owns is kept as well, and one that the request states is added
to them like any other.

`transact` builds its objects from the requests. It refuses no field and keeps none, so
what a request states is what is stored, and what it does not state is gone.

## Main definitions

* `Preserved`: Objects have the fields of the kernel that they had.
* `LeavesAlone`: A call does not touch what the kernel owns.

## Main theorems

* `managed_preserved`: These fields in every run of such calls.
* `ManagedFields.managed_forged`: Calls that forge or drop them.
-/

namespace Aikoql.Kernel

open List
open Storage (Sha256)

variable {new old : KnowledgeObject} {req : RememberRequest} {s s' : Store} {key : Text}
variable {mid head : KnowledgeObject}
variable {koid : Koid} {draft : Draft} {call : Call} {o : Outcome}

/-! ## What the kernel owns -/

/-- The fields that only the kernel's own operations change. The salience is one that every
    write computes. -/
def reservedExtensions : List Text :=
  kernelManagedExtensions.filter fun key => key ≠ extSalience

/-- The salience is the one a write computes. -/
def Rated (extensions : ExtensionMap) : Prop :=
  extensions[extSalience]? = some (.float (authorityFactor extensions))

/-- A version has the fields and the relationships of the kernel from another. -/
structure Inherits (old new : KnowledgeObject) : Prop where
  extensions : ∀ key ∈ reservedExtensions, new.extensions[key]? = old.extensions[key]?
  salience : new.extensions[extSalience]? = old.extensions[extSalience]? ∨ Rated new.extensions
  relationships : ∀ rel, rel.relType ∈ carriedTypes →
    (rel ∈ new.relationships ↔ rel ∈ old.relationships)
  lifecycle : new.lifecycle = old.lifecycle

/-- An object has no field of the kernel but those every new object has, and no relationship of
    the kernel. -/
structure Unforged (ko : KnowledgeObject) : Prop where
  extensions : ∀ key ∈ reservedExtensions, ko.extensions[key]? = none ∨
    ko.extensions[key]? = (stampDefaults ko.lifecycle.origin ∅)[key]?
  salience : ko.extensions[extSalience]? = none ∨ Rated ko.extensions
  relationships : ∀ rel ∈ ko.relationships, rel.relType ∉ carriedTypes

/-- A version is a fair successor of what there was. -/
def Succeeds (old : Option KnowledgeObject) (new : KnowledgeObject) : Prop :=
  match old with
  | none => Unforged new
  | some old => Inherits old new

/-- Every object of a store is still in another one, and every object there is a fair
    successor. -/
structure Preserved (s s' : Store) : Prop where
  isSome : ∀ koid, (s.headObject koid).isSome = true → (s'.headObject koid).isSome = true
  succeeds : ∀ koid ko, s'.headObject koid = some ko → Succeeds (s.headObject koid) ko

theorem Inherits.refl (ko : KnowledgeObject) : Inherits ko ko :=
  ⟨fun _ _ => rfl, .inl rfl, fun _ _ => Iff.rfl, rfl⟩

theorem Inherits.rated (h : Inherits old new) (hrated : Rated old.extensions) :
    Rated new.extensions := by
  have hauthority : authorityFactor new.extensions = authorityFactor old.extensions := by
    rw [authorityFactor, authorityRank, h.extensions extAuthority (by decide)]
    rfl
  rcases h.salience with hsame | hnew
  · rw [Rated, hsame, hauthority]
    exact hrated
  · exact hnew

theorem Inherits.trans (h : Inherits old mid) (h' : Inherits mid new) : Inherits old new := by
  refine ⟨?_, ?_, ?_, h'.lifecycle.trans h.lifecycle⟩
  · intro key hkey
    exact (h'.extensions key hkey).trans (h.extensions key hkey)
  · rcases h.salience with hsame | hmid
    · rw [← hsame]
      exact h'.salience
    · exact .inr (h'.rated hmid)
  · intro rel hrel
    exact (h'.relationships rel hrel).trans (h.relationships rel hrel)

theorem Inherits.unforged (h : Inherits old new) (hold : Unforged old) : Unforged new := by
  refine ⟨?_, ?_, ?_⟩
  · intro key hkey
    rw [h.extensions key hkey, h.lifecycle]
    exact hold.extensions key hkey
  · rcases hold.salience with hnone | hrated
    · rw [← hnone]
      exact h.salience
    · exact .inr (h.rated hrated)
  · intro rel hrel htype
    exact hold.relationships rel ((h.relationships rel htype).mp hrel) htype

theorem Succeeds.inherits {old : Option KnowledgeObject} (h : Succeeds old mid)
    (h' : Inherits mid new) : Succeeds old new := by
  cases old with
  | none => exact h'.unforged h
  | some old => exact Inherits.trans h h'

theorem Preserved.refl (s : Store) : Preserved s s := by
  refine ⟨fun _ h => h, ?_⟩
  intro koid ko hko
  rw [hko]
  exact Inherits.refl ko

theorem Preserved.trans {s'' : Store} (h : Preserved s s') (h' : Preserved s' s'') :
    Preserved s s'' := by
  refine ⟨fun koid hsome => h'.isSome koid (h.isSome koid hsome), ?_⟩
  intro koid ko hko
  have hlast := h'.succeeds koid ko hko
  cases hmid : s'.headObject koid with
  | none =>
    -- What is not there in between was not there before.
    rw [hmid] at hlast
    cases hold : s.headObject koid with
    | none => exact hlast
    | some old =>
      have hsome := h.isSome koid (by rw [hold]; rfl)
      rw [hmid] at hsome
      cases hsome
  | some mid =>
    rw [hmid] at hlast
    exact (h.succeeds koid mid hmid).inherits hlast

/-! ## Calls that leave it alone -/

/-- The fields of the kernel that an update drops. -/
def droppedExtensions : List Text :=
  reservedExtensions.filter fun key => key ∉ carriedExtensions

/-- A request to `remember` states no relationship of the kernel that the head does not
    have, and the head has no field that an update drops. -/
def RememberRequest.LeavesAlone (req : RememberRequest) : Option KnowledgeObject → Prop
  | none => ∀ rel ∈ req.relationships, rel.relType ∉ carriedTypes
  | some head =>
    (∀ rel ∈ req.relationships, rel.relType ∈ carriedTypes → rel ∈ head.relationships) ∧
      (∀ key ∈ droppedExtensions, key ∉ head.extensions) ∧
      ∀ key ∈ claimExtensions, head.extensions[key]? ≠ some .null

/-- A request in a transaction restates all the kernel owns of the head, and to create an object
    it states the defaults at most. -/
def RememberRequest.Restates (req : RememberRequest) : Option KnowledgeObject → Prop
  | none =>
    (∀ key ∈ reservedExtensions, req.extensions[key]? = none ∨
        req.extensions[key]? = (stampDefaults req.origin ∅)[key]?) ∧
      (req.extensions[extSalience]? = none ∨ Rated req.extensions) ∧
      ∀ rel ∈ req.relationships, rel.relType ∉ carriedTypes
  | some head =>
    (∀ key ∈ reservedExtensions, req.extensions[key]? = head.extensions[key]?) ∧
      (req.extensions[extSalience]? = head.extensions[extSalience]? ∨ Rated req.extensions) ∧
      (∀ rel ∈ req.relationships, rel.relType ∈ carriedTypes → rel ∈ head.relationships) ∧
      ∀ rel ∈ head.relationships, rel.relType ∈ carriedTypes → rel ∈ req.relationships

/-- A call does not touch what the kernel owns. -/
def LeavesAlone (s : Store) (io : Ambient) : Call → Prop
  | .remember req => req.LeavesAlone (s.headObject (req.target io))
  | .transact ops _ _ =>
    ∀ target ∈ opTargets io 0 ops, target.2.request.Restates (s.headObject target.1)
  | _ => True

instance (extensions : ExtensionMap) : Decidable (Rated extensions) :=
  inferInstanceAs (Decidable (_ = _))

instance (req : RememberRequest) : ∀ head, Decidable (req.LeavesAlone head)
  | none => inferInstanceAs (Decidable (∀ rel ∈ req.relationships, _))
  | some head => inferInstanceAs (Decidable
      ((∀ rel ∈ req.relationships, rel.relType ∈ carriedTypes → rel ∈ head.relationships) ∧ _ ∧ _))

instance (req : RememberRequest) : ∀ head, Decidable (req.Restates head)
  | none => inferInstanceAs (Decidable (_ ∧ _ ∧ ∀ rel ∈ req.relationships, _))
  | some head => inferInstanceAs (Decidable (_ ∧ _ ∧
      (∀ rel ∈ req.relationships, rel.relType ∈ carriedTypes → rel ∈ head.relationships) ∧
        ∀ rel ∈ head.relationships, rel.relType ∈ carriedTypes → rel ∈ req.relationships))

instance (s : Store) (io : Ambient) : ∀ call, Decidable (LeavesAlone s io call)
  | .remember req => inferInstanceAs (Decidable (req.LeavesAlone _))
  | .transact ops _ _ => inferInstanceAs (Decidable (∀ target ∈ opTargets io 0 ops, _))
  | .evolve .. => isTrue trivial
  | .forget .. => isTrue trivial
  | .recordAudit _ => isTrue trivial

/-! ## The fields that are settled -/

theorem ne_salience_of_mem (h : key ∈ reservedExtensions) : extSalience ≠ key := by
  intro heq
  rw [reservedExtensions, mem_filter, ← heq] at h
  simp at h

theorem getElem?_stampSalience (extensions : ExtensionMap) (key : Text)
    (h : key ∈ reservedExtensions) : (stampSalience extensions)[key]? = extensions[key]? := by
  rw [stampSalience]
  simp [Std.ExtTreeMap.getElem?_insert, ne_salience_of_mem h]

theorem rated_stampSalience (extensions : ExtensionMap) : Rated (stampSalience extensions) := by
  have hauthority : authorityFactor (stampSalience extensions) = authorityFactor extensions := by
    rw [authorityFactor, authorityRank, getElem?_stampSalience _ extAuthority (by decide)]
    rfl
  rw [Rated, hauthority]
  exact Std.ExtTreeMap.getElem?_insert_self

theorem getElem?_stampDefaults {origin : Origin} {extensions : ExtensionMap} (h : key ∉ extensions) :
    (stampDefaults origin extensions)[key]? = (stampDefaults origin ∅)[key]? := by
  simp only [stampDefaults, Std.ExtTreeMap.getElem?_insertIfNew, Std.ExtTreeMap.mem_insertIfNew,
    Std.LawfulEqCmp.compare_eq_iff_eq]
  have hnone : extensions[key]? = none := Std.ExtTreeMap.getElem?_eq_none h
  rw [hnone]
  grind

theorem getElem?_settled {settled : ExtensionMap}
    (h : settleExtensions req (some head) = .ok settled)
    (hdropped : ∀ key ∈ droppedExtensions, key ∉ head.extensions)
    (hclaims : ∀ key ∈ claimExtensions, head.extensions[key]? ≠ some .null)
    (hkey : key ∈ reservedExtensions) (hreq : key ∉ req.extensions) :
    settled[key]? = head.extensions[key]? := by
  simp only [settleExtensions, bind_eq_ok, pure_eq_ok] at h
  obtain ⟨-, -, rfl⟩ := h
  have hcarried : (carryForward carriedExtensions head.extensions req.extensions)[key]?
      = head.extensions[key]? := by
    rw [getElem?_carryForward, Std.ExtTreeMap.getElem?_eq_none hreq]
    by_cases hlisted : key ∈ carriedExtensions
    · rw [if_pos hlisted, Option.none_or]
    · -- A field that is not on the list is dropped, but the head has none.
      have hdrop : key ∈ droppedExtensions := mem_filter.mpr ⟨hkey, by simpa using hlisted⟩
      rw [if_neg hlisted, Std.ExtTreeMap.getElem?_eq_none (hdropped key hdrop)]
  rw [getElem?_dropNullClaims, hcarried]
  split
  · rename_i hnull
    rw [if_neg fun hclaim => hclaims key hclaim hnull, hnull]
  · rfl

theorem mem_nextRels (head : KnowledgeObject) (rels : List RelationshipRef)
    (rel : RelationshipRef) :
    rel ∈ nextRels (some head) rels
      ↔ rel ∈ rels ∨ rel ∈ head.relationships ∧ rel.relType ∈ carriedTypes := by
  rw [nextRels]
  generalize head.relationships = held
  induction held generalizing rels with
  | nil => simp
  | cons hr held ih =>
    rw [foldl_cons, ih]
    by_cases hadd : hr.relType ∈ carriedTypes ∧ hr ∉ rels
    · rw [if_pos hadd]
      grind
    · rw [if_neg hadd]
      grind

/-! ## One call -/

section

variable {S : Settings} {auth : AuthManager} {st : State} {io : Ambient}

theorem inherits_of_remember (hkeys : ∀ key ∈ kernelManagedExtensions, key ∉ req.extensions)
    (hdraft : S.rememberDraft auth st req koid (some head) = .ok draft)
    (h : req.LeavesAlone (some head)) :
    Inherits head (rememberedObject req koid (some head) draft) := by
  obtain ⟨hrels, hdropped, hclaims⟩ := h
  obtain ⟨settled, hsettled, hext⟩ := (rememberDraft_eq_ok hdraft).extensions
  have hfields : (rememberedObject req koid (some head) draft).extensions
      = stampSalience settled := hext
  refine ⟨?_, ?_, ?_, rfl⟩
  · intro key hkey
    rw [hfields, getElem?_stampSalience _ key hkey]
    exact getElem?_settled hsettled hdropped hclaims hkey (hkeys key (mem_filter.mp hkey).1)
  · rw [hfields]
    exact .inr (rated_stampSalience settled)
  · intro rel htype
    refine (mem_nextRels head req.relationships rel).trans ?_
    constructor
    · rintro (hrel | ⟨hrel, -⟩)
      · exact hrels rel hrel htype
      · exact hrel
    · intro hrel
      exact .inr ⟨hrel, htype⟩

theorem unforged_of_remember (hkeys : ∀ key ∈ kernelManagedExtensions, key ∉ req.extensions)
    (hdraft : S.rememberDraft auth st req koid none = .ok draft) (h : req.LeavesAlone none) :
    Unforged (rememberedObject req koid none draft) := by
  obtain ⟨settled, hsettled, hext⟩ := (rememberDraft_eq_ok hdraft).extensions
  cases hsettled
  have hfields : (rememberedObject req koid none draft).extensions
      = stampSalience (stampDefaults req.origin req.extensions) := hext
  refine ⟨?_, ?_, h⟩
  · intro key hkey
    rw [hfields, getElem?_stampSalience _ key hkey]
    exact .inr (getElem?_stampDefaults (hkeys key (mem_filter.mp hkey).1))
  · rw [hfields]
    exact .inr (rated_stampSalience _)

theorem succeeds_of_restates {r : Resolved} {security : SecurityDescriptor}
    (h : r.op.request.Restates r.head) : Succeeds r.head (r.pending security).ko := by
  cases hhead : r.head with
  | none =>
    rw [hhead] at h
    obtain ⟨hfields, hsalience, hrels⟩ := h
    refine ⟨?_, hsalience, hrels⟩
    intro key hkey
    have horigin : (r.pending security).ko.lifecycle.origin = r.op.request.origin := by
      rw [Resolved.pending, hhead]
      rfl
    rw [horigin]
    exact hfields key hkey
  | some head =>
    rw [hhead] at h
    obtain ⟨hfields, hsalience, hstated, hrestated⟩ := h
    refine ⟨hfields, hsalience, ?_, ?_⟩
    · intro rel htype
      exact ⟨fun hrel => hstated rel hrel htype, fun hrel => hrestated rel hrel htype⟩
    · rw [Resolved.pending, hhead]
      rfl

theorem preserved_of_commits {A : Admission} {C : Crypto} {hlc : Nat} {batch : WriteBatch}
    {pipe : Pipeline} {tenants : Std.ExtTreeMap Text Nat} {reply : Reply} {ts : Nat}
    {change : Change} (hc : Commits A C st io call hlc batch pipe tenants reply ts change o)
    (herases : call.erases = none)
    (hkos : ∀ ko ∈ o.kos, Succeeds (st.store.headObject ko.koid) ko) :
    Preserved st.store (st.store.writeBatch batch) := by
  constructor
  · intro koid hsome
    by_cases hasked : ∃ ko ∈ o.kos, ko.koid = koid
    · obtain ⟨ko, hko, rfl⟩ := hasked
      obtain ⟨seq, kind, hhead⟩ := hc.head_of_mem hko
      rw [hhead]
      rfl
    · rw [hc.head_other (fun ko hko heq => hasked ⟨ko, hko, heq⟩) (by simp [herases])]
      exact hsome
  · intro koid ko hko
    rcases hc.head_cases hko with ⟨asked, hasked, rfl, seq, kind, rfl⟩ | ⟨-, -, hhead⟩
    · -- A commit adds an event to the object and its time stamp.
      refine (hkos asked hasked).inherits ?_
      exact ⟨fun _ _ => rfl, .inl rfl, fun _ _ => Iff.rfl, rfl⟩
    · rw [hhead]
      exact Inherits.refl ko

theorem Staging.succeeds (h : Staging (S.admission auth) st io call o)
    (hcall : call.isRequest = true) (halone : LeavesAlone st.store io call) {ko : KnowledgeObject}
    (hko : ko ∈ o.kos) :
    Succeeds (st.store.headObject ko.koid) ko := by
  cases h with
  | @remember req draft hkeys hversion hdraft =>
    obtain rfl := mem_singleton.mp hko
    rw [LeavesAlone] at halone
    change Succeeds (st.store.headObject (req.target io)) _
    cases hhead : st.store.headObject (req.target io) with
    | none =>
      rw [hhead] at halone hdraft
      exact unforged_of_remember hkeys hdraft halone
    | some head =>
      rw [hhead] at halone hdraft
      exact inherits_of_remember hkeys hdraft halone
  | transact hprepared =>
    obtain ⟨p, hp, rfl⟩ := mem_map.mp hko
    obtain ⟨target, htarget, r, -, rfl, hagainst, security, -, rfl⟩ :=
      exists_of_forall₂ (prepareOps_targets hprepared) hp
    have hrestates := halone _ htarget
    rw [← hagainst.head] at hrestates
    change Succeeds (st.store.headObject r.koid) _
    rw [← hagainst.head]
    exact succeeds_of_restates hrestates
  | schema row => cases hko
  | _ => cases hcall

end

/-! ## Runs -/

section

variable (S : Settings) (C : Crypto)

def Turn.LeavesAlone (g : Guarded) (turn : Turn) : Prop :=
  turn.call.isRequest = true ∧
    (g.writes S C turn = true → Kernel.LeavesAlone g.st.store turn.io turn.call)
  deriving Decidable

/-- Requests that leave the kernel's fields alone do not change them: an object keeps them,
    and a new one has the defaults. -/
theorem managed_preserved {start g : Guarded} (hcoherent : start.st.store.Coherent)
    (h : Runs.Reaches (Guarded.turn S C) (Turn.LeavesAlone S C) start g) :
    Preserved start.st.store g.st.store := by
  refine Guarded.store_invariant hcoherent (.refl _)
    (fun hst hpreserved hallowed hwrites hc => hpreserved.trans ?_) h
  obtain ⟨hcall, halone⟩ := hallowed
  refine preserved_of_commits hc ?_ ?_
  · exact (hc.staging.removes_nothing hcall).2
  · intro ko hko
    exact hc.staging.succeeds hcall (halone hwrites) hko

end

/-! ## Runs with claims of knowledge -/

namespace ManagedFields

open Samples

def creating (koid : Koid) : RememberRequest :=
  { RememberRequest.create ann note with koid := some koid }

def updating (koid : Koid) : RememberRequest :=
  RememberRequest.update ann koid note

def verifiedFields : ExtensionMap :=
  (∅ : ExtensionMap).insert extEpistemicStatus (.text EpistemicStatus.verified.name)

def supersedes (koid : Koid) : RelationshipRef :=
  ⟨utf8 "supersedes", koid, .outbound⟩

def behind (g : Guarded) (calls : List Call) : Guarded :=
  (spaced calls).foldl (fun g turn => (g.step (.basic ∅ ∅) (.unsigned Sha256.fips180) turn).1) g

theorem coherent_behind {g : Guarded} (h : g.st.store.Coherent) (calls : List Call) :
    (behind g calls).st.store.Coherent := by
  unfold behind
  induction spaced calls generalizing g with
  | nil => exact h
  | cons turn turns ih => exact ih (Guarded.coherent h turn)

def ordinaryWork : List Call :=
  [.remember (creating 1), .transact [⟨ann, creating 2⟩] none none, .remember (updating 1),
    .remember { updating 1 with extensions := verifiedFields }]

theorem ordinaryWork_preserved :
    ∃ g, Runs.run (Guarded.turn (.basic ∅ ∅) (.unsigned Sha256.fips180)) Guarded.initial
        (spaced ordinaryWork) = some g ∧
      g.st.pipe.seq = 3 ∧ Preserved Guarded.initial.st.store g.st.store := by
  exact Runs.exists_run (P := fun g => g.st.pipe.seq = 3) (by decide +kernel)
    (by decide +kernel) fun g hreach hseq =>
    ⟨hseq, managed_preserved (.basic ∅ ∅) (.unsigned Sha256.fips180) Store.coherent_empty hreach⟩

def forgedField (s s' : Store) (koid : Koid) (key : Text) : Bool :=
  (s'.headObject koid).any fun new =>
    match s.headObject koid with
    | none => new.extensions[key]? ≠ none ∧
        new.extensions[key]? ≠ (stampDefaults new.lifecycle.origin ∅)[key]?
    | some old => new.extensions[key]? ≠ old.extensions[key]?

theorem forgedField_eq_false (h : Preserved s s') (koid : Koid) (key : Text)
    (hkey : key ∈ reservedExtensions) : forgedField s s' koid key = false := by
  unfold forgedField
  cases hnew : s'.headObject koid with
  | none => rfl
  | some new =>
    have hsucceeds := h.succeeds koid new hnew
    cases hold : s.headObject koid with
    | none =>
      rw [hold] at hsucceeds
      rcases hsucceeds.extensions key hkey with hnone | hdefault
      · simp only [hnone, Option.any_some, ne_eq, not_true_eq_false, false_and, decide_false]
      · simp [hdefault]
    | some old =>
      rw [hold] at hsucceeds
      simp [hsucceeds.extensions key hkey]

def forgedRel (s s' : Store) (koid : Koid) (rel : RelationshipRef) : Bool :=
  (s'.headObject koid).any (fun new => rel ∈ new.relationships) &&
    (s.headObject koid).any fun old => rel ∉ old.relationships

theorem forgedRel_eq_false (h : Preserved s s') (koid : Koid) (rel : RelationshipRef)
    (htype : rel.relType ∈ carriedTypes) : forgedRel s s' koid rel = false := by
  unfold forgedRel
  cases hold : s.headObject koid with
  | none => simp
  | some old =>
    cases hnew : s'.headObject koid with
    | none => rfl
    | some new =>
      have hsucceeds := h.succeeds koid new hnew
      rw [hold] at hsucceeds
      simp [hsucceeds.relationships rel htype]

def settled : Guarded :=
  behind Guarded.initial [.transact [⟨ann, { creating 1 with
        extensions := (∅ : ExtensionMap).insert (utf8 "invalidation") (.text (utf8 "expired")) }⟩]
      none none,
    .remember (creating 2)]

/-- Some calls do not preserve what the kernel owns. -/
def Forges (start : Guarded) (calls : List Call) : Prop :=
  start.st.store.Coherent ∧ (∀ call ∈ calls, call.isRequest = true) ∧
    ¬Preserved start.st.store (behind start calls).st.store

/-- A transaction creates a verified object, or takes the authority from one, `remember`
    states that an object supersedes another, and an update drops that the object is not
    valid. -/
theorem managed_forged : Forges Guarded.initial
        [.transact [⟨ann, { creating 1 with extensions := verifiedFields }⟩] none none] ∧
      Forges settled [.transact [⟨ann, updating 2⟩] none none] ∧
      Forges settled [.remember { updating 2 with relationships := [supersedes 1] }] ∧
      Forges settled [.remember (updating 1)] := by
  have hsettled : settled.st.store.Coherent := coherent_behind Store.coherent_empty _
  refine ⟨⟨Store.coherent_empty, by simp [Call.isRequest], fun h => ?_⟩,
    ⟨hsettled, by simp [Call.isRequest], fun h => ?_⟩,
    ⟨hsettled, by simp [Call.isRequest], fun h => ?_⟩,
    ⟨hsettled, by simp [Call.isRequest], fun h => ?_⟩⟩
  · exact absurd (forgedField_eq_false h 1 extEpistemicStatus (by decide)) (by decide +kernel)
  · exact absurd (forgedField_eq_false h 2 extAuthority (by decide)) (by decide +kernel)
  · exact absurd (forgedRel_eq_false h 2 (supersedes 1) (by decide)) (by decide +kernel)
  · exact absurd (forgedField_eq_false h 1 (utf8 "invalidation") (by decide)) (by decide +kernel)

end ManagedFields

end Aikoql.Kernel
