import Aikoql.Kernel.Guarded
import Aikoql.Kernel.Interleaving
import Aikoql.Kernel.Reads

/-!
# Reads of a Tenant

What a subject of a tenant reads depends on the versions of that tenant only.

Two stores that have the same versions of a tenant return the same objects to its
subjects, whatever else is in them. An object belongs to one tenant for all its versions,
so every read by id finds the same version in both stores or one the subject may not read,
in either. A scan walks over ids of all tenants, and leaves out what the subject may not
read before it counts anything.

An object that is not there and one that may not be read are told apart by the error of a
read. `getAsOf` makes more of it: it replies that there is nothing before it asks whether the
subject may read, so its reply, and not only its error, tells of an object of another tenant.

The heads and the index by type are there to find versions: the head of an object is its
newest version, and the index lists it under its type.

## Definitions

* `Store.Indexed`, `Store.KeepsTenants`: What is assumed of a store.
* `AlikeFor`: Two stores with the same versions of a tenant.
* `returned`: What a read returns, if it is no error.

## Theorems

* `sameFor_of_versions`: Two versions are the same, or the subject may read neither.
* `scanFiltered_congr`: The scans by type.
* `returned_congr`: All reads but those of a past instant.
* `reads_confined`: These are confined, and reads of a past instant are not.
* `TenantReads.as_of_tells`: A subject learns of an object of another tenant.
-/

namespace Aikoql.Kernel

open List Option Std.ExtTreeMap
open Storage (Sha256)

variable {ko : KnowledgeObject} {ctx : KnowledgeContext} {a b : Option KnowledgeObject}
  {koid : Koid} {α : Type} {typeName : Text}
variable {g : Guarded} {koids : List Koid} {kos : List KnowledgeObject}

/-! ## Stores that are indexed -/

/-- The head of an object is its newest version, and the index lists the object under its
    type, unless it is one of the catalog. -/
structure Store.Indexed (s : Store) : Prop where
  newest : ∀ koid ko, s.headObject koid = some ko → ∃ ts, s.getObjectVersion koid ts = some ko ∧
    ∀ ts' ko', s.getObjectVersion koid ts' = some ko' → ts' ≤ ts
  headed : ∀ koid ts ko, s.getObjectVersion koid ts = some ko → (s.headObject koid).isSome = true
  listed : ∀ koid ko, s.headObject koid = some ko →
    isCatalogType ko.metadata.typeName = false → (ko.metadata.typeName, koid) ∈ s.types
  catalog : ∀ row ∈ s.types, isCatalogType row.1 = false

def Store.KeepsTenants (s : Store) : Prop :=
  ∀ koid ts ts' ko ko', s.getObjectVersion koid ts = some ko →
    s.getObjectVersion koid ts' = some ko' → ko.metadata.tenant = ko'.metadata.tenant

def AgreeOn (t : Text) (s s' : Store) : Prop :=
  ∀ koid ts ko, ko.metadata.tenant = some t →
    (s.getObjectVersion koid ts = some ko ↔ s'.getObjectVersion koid ts = some ko)

/-- Two stores that a subject of a tenant is not to tell apart. -/
structure AlikeFor (t : Text) (s s' : Store) : Prop where
  indexed : s.Indexed
  indexed' : s'.Indexed
  keeps : s.KeepsTenants
  keeps' : s'.KeepsTenants
  agree : AgreeOn t s s'

/-- What a read returns. Errors are not told apart. -/
def returned : Except KError Answer → Option Answer
  | .ok answer => some answer
  | .error _ => none

def ReadCall.isAsOf : ReadCall → Bool
  | .getAsOf _ _ _ => true
  | _ => false

theorem Store.indexed_empty : Store.empty.Indexed := by
  constructor
  · intro koid ko hko
    cases hko
  · intro koid ts ko hversion
    cases hversion
  · intro koid ko hko
    cases hko
  · intro row hrow
    cases hrow

/-! ## The same versions, or none -/

section

variable {t : Text} {s s' : Store} {koid : Koid}

theorem AgreeOn.symm (h : AgreeOn t s s') : AgreeOn t s' s :=
  fun koid ts ko htenant => (h koid ts ko htenant).symm

def Store.Lacks (s : Store) (t : Text) (koid : Koid) : Prop :=
  ∀ ts ko, s.getObjectVersion koid ts = some ko → ko.metadata.tenant ≠ some t

theorem objects_eq (hagree : AgreeOn t s s') (hs : s.KeepsTenants) (hs' : s'.KeepsTenants)
    {ts : Nat} (hko : s.getObjectVersion koid ts = some ko) (htenant : ko.metadata.tenant = some t) :
    s.objects koid = s'.objects koid := by
  have hko' := (hagree koid ts ko htenant).mp hko
  apply Std.ExtTreeMap.ext_getElem?
  intro ts'
  apply Option.ext
  intro other
  constructor
  · intro hother
    exact (hagree koid ts' other (hs koid ts' ts other ko hother hko ▸ htenant)).mp hother
  · intro hother
    exact (hagree koid ts' other (hs' koid ts' ts other ko hother hko' ▸ htenant)).mpr hother

theorem objects_cases (hagree : AgreeOn t s s') (hs : s.KeepsTenants) (hs' : s'.KeepsTenants)
    (koid : Koid) : s.objects koid = s'.objects koid ∨ s.Lacks t koid ∧ s'.Lacks t koid := by
  by_cases hlacks : s.Lacks t koid
  · by_cases hlacks' : s'.Lacks t koid
    · exact .inr ⟨hlacks, hlacks'⟩
    · unfold Store.Lacks at hlacks'
      push Not at hlacks'
      obtain ⟨ts, ko, hko, htenant⟩ := hlacks'
      exact .inl (objects_eq hagree.symm hs' hs hko htenant).symm
  · unfold Store.Lacks at hlacks
    push Not at hlacks
    obtain ⟨ts, ko, hko, htenant⟩ := hlacks
    exact .inl (objects_eq hagree hs hs' hko htenant)

theorem exists_of_headObject (h : s.headObject koid = some ko) :
    ∃ ts, s.getObjectVersion koid ts = some ko := by
  rw [Store.headObject, bind_eq_some_iff] at h
  obtain ⟨head, -, hko⟩ := h
  exact ⟨head.commitTs, hko⟩

end

theorem headObject_congr {s s' : Store} (hs : s.Indexed) (hs' : s'.Indexed)
    (h : s.objects koid = s'.objects koid) : s.headObject koid = s'.headObject koid := by
  have hversions : ∀ ts, s.getObjectVersion koid ts = s'.getObjectVersion koid ts := by
    intro ts
    rw [Store.getObjectVersion, Store.getObjectVersion, h]
  cases hhead : s.headObject koid with
  | none =>
    cases hhead' : s'.headObject koid with
    | none => rfl
    | some ko =>
      obtain ⟨ts, hversion, -⟩ := hs'.newest koid ko hhead'
      have hsome := hs.headed koid ts ko ((hversions ts).trans hversion)
      rw [hhead] at hsome
      cases hsome
  | some ko =>
    obtain ⟨ts, hversion, hmax⟩ := hs.newest koid ko hhead
    have hversion' := (hversions ts).symm.trans hversion
    obtain ⟨ko', hhead'⟩ := isSome_iff_exists.mp (hs'.headed koid ts ko hversion')
    obtain ⟨ts', hnewest, hmax'⟩ := hs'.newest koid ko' hhead'
    -- Both are the largest time stamp.
    have hts : ts = ts' := le_antisymm (hmax' ts ko hversion')
      (hmax ts' ko' ((hversions ts').trans hnewest))
    subst hts
    rw [hversion'] at hnewest
    rw [hhead', hnewest]

/-! ## One version -/

section

variable {r : Reader} {subject : Subject} {t : Text} {s s' : Store}

theorem Reader.allows_iff :
    r.allows subject ko = true ↔ r.auth.authorize subject ko .read = .ok () := by
  constructor
  · exact eq_ok_of_isOk
  · intro h
    rw [Reader.allows, h]
    rfl

theorem Store.Lacks.not_allows (hsubject : subject.tenant = some t) (hlacks : s.Lacks t koid)
    {ts : Nat} (hko : s.getObjectVersion koid ts = some ko) : r.allows subject ko = false := by
  by_contra hallows
  rw [Bool.not_eq_false, Reader.allows_iff] at hallows
  exact hlacks ts ko hko (tenant_of_authorize_read hsubject hallows)

/-- Two versions are the same, or the subject may read neither. -/
def SameFor (r : Reader) (subject : Subject) (a b : Option KnowledgeObject) : Prop :=
  a = b ∨ (∀ ko, a = some ko → r.allows subject ko = false) ∧
    ∀ ko, b = some ko → r.allows subject ko = false

theorem SameFor.symm (h : SameFor r subject a b) : SameFor r subject b a := by
  rcases h with rfl | ⟨ha, hb⟩
  · exact .inl rfl
  · exact .inr ⟨hb, ha⟩

theorem SameFor.eq_some (h : SameFor r subject a b) (hko : a = some ko)
    (hallows : r.allows subject ko = true) : b = some ko := by
  rcases h with rfl | ⟨ha, -⟩
  · exact hko
  · rw [ha ko hko] at hallows
    cases hallows

theorem SameFor.filter_eq (h : SameFor r subject a b) {p : KnowledgeObject → Bool}
    (hp : ∀ ko, p ko = true → r.allows subject ko = true) : a.filter p = b.filter p := by
  rcases h with rfl | ⟨ha, hb⟩
  · rfl
  · have hnone : ∀ o : Option KnowledgeObject,
        (∀ ko, o = some ko → r.allows subject ko = false) → o.filter p = none := by
      intro o ho
      rw [filter_eq_none_iff]
      intro ko hko hpko
      have hallows := hp ko hpko
      rw [ho ko hko] at hallows
      cases hallows
    rw [hnone a ha, hnone b hb]

section

variable (hagree : AgreeOn t s s') (hs : s.KeepsTenants) (hs' : s'.KeepsTenants)
  (hsubject : subject.tenant = some t)

include hagree hs hs' hsubject

theorem sameFor_of_versions (heq : s.objects koid = s'.objects koid → a = b)
    (ha : ∀ ko, a = some ko → ∃ ts, s.getObjectVersion koid ts = some ko)
    (hb : ∀ ko, b = some ko → ∃ ts, s'.getObjectVersion koid ts = some ko) :
    SameFor r subject a b := by
  rcases objects_cases hagree hs hs' koid with hobjects | ⟨hlacks, hlacks'⟩
  · exact .inl (heq hobjects)
  · refine .inr ⟨fun ko hko => ?_, fun ko hko => ?_⟩
    · obtain ⟨ts, hversion⟩ := ha ko hko
      exact hlacks.not_allows hsubject hversion
    · obtain ⟨ts, hversion⟩ := hb ko hko
      exact hlacks'.not_allows hsubject hversion

theorem sameFor_objectAt (koid : Koid) (snapTs : Nat) :
    SameFor r subject (s.objectAt koid snapTs) (s'.objectAt koid snapTs) := by
  refine @sameFor_of_versions _ _ koid _ _ _ _ _ hagree hs hs' hsubject (fun heq => ?_)
    (fun _ => Store.exists_of_objectAt) fun _ => Store.exists_of_objectAt
  unfold Store.objectAt Store.getVersionAt
  rw [heq]

theorem sameFor_headObject (hindexed : s.Indexed) (hindexed' : s'.Indexed) (koid : Koid) :
    SameFor r subject (s.headObject koid) (s'.headObject koid) :=
  sameFor_of_versions hagree hs hs' hsubject (headObject_congr hindexed hindexed')
    (fun _ => exists_of_headObject) fun _ => exists_of_headObject

end

/-! ## Reads by id -/

theorem returned_map_congr (f : α → Answer) {x y : Except KError α} (h : ∀ a, x = .ok a → y = .ok a)
    (h' : ∀ a, y = .ok a → x = .ok a) : returned (x.map f) = returned (y.map f) := by
  cases x with
  | ok a =>
    rw [h a rfl]
  | error e =>
    cases y with
    | ok a => cases h' a rfl
    | error e' => rfl

theorem orNotFound_eq_ok {o : Option α} {a : α} : orNotFound koid o = .ok a ↔ o = some a := by
  cases o <;> simp [orNotFound]

theorem get_ok (hsame : SameFor r ctx.subject (s.headObject koid) (s'.headObject koid))
    (h : r.get s ctx koid = .ok ko) : r.get s' ctx koid = .ok ko := by
  simp only [Reader.get, bind_eq_ok, orNotFound_eq_ok] at h ⊢
  obtain ⟨found, hfound, u, hauth, hdecrypted⟩ := h
  exact ⟨found, hsame.eq_some hfound (Reader.allows_iff.mpr hauth), u, hauth, hdecrypted⟩

theorem getAt_ok {snapTs : Nat}
    (hsame : SameFor r ctx.subject (s.objectAt koid snapTs) (s'.objectAt koid snapTs))
    (h : r.getAt s ctx koid snapTs = .ok ko) : r.getAt s' ctx koid snapTs = .ok ko := by
  simp only [Reader.getAt, bind_eq_ok, orNotFound_eq_ok] at h ⊢
  obtain ⟨found, hfound, u, hauth, hreply⟩ := h
  exact ⟨found, hsame.eq_some hfound (Reader.allows_iff.mpr hauth), u, hauth, hreply⟩

theorem Store.getMany_eq_ok : s.getMany koids = .ok kos ↔
      Forall₂ (fun koid ko => s.headObject koid = some ko) koids kos := by
  induction koids generalizing kos with
  | nil =>
    rw [forall₂_nil_left_iff]
    constructor
    · intro h
      cases h
      rfl
    · rintro rfl
      rfl
  | cons koid koids ih =>
    -- The heads are read before the versions, but one head decides about one version.
    have hcons : s.getMany (koid :: koids) = .ok kos ↔
        ∃ ko rest, kos = ko :: rest ∧ s.headObject koid = some ko ∧ s.getMany koids = .ok rest := by
      simp only [Store.getMany, mapM_cons, bind_eq_ok, pure_eq_ok]
      constructor
      · rintro ⟨_, ⟨w, hw, ws, hws, rfl⟩, hrest⟩
        simp only [mapM_cons, bind_eq_ok, pure_eq_ok, orNotFound_eq_ok] at hrest
        obtain ⟨ko, hko, rest, hrest, rfl⟩ := hrest
        refine ⟨ko, rest, rfl, ?_, ws, hws, hrest⟩
        cases hhead : s.heads[koid]? with
        | none => simp [hhead, orNotFound, Except.map] at hw
        | some head =>
          rw [hhead] at hw
          cases hw
          rw [Store.headObject, hhead]
          exact hko
      · rintro ⟨ko, rest, rfl, hko, ws, hws, hrest⟩
        rw [Store.headObject, bind_eq_some_iff] at hko
        obtain ⟨head, hhead, hko⟩ := hko
        refine ⟨_, ⟨(koid, head.commitTs), by rw [hhead]; rfl, ws, hws, rfl⟩, ?_⟩
        simp only [mapM_cons, bind_eq_ok, pure_eq_ok, orNotFound_eq_ok]
        exact ⟨ko, hko, rest, hrest, rfl⟩
    rw [hcons, forall₂_cons_left_iff]
    constructor
    · rintro ⟨ko, rest, rfl, hko, hrest⟩
      exact ⟨ko, rest, hko, ih.mp hrest, rfl⟩
    · rintro ⟨ko, rest, hko, hrest, rfl⟩
      exact ⟨ko, rest, rfl, hko, ih.mpr hrest⟩

theorem getMany_ok (hsame : ∀ koid, SameFor r ctx.subject (s.headObject koid) (s'.headObject koid))
    (h : r.getMany s ctx koids = .ok kos) :
    r.getMany s' ctx koids = .ok kos := by
  simp only [Reader.getMany, bind_eq_ok, Store.getMany_eq_ok] at h ⊢
  obtain ⟨found, hfound, u, hauth, hdecrypted⟩ := h
  refine ⟨found, ?_, u, hauth, hdecrypted⟩
  have hallowed := forM_eq_ok _ _ hauth
  have hflip := (forall₂_and_left found koids).mpr ⟨hallowed, hfound.flip⟩
  refine (hflip.imp ?_).flip
  rintro ko koid ⟨hko, hhead⟩
  exact (hsame koid).eq_some hhead (Reader.allows_iff.mpr hko)

theorem getAsOf_ok {ctx : KnowledgeContext} {koid : Koid} {atMillis : Nat}
    (hsame : SameFor r ctx.subject (s.objectAt koid (Reader.endOfMillis atMillis))
      (s'.objectAt koid (Reader.endOfMillis atMillis)))
    (h : r.getAsOf s ctx koid atMillis = .ok (some ko)) :
    r.getAsOf s' ctx koid atMillis = .ok (some ko) := by
  unfold Reader.getAsOf at h ⊢
  cases hko : s.objectAt koid (Reader.endOfMillis atMillis) with
  | none =>
    rw [hko] at h
    cases h
  | some found =>
    rw [hko] at h
    dsimp only at h
    split at h
    · cases h
    · rename_i hvalid
      simp only [bind_eq_ok, pure_eq_ok] at h
      obtain ⟨u, hauth, hfound⟩ := h
      rw [hsame.eq_some hko (Reader.allows_iff.mpr hauth)]
      dsimp only
      rw [if_neg hvalid, hauth, hfound]
      rfl

theorem history_congr (hagree : AgreeOn t s s') (hs : s.KeepsTenants) (hs' : s'.KeepsTenants)
    (hsubject : ctx.subject.tenant = some t) (koid : Koid) :
    r.history s ctx koid = r.history s' ctx koid := by
  unfold Reader.history
  rcases objects_cases hagree hs hs' koid with heq | ⟨hlacks, hlacks'⟩
  · rw [heq]
  · have hnone : ∀ s : Store, s.Lacks t koid → (s.objects koid).toList.filter (fun row =>
        row.2.lifecycle.state ≠ .deleted && r.allows ctx.subject row.2) = [] := by
      intro s hlacks
      refine filter_eq_nil_iff.mpr fun row hrow => ?_
      have hversion := mem_toList_iff_getElem?_eq_some.mp hrow
      simp [hlacks.not_allows hsubject hversion]
    rw [hnone s hlacks, hnone s' hlacks']

/-! ## Scans -/

theorem filterMap_sort_congr {β : Type} [LinearOrder α] {A B : Finset α} {f : α → Option β}
    (h : ∀ a, (f a).isSome = true → (a ∈ A ↔ a ∈ B)) :
    (A.sort (· ≤ ·)).filterMap f = (B.sort (· ≤ ·)).filterMap f := by
  have hfilter : ∀ xs : List α, xs.filterMap f = (xs.filter fun a => (f a).isSome).filterMap f := by
    intro xs
    rw [filterMap_filter]
    refine filterMap_congr fun a _ => ?_
    cases f a <;> simp
  have hlists : (A.sort (· ≤ ·)).filter (fun a => (f a).isSome)
      = (B.sort (· ≤ ·)).filter fun a => (f a).isSome := by
    refine Perm.eq_of_pairwise' (r := (· ≤ ·)) ?_ ?_ ?_
    · exact (Finset.pairwise_sort A (· ≤ ·)).filter _
    · exact (Finset.pairwise_sort B (· ≤ ·)).filter _
    · rw [perm_ext_iff_of_nodup ((Finset.sort_nodup A _).filter _)
        ((Finset.sort_nodup B _).filter _)]
      intro a
      simp only [List.mem_filter, Finset.mem_sort]
      constructor
      · rintro ⟨ha, hsome⟩
        exact ⟨(h a hsome).mp ha, hsome⟩
      · rintro ⟨ha, hsome⟩
        exact ⟨(h a hsome).mpr ha, hsome⟩
  rw [hfilter, hlists, ← hfilter]

theorem mem_scanned (hindexed : s.Indexed) (hko : s.headObject koid = some ko)
    (htype : ko.metadata.typeName = typeName) (hcatalog : isCatalogType typeName = false) :
    koid ∈ (s.types.filter fun row => row.1 = typeName).image Prod.snd := by
  subst htype
  refine Finset.mem_image.mpr ⟨(ko.metadata.typeName, koid), ?_, rfl⟩
  exact Finset.mem_filter.mpr ⟨hindexed.listed koid ko hko hcatalog, rfl⟩

theorem scan_congr (hindexed : s.Indexed) (hindexed' : s'.Indexed) {typeName : Text}
    {f : Koid → Option KnowledgeObject}
    (hf : ∀ koid ko, f koid = some ko → ko.metadata.typeName = typeName ∧
      s.headObject koid = some ko ∧ s'.headObject koid = some ko) :
    (s.scanType typeName).filterMap f = (s'.scanType typeName).filterMap f := by
  unfold Store.scanType
  by_cases hcatalog : isCatalogType typeName = true
  · -- Types of the catalog are in no index.
    have hempty : ∀ s : Store, s.Indexed →
        (s.types.filter fun row => row.1 = typeName).image Prod.snd = ∅ := by
      intro s hindexed
      rw [Finset.image_eq_empty, Finset.filter_eq_empty_iff]
      intro row hrow htype
      have hrow := hindexed.catalog row hrow
      rw [htype, hcatalog] at hrow
      cases hrow
    rw [hempty s hindexed, hempty s' hindexed']
  · rw [Bool.not_eq_true] at hcatalog
    refine filterMap_sort_congr fun koid hsome => ?_
    obtain ⟨ko, hko⟩ := isSome_iff_exists.mp hsome
    obtain ⟨htype, hhead, hhead'⟩ := hf koid ko hko
    exact ⟨fun _ => mem_scanned hindexed' hhead' htype hcatalog,
      fun _ => mem_scanned hindexed hhead htype hcatalog⟩

theorem allows_of_readableChecks {includeDeleted : Bool}
    (h : r.readableChecks subject typeName includeDeleted ko = true) :
    ko.metadata.typeName = typeName ∧ r.allows subject ko = true := by
  simp only [Reader.readableChecks, Bool.and_eq_true, decide_eq_true_eq] at h
  exact ⟨h.1.1, h.2⟩

theorem scanFiltered_congr (hindexed : s.Indexed) (hindexed' : s'.Indexed)
    (hsame : ∀ koid, SameFor r subject (s.headObject koid) (s'.headObject koid)) (typeName : Text)
    (includeDeleted : Bool) (p : KnowledgeObject → Bool) :
    ((s.scanType typeName).filterMap fun koid =>
        ((s.headObject koid).filter (r.readableChecks subject typeName includeDeleted)).filter p)
      = (s'.scanType typeName).filterMap fun koid =>
        ((s'.headObject koid).filter
          (r.readableChecks subject typeName includeDeleted)).filter p := by
  have hread : ∀ koid, (s.headObject koid).filter (r.readableChecks subject typeName includeDeleted)
        = (s'.headObject koid).filter (r.readableChecks subject typeName includeDeleted) :=
    fun koid => (hsame koid).filter_eq fun _ h => (allows_of_readableChecks h).2
  rw [funext fun koid => congrArg (Option.filter p) (hread koid)]
  refine scan_congr hindexed hindexed' fun koid ko hko => ?_
  have hfound' := (filter_eq_some_iff.mp hko).1
  have hfound := hfound'
  rw [← hread] at hfound
  obtain ⟨hhead, hchecks⟩ := filter_eq_some_iff.mp hfound
  exact ⟨(allows_of_readableChecks hchecks).1, hhead, (filter_eq_some_iff.mp hfound').1⟩

/-- Two stores with the same versions of a tenant return the same objects to a subject of
    that tenant, at the present or at a snapshot. -/
theorem returned_congr (r : Reader) (call : ReadCall) (h : AlikeFor t s s')
    (hsubject : call.subject.tenant = some t) (hcall : call.isAsOf = false) :
    returned (r.read s call) = returned (r.read s' call) := by
  obtain ⟨hindexed, hindexed', hs, hs', hagree⟩ := h
  have hhead : ∀ koid, SameFor r call.subject (s.headObject koid) (s'.headObject koid) :=
    sameFor_headObject hagree hs hs' hsubject hindexed hindexed'
  have hobjectAt : ∀ koid snapTs,
      SameFor r call.subject (s.objectAt koid snapTs) (s'.objectAt koid snapTs) :=
    sameFor_objectAt hagree hs hs' hsubject
  have hreadable : ∀ typeName includeDeleted {a b : Option KnowledgeObject},
      SameFor r call.subject a b →
      a.filter (r.readableChecks call.subject typeName includeDeleted)
        = b.filter (r.readableChecks call.subject typeName includeDeleted) :=
    fun _ _ _ _ hsame => hsame.filter_eq fun _ h => (allows_of_readableChecks h).2
  have hscan := scanFiltered_congr hindexed hindexed' hhead
  cases call with
  | get ctx koid =>
    exact returned_map_congr _ (fun _ => get_ok (hhead koid)) fun _ => get_ok (hhead koid).symm
  | getMany ctx koids =>
    exact returned_map_congr _ (fun _ => getMany_ok hhead)
      fun _ => getMany_ok fun koid => (hhead koid).symm
  | getAt ctx koid snapTs =>
    exact returned_map_congr _ (fun _ => getAt_ok (hobjectAt koid snapTs))
      fun _ => getAt_ok (hobjectAt koid snapTs).symm
  | getAsOf ctx koid atMillis => cases hcall
  | history ctx koid =>
    rw [Reader.read, history_congr hagree hs hs' hsubject koid]
    rfl
  | scanByType subject typeName =>
    have hlists := hscan typeName false fun ko =>
      Option.all (fun want => ko.epistemicStatus = want) none
    exact congrArg (fun kos => returned (.ok (.objects kos))) hlists
  | scanByTypeFiltered subject typeName status =>
    have hlists := hscan typeName false fun ko => status.all fun want => ko.epistemicStatus = want
    exact congrArg (fun kos => returned (.ok (.objects kos))) hlists
  | scanByTypeTemporal subject typeName =>
    have hlists := hscan typeName true fun _ => true
    have hfilter : ∀ o : Option KnowledgeObject, o.filter (fun _ => true) = o := by
      intro o
      cases o <;> rfl
    simp only [hfilter] at hlists
    exact congrArg (fun kos => returned (.ok (.objects kos))) hlists
  | scanByTypeRange subject typeName koids =>
    have hlists : r.scanByTypeRange s subject typeName koids
        = r.scanByTypeRange s' subject typeName koids :=
      filterMap_congr fun koid _ => hreadable typeName false (hhead koid)
    exact congrArg (fun kos => returned (.ok (.objects kos))) hlists
  | scanByTypeRangeAt subject typeName koids snapTs =>
    have hlists : r.scanByTypeRangeAt s subject typeName koids snapTs
        = r.scanByTypeRangeAt s' subject typeName koids snapTs :=
      filterMap_congr fun koid _ => hreadable typeName false (hobjectAt koid snapTs)
    exact congrArg (fun kos => returned (.ok (.objects kos))) hlists

end

/-! ## Two stores -/

namespace TenantReads

def noted (s : Store) (ko : KnowledgeObject) : Store :=
  { s with
    objects := fun k =>
      if k = ko.koid then (s.objects k).insert ko.commitTs ko else s.objects k
    heads := s.heads.insert ko.koid ⟨ko.version, ko.commitTs, ko.lifecycle.state⟩
    types := insert (ko.metadata.typeName, ko.koid) s.types }

section

variable {s : Store} {ko : KnowledgeObject}

theorem version_noted (hnew : s.objects ko.koid = ∅) (koid : Koid) (ts : Nat) :
    (noted s ko).getObjectVersion koid ts
      = if koid = ko.koid then if ts = ko.commitTs then some ko else none
        else s.getObjectVersion koid ts := by
  unfold noted Store.getObjectVersion
  by_cases hkoid : koid = ko.koid
  · subst hkoid
    simp only [hnew, if_true, Std.ExtTreeMap.getElem?_insert, Std.LawfulEqCmp.compare_eq_iff_eq,
      getElem?_empty, eq_comm (a := ko.commitTs)]
  · simp [hkoid]

theorem headObject_noted (koid : Koid) :
    (noted s ko).headObject koid = if koid = ko.koid then some ko else s.headObject koid := by
  unfold noted Store.headObject Store.getObjectVersion
  by_cases hkoid : koid = ko.koid
  · subst hkoid
    simp
  · simp [hkoid, Ne.symm hkoid, Std.ExtTreeMap.getElem?_insert]

theorem indexed_noted (hs : s.Indexed) (hnew : s.objects ko.koid = ∅)
    (htype : isCatalogType ko.metadata.typeName = false) : (noted s ko).Indexed := by
  constructor
  · intro koid ko' hko'
    rw [headObject_noted] at hko'
    simp only [version_noted hnew]
    by_cases hkoid : koid = ko.koid
    · simp only [hkoid, if_true, Option.some.injEq] at hko' ⊢
      refine ⟨ko.commitTs, by simp [hko'], ?_⟩
      intro ts' other hother
      split at hother
      · rename_i hts
        exact hts.le
      · cases hother
    · simp only [hkoid, if_false] at hko' ⊢
      exact hs.newest koid ko' hko'
  · intro koid ts ko' hko'
    rw [version_noted hnew] at hko'
    rw [headObject_noted]
    by_cases hkoid : koid = ko.koid
    · simp [hkoid]
    · simp only [hkoid, if_false] at hko' ⊢
      exact hs.headed koid ts ko' hko'
  · intro koid ko' hko' hcatalog
    rw [headObject_noted] at hko'
    by_cases hkoid : koid = ko.koid
    · simp only [hkoid, if_true, Option.some.injEq] at hko'
      subst hko'
      rw [hkoid]
      exact Finset.mem_insert_self _ _
    · simp only [hkoid, if_false] at hko'
      exact Finset.mem_insert_of_mem (hs.listed koid ko' hko' hcatalog)
  · intro row hrow
    rcases Finset.mem_insert.mp hrow with rfl | hrow
    · exact htype
    · exact hs.catalog row hrow

theorem keepsTenants_noted (hs : s.KeepsTenants) (hnew : s.objects ko.koid = ∅) :
    (noted s ko).KeepsTenants := by
  intro koid ts ts' a b ha hb
  rw [version_noted hnew] at ha hb
  by_cases hkoid : koid = ko.koid
  · simp only [hkoid, if_true, ite_none_right_eq_some, Option.some.injEq] at ha hb
    rw [← ha.2, ← hb.2]
  · simp only [hkoid, if_false] at ha hb
    exact hs koid ts ts' a b ha hb

theorem agreeOn_noted {t : Text} (hnew : s.objects ko.koid = ∅)
    (htenant : ko.metadata.tenant ≠ some t) : AgreeOn t s (noted s ko) := by
  intro koid ts other hother
  rw [version_noted hnew]
  by_cases hkoid : koid = ko.koid
  · subst hkoid
    have hnone : s.getObjectVersion ko.koid ts = none := by
      rw [Store.getObjectVersion, hnew]
      rfl
    simp only [hnone, if_true, ite_none_right_eq_some, Option.some.injEq, reduceCtorEq, false_iff]
    rintro ⟨-, rfl⟩
    exact htenant hother
  · simp [hkoid]

theorem alikeFor_noted {t : Text} (hs : s.Indexed) (hkeeps : s.KeepsTenants)
    (hnew : s.objects ko.koid = ∅) (htype : isCatalogType ko.metadata.typeName = false)
    (htenant : ko.metadata.tenant ≠ some t) : AlikeFor t s (noted s ko) :=
  ⟨hs, indexed_noted hs hnew htype, hkeeps, keepsTenants_noted hkeeps hnew,
    agreeOn_noted hnew htenant⟩

theorem objectAt_noted (hnew : s.objects ko.koid = ∅) {snapTs : Nat} (hts : ko.commitTs ≤ snapTs) :
    (noted s ko).objectAt ko.koid snapTs = some ko := by
  have hversion := version_noted (s := s) hnew ko.koid
  simp only [if_true] at hversion
  cases hfound : (noted s ko).objectAt ko.koid snapTs with
  | none =>
    have hmem : (ko.commitTs, ko) ∈ ((noted s ko).objects ko.koid).toList.filter
        fun row => row.1 ≤ snapTs := by
      refine mem_filter.mpr ⟨mem_toList_iff_getElem?_eq_some.mpr ?_, decide_eq_true hts⟩
      exact (hversion ko.commitTs).trans (if_pos rfl)
    rw [Store.objectAt, Option.map_eq_none_iff, Store.getVersionAt, getLast?_eq_none_iff] at hfound
    rw [hfound] at hmem
    cases hmem
  | some found =>
    obtain ⟨ts, hts⟩ := Store.exists_of_objectAt hfound
    rw [hversion] at hts
    split at hts
    · exact hts.symm
    · cases hts

end

theorem keepsTenants_empty : Store.empty.KeepsTenants := by
  intro koid ts ts' a b ha
  cases ha

def note (koid : Koid) (tenant : Option Text) (commitTs : Nat) : KnowledgeObject where
  koid := koid
  version := 1
  commitTs := commitTs
  metadata := ⟨utf8 "note", tenant, 0, []⟩
  properties := ∅
  semantic := none
  relationships := []
  eventRefs := []
  security := ⟨utf8 "eve", [], none⟩
  lifecycle := ⟨.draft, .human⟩
  extensions := ∅

end TenantReads

/-- A subject of a tenant reads what its tenant has, and what other tenants have makes no
    difference, except to what `getAsOf` replies where it returns no object. -/
theorem reads_confined (r : Reader) (call : ReadCall) (t : Text)
    (hsubject : call.subject.tenant = some t) :
    ((∀ s s', AlikeFor t s s' → returned (r.read s call) = returned (r.read s' call)) ↔
      call.isAsOf = false) ∧
    ∀ s s', AlikeFor t s s' → ∀ ctx koid atMillis ko, call = .getAsOf ctx koid atMillis →
      r.getAsOf s ctx koid atMillis = .ok (some ko) →
      r.getAsOf s' ctx koid atMillis = .ok (some ko) := by
  refine ⟨⟨fun h => ?_, fun hcall s s' halike => returned_congr r call halike hsubject hcall⟩, ?_⟩
  · cases call with
    | getAsOf ctx koid atMillis =>
      -- A store without rows, and one with an object of no tenant under the id.
      have halike : AlikeFor t .empty (TenantReads.noted .empty (TenantReads.note koid none 0)) :=
        TenantReads.alikeFor_noted Store.indexed_empty TenantReads.keepsTenants_empty rfl
          (show isCatalogType (utf8 "note") = false by decide) (by simp [TenantReads.note])
      have hreply := h _ _ halike
      have hfound : (TenantReads.noted .empty (TenantReads.note koid none 0)).objectAt koid
          (Reader.endOfMillis atMillis) = some (TenantReads.note koid none 0) :=
        TenantReads.objectAt_noted rfl (Nat.zero_le _)
      have hdenied : ¬r.auth.authorize ctx.subject (TenantReads.note koid none 0) .read = .ok () :=
        fun hok => by simpa [TenantReads.note] using tenant_of_authorize_read hsubject hok
      have hempty : r.read .empty (.getAsOf ctx koid atMillis) = .ok (.objectOrNone none) := rfl
      rw [hempty] at hreply
      simp only [Reader.read, Reader.getAsOf, hfound] at hreply
      rw [if_neg (by simp [TenantReads.note, KnowledgeObject.validTo])] at hreply
      cases hauth : r.auth.authorize ctx.subject (TenantReads.note koid none 0) .read with
      | ok u => exact absurd hauth hdenied
      | error e =>
        rw [hauth] at hreply
        cases hreply
    | _ => rfl
  · rintro s s' halike ctx koid atMillis ko rfl hread
    exact getAsOf_ok (sameFor_objectAt halike.agree halike.keeps halike.keeps' hsubject koid _) hread

namespace TenantReads

open Samples

def alone : Store := noted Store.empty (note 2 (some (utf8 "a")) 7)

def mixed : Store := noted alone (note 1 (some (utf8 "b")) 5)

def eve : Subject := ⟨utf8 "eve", [], some (utf8 "a")⟩

theorem alone_mixed : AlikeFor (utf8 "a") alone mixed :=
  alikeFor_noted (indexed_noted Store.indexed_empty rfl (by decide))
    (keepsTenants_noted keepsTenants_empty rfl) rfl (by decide) (by decide)

/-- The note of the tenant is read in both stores, and a scan of all notes returns the same. -/
theorem scan_confined :
    (plainReader.get mixed ⟨eve, none⟩ 2).isOk = true ∧
      (plainReader.get mixed ⟨eve, none⟩ 1).isOk = false ∧
      returned (plainReader.read alone (.scanByType eve (utf8 "note")))
        = returned (plainReader.read mixed (.scanByType eve (utf8 "note"))) :=
  ⟨by decide +kernel, by decide +kernel,
    (reads_confined plainReader (.scanByType eve (utf8 "note")) (utf8 "a") rfl).1.mpr rfl _ _
      alone_mixed⟩

/-- There is nothing under the id, or an error because there is an object of another tenant. -/
theorem as_of_tells : AlikeFor (utf8 "a") alone mixed ∧
    (plainReader.getAsOf alone ⟨eve, none⟩ 1 0).toOption.map Option.isSome = some false ∧
      (plainReader.getAsOf mixed ⟨eve, none⟩ 1 0).isOk = false :=
  ⟨alone_mixed, by decide +kernel, by decide +kernel⟩

end TenantReads

end Aikoql.Kernel
