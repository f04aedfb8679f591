import Aikoql.Kernel.Outcomes

/-!
# The Heads of a Store

What is current, and how much of it there is.

A head row names a version and repeats its number and its state. Both are written by
the same batch, so a head is never stale. Counting heads is another matter: the kernel
keeps counts of its own, and whether they are right depends on what a batch replaces.
The number of heads with a property behind a batch is the number before, without the
objects the batch is about that had the property, and with those it commits that have
it. This is stated balanced, with nothing taken away on either side.
-/

namespace Aikoql.Kernel

open List
open Storage (Sha256)

variable {ko : KnowledgeObject} {o : Outcome} {call : Call} {koid : Koid}
variable {ops : List TransactionOp} {resolved : List Resolved} {kos : List KnowledgeObject}
  {commits : List Commit}

/-! ## Coherent stores -/

/-- A head names a version of its object that is there, and its number and state are
    those of the version. -/
def Store.Coherent (s : Store) : Prop :=
  ∀ koid head, s.heads[koid]? = some head →
    ∃ ko, s.headObject koid = some ko ∧ ko.koid = koid ∧ 1 ≤ ko.version ∧
      head = ⟨ko.version, ko.commitTs, ko.lifecycle.state⟩

theorem Store.coherent_empty : Store.empty.Coherent := by
  intro koid head hhead
  cases hhead

section

variable {s : Store} {koid : Koid} {ko : KnowledgeObject}

theorem Store.Coherent.head (h : s.Coherent) (hko : s.headObject koid = some ko) :
    s.heads[koid]? = some ⟨ko.version, ko.commitTs, ko.lifecycle.state⟩ ∧ ko.koid = koid ∧
      1 ≤ ko.version := by
  cases hhead : s.heads[koid]? with
  | none => simp [Store.headObject, hhead] at hko
  | some head =>
    obtain ⟨ko', hko', hkoid, hversion, rfl⟩ := h koid head hhead
    rw [hko] at hko'
    cases hko'
    exact ⟨rfl, hkoid, hversion⟩

theorem Store.Coherent.keyed (h : s.Coherent) : s.Keyed :=
  fun _ _ hko => (h.head hko).2.1

theorem Store.Coherent.headVersion_pos (h : s.Coherent) (hko : s.headObject koid = some ko) :
    s.headVersion koid ≠ 0 := by
  have hversion := (h.head hko).2.2
  rw [(Store.head_eq hko).2.1]
  omega

end

section

variable {H : Sha256} {st : State} {ts : Nat} {batch : WriteBatch} {pipe : Pipeline}
  {change : Change}

theorem Describes.coherent (h : Describes H st ts batch pipe change) (hst : st.store.Coherent) :
    (st.store.writeBatch batch).Coherent := by
  intro koid head hhead
  by_cases hcommits : ∀ c ∈ change.commits, c.ko.koid ≠ koid
  · by_cases herased : change.erased = some koid
    · rw [h.heads_erased herased] at hhead
      cases hhead
    · rw [h.heads_other hcommits herased] at hhead
      rw [h.headObject_other hcommits herased]
      exact hst koid head hhead
  · push Not at hcommits
    obtain ⟨c, hc, rfl⟩ := hcommits
    rw [h.heads_commit hc] at hhead
    cases hhead
    have hontop := h.onTop c hc
    refine ⟨c.ko, h.headObject_commit hc, rfl, ?_, by rw [hontop.commitTs]⟩
    rw [hontop.version]
    omega

/-! ## Counting heads -/

def Store.headsWith (s : Store) (p : KnowledgeObject → Bool) : Finset Koid :=
  ((s.headObjects.filter fun row => p row.2).map Prod.fst).toFinset

@[simp]
theorem Store.mem_headsWith {s : Store} {p : KnowledgeObject → Bool} :
    koid ∈ s.headsWith p ↔ (s.headObject koid).any p = true := by
  simp only [Store.headsWith, mem_toFinset, mem_map, mem_filter, Prod.exists,
    exists_and_right, exists_eq_right, mem_headObjects, Option.any_eq_true]

theorem card_add_filter {κ : Type} [DecidableEq κ] {before after : Finset κ} {ks : List κ}
    (hks : ks.Nodup) (h : ∀ k ∉ ks, (k ∈ after ↔ k ∈ before)) :
    after.card + (ks.filter fun k => k ∈ before).length
      = before.card + (ks.filter fun k => k ∈ after).length := by
  -- A set has its elements outside the list, which are the same, and those of the list.
  have hsplit : ∀ s : Finset κ,
      s.card = (s \ ks.toFinset).card + (ks.filter fun k => k ∈ s).length := by
    intro s
    have hlength : (ks.filter fun k => k ∈ s).length = (s ∩ ks.toFinset).card := by
      rw [← toFinset_card_of_nodup (hks.filter _)]
      congr 1
      ext k
      simp [and_comm]
    rw [hlength, Finset.card_sdiff_add_card_inter]
  have houtside : after \ ks.toFinset = before \ ks.toFinset := by
    ext k
    by_cases hk : k ∈ ks
    · simp [hk]
    · simp [hk, h k hk]
  have hbefore := hsplit before
  have hafter := hsplit after
  rw [houtside] at hafter
  omega

def Change.touched (change : Change) : List Koid :=
  (change.commits.map fun c => c.ko.koid) ++ change.erased.toList

theorem Describes.touched_nodup (h : Describes H st ts batch pipe change) :
    change.touched.Nodup := by
  unfold Change.touched
  cases herased : change.erased with
  | none => simpa using h.nodup
  | some koid => simp [(h.alone koid herased).1]

theorem Describes.card_headsWith (h : Describes H st ts batch pipe change)
    (p : KnowledgeObject → Bool) :
    ((st.store.writeBatch batch).headsWith p).card
        + (change.touched.filter fun koid => (st.store.headObject koid).any p).length
      = (st.store.headsWith p).card + (change.commits.filter fun c => p c.ko).length := by
  have hothers : ∀ koid ∉ change.touched,
      (koid ∈ (st.store.writeBatch batch).headsWith p ↔ koid ∈ st.store.headsWith p) := by
    intro koid hkoid
    rw [Change.touched, mem_append, not_or, Option.mem_toList] at hkoid
    rw [Store.mem_headsWith, Store.mem_headsWith, h.headObject_other _ hkoid.2]
    exact fun c hc heq => hkoid.1 (mem_map.mpr ⟨c, hc, heq⟩)
  -- Behind the batch a commit is the current version of its object, and nothing is left
  -- of an erased one.
  have hcommits : ((change.commits.map fun c => c.ko.koid).filter
      fun koid => koid ∈ (st.store.writeBatch batch).headsWith p).length
      = (change.commits.filter fun c => p c.ko).length := by
    rw [filter_map, length_map]
    congr 1
    refine filter_congr fun c hc => ?_
    simp [h.headObject_commit hc]
  have herased : (change.erased.toList.filter
      fun koid => koid ∈ (st.store.writeBatch batch).headsWith p) = [] := by
    refine filter_eq_nil_iff.mpr fun koid hkoid => ?_
    simp [h.headObject_erased (Option.mem_toList.mp hkoid)]
  have hcount := card_add_filter h.touched_nodup hothers
  simp only [Store.mem_headsWith, Bool.decide_eq_true] at hcount
  simp only [Store.mem_headsWith, Bool.decide_eq_true] at hcommits herased
  rw [hcount, Change.touched, filter_append, length_append, hcommits, herased,
    length_nil, Nat.add_zero]

end

/-! ## What a call is about -/

def opTargets (io : Ambient) : Nat → List TransactionOp → List (Koid × TransactionOp)
  | _, [] => []
  | i, op :: ops =>
    (op.request.koid.getD (io.fresh i), op) ::
      opTargets io (if op.request.koid.isSome then i else i + 1) ops

theorem resolveOps_targets {st : State} {io : Ambient} {i : Nat}
    (h : resolveOps st io i ops = .ok resolved) :
    (resolved.map fun r => (r.koid, r.op)) = opTargets io i ops := by
  induction ops generalizing i resolved with
  | nil =>
    cases h
    rfl
  | cons op ops ih =>
    simp only [resolveOps, bind_eq_ok, pure_eq_ok] at h
    obtain ⟨-, -, -, -, -, -, rest, hrest, rfl⟩ := h
    rw [map_cons, ih hrest]
    rfl

def Call.targets (io : Ambient) : Call → List (Koid × RememberRequest)
  | .remember req => [(req.target io, req)]
  | .transact ops _ _ => (opTargets io 0 ops).map fun target => (target.1, target.2.request)
  | _ => []

/-- A call that asks for new versions, as opposed to one that acts on an object. -/
def Call.isRequest : Call → Bool
  | .remember _ => true
  | .transact _ _ _ => true
  | _ => false

/-- An object is the version a request asks for: the request says what it is, and its lifecycle
    goes on from the head. -/
structure Requested (s : Store) (target : Koid × RememberRequest) (ko : KnowledgeObject) :
    Prop where
  koid : ko.koid = target.1
  metadata : ko.metadata = target.2.metadata
  lifecycle : ko.lifecycle
    = ((s.headObject target.1).map KnowledgeObject.lifecycle).getD ⟨.draft, target.2.origin⟩

section

variable {A : Admission} {st : State} {io : Ambient}

theorem prepareOps_targets {pending : List Pending}
    (h : prepareOps A st io ops = .ok (resolved, pending)) :
    Forall₂ (fun target p => ∃ r ∈ resolved, (r.koid, r.op) = target ∧
      r.Against st.store ∧ ∃ security, A.transact st resolved r = .ok security ∧
        p = r.pending security) (opTargets io 0 ops) pending := by
  obtain ⟨hresolved, hpending, -, -⟩ := prepareOps_eq_ok h
  obtain ⟨-, hagainst, -⟩ := resolveOps_against hresolved
  rw [← resolveOps_targets hresolved, forall₂_map_left_iff]
  have hmem : ∀ r ∈ resolved, r ∈ resolved := fun _ hr => hr
  refine ((forall₂_and_left resolved pending).mpr ⟨hmem, hpending⟩).imp ?_
  rintro r p ⟨hr, hsecurity⟩
  exact ⟨r, hr, rfl, hagainst r hr, hsecurity⟩

theorem Staging.requested (h : Staging A st io call o) (hcall : call.isRequest = true) :
    Forall₂ (Requested st.store) (call.targets io) o.kos := by
  cases h with
  | remember => exact .cons ⟨rfl, rfl, rfl⟩ .nil
  | transact hprepared =>
    rw [Call.targets, forall₂_map_left_iff, forall₂_map_right_iff]
    refine (prepareOps_targets hprepared).imp ?_
    rintro target p ⟨r, -, rfl, hagainst, security, -, rfl⟩
    refine ⟨rfl, rfl, ?_⟩
    rw [← hagainst.head]
    rfl
  | schema row => exact .nil
  | _ => cases hcall

theorem Staging.removes_nothing (h : Staging A st io call o) (hcall : call.isRequest = true) :
    o.deleted = [] ∧ call.erases = none := by
  cases h with
  | remember | transact | schema => exact ⟨rfl, rfl⟩
  | _ => cases hcall

/-- A call that acts on an object keeps what its head is. -/
structure ActsOn (s : Store) (call : Call) (old ko : KnowledgeObject) : Prop where
  head : s.headObject ko.koid = some old
  metadata : ko.metadata = old.metadata
  properties : ko.properties = old.properties
  relationships : ko.relationships = old.relationships
  call : (∃ ctx origin expected note,
      call = .evolve ctx ko.koid ko.lifecycle.state origin expected note) ∨
    ∃ ctx mode expected note, call = .forget ctx ko.koid mode expected note

theorem Staging.asked_cases (h : Staging A st io call o) (hst : st.store.Coherent)
    (hko : ko ∈ o.kos) :
    (call.isRequest = true ∧ ∃ target ∈ call.targets io, Requested st.store target ko) ∨
      ∃ head, ActsOn st.store call head ko := by
  by_cases hcall : call.isRequest = true
  · exact .inl ⟨hcall, exists_of_forall₂ (h.requested hcall) hko⟩
  · right
    cases h with
    | remember | transact | schema => exact absurd rfl hcall
    | @evolve ctx koid target origin expected note head hhead hauth hmove =>
      obtain rfl := mem_singleton.mp hko
      obtain rfl := hst.keyed koid head hhead
      exact ⟨head, hhead, rfl, rfl, rfl, .inl ⟨ctx, origin, expected, note, rfl⟩⟩
    | @tombstone ctx koid expected note head hhead hauth =>
      obtain rfl := mem_singleton.mp hko
      obtain rfl := hst.keyed koid head hhead
      exact ⟨head, hhead, rfl, rfl, rfl, .inr ⟨ctx, .tombstone, expected, note, rfl⟩⟩
    | erase | recordAudit => cases hko

theorem Made.exists_object {ts : Nat} (h : Made ts kos commits) {c : Commit} (hc : c ∈ commits) :
    ∃ ko ∈ kos, ∃ seq kind, c.ko = ko.committed seq kind ts :=
  exists_of_forall₂ h hc

theorem Made.exists_commit {ts : Nat} (h : Made ts kos commits) (hko : ko ∈ kos) :
    ∃ c ∈ commits, ∃ seq kind, c.ko = ko.committed seq kind ts := by
  exact exists_right_of_forall₂ h hko

section

variable {C : Crypto} {call : Call} {hlc : Nat} {batch : WriteBatch} {pipe : Pipeline}
  {tenants : Std.ExtTreeMap Text Nat} {reply : Reply} {ts : Nat} {change : Change} {o : Outcome}

section

variable (h : Commits A C st io call hlc batch pipe tenants reply ts change o)
include h

theorem Commits.head_of_mem (hko : ko ∈ o.kos) : ∃ seq kind,
      (st.store.writeBatch batch).headObject ko.koid = some (ko.committed seq kind ts) := by
  obtain ⟨c, hc, seq, kind, hmade⟩ := h.made.exists_commit hko
  have hhead := h.described.1.headObject_commit hc
  rw [hmade] at hhead
  exact ⟨seq, kind, hhead⟩

theorem Commits.head_cases (hko : (st.store.writeBatch batch).headObject koid = some ko) :
    (∃ asked ∈ o.kos, asked.koid = koid ∧ ∃ seq kind, ko = asked.committed seq kind ts) ∨
      ((∀ asked ∈ o.kos, asked.koid ≠ koid) ∧ call.erases ≠ some koid ∧
        st.store.headObject koid = some ko) := by
  rcases h.described.1.headObject_cases hko with ⟨c, hc, rfl, rfl⟩ | ⟨hothers, herased, hhead⟩
  · obtain ⟨asked, hasked, seq, kind, hmade⟩ := h.made.exists_object hc
    exact .inl ⟨asked, hasked, by rw [hmade]; rfl, seq, kind, hmade⟩
  · refine .inr ⟨?_, h.erased ▸ herased, hhead⟩
    intro asked hasked heq
    obtain ⟨c, hc, seq, kind, hmade⟩ := h.made.exists_commit hasked
    exact hothers c hc (by rw [hmade]; exact heq)

theorem Commits.head_other (hkos : ∀ ko ∈ o.kos, ko.koid ≠ koid)
    (herases : call.erases ≠ some koid) :
    (st.store.writeBatch batch).headObject koid = st.store.headObject koid := by
  refine h.described.1.headObject_other ?_ (h.erased ▸ herases)
  intro c hc
  obtain ⟨asked, hasked, seq, kind, hmade⟩ := h.made.exists_object hc
  rw [hmade]
  exact hkos asked hasked

end

end

theorem Staging.created (h : Staging A st io call o) (hst : st.store.Coherent) :
    o.created = ((call.targets io).filter fun target =>
      (st.store.headObject target.1).isNone).map fun target => target.2.metadata.tenant := by
  cases h with
  | remember =>
    rename_i req draft _ _ _
    cases hhead : st.store.headObject (req.target io) <;> simp [Call.targets, hhead]
  | transact hprepared =>
    obtain ⟨hresolved, -, -, -⟩ := prepareOps_eq_ok hprepared
    obtain ⟨-, hagainst, -⟩ := resolveOps_against hresolved
    rw [Call.targets, ← resolveOps_targets hresolved]
    simp only [createdTenants, map_map, filter_map, Function.comp_def]
    congr 1
    refine filter_congr fun r hr => ?_
    -- A head has a version number, so an operation creates what has no head.
    rw [Resolved.creating, (hagainst r hr).curV]
    cases hhead : st.store.headObject r.koid with
    | none => simp [Store.headVersion, hhead]
    | some head => simpa using hst.headVersion_pos hhead
  | _ => rfl

end

end Aikoql.Kernel
