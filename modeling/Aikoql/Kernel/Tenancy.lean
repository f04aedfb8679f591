import Aikoql.Kernel.Guarded

/-!
# Live Objects of a Tenant

How many objects a tenant has, and what a call makes of that number.

An object counts for the tenant of its current version unless that version is deleted.
A call that asks for new versions may bring objects in, by creating them or by moving
them, and may move others out. This is not what the kernel books: it books a creation,
and a call to `forget`.
-/

namespace Aikoql.Kernel

open List

def KnowledgeObject.livesIn (t : Text) (ko : KnowledgeObject) : Bool :=
  decide (ko.lifecycle.state ≠ .deleted) && decide (tenantName ko.metadata.tenant = t)

/-- The number of objects of a tenant whose current version is not deleted. -/
def Store.liveCount (s : Store) (t : Text) : Nat :=
  (s.headsWith (KnowledgeObject.livesIn t)).card

def Store.livesIn (s : Store) (t : Text) (koid : Koid) : Bool :=
  (s.headObject koid).any (KnowledgeObject.livesIn t)

theorem Store.liveCount_empty (t : Text) : Store.empty.liveCount t = 0 := by
  rw [Store.liveCount, Finset.card_eq_zero, Finset.eq_empty_iff_forall_notMem]
  intro koid
  simp [Store.empty, Store.headObject]

theorem Store.liveCount_congr {s s' : Store}
    (h : ∀ koid, s'.headObject koid = s.headObject koid) (t : Text) :
    s'.liveCount t = s.liveCount t := by
  rw [Store.liveCount, Store.liveCount]
  congr 1
  ext koid
  rw [Store.mem_headsWith, Store.mem_headsWith, h koid]

theorem ne_deleted_of_canTransition {state target : LifecycleState}
    (h : state.canTransition target = true) : state ≠ .deleted := by
  rintro rfl
  cases target <;> cases h

/-! ## Calls -/

section

variable {A : Admission} {C : Crypto} {st : State} {io : Ambient} {call : Call} {hlc : Nat}
  {batch : WriteBatch} {pipe : Pipeline} {tenants : Std.ExtTreeMap Text Nat} {reply : Reply}
  {ts : Nat} {change : Change} {o : Outcome}

theorem Made.livesIn {kos : List KnowledgeObject} {commits : List Commit} (h : Made ts kos commits)
    (t : Text) :
    (commits.filter fun c => c.ko.livesIn t).length
      = (kos.filter fun ko => ko.livesIn t).length := by
  induction h with
  | nil => rfl
  | @cons ko c kos commits hc _ ih =>
    obtain ⟨seq, kind, hc⟩ := hc
    have hsame : c.ko.livesIn t = ko.livesIn t := by
      rw [hc]
      rfl
    rw [filter_cons, filter_cons, hsame]
    split
    · rw [length_cons, length_cons, ih]
    · exact ih

/-- The live objects behind a call: those it is about go, and those it commits come. -/
theorem Commits.liveCount
    (h : Commits A C st io call hlc batch pipe tenants reply ts change o) (t : Text) :
    (st.store.writeBatch batch).liveCount t
        + ((o.kos.map KnowledgeObject.koid ++ call.erases.toList).filter
            (st.store.livesIn t)).length
      = st.store.liveCount t + (o.kos.filter fun ko => ko.livesIn t).length := by
  have hcount := h.described.1.card_headsWith (KnowledgeObject.livesIn t)
  have hkoids : (change.commits.map fun c => c.ko.koid) = o.kos.map KnowledgeObject.koid := by
    have hlists := congrArg (List.map Prod.fst) h.made.lists
    simpa [Commit.lists, Function.comp_def] using hlists
  rw [Change.touched, hkoids, h.erased, h.made.livesIn t] at hcount
  exact hcount

theorem Requested.livesIn_length {s : Store} {targets : List (Koid × RememberRequest)}
    {kos : List KnowledgeObject} (h : Forall₂ (Requested s) targets kos) (t : Text) :
    (kos.map KnowledgeObject.koid = targets.map Prod.fst) ∧
      (kos.filter fun ko => ko.livesIn t).length = (targets.filter fun target =>
            decide (((s.headObject target.1).map fun head => head.lifecycle.state) ≠ some .deleted)
              && decide (tenantName target.2.metadata.tenant = t)).length := by
  induction h with
  | nil => exact ⟨rfl, rfl⟩
  | @cons target ko targets kos hrequested _ ih =>
    refine ⟨by rw [map_cons, map_cons, hrequested.koid, ih.1], ?_⟩
    have hsame : ko.livesIn t
        = (decide (((s.headObject target.1).map fun head => head.lifecycle.state)
            ≠ some .deleted) && decide (tenantName target.2.metadata.tenant = t)) := by
      rw [KnowledgeObject.livesIn, hrequested.lifecycle, hrequested.metadata]
      cases s.headObject target.1 <;> simp
    rw [filter_cons, filter_cons, hsame]
    split
    · rw [length_cons, length_cons, ih.2]
    · exact ih.2

end

/-! ## Counting the heads -/

def countsFor (s : Store) (t : Text) (kh : Koid × Head) : Bool :=
  decide (kh.2.state ≠ .deleted) &&
    decide (tenantName ((s.getObjectVersion kh.1 kh.2.commitTs).bind fun ko => ko.metadata.tenant)
      = t)

theorem usageOf_foldl_heads (s : Store) (t : Text) (rows : List (Koid × Head))
    (usage : Std.ExtTreeMap Text Nat) :
    usageOf (rows.foldl (fun usage kh =>
      if kh.2.state = .deleted then usage
      else recordCreate usage
        ((s.getObjectVersion kh.1 kh.2.commitTs).bind fun ko => ko.metadata.tenant)) usage) t
      = usageOf usage t + (rows.filter (countsFor s t)).length := by
  induction rows generalizing usage with
  | nil => rfl
  | cons kh rows ih =>
    rw [foldl_cons, ih, filter_cons]
    by_cases hdeleted : kh.2.state = .deleted
    · simp [countsFor, hdeleted]
    · rw [if_neg hdeleted, usageOf_recordCreate]
      by_cases htenant : tenantName ((s.getObjectVersion kh.1 kh.2.commitTs).bind
          fun ko => ko.metadata.tenant) = t
      · simp only [htenant, if_true, countsFor, hdeleted, ne_eq, not_false_eq_true,
          decide_true, Bool.and_self, length_cons]
        omega
      · simp [countsFor, htenant]

theorem Store.nodup_heads (s : Store) : (s.heads.toList.map Prod.fst).Nodup := by
  rw [Nodup, pairwise_map]
  refine Std.ExtTreeMap.distinct_keys_toList.imp ?_
  intro a b hab heq
  exact hab (Std.LawfulEqCmp.compare_eq_iff_eq.mpr heq)

theorem usageOf_rebuildUsage {s : Store} (h : s.Coherent) (t : Text) :
    usageOf (rebuildUsage s) t = s.liveCount t := by
  have hempty : usageOf ∅ t = 0 := by simp [usageOf]
  have hnodup : ((s.heads.toList.filter (countsFor s t)).map Prod.fst).Nodup :=
    s.nodup_heads.sublist (filter_sublist.map _)
  have hset : ((s.heads.toList.filter (countsFor s t)).map Prod.fst).toFinset
      = s.headsWith (KnowledgeObject.livesIn t) := by
    ext koid
    simp only [mem_toFinset, mem_map, mem_filter, Prod.exists, exists_and_right, exists_eq_right,
      Store.mem_headsWith, Option.any_eq_true, Std.ExtTreeMap.mem_toList_iff_getElem?_eq_some]
    constructor
    · rintro ⟨head, hhead, hcounts⟩
      obtain ⟨ko, hko, -, -, rfl⟩ := h koid head hhead
      refine ⟨ko, hko, ?_⟩
      rw [Store.headObject, hhead, Option.bind_some] at hko
      simpa [countsFor, hko, KnowledgeObject.livesIn] using hcounts
    · rintro ⟨ko, hko, hlives⟩
      obtain ⟨hhead, -, -⟩ := h.head hko
      refine ⟨_, hhead, ?_⟩
      rw [Store.headObject, hhead, Option.bind_some] at hko
      simpa [countsFor, hko, KnowledgeObject.livesIn] using hlives
  rw [rebuildUsage, usageOf_foldl_heads, hempty, Nat.zero_add, Store.liveCount, ← hset,
    toFinset_card_of_nodup hnodup, length_map]

end Aikoql.Kernel
