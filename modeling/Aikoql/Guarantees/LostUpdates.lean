import Aikoql.Kernel.Interleaving

/-!
# Lost Updates

Whether a transaction that commits replaces the version it has read.

A staged write expects the version its object had at the time stamp of the
transaction, looked up when it is staged and not when it was read. If a version with
an earlier time stamp appears in between, the transaction expects a version it has
not read and replaces it (`update_lost`). Versions are told apart by their number
alone, so a transaction also replaces a version it has not read if the object was
erased and written again up to the same number.

If the time stamp still shows what was read when the write is staged, and no object is
created again while a transaction waits to replace a version of it that it has read,
the version a commit replaces is the one that was read (`no_lost_update`).

## Main definitions

* `NothingLost`: The commit in flight replaces what was read.
* `KeepsReads`: A write is staged while what was read can be seen.
* `Shared.InOrder`: What a run of such steps keeps.

## Main theorems

* `Shared.InOrder.move`: What one step keeps.
* `no_lost_update`: No update is lost in a run of such steps.
* `update_lost`: Runs in which one is.
-/

namespace Aikoql.Kernel

open List Option
open Storage (Sha256)

variable {ko : KnowledgeObject} {A : Admission} {sys sys' : Shared} {C : Crypto}
  {batch : WriteBatch} {pipe : Pipeline} {koid : Koid} {op : StagedOp} {s : Store} {m : Move}
  {st : State} {ts : Nat} {txn : Txn}
variable {handle : Nat} {tenants : Std.ExtTreeMap Text Nat}
variable {H : Sha256} {change : Change} {io : Ambient} {reply : Reply}

/-- If the engine takes the commit in flight, every version the transaction had read
    before it staged a write to the object is the one that is replaced, by the next in
    number. -/
def NothingLost (sys sys' : Shared) : Prop :=
  ∀ flight, sys.flight = some flight → flight.staged.isWrite = true →
    ∀ op ∈ flight.ops, ∀ koid, op.op.request.koid = some koid → ∀ ko ∈ op.basis,
      sys.st.store.headObject koid = some ko ∧
        (sys'.st.store.headObject koid).map KnowledgeObject.version = some (ko.version + 1)

/-- The staged writes of the transactions that are not over. -/
def Shared.waiting (sys : Shared) : List StagedOp :=
  sys.txns.flatMap fun txn => (txn.map Txn.staged).getD []

/-- The versions of an object that open transactions had read before they staged a write
    to it. -/
def Shared.basisOf (sys : Shared) (koid : Koid) : List KnowledgeObject :=
  sys.waiting.flatMap fun op => if op.op.request.koid = some koid then op.basis else []

/-- A call creates no object that an open transaction has read and is going to write. -/
def Shared.NotAgain (A : Admission) (C : Crypto) (sys : Shared) (io : Ambient) (call : Call) : Prop :=
  (stage A C sys.st io call).2.isWrite = true →
    ∀ l ∈ call.lists sys.st io, sys.st.store.headObject l.1 = none → sys.basisOf l.1 = []

/-- A write is staged while the time stamp of the transaction still shows what was read,
    and no object is created again that an open transaction has read and is going to
    write. -/
def KeepsReads (A : Admission) (C : Crypto) (sys : Shared) : Move → Prop
  | .stage handle req => ∀ txn, sys.txn handle = some txn → ∀ koid, req.koid = some koid →
      ∀ ko ∈ txn.readsOf koid, sys.st.store.objectAt koid txn.snapshotTs = some ko
  | .start io call => sys.NotAgain A C io call
  | .commit handle io => ∀ txn, sys.txn handle = some txn →
      Shared.NotAgain A C { sys with txns := sys.txns.set handle none } io
        (.transact (txn.staged.map StagedOp.op) none (some txn.id))
  | _ => True

/-! ## Versions in order -/

/-- A version is numbered from one, and its object has a head, which it is or which is newer. -/
def Lineage (s : Store) : Prop :=
  ∀ koid ts ko, s.getObjectVersion koid ts = some ko →
    1 ≤ ko.version ∧ ∃ head, s.headObject koid = some head ∧ (head = ko ∨ ko.version < head.version)

theorem lineage_empty : Lineage Store.empty := by
  intro koid ts ko hko
  cases hko

theorem Lineage.writeBatch (h : Lineage st.store) (hbatch : Describes H st ts batch pipe change) :
    Lineage (st.store.writeBatch batch) := by
  intro koid c ko hko
  by_cases hcommits : ∀ c ∈ change.commits, c.ko.koid ≠ koid
  · by_cases herased : change.erased = some koid
    · rw [Store.getObjectVersion, hbatch.objects_erased herased] at hko
      simp at hko
    · rw [Store.getObjectVersion, hbatch.objects_other hcommits herased] at hko
      rw [hbatch.headObject_other hcommits herased]
      exact h koid c ko hko
  · push Not at hcommits
    obtain ⟨commit, hcommit, rfl⟩ := hcommits
    have hversion := (hbatch.onTop commit hcommit).version
    rw [hbatch.headObject_commit hcommit]
    rw [Store.getObjectVersion, hbatch.objects_commit hcommit] at hko
    rcases getElem?_insert_cases hko with ⟨-, rfl⟩ | ⟨-, hko⟩
    · -- The new version is the head.
      exact ⟨by omega, commit.ko, rfl, .inl rfl⟩
    · -- An older version is no newer than the head before, which the new one follows.
      obtain ⟨hpos, head, hhead, horder⟩ := h _ c ko hko
      refine ⟨hpos, commit.ko, rfl, .inr ?_⟩
      have hnumber := (Store.head_eq hhead).2.1
      rcases horder with rfl | hlt <;> omega

/-- What an object may have come to since a version of it was read: it has no head, or its head is
    that version or a newer one. -/
def Since (s : Store) (koid : Koid) (ko : KnowledgeObject) : Prop :=
  ∀ head, s.headObject koid = some head → head = ko ∨ ko.version < head.version

theorem Since.writeBatch (h : Since st.store koid ko) (hbatch : Describes H st ts batch pipe change)
    (hagain : ∀ c ∈ change.commits, c.ko.koid = koid → st.store.headObject koid ≠ none) :
    Since (st.store.writeBatch batch) koid ko := by
  intro head' hhead'
  rcases hbatch.headObject_cases hhead' with ⟨c, hc, rfl, rfl⟩ | ⟨-, -, hhead⟩
  · obtain ⟨head, hhead⟩ := ne_none_iff_exists'.mp (hagain c hc rfl)
    have hversion := (hbatch.onTop c hc).version
    have hnumber := (Store.head_eq hhead).2.1
    right
    rcases h head hhead with rfl | hlt <;> omega
  · exact h head' hhead

/-! ## Staged writes -/

theorem mem_waiting : op ∈ sys.waiting ↔ ∃ txn, some txn ∈ sys.txns ∧ op ∈ txn.staged := by
  simp only [Shared.waiting, mem_flatMap]
  constructor
  · rintro ⟨txn, htxn, hop⟩
    cases txn with
    | none => cases hop
    | some txn => exact ⟨txn, htxn, hop⟩
  · rintro ⟨txn, htxn, hop⟩
    exact ⟨some txn, htxn, hop⟩

theorem mem_basisOf : ko ∈ sys.basisOf koid ↔
      ∃ op ∈ sys.waiting, op.op.request.koid = some koid ∧ ko ∈ op.basis := by
  simp only [Shared.basisOf, mem_flatMap]
  refine exists_congr fun op => and_congr_right fun _ => ?_
  split <;> simp_all

theorem txn_mem (h : sys.txn handle = some txn) : some txn ∈ sys.txns := by
  obtain ⟨_, hget, rfl⟩ := bind_eq_some_iff.mp h
  exact mem_of_getElem? hget

theorem waiting_set {txn : Option Txn} (htxns : sys'.txns = sys.txns.set handle txn)
    (hop : op ∈ sys'.waiting) : op ∈ sys.waiting ∨ ∃ t, txn = some t ∧ op ∈ t.staged := by
  obtain ⟨t, ht, hstaged⟩ := mem_waiting.mp hop
  rw [htxns] at ht
  rcases mem_or_eq_of_mem_set ht with hmem | heq
  · exact .inl (mem_waiting.mpr ⟨t, hmem, hstaged⟩)
  · exact .inr ⟨t, heq.symm, hstaged⟩

theorem Txn.stage_eq_ok {txn' : Txn} {req : RememberRequest} (h : txn.stage s req = .ok txn') :
    ∃ op, txn' = { txn with staged := txn.staged ++ [op] } ∧ op.op.request.koid = req.koid ∧
      ∀ koid, req.koid = some koid → op.basis = txn.readsOf koid ∧
        op.op.request.expectedVersion = some
          (((s.objectAt koid txn.snapshotTs).map KnowledgeObject.version).getD 0) := by
  unfold Txn.stage at h
  split at h
  · cases h
  · cases h
    refine ⟨_, rfl, ?_, ?_⟩
    · cases hkoid : req.koid with
      | none => exact hkoid
      | some koid => rfl
    · intro koid hkoid
      simp [hkoid]

theorem waiting_move (h : move A C sys m = some sys') (hop : op ∈ sys'.waiting) :
    op ∈ sys.waiting ∨ ∃ handle req txn, m = .stage handle req ∧ sys.txn handle = some txn ∧
      op.op.request.koid = req.koid ∧ ∀ koid, req.koid = some koid →
        op.basis = txn.readsOf koid ∧ op.op.request.expectedVersion = some
          (((sys.st.store.objectAt koid txn.snapshotTs).map KnowledgeObject.version).getD 0) := by
  cases m with
  | start io call =>
    simp only [move, Shared.take] at h
    split at h
    · cases h
    · cases h
      exact .inl hop
  | finish taken =>
    obtain ⟨flight, -, rfl⟩ := map_eq_some_iff.mp h
    exact .inl hop
  | snapshotNow millis =>
    cases h
    exact .inl hop
  | beginTransaction subject id millis =>
    simp only [move] at h
    split at h
    · cases h
      exact .inl hop
    · cases h
      left
      simpa [Shared.waiting] using hop
  | get handle koid =>
    obtain ⟨txn, htxn, rfl⟩ := map_eq_some_iff.mp h
    left
    cases hget : txn.get A sys.st.store koid with
    | error e => simpa [hget] using hop
    | ok ko =>
      simp only [hget] at hop
      rcases waiting_set rfl hop with hop | ⟨t, ⟨⟩, hop⟩
      · exact hop
      · exact mem_waiting.mpr ⟨txn, txn_mem htxn, hop⟩
  | stage handle req =>
    obtain ⟨txn, htxn, rfl⟩ := map_eq_some_iff.mp h
    cases hstage : txn.stage sys.st.store req with
    | error e =>
      left
      simpa [hstage] using hop
    | ok txn' =>
      simp only [hstage] at hop
      obtain ⟨staged, rfl, hkoid, hpinned⟩ := Txn.stage_eq_ok hstage
      rcases waiting_set rfl hop with hop | ⟨t, ⟨⟩, hop⟩
      · exact .inl hop
      · rcases mem_append.mp hop with hop | hop
        · exact .inl (mem_waiting.mpr ⟨txn, txn_mem htxn, hop⟩)
        · obtain rfl := mem_singleton.mp hop
          exact .inr ⟨handle, req, txn, rfl, htxn, hkoid, hpinned⟩
  | commit handle io =>
    obtain ⟨txn, -, h⟩ := bind_eq_some_iff.mp h
    simp only [Shared.take] at h
    split at h
    · cases h
    · cases h
      rcases waiting_set rfl hop with hop | ⟨t, ⟨⟩, -⟩
      exact .inl hop
  | rollback handle =>
    obtain ⟨txn, -, rfl⟩ := map_eq_some_iff.mp h
    rcases waiting_set rfl hop with hop | ⟨t, ⟨⟩, -⟩
    exact .inl hop

/-! ## Runs -/

/-- A staged write waits for the version that was read: it expects its number, and the object has
    not been created again since. -/
def StagedOp.Waits (s : Store) (op : StagedOp) : Prop :=
  ∀ koid, op.op.request.koid = some koid → ∀ ko ∈ op.basis,
    op.op.request.expectedVersion = some ko.version ∧ 1 ≤ ko.version ∧ Since s koid ko

/-- A commit in flight replaces what its transaction has read. -/
def StagedOp.Replaces (s : Store) (change : Change) (op : StagedOp) : Prop :=
  ∀ koid, op.op.request.koid = some koid → (∃ c ∈ change.commits, c.ko.koid = koid) ∧
    ∀ ko ∈ op.basis, s.headObject koid = some ko

/-- Versions are in order, staged writes wait for what was read, and the call in flight
    replaces what was read and creates nothing that is waited for. -/
structure Shared.InOrder (C : Crypto) (sys : Shared) : Prop where
  keyed : sys.st.store.Keyed
  lineage : Lineage sys.st.store
  waits : ∀ op ∈ sys.waiting, op.Waits sys.st.store
  flight : ∀ flight batch pipe tenants reply, sys.flight = some flight →
    flight.staged = .write batch pipe tenants reply →
      ∃ ts change, Describes C.sha256 sys.st ts batch pipe change ∧
        (∀ c ∈ change.commits, sys.st.store.headObject c.ko.koid = none →
          sys.basisOf c.ko.koid = []) ∧
        ∀ op ∈ flight.ops, op.Replaces sys.st.store change

theorem Shared.inOrder_initial (C : Crypto) : Shared.initial.InOrder C where
  keyed := by
    intro koid ko hko
    cases hko
  lineage := lineage_empty
  waits := fun op hop => by simp [Shared.initial, Shared.waiting] at hop
  flight := by
    intro flight _ _ _ _ hflight
    cases hflight

theorem since_of_objectAt (hlineage : Lineage s) (h : s.objectAt koid ts = some ko) :
    1 ≤ ko.version ∧ Since s koid ko ∧ s.headObject koid ≠ none := by
  obtain ⟨c, hc⟩ := Store.exists_of_objectAt h
  obtain ⟨hpos, head, hhead, horder⟩ := hlineage koid c ko hc
  refine ⟨hpos, ?_, by simp [hhead]⟩
  intro head' hhead'
  rw [hhead] at hhead'
  cases hhead'
  exact horder

theorem Shared.InOrder.waits_move (h : sys.InOrder C) (hkeeps : KeepsReads A C sys m)
    (hmove : Kernel.move A C sys m = some sys') :
    ∀ op ∈ sys'.waiting, op ∈ sys.waiting ∨ op.Waits sys.st.store ∧
      ∀ koid, op.op.request.koid = some koid → op.basis ≠ [] →
        sys.st.store.headObject koid ≠ none := by
  intro op hop
  rcases waiting_move hmove hop with hop | ⟨handle, req, txn, rfl, htxn, hkoid, hpinned⟩
  · exact .inl hop
  · right
    have hread : ∀ koid, op.op.request.koid = some koid → ∀ ko ∈ op.basis,
        sys.st.store.objectAt koid txn.snapshotTs = some ko ∧
          op.op.request.expectedVersion = some ko.version := by
      intro koid hk ko hko
      rw [hkoid] at hk
      obtain ⟨hbasis, hexpected⟩ := hpinned koid hk
      have hat := hkeeps txn htxn koid hk ko (hbasis ▸ hko)
      rw [hat] at hexpected
      exact ⟨hat, hexpected⟩
    constructor
    · intro koid hk ko hko
      obtain ⟨hat, hexpected⟩ := hread koid hk ko hko
      obtain ⟨hpos, hsince, -⟩ := since_of_objectAt h.lineage hat
      exact ⟨hexpected, hpos, hsince⟩
    · intro koid hk hne
      obtain ⟨ko, hko⟩ := exists_mem_of_ne_nil _ hne
      exact (since_of_objectAt h.lineage (hread koid hk ko hko).1).2.2

theorem replaces_of_waits {A : Admission} {C : Crypto} {st : State} {staged : List StagedOp}
    {id : Text} {hlc : Nat} {batch : WriteBatch} {pipe : Pipeline}
    (hwaits : ∀ op ∈ staged, op.Waits st.store)
    (h : stage A C st io (.transact (staged.map StagedOp.op) none (some id))
      = (hlc, .write batch pipe tenants reply)) :
    ∃ ts change, Describes C.sha256 st ts batch pipe change ∧
      change.commits.map Commit.lists = opLists io 0 (staged.map StagedOp.op) ∧
      ∀ op ∈ staged, op.Replaces st.store change := by
  simp only [stage, transact, isNone_some, Bool.false_eq_true, and_false, if_false] at h
  split at h
  · obtain ⟨commits, o, hc, resolved, pending, hprepared, hkos, -⟩ := transactFresh_commits h
    have hlists : commits.map Commit.lists = opLists io 0 (staged.map StagedOp.op) := by
      refine hc.made.lists.trans ?_
      rw [hkos, List.map_map]
      exact (onTop_of_prepareOps hprepared).2.2
    obtain ⟨hops, hagainst, hasked⟩ := resolveOps_against (prepareOps_eq_ok hprepared).1
    refine ⟨hlc, _, hc.described.1, hlists, ?_⟩
    intro op hop koid hkoid
    obtain ⟨r, hr, hrop⟩ : ∃ r ∈ resolved, r.op = op.op :=
      List.mem_map.mp (hops ▸ List.mem_map_of_mem hop)
    have hr' := hagainst r hr
    have hrkoid : r.koid = koid := hr'.named koid (hrop ▸ hkoid)
    constructor
    · -- The operation became a commit of its object.
      have hmem : (r.koid, r.op.request.relationships) ∈ commits.map Commit.lists := by
        rw [hlists, ← hasked]
        exact List.mem_map_of_mem hr
      obtain ⟨c, hc, heq⟩ := List.mem_map.mp hmem
      exact ⟨c, hc, (congrArg Prod.fst heq).trans hrkoid⟩
    · -- Its head has the number that was read, so it is the version that was read.
      intro ko hko
      obtain ⟨hexpected, hpos, hsince⟩ := hwaits op hop koid hkoid ko hko
      have hnumber : ko.version = st.store.headVersion koid := by
        have hcur := hr'.expected
        rw [hrop, hexpected, getD_some, hr'.curV, hrkoid] at hcur
        exact hcur
      cases hhead : st.store.headObject koid with
      | none =>
        rw [Store.headVersion, hhead] at hnumber
        change ko.version = 0 at hnumber
        omega
      | some head =>
        rw [(Store.head_eq hhead).2.1] at hnumber
        rcases hsince head hhead with rfl | hlt
        · rfl
        · omega
  · split at h <;> simp [refused] at h

theorem Shared.InOrder.staged {call : Call} {ops : List StagedOp} {hlc : Nat} (h : sys.InOrder C)
    (hkeeps : KeepsReads A C sys m) (hmove : Kernel.move A C sys m = some sys')
    (hcall : sys.call m = some (io, call, ops))
    (hstage : stage A C sys.st io call = (hlc, .write batch pipe tenants reply)) :
    ∃ ts change, Describes C.sha256 sys.st ts batch pipe change ∧
      (∀ c ∈ change.commits, sys.st.store.headObject c.ko.koid = none →
        sys'.basisOf c.ko.koid = []) ∧
      ∀ op ∈ ops, op.Replaces sys.st.store change := by
  have hwrite : (stage A C sys.st io call).2.isWrite = true := by
    rw [hstage]
    rfl
  cases m with
  | start io' call' =>
    cases hcall
    obtain ⟨ts, change, hdescribed, hlists, -⟩ := stage_describes h.keyed hstage
    simp only [Kernel.move, Shared.take] at hmove
    split at hmove
    · cases hmove
    · cases hmove
      refine ⟨ts, change, hdescribed.1, ?_, by simp⟩
      intro c hc hnone
      have hl : c.lists ∈ call.lists sys.st io := hlists ▸ List.mem_map_of_mem hc
      exact hkeeps hwrite c.lists hl hnone
  | commit handle io' =>
    obtain ⟨txn, htxn, heq⟩ := map_eq_some_iff.mp hcall
    cases heq
    have hwaits : ∀ op ∈ txn.staged, op.Waits sys.st.store := fun op hop =>
      h.waits op (mem_waiting.mpr ⟨txn, txn_mem htxn, hop⟩)
    obtain ⟨ts, change, hdescribes, hlists, hreplaces⟩ := replaces_of_waits hwaits hstage
    rw [Kernel.move, htxn, bind_some] at hmove
    simp only [Shared.take] at hmove
    split at hmove
    · cases hmove
    · cases hmove
      refine ⟨ts, change, hdescribes, ?_, hreplaces⟩
      intro c hc hnone
      have hl : c.lists ∈ opLists io 0 (txn.staged.map StagedOp.op) :=
        hlists ▸ List.mem_map_of_mem hc
      exact hkeeps txn htxn hwrite c.lists hl hnone
  | _ => cases hcall

theorem Shared.InOrder.move (h : sys.InOrder C) (hkeeps : KeepsReads A C sys m)
    (hmove : Kernel.move A C sys m = some sys') : sys'.InOrder C := by
  have hwaiting := h.waits_move hkeeps hmove
  have hwaits : ∀ op ∈ sys'.waiting, op.Waits sys.st.store := fun op hop =>
    (hwaiting op hop).elim (h.waits op) And.left
  rcases move_cases hmove with ⟨io, call, ops, hcall, -, hst, hstaged, -⟩ |
    ⟨flight, batch, pipe, tenants, reply, -, hflight, hwrite, rfl⟩ | ⟨hlc, -, hst, hflight, -⟩
  · refine ⟨hst ▸ h.keyed, hst ▸ h.lineage, hst ▸ hwaits, ?_⟩
    intro flight batch pipe tenants reply hflight hwrite
    obtain ⟨ts, change, hdescribes, hagain, hreplaces⟩ := h.staged hkeeps hmove hcall
      (stage_of_flight hstaged hflight hwrite)
    rw [hflight, Option.some.injEq] at hstaged
    subst hstaged
    exact ⟨ts, change, hst ▸ hdescribes.of_hlc, hst ▸ hagain, hst ▸ hreplaces⟩
  · -- What is waited for is not created again, so its object only goes on.
    obtain ⟨ts, change, hdescribes, hagain, -⟩ := h.flight flight batch pipe tenants reply
      hflight hwrite
    refine ⟨hdescribes.keyed h.keyed, h.lineage.writeBatch hdescribes, ?_,
      fun _ _ _ _ _ hnone => by cases hnone⟩
    intro op hop koid hkoid ko hko
    obtain ⟨hexpected, hpos, hsince⟩ := h.waits op hop koid hkoid ko hko
    refine ⟨hexpected, hpos, hsince.writeBatch hdescribes ?_⟩
    rintro c hc rfl hnone
    have hmem : ko ∈ sys.basisOf c.ko.koid := mem_basisOf.mpr ⟨op, hop, hkoid, hko⟩
    rw [hagain c hc hnone] at hmem
    cases hmem
  · refine ⟨hst ▸ h.keyed, hst ▸ h.lineage, hst ▸ hwaits, ?_⟩
    intro flight batch pipe tenants reply hflight' hwrite
    rcases hflight with hflight | hflight
    · obtain ⟨ts, change, hdescribes, hagain, hreplaces⟩ := h.flight flight batch pipe tenants
        reply (hflight ▸ hflight') hwrite
      refine ⟨ts, change, hst ▸ hdescribes.of_hlc, ?_, hst ▸ hreplaces⟩
      intro c hc hnone
      have hnone : sys.st.store.headObject c.ko.koid = none := by
        rw [hst] at hnone
        exact hnone
      -- A write staged meanwhile waits for an object that exists.
      refine eq_nil_iff_forall_not_mem.mpr fun ko hko => ?_
      obtain ⟨op, hop, hkoid, hbasis⟩ := mem_basisOf.mp hko
      rcases hwaiting op hop with hold | ⟨-, hexists⟩
      · have hmem := mem_basisOf.mpr ⟨op, hold, hkoid, hbasis⟩
        rw [hagain c hc hnone] at hmem
        cases hmem
      · exact hexists _ hkoid (ne_nil_of_mem hbasis) hnone
    · rw [hflight] at hflight'
      cases hflight'

/-- If every write is staged while the time stamp of its transaction still shows what was
    read, and no object is created again that is waited for, a commit replaces the
    version that its transaction has read. -/
theorem no_lost_update (A : Admission) (C : Crypto) (sys sys' : Shared)
    (hreach : Runs.Reaches (move A C) (KeepsReads A C) Shared.initial sys)
    (hfinish : move A C sys (.finish true) = some sys') : NothingLost sys sys' := by
  have h : sys.InOrder C :=
    hreach.invariant (Shared.inOrder_initial C) fun _ _ _ h hk hstep => h.move hk hstep
  rintro ⟨staged, ops⟩ hflight hwrite op hop koid hkoid ko hko
  cases staged with
  | done reply => cases hwrite
  | write batch pipe tenants reply =>
    obtain ⟨ts, change, hdescribes, -, hreplaces⟩ := h.flight _ batch pipe tenants reply hflight rfl
    obtain ⟨⟨c, hc, hckoid⟩, hreads⟩ := hreplaces op hop koid hkoid
    have hhead := hreads ko hko
    refine ⟨hhead, ?_⟩
    rw [move, hflight] at hfinish
    cases hfinish
    subst hckoid
    change ((sys.st.store.writeBatch batch).headObject c.ko.koid).map _ = _
    rw [hdescribes.headObject_commit hc, map_some, (hdescribes.onTop c hc).version,
      (Store.head_eq hhead).2.1]

/-! ## Runs with one object -/

def reader : Subject := ⟨utf8 "ann", [], none⟩

def objectCreated : RememberRequest :=
  { RememberRequest.create ⟨reader, none⟩ ⟨utf8 "note", none, 0, []⟩ with koid := some 1 }

def objectUpdated : RememberRequest :=
  .update ⟨reader, none⟩ 1 ⟨utf8 "note", none, 0, []⟩

def atMillis (millis : Nat) : Ambient := ⟨millis, millis, fun _ => 0⟩

/-- A transaction reads the first version while the second is in flight, and stages its
    write when it has appeared. -/
def overtaken : List Move :=
  [.start (atMillis 1) (.remember objectCreated), .finish true,
    .start (atMillis 2) (.remember objectUpdated), .beginTransaction reader (utf8 "t") 2,
    .get 0 1, .finish true, .stage 0 objectUpdated, .commit 0 (atMillis 3)]

def createdAgain : List Move :=
  [.start (atMillis 1) (.remember objectCreated), .finish true,
    .beginTransaction reader (utf8 "t") 2, .get 0 1, .stage 0 objectUpdated,
    .start (atMillis 3) (.forget ⟨reader, none⟩ 1 .erase none none), .finish true,
    .start (atMillis 4) (.remember objectCreated), .finish true, .commit 0 (atMillis 5)]

/-- The engine takes the commit at the end of a run, which does not replace what its
    transaction has read. -/
def UpdateLost (moves : List Move) : Prop :=
  ∃ sys sys', Runs.run (move .unrestricted (.unsigned Sha256.fips180)) Shared.initial moves
      = some sys ∧
    move .unrestricted (.unsigned Sha256.fips180) sys (.finish true) = some sys' ∧
    ¬NothingLost sys sys'

/-- What the end of a run shows: the staged writes in flight with the commit times of what
    was read, and the commit time of the head. -/
def Shared.inFlight (sys : Shared) : Option (Bool × List (Option Koid × List Nat) × Option Nat) :=
  sys.flight.map fun flight => (flight.staged.isWrite,
    flight.ops.map (fun op => (op.op.request.koid, op.basis.map KnowledgeObject.commitTs)),
    (sys.st.store.headObject 1).map KnowledgeObject.commitTs)

theorem update_lost : UpdateLost overtaken ∧ UpdateLost createdAgain := by
  have hrun : ∀ moves read head, read ≠ head →
      ((Runs.run (move .unrestricted (.unsigned Sha256.fips180)) Shared.initial moves).bind
        fun sys => (move .unrestricted (.unsigned Sha256.fips180) sys (.finish true)).bind
          fun _ => sys.inFlight) = some (true, [(some 1, [read])], some head) →
      UpdateLost moves := by
    intro moves read head hne h
    obtain ⟨sys, hsys, h⟩ := bind_eq_some_iff.mp h
    obtain ⟨sys', hsys', h⟩ := bind_eq_some_iff.mp h
    obtain ⟨flight, hflight, h⟩ := map_eq_some_iff.mp h
    simp only [Prod.mk.injEq] at h
    obtain ⟨hwrite, hops, hhead⟩ := h
    obtain ⟨op, hop, heq⟩ := List.mem_map.mp (hops ▸ mem_singleton_self _)
    simp only [Prod.mk.injEq] at heq
    obtain ⟨ko, hko, hread⟩ := List.mem_map.mp (heq.2 ▸ mem_singleton_self _)
    refine ⟨sys, sys', hsys, hsys', ?_⟩
    intro hnothing
    rw [(hnothing flight hflight hwrite op hop 1 heq.1 ko hko).1] at hhead
    exact hne (hread.symm.trans (Option.some.inj hhead))
  exact ⟨hrun overtaken 65536 131072 (by decide) (by decide +kernel),
    hrun createdAgain 65536 262144 (by decide) (by decide +kernel)⟩

theorem Txn.get_eq_ok (h : txn.get A s koid = .ok ko) :
    s.objectAt koid txn.snapshotTs = some ko := by
  unfold Txn.get at h
  split at h
  · cases h
  · rename_i ko' hko'
    simp only [bind_eq_ok, pure_eq_ok] at h
    obtain ⟨_, -, rfl⟩ := h
    exact hko'

theorem keepsReads_stage (hget : move A C sys (.get handle koid) = some sys')
    (hreads : ∀ txn, sys.txn handle = some txn → txn.reads = []) (req : RememberRequest) :
    KeepsReads A C sys' (.stage handle req) := by
  obtain ⟨txn, htxn, rfl⟩ := map_eq_some_iff.mp hget
  have hnil := hreads txn htxn
  have hlt : handle < sys.txns.length := by
    obtain ⟨_, hsome, -⟩ := bind_eq_some_iff.mp htxn
    exact (List.getElem?_eq_some_iff.mp hsome).1
  cases hread : txn.get A sys.st.store koid with
  | error e =>
    intro txn' htxn' koid' _ ko hko
    rw [htxn] at htxn'
    cases htxn'
    simp [Txn.readsOf, hnil] at hko
  | ok ko =>
    intro txn' htxn' koid' _ ko' hko'
    simp only [Shared.txn, getElem?_set_self hlt, bind_some, id_eq, Option.some.injEq] at htxn'
    subst htxn'
    simp only [Txn.readsOf, hnil, nil_append] at hko'
    obtain ⟨⟨_, _⟩, hmem, rfl⟩ := List.mem_map.mp hko'
    obtain ⟨hmem, hkoid⟩ := mem_filter.mp hmem
    cases mem_singleton.mp hmem
    rw [← of_decide_eq_true hkoid]
    exact Txn.get_eq_ok hread

/-- A step while there are no transactions, which stages nothing. -/
def Idle (sys : Shared) : Move → Bool
  | .stage _ _ => false
  | _ => sys.txns.isEmpty

theorem keepsReads_of_idle (A : Admission) (C : Crypto) (sys : Shared) (m : Move)
    (h : Idle sys m = true) : KeepsReads A C sys m := by
  have hnone : sys.txns.isEmpty = true → sys.txns = [] := List.isEmpty_iff.mp
  cases m with
  | stage handle req => cases h
  | start io call =>
    intro _ l _ _
    simp [Shared.basisOf, Shared.waiting, hnone h]
  | commit handle io =>
    intro txn htxn
    simp [Shared.txn, hnone h] at htxn
  | _ => trivial

/-- A transaction reads a version and replaces it. -/
theorem update_kept :
    ∃ a b c d e, Runs.run (move .unrestricted (.unsigned Sha256.fips180)) Shared.initial
        [.start (atMillis 1) (.remember objectCreated), .finish true,
          .beginTransaction reader (utf8 "t") 2] = some a ∧
      move .unrestricted (.unsigned Sha256.fips180) a (.get 0 1) = some b ∧
      move .unrestricted (.unsigned Sha256.fips180) b (.stage 0 objectUpdated) = some c ∧
      move .unrestricted (.unsigned Sha256.fips180) c (.commit 0 (atMillis 3)) = some d ∧
      move .unrestricted (.unsigned Sha256.fips180) d (.finish true) = some e ∧
      d.inFlight = some (true, [(some 1, [65536])], some 65536) ∧ NothingLost d e := by
  obtain ⟨a, ha, hreads, b, hb, c, hc, hwaiting, d, hd, hflight, e, he, -⟩ :
      ∃ a, Runs.run (move .unrestricted (.unsigned Sha256.fips180)) Shared.initial
          [.start (atMillis 1) (.remember objectCreated), .finish true,
            .beginTransaction reader (utf8 "t") 2] = some a ∧
        (a.txn 0).map (fun txn => txn.reads.length) = some 0 ∧
        ∃ b, move .unrestricted (.unsigned Sha256.fips180) a (.get 0 1) = some b ∧
        ∃ c, move .unrestricted (.unsigned Sha256.fips180) b (.stage 0 objectUpdated) = some c ∧
        ({ c with txns := c.txns.set 0 none } : Shared).waiting.length = 0 ∧
        ∃ d, move .unrestricted (.unsigned Sha256.fips180) c (.commit 0 (atMillis 3)) = some d ∧
        decide (d.inFlight = some (true, [(some 1, [65536])], some 65536)) = true ∧
        ∃ e, move .unrestricted (.unsigned Sha256.fips180) d (.finish true) = some e ∧ True := by
    decide +kernel
  have hstage : KeepsReads .unrestricted (.unsigned Sha256.fips180) b (.stage 0 objectUpdated) := by
    refine keepsReads_stage hb (fun txn htxn => ?_) objectUpdated
    rw [htxn] at hreads
    exact length_eq_zero_iff.mp (Option.some.inj hreads)
  have hcommit : KeepsReads .unrestricted (.unsigned Sha256.fips180) c
      (.commit 0 (atMillis 3)) := by
    intro txn _ _ l _ _
    rw [Shared.basisOf, length_eq_zero_iff.mp hwaiting]
    rfl
  have hreach : Runs.Reaches (move .unrestricted (.unsigned Sha256.fips180))
      (KeepsReads .unrestricted (.unsigned Sha256.fips180)) Shared.initial a :=
    (Runs.reaches_of_run (C := fun sys m => Idle sys m = true) _ (by decide +kernel) ha).mono
      (keepsReads_of_idle _ _)
  have hget : KeepsReads .unrestricted (.unsigned Sha256.fips180) a (.get 0 1) := trivial
  exact ⟨a, b, c, d, e, ha, hb, hc, hd, he, of_decide_eq_true hflight,
    no_lost_update .unrestricted (.unsigned Sha256.fips180) d e
      (((hreach.tail hget hb).tail hstage hc).tail hcommit hd) he⟩

end Aikoql.Kernel
