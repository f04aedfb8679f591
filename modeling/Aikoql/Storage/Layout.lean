import Aikoql.Storage.FlushSteps
import Aikoql.Storage.MemtableSegments

/-!
# Where the Batches Are

Which layer of the database holds which part of the history.

A batch is applied to the active memtable. A rotation retires the memtable, a
flush detaches the retired ones, writes them as segments and attaches those. So
the batches are, at every moment, the flushed ones, then one group per detached
memtable, one per retired one, and the group of the active memtable, and each
memtable is the one its group makes. The groups exist in the proof only. A frame
that was logged by a write that failed then is a batch without an effect, and a
replay gives such a frame its effect. A flush that fails after it has detached its
memtables breaks the picture, since no layer holds their groups any more.

A batch of creates leaves no row, so it may stand in the group of an active
memtable that is still empty when a flush starts. The flush covers its frame all
the same, and the group moves to the end of the last detached one.

## Theorems

* `Layout.wrote`, `Layout.rotate`, `Layout.flushA`, `Layout.flushB`,
  `Layout.flushC`: What the steps do to the groups.
-/

namespace Aikoql.Storage

open List

variable (st : State) {frames : List WalFrame} {plan : FlushPlan}
variable {new group : List Batch} {fault : Option Nat} {build : FlushBuild}

def appliedOf (batches : List Batch) : List WalFrame :=
  batches.map Batch.applied

def loggedOf (batches : List Batch) : List WalFrame :=
  batches.map Batch.frame

def memOfGroup (group : List Batch) : Memtable :=
  memOf (appliedOf group)

/-- The groups of a history, oldest first. -/
structure Layers where
  flushed : List Batch
  detached : List (List Batch)
  retired : List (List Batch)
  active : List Batch

def Layers.unflushed (l : Layers) : List Batch :=
  l.detached.flatten ++ (l.retired.flatten ++ l.active)

def Layers.history (l : Layers) : List Batch :=
  l.flushed ++ l.unflushed

def FlushHolds (H : Sha256) (cfg : Config) (mems : List Memtable) : Option FlushStage → Prop
  | none => mems = []
  | some (.planned plan) =>
    plan.immutables = mems ∧ plan.segmentIds.length = mems.length
  | some (.built build _) =>
    ∃ ids published, ids.length = mems.length ∧ Built H cfg (mems.zip ids) build published

structure Layout (H : Sha256) (cfg : Config) (sys : Sys) (l : Layers) : Prop where
  increasing : l.unflushed.Pairwise fun a b => a.frame.seq < b.frame.seq
  below : ∀ b ∈ l.unflushed, b.frame.seq.val < sys.st.nextSeq
  sound : ∀ b ∈ l.history, b.Sound
  active : sys.st.active = memOfGroup l.active
  retired : sys.st.immutables = l.retired.map memOfGroup
  detached : FlushHolds H cfg (l.detached.map memOfGroup) sys.flush
  nonempty : ∀ group ∈ l.detached ++ l.retired, (memOfGroup group).isEmpty = false

theorem Layers.unflushed_snoc (l : Layers) (new : List Batch) :
    ({ l with active := l.active ++ new } : Layers).unflushed = l.unflushed ++ new := by
  simp [Layers.unflushed]

theorem Layers.history_snoc (l : Layers) (new : List Batch) :
    ({ l with active := l.active ++ new } : Layers).history = l.history ++ new := by
  simp [Layers.history, Layers.unflushed]

section

variable {H : Sha256} {cfg : Config} {sys sys' : Sys} {l : Layers}

theorem layout_initial (H : Sha256) (cfg : Config) : Layout H cfg Sys.initial ⟨[], [], [], []⟩ where
  increasing := List.Pairwise.nil
  below := forall_mem_nil _
  sound := forall_mem_nil _
  active := rfl
  retired := rfl
  detached := rfl
  nonempty := forall_mem_nil _

theorem Layout.congr (h : Layout H cfg sys l)
    (hnext : sys.st.nextSeq ≤ sys'.st.nextSeq) (hactive : sys'.st.active = sys.st.active)
    (hretired : sys'.st.immutables = sys.st.immutables) (hflush : sys'.flush = sys.flush) :
    Layout H cfg sys' l where
  increasing := h.increasing
  below := fun b hb => (h.below b hb).trans_le hnext
  sound := h.sound
  active := hactive.trans h.active
  retired := hretired.trans h.retired
  detached := hflush ▸ h.detached
  nonempty := h.nonempty

theorem Layout.snoc (h : Layout H cfg sys l)
    (hpair : new.Pairwise fun a b => a.frame.seq < b.frame.seq)
    (hnew : ∀ b ∈ new, sys.st.nextSeq ≤ b.frame.seq.val ∧ b.frame.seq.val < sys'.st.nextSeq)
    (hnext : sys.st.nextSeq ≤ sys'.st.nextSeq) (hsound : ∀ b ∈ new, b.Sound)
    (hactive : sys'.st.active = (appliedOf new).foldl applyFrame sys.st.active)
    (hretired : sys'.st.immutables = sys.st.immutables) (hflush : sys'.flush = sys.flush) :
    Layout H cfg sys' { l with active := l.active ++ new } := by
  exact {
    increasing := by
      rw [l.unflushed_snoc, pairwise_append]
      exact ⟨h.increasing, hpair, fun a ha b hb => (h.below a ha).trans_le (hnew b hb).1⟩
    below := by
      rw [l.unflushed_snoc]
      exact forall_mem_append.mpr
        ⟨fun b hb => (h.below b hb).trans_le hnext, fun b hb => (hnew b hb).2⟩
    sound := by
      rw [l.history_snoc]
      exact forall_mem_append.mpr ⟨h.sound, hsound⟩
    active := by
      simp only [hactive, h.active, memOfGroup, appliedOf, map_append, memOf, foldl_append]
    retired := hretired.trans h.retired
    detached := hflush ▸ h.detached
    nonempty := h.nonempty }

def Batch.unapplied (f : WalFrame) : Batch :=
  ⟨f, [], false⟩

theorem Layout.failed (h : Layout H cfg sys l) {drawn : Nat} {torn : Bytes}
    (hfail : Failed H sys drawn frames torn sys') :
    Layout H cfg sys' { l with active := l.active ++ frames.map Batch.unapplied } := by
  have hle := hfail.length_le
  refine h.snoc ?_ (fun b hb => ?_) ?_ (fun b hb => ?_) ?_ ?_ ?_
  · exact pairwise_map.mpr hfail.numbered.pairwise
  · rcases mem_map.mp hb with ⟨f, hf, rfl⟩
    have hmem := hfail.numbered.mem f hf
    rw [hfail.sys]
    exact ⟨hmem.1, hmem.2.trans_le (by simp only; omega)⟩
  · rw [hfail.sys]
    exact Nat.le_add_right _ _
  · rcases mem_map.mp hb with ⟨f, hf, rfl⟩
    exact ⟨hfail.checked f hf, nil_prefix, nofun⟩
  · rw [hfail.sys, appliedOf, map_map, foldl_map]
    exact (foldl_fixed _).symm
  · rw [hfail.sys]
  · rw [hfail.sys]

theorem Wrote.new_seq {grouped : Bool} (hwrote : Wrote H grouped sys frames sys')
    (hframe : new.map Batch.frame = frames) : new.Pairwise (fun a b => a.frame.seq < b.frame.seq) ∧
      ∀ b ∈ new, sys.st.nextSeq ≤ b.frame.seq.val ∧ b.frame.seq.val < sys'.st.nextSeq := by
  subst hframe
  refine ⟨(pairwise_map (f := Batch.frame)).mp hwrote.numbered.pairwise, fun b hb => ?_⟩
  have hmem := hwrote.numbered.mem b.frame (mem_map_of_mem hb)
  rw [hwrote.st]
  exact hmem

theorem Layout.wrote (h : Layout H cfg sys l) {grouped : Bool}
    (hwrote : Wrote H grouped sys frames sys') :
    ∃ new, sys'.history = sys.history ++ new ∧ new.map Batch.frame = frames ∧
      appliedOf new = effects grouped sys.st.dirs frames ∧
      (∀ b ∈ new, b.acked = true ↔ Accepted grouped sys.st.dirs frames) ∧
      Layout H cfg sys' { l with active := l.active ++ new } := by
  rcases hwrote.history with ⟨new, hhistory, hframe, happlied, hacked⟩
  rcases hwrote.new_seq hframe with ⟨hpair, hnew⟩
  refine ⟨new, hhistory, hframe, happlied, hacked, h.snoc hpair hnew ?_
    (hwrote.sound hframe happlied hacked) ?_ ?_ hwrote.flush⟩
  · rw [hwrote.st]
    exact Nat.le_add_right _ _
  · rw [hwrote.st, appliedOf, happlied]
  · rw [hwrote.st]

/-! ## Rotation and phase A -/

theorem Layout.regroup (h : Layout H cfg sys l) {l' : Layers} (hlayers : l'.history = l.history)
    (hsuffix : l'.unflushed <:+ l.unflushed) (hnext : sys'.st.nextSeq = sys.st.nextSeq)
    (hactive : sys'.st.active = memOfGroup l'.active)
    (hretired : sys'.st.immutables = l'.retired.map memOfGroup)
    (hdetached : FlushHolds H cfg (l'.detached.map memOfGroup) sys'.flush)
    (hnonempty : ∀ group ∈ l'.detached ++ l'.retired, (memOfGroup group).isEmpty = false) :
    Layout H cfg sys' l' where
  increasing := h.increasing.sublist hsuffix.sublist
  below := by
    rw [hnext]
    exact fun b hb => h.below b (hsuffix.subset hb)
  sound := hlayers ▸ h.sound
  active := hactive
  retired := hretired
  detached := hdetached
  nonempty := hnonempty

def Layers.rotate (l : Layers) : Layers :=
  if (memOfGroup l.active).isEmpty then l
  else { l with retired := l.retired ++ [l.active], active := [] }

theorem Layers.unflushed_rotate (l : Layers) :
    l.rotate.unflushed = l.unflushed ∧ l.rotate.flushed = l.flushed ∧
      l.rotate.detached = l.detached := by
  unfold Layers.rotate
  split
  · exact ⟨rfl, rfl, rfl⟩
  · exact ⟨by simp [Layers.unflushed], rfl, rfl⟩

@[simp] theorem rotate_segments : (Storage.rotate st).segments = st.segments := by
  unfold Storage.rotate
  split <;> rfl

@[simp] theorem rotate_nextSeq : (Storage.rotate st).nextSeq = st.nextSeq := by
  unfold Storage.rotate
  split <;> rfl

@[simp] theorem rotate_nextSegmentId : (Storage.rotate st).nextSegmentId = st.nextSegmentId := by
  unfold Storage.rotate
  split <;> rfl

@[simp] theorem rotate_generation : (Storage.rotate st).generation = st.generation := by
  unfold Storage.rotate
  split <;> rfl

@[simp] theorem rotate_dirs : (Storage.rotate st).dirs = st.dirs := by
  unfold Storage.rotate
  split <;> rfl

@[simp] theorem rotate_segmentRecords : (Storage.rotate st).segmentRecords = st.segmentRecords := by
  unfold Storage.rotate
  split <;> rfl

@[simp] theorem manifestOf_rotate : manifestOf (Storage.rotate st) = manifestOf st := by
  unfold Storage.rotate
  split <;> rfl

theorem Layout.rotate (h : Layout H cfg sys l) :
    Layout H cfg { sys with st := Storage.rotate sys.st } l.rotate := by
  rcases l.unflushed_rotate with ⟨hun, hfl, hdet⟩
  refine h.regroup (by rw [Layers.history, hun, hfl]; rfl) ⟨[], hun⟩ (rotate_nextSeq sys.st) ?_ ?_
    (hdet ▸ h.detached) ?_
  · simp only [Storage.rotate, Layers.rotate, h.active]
    split
    · exact h.active
    · rfl
  · simp only [Storage.rotate, Layers.rotate, h.active]
    split
    · exact h.retired
    · simp [h.retired]
  · unfold Layers.rotate
    split
    · exact h.nonempty
    · rename_i hne
      rw [← append_assoc]
      exact forall_mem_append.mpr ⟨h.nonempty, forall_mem_singleton.mpr (Bool.eq_false_iff.mpr hne)⟩

theorem applyFrame_of_rowless (m : Memtable) (f : WalFrame) (h : ∀ k, f.version k = none) :
    applyFrame m f = m := by
  have hnone : ∀ op ∈ f.ops, op.entry = none := by
    intro op hop
    by_contra hsome
    rcases Option.ne_none_iff_exists'.mp hsome with ⟨⟨k, e⟩, hke⟩
    have hver := h k
    rw [WalFrame.version, Option.map_eq_none_iff, lastWrite_eq_none_iff] at hver
    exact hver (k, e) (mem_filterMap.mpr ⟨op, hop, hke⟩) rfl
  rw [applyFrame]
  generalize f.ops = ops at hnone
  induction ops with
  | nil => rfl
  | cons op ops ih =>
    rw [foldl_cons, applyRow_entry, hnone op mem_cons_self]
    exact ih fun op' hop' => hnone op' (mem_cons_of_mem op hop')

theorem rowless_of_isEmpty (frames : List WalFrame)
    (hinc : frames.Pairwise fun a b => a.seq < b.seq) (h : (memOf frames).isEmpty = true) :
    ∀ f ∈ frames, ∀ k, f.version k = none := by
  intro f hf k
  have hchain := chain_memOf frames k hinc
  have hempty : (memOf frames).map[k]? = none := by
    rw [Memtable.isEmpty, Std.ExtTreeMap.isEmpty_iff] at h
    rw [h]
    exact Std.ExtTreeMap.getElem?_empty
  rw [Memtable.chain, hempty] at hchain
  by_contra hsome
  rcases Option.ne_none_iff_exists'.mp hsome with ⟨v, hv⟩
  have hmem : v ∈ frames.filterMap (WalFrame.version k) := mem_filterMap.mpr ⟨f, hf, hv⟩
  rw [← hchain] at hmem
  exact absurd hmem not_mem_nil

theorem foldl_applyFrame_of_rowless (frames : List WalFrame) (m : Memtable)
    (h : ∀ f ∈ frames, ∀ k, f.version k = none) : frames.foldl applyFrame m = m := by
  induction frames generalizing m with
  | nil => rfl
  | cons f frames ih =>
    rw [foldl_cons, applyFrame_of_rowless m f (h f mem_cons_self)]
    exact ih m fun f' hf' => h f' (mem_cons_of_mem f hf')

theorem memOfGroup_append_of_isEmpty (group rest : List Batch)
    (hinc : rest.Pairwise fun a b => a.frame.seq < b.frame.seq)
    (h : (memOfGroup rest).isEmpty = true) : memOfGroup (group ++ rest) = memOfGroup group := by
  have hinc' : (appliedOf rest).Pairwise fun a b => a.seq < b.seq :=
    (pairwise_map (f := Batch.applied)).mpr hinc
  rw [memOfGroup, appliedOf, map_append, memOf, foldl_append]
  exact foldl_applyFrame_of_rowless _ _ (rowless_of_isEmpty _ hinc' h)

theorem Layers.isEmpty_rotate (l : Layers) : (memOfGroup l.rotate.active).isEmpty = true := by
  unfold Layers.rotate
  split
  · assumption
  · exact Std.ExtTreeMap.isEmpty_empty

theorem Layout.flushA (h : Layout H cfg sys l) (hidle : sys.flush = none) :
    let planned := flushPhaseA sys.st sys.disk.wal.length
    (planned.2 = none ∧ Layout H cfg { sys with st := planned.1, flush := none } l.rotate) ∨
      ∃ plan groups, planned.2 = some plan ∧ plan.walTruncateLen = sys.disk.wal.length ∧
        groups.flatten = l.unflushed ∧
        plan.segmentIds = (List.range groups.length).map (fun i => sys.st.nextSegmentId + i) ∧
        Layout H cfg { sys with st := planned.1, flush := some (.planned plan) }
          ⟨l.flushed, groups, [], []⟩ := by
  have hrot := h.rotate
  rcases l.unflushed_rotate with ⟨hun, hfl, hdet⟩
  have hnone : l.detached = [] := by
    have := h.detached
    rw [hidle] at this
    exact map_eq_nil_iff.mp this
  have hempty := l.isEmpty_rotate
  have hinc : l.rotate.active.Pairwise fun a b => a.frame.seq < b.frame.seq :=
    (hrot.increasing.sublist (sublist_append_right _ _)).sublist (sublist_append_right _ _)
  simp only [flushPhaseA]
  by_cases himm : (Storage.rotate sys.st).immutables.isEmpty = true
  · rw [if_pos himm]
    exact .inl ⟨rfl, hrot.congr le_rfl rfl rfl hidle.symm⟩
  · rw [if_neg himm]
    -- The last detached group takes the creates the active memtable holds.
    have hretired : l.rotate.retired ≠ [] := by
      intro hnil
      have := hrot.retired
      rw [hnil] at this
      exact himm (by simpa using this)
    obtain ⟨groups, last, hsplit⟩ : ∃ groups last, l.rotate.retired = groups ++ [last] :=
      ⟨_, _, (dropLast_append_getLast hretired).symm⟩
    have hmems : (groups ++ [last ++ l.rotate.active]).map memOfGroup
        = (Storage.rotate sys.st).immutables := by
      rw [hrot.retired, hsplit]
      simp [memOfGroup_append_of_isEmpty last _ hinc hempty]
    have hlen : (groups ++ [last ++ l.rotate.active]).length
        = (Storage.rotate sys.st).immutables.length := by
      rw [← hmems, length_map]
    have hflat : (groups ++ [last ++ l.rotate.active]).flatten = l.unflushed := by
      rw [← hun, Layers.unflushed, hdet, hnone, hsplit]
      simp
    refine .inr ⟨_, _, rfl, rfl, hflat, ?_, ?_⟩
    · rw [hlen, rotate_nextSegmentId]
    · have hsame : (⟨l.flushed, groups ++ [last ++ l.rotate.active], [], []⟩ : Layers).unflushed
          = l.unflushed := by
        rw [Layers.unflushed]
        simp only [hflat, flatten_nil, append_nil]
      refine h.regroup ?_ ⟨[], hsame⟩ (rotate_nextSeq sys.st) ?_ rfl ⟨hmems.symm, ?_⟩ ?_
      · rw [Layers.history, Layers.history, hsame]
      · exact hrot.active.trans (memOfGroup_append_of_isEmpty [] _ hinc hempty)
      · rw [length_map, length_map, length_range, hlen]
      · intro group hg
        rw [append_nil] at hg
        have hmem : memOfGroup group ∈ l.rotate.retired.map memOfGroup := by
          rw [← hrot.retired, ← hmems]
          exact mem_map_of_mem hg
        rcases mem_map.mp hmem with ⟨group', hg', heq⟩
        rw [← heq]
        exact hrot.nonempty group' (mem_append_right _ hg')

/-! ## Phases B and C -/

theorem Sys.flushB_built {len : Nat}
    (h : (sys.flushB H cfg plan fault).flush = some (.built build len)) :
    ∃ published, Built H cfg (plan.immutables.zip plan.segmentIds) build published ∧
      sys.flushB H cfg plan fault = { sys with
            disk := sys.disk.applyAll (builtOps (plan.immutables.zip plan.segmentIds) published)
            flush := some (.built build plan.walTruncateLen) } := by
  unfold Sys.flushB at h ⊢
  simp only at h ⊢
  cases hfault : fault.filter fun k =>
      decide (k < (flushPhaseB H cfg FlushBuild.empty
        (plan.immutables.zip plan.segmentIds)).1.length) with
  | some k =>
    rw [hfault] at h
    cases h
  | none =>
    rw [hfault] at h
    cases hok : (flushPhaseB H cfg FlushBuild.empty (plan.immutables.zip plan.segmentIds)).2 with
    | error e =>
      rw [hok] at h
      cases h
    | ok build' =>
      rw [hok] at h
      rcases flushPhaseB_ok hok with ⟨published, hbuilt, hops⟩
      cases h
      exact ⟨published, hbuilt, by simp only [hops]⟩

theorem Layout.flushB (h : Layout H cfg sys l) (hflush : sys.flush = some (.planned plan))
    {len : Nat} (hbuilt : (sys.flushB H cfg plan fault).flush = some (.built build len)) :
    Layout H cfg (sys.flushB H cfg plan fault) l := by
  have hplan := h.detached
  rw [hflush] at hplan
  rcases Sys.flushB_built hbuilt with ⟨published, hpub, heq⟩
  rw [heq]
  refine h.regroup rfl suffix_rfl rfl h.active h.retired ⟨plan.segmentIds, published, hplan.2, ?_⟩
    h.nonempty
  rw [← hplan.1]
  exact hpub

/-- The groups after a publication. -/
def Layers.publish (l : Layers) : Layers :=
  { l with flushed := l.flushed ++ l.detached.flatten, detached := [] }

theorem Layers.history_publish (l : Layers) : l.publish.history = l.history := by
  simp [Layers.history, Layers.unflushed, Layers.publish]

theorem Layers.unflushed_publish (l : Layers) :
    l.unflushed = l.detached.flatten ++ l.publish.unflushed := by
  simp [Layers.unflushed, Layers.publish]

theorem Layout.flushC (h : Layout H cfg sys l)
    (hnext : sys'.st.nextSeq = sys.st.nextSeq) (hactive : sys'.st.active = sys.st.active)
    (hretired : sys'.st.immutables = sys.st.immutables) (hflush : sys'.flush = none) :
    Layout H cfg sys' l.publish := by
  refine h.regroup l.history_publish ⟨_, l.unflushed_publish.symm⟩ hnext (hactive.trans h.active)
    (hretired.trans h.retired) ?_ fun group hg => h.nonempty group (mem_append_right _ hg)
  rw [hflush]
  rfl

/-! ## Phase B does not fail by itself -/

theorem checkBatch_ok {ops : List Op} (h : checkBatch ops = .ok ()) :
    ops ≠ [] ∧ ∀ op ∈ ops, op.key.length ≤ maxKeyLen := by
  simp only [checkBatch, bind_eq_ok, ensure_eq_ok, exists_const] at h
  refine ⟨h.1, fun op hop => ?_⟩
  cases hfind : (ops.map Op.key).find? fun k => maxKeyLen < k.length with
  | none =>
    have := find?_eq_none.mp hfind op.key (mem_map_of_mem hop)
    simpa using this
  | some k =>
    rw [hfind] at h
    exact absurd h.2 (by simp)

theorem key_of_entry {op : Op} {k : Bytes} {e : MemEntry} (h : op.entry = some (k, e)) :
    op.key = k := by
  cases op <;> simp [Op.entry] at h <;> exact h.1

theorem exists_op_of_version {f : WalFrame} {k : Bytes} {v : Nat × MemEntry}
    (h : f.version k = some v) : ∃ op ∈ f.ops, op.entry = some (k, v.2) := by
  rcases Option.map_eq_some_iff.mp h with ⟨e, he, rfl⟩
  rcases exists_of_findSome?_eq_some he with ⟨w, hw, hwe⟩
  rw [mem_reverse, WalFrame.entries, mem_filterMap] at hw
  rcases hw with ⟨op, hop, hentry⟩
  split at hwe
  · rename_i hk
    cases hwe
    exact ⟨op, hop, by rw [hentry, ← hk]⟩
  · cases hwe

theorem mem_entries_memOfGroup (hinc : group.Pairwise fun a b => a.frame.seq < b.frame.seq)
    (k : Bytes) (seq : Nat) (e : MemEntry) :
    (k, seq, e) ∈ (memOfGroup group).entries
      ↔ ∃ b ∈ group, b.applied.version k = some (seq, e) := by
  have hinc' : (appliedOf group).Pairwise fun a b => a.seq < b.seq :=
    (pairwise_map (f := Batch.applied)).mpr hinc
  rw [Memtable.mem_entries, memOfGroup, chain_memOf _ _ hinc', mem_filterMap]
  constructor
  · rintro ⟨f, hf, hv⟩
    rcases mem_map.mp hf with ⟨b, hb, rfl⟩
    exact ⟨b, hb, hv⟩
  · rintro ⟨b, hb, hv⟩
    exact ⟨b.applied, mem_map_of_mem hb, hv⟩

theorem publishMemtable_group (hcfg : cfg.blockTarget ≠ 0)
    (hinc : group.Pairwise fun a b => a.frame.seq < b.frame.seq) (hsound : ∀ b ∈ group, b.Sound)
    (hne : (memOfGroup group).isEmpty = false) :
    ∃ sa, publishMemtable H cfg (memOfGroup group) = .ok sa := by
  refine publishMemtable_isOk H cfg _ hcfg (fun hnil => ?_) (fun e he => ?_)
  · -- Without entries no batch leaves a row, and the memtable is empty.
    have hrowless : ∀ f ∈ appliedOf group, ∀ k, f.version k = none := by
      intro f hf k
      rcases mem_map.mp hf with ⟨b, hb, rfl⟩
      by_contra hsome
      rcases Option.ne_none_iff_exists'.mp hsome with ⟨⟨seq, e⟩, hv⟩
      have hmem := (mem_entries_memOfGroup hinc k seq e).mpr ⟨b, hb, hv⟩
      rw [hnil] at hmem
      cases hmem
    rw [memOfGroup, memOf, foldl_applyFrame_of_rowless _ _ hrowless] at hne
    exact absurd hne (by simp [Memtable.isEmpty, Memtable.new])
  · obtain ⟨k, seq, me⟩ := e
    rcases (mem_entries_memOfGroup hinc k seq me).mp he with ⟨b, hb, hv⟩
    rcases exists_op_of_version hv with ⟨op, hop, hentry⟩
    have hkey := (checkBatch_ok (hsound b hb).checked).2 op ((hsound b hb).effect.subset hop)
    rwa [key_of_entry hentry] at hkey

theorem Layout.flushB_ok (h : Layout H cfg sys l) (hcfg : cfg.blockTarget ≠ 0)
    (hflush : sys.flush = some (.planned plan)) :
    ∃ build, (sys.flushB H cfg plan none).flush = some (.built build plan.walTruncateLen) := by
  have hplan := h.detached
  rw [hflush] at hplan
  have hinc : l.detached.flatten.Pairwise fun a b => a.frame.seq < b.frame.seq :=
    (pairwise_append.mp h.increasing).1
  have heach : ∀ mi ∈ plan.immutables.zip plan.segmentIds,
      ∃ sa, publishMemtable H cfg mi.1 = .ok sa := by
    intro mi hmi
    have hmem : mi.1 ∈ l.detached.map memOfGroup := hplan.1 ▸ (of_mem_zip hmi).1
    rcases mem_map.mp hmem with ⟨group, hgroup, heq⟩
    have hsub : group.Sublist l.detached.flatten := sublist_flatten_of_mem hgroup
    rw [← heq]
    refine publishMemtable_group hcfg (hinc.sublist hsub) (fun b hb => h.sound b ?_)
      (h.nonempty group (mem_append_left _ hgroup))
    simp [Layers.history, Layers.unflushed, hsub.subset hb]
  rcases flushPhaseB_isOk H cfg _ FlushBuild.empty heach with ⟨build, hbuild⟩
  refine ⟨build, ?_⟩
  simp only [Sys.flushB, Option.filter_none, hbuild]

end

end Aikoql.Storage
