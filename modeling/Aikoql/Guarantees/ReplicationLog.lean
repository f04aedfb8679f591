import Aikoql.Storage.CleanRuns
import Aikoql.Storage.LogWalk

/-!
# What a Follower Is Sent

Whether the archive and the log together hold every frame, one after the other.

A flush moves the covered beginning of the log into an archive file, so the files
hold consecutive pieces of one log. The pieces are numbered without a gap as long
as every number that is drawn gets its frame. A write that fails after it drew its
number leaves a hole for good (`failed_append_leaves_gap`), and so does a reopen
that loses the newest number.

The call itself takes three samples. A write between the first two makes the last
number run ahead of the log that was read, and a follower that has everything in
that log is told that its frames are gone (`late_write_reported_lost`). That is
the only way: `log_since_concurrent` says when the call answers, and
`log_since_complete` what it answers if nothing moves.

## Main definitions

* `ReopenFinds`: A reopen finds a trace of the newest number.
* `KeepsLog`: A clean step that leaves no hole in the log.
* `Archived`: The archive and the log are pieces of one log.

## Main theorems

* `Archived.step`: One step keeps the pieces.
* `log_since_complete`: What a call answers if nothing moves.
* `failed_append_leaves_gap`: A write that fails before its append.
* `log_since_concurrent`: When a call between other steps answers.
* `late_write_reported_lost`: A write between two samples.
-/

namespace Aikoql.Storage

open List Runs

variable {log : List WalFrame} {l' : Layers} {next : Nat}

/-- A reopen finds a trace of the newest number: a frame in the log, or a row under
    that number, unless none was drawn yet. -/
def ReopenFinds (sys : Sys) : Event → Prop
  | .reopen => sys.disk.wal ≠ [] ∨ sys.st.lastSeq = 0 ∨ RowFrom sys.st.segments sys.st.lastSeq
  | .crash => sys.disk.wal ≠ [] ∨ sys.st.lastSeq = 0 ∨ RowFrom sys.st.segments sys.st.lastSeq
  | _ => True

def KeepsLog (H : Sha256) (cfg : Config) (sys : Sys) (e : Event) : Prop :=
  Clean H cfg sys e ∧ NoGap sys e ∧ ReopenFinds sys e

def Sys.written (sys : Sys) : List WalFrame :=
  loggedOf sys.history

def firstSeq (frames : List WalFrame) : Nat :=
  (frames.head?.map fun f => f.seq.val).getD 0

/-- The archive files hold consecutive groups of frames, the log holds the rest,
    and together they are everything that was written, numbered from one. -/
structure Archived (H : Sha256) (sys : Sys) (l : Layers) (groups : List (List WalFrame)) : Prop where
  rlog : sys.disk.rlog.toList = groups.map fun g => (firstSeq g, encodeAll H g)
  nonempty : ∀ g ∈ groups, g ≠ []
  encodable : ∀ g ∈ groups, ∀ f ∈ g, Encodable f.ops
  written : groups.flatten ++ loggedOf l.unflushed = sys.written
  numbered : Numbered 1 sys.written
  nextSeq : sys.st.nextSeq = sys.written.length + 1

section

variable {H : Sha256} {cfg : Config} {sys sys' : Sys} {l : Layers} {groups : List (List WalFrame)}

theorem archived_initial (H : Sha256) : Archived H Sys.initial ⟨[], [], [], []⟩ [] where
  rlog := rfl
  nonempty := forall_mem_nil _
  encodable := forall_mem_nil _
  written := rfl
  numbered := Numbered.nil 1
  nextSeq := rfl

/-! ## Steps -/

theorem Numbered.append {old new : List WalFrame} (hold : Numbered next old)
    (hnew : Numbered (next + old.length) new) : Numbered next (old ++ new) := by
  rw [Numbered, map_append, hold, hnew, length_append, range'_append_1]

theorem Numbered.split {old new : List WalFrame} (h : Numbered next (old ++ new)) :
    Numbered next old ∧ Numbered (next + old.length) new := by
  rw [Numbered, map_append, length_append, ← range'_append_1] at h
  exact append_inj h (by rw [length_map, length_range'])

theorem Numbered.take (h : Numbered next log) (k : Nat) : Numbered next (log.take k) := by
  rw [← take_append_drop k log] at h
  exact h.split.1

theorem Numbered.drop (h : Numbered next log) (k : Nat) : Numbered (next + k) (log.drop k) := by
  by_cases hk : k ≤ log.length
  · rw [← take_append_drop k log] at h
    have hrest := h.split.2
    rw [length_take_of_le hk] at hrest
    exact hrest
  · rw [drop_eq_nil_of_le (by omega)]
    exact Numbered.nil _

section

variable (h : Archived H sys l groups)
include h

theorem Archived.appended {new : List Batch} (hnext : sys'.st.nextSeq = sys.st.nextSeq + new.length)
    (hnum : Numbered sys.st.nextSeq (loggedOf new)) (hrlog : sys'.disk.rlog = sys.disk.rlog)
    (hhistory : sys'.history = sys.history ++ new) :
    Archived H sys' { l with active := l.active ++ new } groups := by
  have hwritten : sys'.written = sys.written ++ loggedOf new := by
    rw [Sys.written, hhistory, loggedOf_append]
    rfl
  refine ⟨hrlog ▸ h.rlog, h.nonempty, h.encodable, ?_, ?_, ?_⟩
  · rw [l.unflushed_snoc, loggedOf_append, ← append_assoc, h.written, hwritten]
  · rw [hwritten]
    refine h.numbered.append ?_
    rw [Nat.add_comm, ← h.nextSeq]
    exact hnum
  · rw [hnext, h.nextSeq, hwritten, length_append, loggedOf, length_map]
    omega

theorem Archived.quiet (hun : loggedOf l'.unflushed = loggedOf l.unflushed)
    (hnext : sys'.st.nextSeq = sys.st.nextSeq) (hrlog : sys'.disk.rlog = sys.disk.rlog)
    (hhistory : sys'.history = sys.history) : Archived H sys' l' groups := by
  have hwritten : sys'.written = sys.written := congrArg loggedOf hhistory
  refine ⟨hrlog ▸ h.rlog, h.nonempty, h.encodable, ?_, ?_, ?_⟩
  · rw [hun, hwritten]
    exact h.written
  · rw [hwritten]
    exact h.numbered
  · rw [hnext, hwritten]
    exact h.nextSeq

theorem Archived.published (hi : Intact H cfg sys l) (hretain : cfg.retainLog = true)
    {archive : List FileOp}
    (harchive : archiveOps H cfg (encodeAll H (loggedOf l.detached.flatten)) = .ok archive)
    (hrlog : sys'.disk.rlog = (sys.disk.applyAll archive).rlog)
    (hnext : sys'.st.nextSeq = sys.st.nextSeq) (hhistory : sys'.history = sys.history) :
    ∃ groups', Archived H sys' l.publish groups' ∧ groups <+: groups' := by
  have hwritten : sys'.written = sys.written := congrArg loggedOf hhistory
  have hall := h.written
  rw [l.unflushed_publish, loggedOf_append, ← hwritten] at hall
  have hnum : Numbered 1 sys'.written := hwritten.symm ▸ h.numbered
  have hnextSeq : sys'.st.nextSeq = sys'.written.length + 1 := by
    rw [hnext, hwritten]
    exact h.nextSeq
  have henc : ∀ f ∈ loggedOf l.detached.flatten, Encodable f.ops := by
    refine forall_mem_map.mpr fun b hb => hi.wal.encodable b ?_
    rw [l.unflushed_publish]
    exact mem_append_left _ hb
  generalize loggedOf l.detached.flatten = covered at hall harchive henc
  cases covered with
  | nil =>
    -- Nothing was covered, so there is no file.
    have hnone : archiveOps H cfg (encodeAll H []) = .ok [] := by
      rw [archiveOps, if_neg (by simp)]
      rfl
    cases hnone.symm.trans harchive
    exact ⟨groups, ⟨hrlog ▸ h.rlog, h.nonempty, h.encodable, hall, hnum, hnextSeq⟩, prefix_rfl⟩
  | cons f frames =>
    have hdecode := decodeFrame_append H f (encodeAll H frames) (henc f mem_cons_self)
    have hone : archive = [.archive f.seq.val (encodeAll H (f :: frames))] := by
      rw [archiveOps, if_pos (by simp [hretain, length_frameBytes_pos]), encodeAll_cons, hdecode]
        at harchive
      exact (Except.ok.inj harchive).symm
    subst hone
    refine ⟨groups ++ [f :: frames], ⟨?_, ?_, ?_, ?_, hnum, hnextSeq⟩, prefix_append _ _⟩
    · -- The files there are start with older frames.
      rw [hrlog]
      refine (toList_insert_last _ _ _ ?_).trans ?_
      · intro p hp
        rw [h.rlog] at hp
        rcases mem_map.mp hp with ⟨g, hg, rfl⟩
        have hpair := hnum.pairwise
        rw [← hall, pairwise_append] at hpair
        cases g with
        | nil => exact absurd rfl (h.nonempty [] hg)
        | cons first rest =>
          exact hpair.2.2 first (mem_flatten.mpr ⟨_, hg, mem_cons_self⟩) f mem_cons_self
      · rw [h.rlog, map_append]
        rfl
    · exact forall_mem_append.mpr ⟨h.nonempty, by simp⟩
    · exact forall_mem_append.mpr ⟨h.encodable, by simpa using henc⟩
    · rw [flatten_append, append_assoc, ← hall]
      simp

theorem Archived.reopened (hi : Intact H cfg sys l) {replayMax : Nat}
    (hnum : Renumbered sys sys' l replayMax) (hrlog : sys'.disk.rlog = sys.disk.rlog)
    (hhistory : sys'.history = sys.history)
    (hfinds : sys.disk.wal ≠ [] ∨ sys.st.lastSeq = 0 ∨ RowFrom sys.st.segments sys.st.lastSeq) :
    Archived H sys' l.replayed groups := by
  have hsame : sys'.st.nextSeq = sys.st.nextSeq := by
    have hnext := h.nextSeq
    -- Neither the log nor a row goes past the newest number.
    have hreplay : replayMax < sys.st.nextSeq := by
      rcases hnum.mem with hzero | ⟨b, hb, hseq⟩
      · omega
      · exact hseq ▸ hi.layout.below b hb
    have hrows : maxOf (sys.st.segmentRecords.map SegmentRecord.seqHi) < sys.st.nextSeq := by
      rw [hi.stored.map_seqHi]
      refine maxOf_lt (by omega) fun n hn => ?_
      rcases mem_map.mp hn with ⟨s, hs, rfl⟩
      rcases (hi.rows.ok s hs).seqHiMem with ⟨e, he, heq⟩
      exact heq ▸ hi.rowsBelow s hs e he
    -- And one of them gets that far.
    have hlast : sys.st.lastSeq
        ≤ max replayMax (maxOf (sys.st.segmentRecords.map SegmentRecord.seqHi)) := by
      rcases hfinds with hwal | hzero | ⟨s, hs, e, he, hle⟩
      · refine le_max_of_le_left ?_
        rw [hi.wal.wal, Ne, encodeAll_eq_nil] at hwal
        rcases eq_nil_or_concat l.unflushed with hnil | ⟨front, b, hb⟩
        · exact absurd (by rw [hnil]; rfl) hwal
        · have hmem : b ∈ l.unflushed := by simp [hb]
          have hseq : b.frame.seq.val = sys.written.length := by
            have hsplit : (groups.flatten ++ loggedOf front) ++ [b.frame] = sys.written := by
              rw [← h.written, hb, append_assoc, concat_eq_append, loggedOf_append]
              rfl
            have hend : Numbered 1 ((groups.flatten ++ loggedOf front) ++ [b.frame]) :=
              hsplit.symm ▸ h.numbered
            rw [← hsplit, length_append, (numbered_cons.mp hend.split.2).1]
            exact Nat.add_comm _ _
          have := hnum.le b hmem
          rw [State.lastSeq]
          omega
      · omega
      · refine le_max_of_le_right ?_
        exact hle.trans (((hi.rows.ok s hs).seqHi e he).trans (le_maxOf (hi.stored.seqHi hs)))
    rw [hnum.nextSeq]
    rw [State.lastSeq] at hlast
    omega
  refine h.quiet ?_ hsame hrlog hhistory
  rw [l.unflushed_replayed, loggedOf, loggedOf, map_map]
  rfl

/-- One step keeps the pieces of the log. The archive only grows. -/
theorem Archived.step (hi : Intact H cfg sys l) (hretain : cfg.retainLog = true) {e : Event}
    (hgap : NoGap sys e) (hfinds : ReopenFinds sys e) (hchange : Change H cfg sys l e sys' l') :
    ∃ groups', Archived H sys' l' groups' ∧ groups <+: groups' := by
  cases hchange with
  | quiet _ hun _ _ hnum hrlog hhistory =>
    exact ⟨groups, h.quiet (congrArg loggedOf hun) hnum hrlog hhistory, prefix_rfl⟩
  | appended drawn _ _ hnum _ hnumbered hrlog hhistory _ hwhole =>
    obtain ⟨rfl, rfl⟩ := hwhole hgap
    exact ⟨groups, h.appended hnum hnumbered hrlog hhistory, prefix_rfl⟩
  | published _ _ _ hnum harchive hrlog hhistory =>
    exact h.published hi hretain harchive hrlog hnum hhistory
  | compacted _ _ _ _ hnum hrlog hhistory =>
    exact ⟨groups, h.quiet rfl hnum hrlog hhistory, prefix_rfl⟩
  | reopened hevent _ hnum hrlog hhistory =>
    refine ⟨groups, h.reopened hi hnum hrlog hhistory ?_, prefix_rfl⟩
    rcases hevent with rfl | rfl
    · exact hfinds
    · exact hfinds

end

/-! ## The pieces -/

/-- Where consecutive groups of a log start and end. -/
def boundsFrom : Nat → List (List WalFrame) → List (Nat × Nat)
  | _, [] => []
  | a, g :: groups => (a, a + g.length) :: boundsFrom (a + g.length) groups

theorem boundsFrom_le (groups : List (List WalFrame)) (a : Nat) :
    ∀ ab ∈ boundsFrom a groups, ab.2 ≤ a + groups.flatten.length := by
  induction groups generalizing a with
  | nil => exact forall_mem_nil _
  | cons g groups ih =>
    rw [flatten_cons, length_append]
    refine forall_mem_cons.mpr ⟨by simp only; omega, fun ab hab => ?_⟩
    have := ih (a + g.length) ab hab
    omega

theorem linked_boundsFrom (groups : List (List WalFrame)) (a upto : Nat) (ha : a ≤ upto)
    (wal : Nat × Nat) (hwal : wal.1 ≤ a + groups.flatten.length) :
    Linked upto (boundsFrom a groups ++ [wal]) ∧ reach upto (boundsFrom a groups ++ [wal])
        = max (max upto (a + groups.flatten.length)) wal.2 := by
  induction groups generalizing a upto with
  | nil =>
    simp only [flatten_nil, length_nil, Nat.add_zero] at hwal ⊢
    refine ⟨⟨hwal.trans ha, trivial⟩, ?_⟩
    rw [max_eq_left ha]
    rfl
  | cons g groups ih =>
    rw [flatten_cons, length_append] at hwal ⊢
    rcases ih (a + g.length) (max upto (a + g.length)) (le_max_right _ _) (by omega) with
      ⟨hlinked, hreach⟩
    refine ⟨⟨ha, hlinked⟩, hreach.trans ?_⟩
    omega

theorem replayFrames_groups (H : Sha256) (hlog : Numbered 1 log) (groups : List (List WalFrame))
    (henc : ∀ g ∈ groups, ∀ f ∈ g, Encodable f.ops) (a : Nat)
    (hgroups : ∃ rest, log.drop a = groups.flatten ++ rest) :
    Forall₂ (fun bytes ab => ∃ n, replayFrames H bytes = .ok (piece log ab, n))
      (groups.map (encodeAll H)) (boundsFrom a groups) := by
  induction groups generalizing a with
  | nil => exact .nil
  | cons g groups ih =>
    rcases hgroups with ⟨rest, hrest⟩
    rw [forall_mem_cons] at henc
    rw [flatten_cons, append_assoc] at hrest
    have hpiece : piece log (a, a + g.length) = g := by
      rw [piece, drop_take, hrest, Nat.add_sub_cancel_left, take_left]
    refine .cons ?_ (ih henc.2 (a + g.length) ⟨rest, ?_⟩)
    · rw [hpiece]
      refine ⟨_, replayFrames_log H g ⟨henc.1, hlog.pairwise.sublist ?_⟩⟩
      rw [← hpiece]
      exact (drop_sublist _ _).trans (take_sublist _ _)
    · rw [← drop_drop, hrest, drop_left]

section

variable (h : Archived H sys l groups)
include h

theorem Archived.lastSeq : sys.st.lastSeq = sys.written.length := by
  rw [State.lastSeq, h.nextSeq, Nat.add_sub_cancel]

theorem Archived.numbered_archive : Numbered 1 groups.flatten := by
  have hnum := h.numbered
  rw [← h.written] at hnum
  exact hnum.split.1

theorem Archived.rlogFiles (hretain : cfg.retainLog = true) :
    Storage.rlogFiles cfg sys.disk = groups.map (encodeAll H) := by
  rw [Storage.rlogFiles, if_pos hretain, h.rlog, map_map]
  rfl

theorem Archived.archive_le (hretain : cfg.retainLog = true) (after : Nat) :
    (∀ bytes ∈ Storage.rlogFiles cfg sys.disk, ∀ frames n, replayFrames H bytes = .ok (frames, n) →
        ∀ f ∈ frames, f.seq.val ≤ after) ↔ groups.flatten.length ≤ after := by
  have hnum := h.numbered_archive
  have hread : ∀ g ∈ groups, ∃ n, replayFrames H (encodeAll H g) = .ok (g, n) := fun g hg =>
    ⟨_, replayFrames_log H g ⟨h.encodable g hg, hnum.pairwise.sublist (sublist_flatten_of_mem hg)⟩⟩
  rw [h.rlogFiles hretain]
  constructor
  · intro hall
    by_contra hlt
    -- The last frame of the archive carries the number of frames.
    have hget := hnum.getElem (groups.flatten.length - 1) (by omega)
    rcases mem_flatten.mp (getElem_mem (l := groups.flatten)
      (by omega : groups.flatten.length - 1 < _)) with ⟨g, hg, hf⟩
    rcases hread g hg with ⟨n, hn⟩
    have := hall _ (mem_map_of_mem hg) g n hn _ hf
    omega
  · intro hle bytes hbytes frames n hframes f hf
    rcases mem_map.mp hbytes with ⟨g, hg, rfl⟩
    rcases hread g hg with ⟨m, hm⟩
    cases hm.symm.trans hframes
    have := hnum.mem f (mem_flatten.mpr ⟨_, hg, hf⟩)
    omega

/-- What the call answers if the archive was listed after the log was read, and
    has grown since. -/
theorem Archived.logSince (hi : Intact H cfg sys l) (hretain : cfg.retainLog = true) {later : Sys}
    {groups' : List (List WalFrame)} (hlater : Archived H later l' groups')
    (hgroups : groups <+: groups') (hwritten : sys.written <+: later.written)
    (after count lastSeq : Nat) :
    (max groups'.flatten.length sys.written.length ≤ after ∧ after < lastSeq →
      ∃ e, Storage.logSince H after count sys.disk.wal lastSeq (Storage.rlogFiles cfg later.disk)
        = .error e) ∧
    (¬(max groups'.flatten.length sys.written.length ≤ after ∧ after < lastSeq) →
      Storage.logSince H after count sys.disk.wal lastSeq (Storage.rlogFiles cfg later.disk)
        = .ok ((piece later.written
            (after, max (max after groups'.flatten.length) sys.written.length)).take
          (atLeastOne count))) := by
  have hfront : later.written = groups'.flatten ++ loggedOf l'.unflushed := hlater.written.symm
  -- The log that was read is the piece behind what was archived by then.
  have hwal : piece later.written (groups.flatten.length, sys.written.length)
      = loggedOf l.unflushed := by
    rw [piece, (prefix_iff_eq_take.mp hwritten).symm, ← h.written, drop_left]
  have hsources := (replayFrames_groups H hlater.numbered groups' hlater.encodable 0 ⟨_, hfront⟩)
  have hall : Forall₂ (fun bytes ab =>
        ∃ n, replayFrames H bytes = .ok (piece later.written ab, n))
      (groups'.map (encodeAll H) ++ [sys.disk.wal])
      (boundsFrom 0 groups' ++ [(groups.flatten.length, sys.written.length)]) := by
    refine rel_append hsources (.cons ?_ .nil)
    rw [hwal, hi.wal.wal]
    exact ⟨_, replayFrames_log H _ (hi.wal.logOk hi.layout)⟩
  have hlen : groups'.flatten.length ≤ later.written.length := by
    rw [hfront, length_append]
    omega
  have hbound : ∀ ab ∈ boundsFrom 0 groups' ++ [(groups.flatten.length, sys.written.length)],
      ab.2 ≤ later.written.length := by
    refine forall_mem_append.mpr ⟨fun ab hab => ?_, by simpa using hwritten.length_le⟩
    have := boundsFrom_le groups' 0 ab hab
    omega
  rcases linked_boundsFrom groups' 0 after (Nat.zero_le _)
    (groups.flatten.length, sys.written.length)
    (by simpa using hgroups.flatten.length_le) with ⟨hlinked, hreach⟩
  have hcall := logSince_linked H hlater.numbered after count lastSeq sys.disk.wal _ _ hall hbound
    hlinked
  rw [hreach, Nat.zero_add, ← hlater.rlogFiles hretain] at hcall
  have hcond : max (max after groups'.flatten.length) sys.written.length ≤ after ↔
      max groups'.flatten.length sys.written.length ≤ after := by
    simp only [Nat.max_le, le_refl, true_and]
  rw [hcond] at hcall
  exact hcall

end

/-! ## Runs -/

theorem Change.written_le {e : Event} (hchange : Change H cfg sys l e sys' l') :
    sys.written <+: sys'.written := by
  suffices hhistory : sys.history <+: sys'.history from hhistory.map Batch.frame
  cases hchange with
  | quiet _ _ _ _ _ _ hhistory => rw [hhistory]
  | appended _ _ _ _ _ _ _ hhistory =>
    rw [hhistory]
    exact prefix_append _ _
  | published _ _ _ _ _ _ hhistory => rw [hhistory]
  | compacted _ _ _ _ _ _ hhistory => rw [hhistory]
  | reopened _ _ _ _ hhistory => rw [hhistory]

theorem Archived.reaches (h : Archived H sys l groups) (hi : Intact H cfg sys l)
    (hcfg : cfg.blockTarget ≠ 0) (hretain : cfg.retainLog = true)
    (hreach : Reaches (Storage.step H cfg) (KeepsLog H cfg) sys sys') :
    ∃ l' groups', Intact H cfg sys' l' ∧ Archived H sys' l' groups' ∧ groups <+: groups' ∧
      sys.written <+: sys'.written := by
  refine hreach.invariant (P := fun s => ∃ l' groups', Intact H cfg s l' ∧
    Archived H s l' groups' ∧ groups <+: groups' ∧ sys.written <+: s.written)
    ⟨l, groups, hi, h, prefix_rfl, prefix_rfl⟩ ?_
  rintro mid e next ⟨l', groups', hi', h', hgroups, hwritten⟩ ⟨hclean, hgap, hfinds⟩ hstep
  rcases hi'.step hcfg hclean hstep with ⟨l'', hi'', hchange⟩
  rcases h'.step hi' hretain hgap hfinds hchange with ⟨groups'', h'', hmore⟩
  exact ⟨l'', groups'', hi'', h'', hgroups.trans hmore, hwritten.trans hchange.written_le⟩

theorem filter_eq_drop (hlog : Numbered 1 log) (after : Nat) :
    log.filter (fun f => after < f.seq.val) = log.drop after := by
  have hfront := (hlog.take after).mem
  have hrest := (hlog.drop after).mem
  rw [length_take] at hfront
  nth_rewrite 1 [← take_append_drop after log]
  rw [filter_append, filter_eq_nil_iff.mpr, filter_eq_self.mpr, nil_append]
  · intro f hf
    have := hrest f hf
    rw [decide_eq_true_eq]
    omega
  · intro f hf
    have := hfront f hf
    rw [decide_eq_true_eq]
    omega

end

/-- Nothing is missing: in every run whose steps are clean, in which every number
    that is drawn gets its frame and every reopen finds the newest number, a
    follower is sent exactly the next frames. -/
theorem log_since_complete (H : Sha256) (cfg : Config) (hcfg : cfg.blockTarget ≠ 0)
    (hretain : cfg.retainLog = true) (sys : Sys)
    (hreach : Reaches (step H cfg) (KeepsLog H cfg) Sys.initial sys) (after count : Nat)
    (hafter : after ≤ sys.st.lastSeq) (hcount : 1 ≤ count) :
    logSince H after count sys.disk.wal sys.st.lastSeq (rlogFiles cfg sys.disk)
      = .ok ((sys.written.filter fun f => after < f.seq.val).take count) := by
  rcases (archived_initial H).reaches (intact_initial H cfg) hcfg hretain hreach with
    ⟨l, groups, hi, h, _, _⟩
  have hlen : groups.flatten.length ≤ sys.written.length := by
    rw [← h.written, length_append]
    omega
  have hlast := h.lastSeq
  have hheld : ¬(max groups.flatten.length sys.written.length ≤ after ∧ after < sys.st.lastSeq) := by
    omega
  rw [(h.logSince hi hretain h prefix_rfl prefix_rfl after count _).2 hheld,
    filter_eq_drop h.numbered, atLeastOne, max_eq_left hcount,
    show max (max after groups.flatten.length) sys.written.length = sys.written.length by omega,
    piece, take_length]

def retaining : Config :=
  { Config.new with retainLog := true }

def archivingFlush : List Event :=
  [.flushA, .flushB none, .flushC none none]

theorem keepsLog_write (key value : Bytes) (hops : Encodable [.put key value]) (sys : Sys) :
    KeepsLog Sha256.fips180 retaining sys (.write [.put key value] .done) :=
  ⟨fun _ => nofun, ⟨fun _ => hops, rfl⟩, trivial⟩

theorem keepsLog_archivingFlush :
    ∀ e ∈ archivingFlush, ∀ s, KeepsLog Sha256.fips180 retaining s e := by
  simp [archivingFlush, KeepsLog, Clean, NoGap, ReopenFinds]

/-- One frame is in the archive, the next in the log, and a new follower is sent
    both. -/
theorem log_since_complete_archived : ∃ sys, run (step Sha256.fips180 retaining) Sys.initial
        (.write [.put [1] [2]] .done :: archivingFlush ++ [.write [.put [3] [4]] .done]) = some sys ∧
      sys.written.map (fun f => f.seq.val) = [1, 2] ∧
      logSince Sha256.fips180 0 10 sys.disk.wal sys.st.lastSeq (rlogFiles retaining sys.disk)
        = .ok ((sys.written.filter fun f => 0 < f.seq.val).take 10) := by
  have hend : ∃ sys, run (step Sha256.fips180 retaining) Sys.initial
      (.write [.put [1] [2]] .done :: archivingFlush ++ [.write [.put [3] [4]] .done]) = some sys ∧
      sys.written.map (fun f => f.seq.val) = [1, 2] := by
    decide +kernel
  obtain ⟨sys, hsys, hview⟩ := hend
  refine ⟨sys, hsys, hview, ?_⟩
  refine log_since_complete Sha256.fips180 retaining (by decide) rfl sys ?_ 0 10 (Nat.zero_le _)
    (by decide)
  refine reaches_of_forall _ ?_ hsys
  refine forall_mem_append.mpr ⟨forall_mem_cons.mpr ⟨?_, keepsLog_archivingFlush⟩, ?_⟩
  · exact keepsLog_write [1] [2] (by unfold Encodable; decide)
  · exact forall_mem_singleton.mpr (keepsLog_write [3] [4] (by unfold Encodable; decide))

/-- A write that fails before its append consumes its number, and every later
    frame is out of reach for a follower that has the ones before. -/
theorem failed_append_leaves_gap : ∃ sys, run (step Sha256.fips180 retaining) Sys.initial
        [.write [.put [1] [2]] .done, .write [.put [3] [4]] .unwritten,
          .write [.put [5] [6]] .done] = some sys ∧
      sys.written.map (fun f => f.seq.val) = [1, 3] ∧ sys.st.lastSeq = 3 ∧
      ∀ frames, logSince Sha256.fips180 1 10 sys.disk.wal sys.st.lastSeq
        (rlogFiles retaining sys.disk) ≠ .ok frames := by
  have hend : ∃ sys, run (step Sha256.fips180 retaining) Sys.initial
      [.write [.put [1] [2]] .done, .write [.put [3] [4]] .unwritten,
        .write [.put [5] [6]] .done] = some sys ∧
      sys.written.map (fun f => f.seq.val) = [1, 3] ∧ sys.st.lastSeq = 3 ∧
      (logSince Sha256.fips180 1 10 sys.disk.wal sys.st.lastSeq
        (rlogFiles retaining sys.disk)).isOk = false := by
    decide +kernel
  obtain ⟨sys, hsys, hwritten, hlast, hfails⟩ := hend
  refine ⟨sys, hsys, hwritten, hlast, fun frames hok => ?_⟩
  rw [hok] at hfails
  cases hfails

/-- When a call between other steps answers. The log is read in one state, the
    largest number in a later one, the archive in a third. The answer is a run of
    written frames from the next one on, unless the follower has all that was in
    the log and in the archive, and a write came in between. -/
theorem log_since_concurrent (H : Sha256) (cfg : Config) (hcfg : cfg.blockTarget ≠ 0)
    (hretain : cfg.retainLog = true) (sys sys₁ sys₂ : Sys)
    (hreach : Reaches (step H cfg) (KeepsLog H cfg) Sys.initial sys)
    (hreach₁ : Reaches (step H cfg) (KeepsLog H cfg) sys sys₁)
    (hreach₂ : Reaches (step H cfg) (KeepsLog H cfg) sys₁ sys₂) (after count : Nat) :
    (∃ frames, logSince H after count sys.disk.wal sys₁.st.lastSeq (rlogFiles cfg sys₂.disk)
        = .ok frames ∧ Numbered (after + 1) frames ∧ ∀ f ∈ frames, f ∈ sys₂.written) ↔
      ¬(sys.st.lastSeq ≤ after ∧ after < sys₁.st.lastSeq ∧
        ∀ bytes ∈ rlogFiles cfg sys₂.disk, ∀ frames n, replayFrames H bytes = .ok (frames, n) →
          ∀ f ∈ frames, f.seq.val ≤ after) := by
  rcases (archived_initial H).reaches (intact_initial H cfg) hcfg hretain hreach with
    ⟨l, groups, hi, h, _, _⟩
  rcases h.reaches hi hcfg hretain (hreach₁.trans hreach₂) with
    ⟨l₂, groups₂, hi₂, h₂, hgroups, hwritten⟩
  have harchive : (∀ bytes ∈ rlogFiles cfg sys₂.disk, ∀ frames n,
      replayFrames H bytes = .ok (frames, n) → ∀ f ∈ frames, f.seq.val ≤ after) ↔
        groups₂.flatten.length ≤ after := h₂.archive_le hretain after
  rcases h.logSince hi hretain h₂ hgroups hwritten after count sys₁.st.lastSeq with ⟨herr, hok⟩
  have hcond : (sys.st.lastSeq ≤ after ∧ after < sys₁.st.lastSeq ∧ groups₂.flatten.length ≤ after) ↔
      max groups₂.flatten.length sys.written.length ≤ after ∧ after < sys₁.st.lastSeq := by
    rw [h.lastSeq]
    omega
  rw [harchive, hcond]
  constructor
  · rintro ⟨frames, hframes, _⟩ hgap
    rcases herr hgap with ⟨e, he⟩
    rw [he] at hframes
    cases hframes
  · intro hheld
    refine ⟨_, hok hheld, ?_, fun f hf => ?_⟩
    · rw [Nat.add_comm]
      exact ((h₂.numbered.take _).drop after).take _
    · exact mem_of_mem_take (mem_of_mem_drop (mem_of_mem_take hf))

/-- The log is read before a flush and a write, the number and the archive after
    them. -/
theorem log_since_concurrent_flush :
    ∃ sys sys', run (step Sha256.fips180 retaining) Sys.initial [.write [.put [1] [2]] .done]
        = some sys ∧
      run (step Sha256.fips180 retaining) sys (archivingFlush ++ [.write [.put [3] [4]] .done])
        = some sys' ∧
      ∃ frames, logSince Sha256.fips180 0 10 sys.disk.wal sys'.st.lastSeq
          (rlogFiles retaining sys'.disk) = .ok frames ∧
        Numbered 1 frames ∧ ∀ f ∈ frames, f ∈ sys'.written := by
  have hend : ∃ sys, run (step Sha256.fips180 retaining) Sys.initial [.write [.put [1] [2]] .done]
      = some sys ∧
      ∃ sys', run (step Sha256.fips180 retaining) sys (archivingFlush ++ [.write [.put [3] [4]] .done])
        = some sys' ∧ sys.st.lastSeq = 1 := by
    decide +kernel
  obtain ⟨sys, hsys, sys', hsys', hlast⟩ := hend
  refine ⟨sys, sys', hsys, hsys', ?_⟩
  refine (log_since_concurrent Sha256.fips180 retaining (by decide) rfl sys sys' sys' ?_ ?_ .refl
    0 10).mpr fun hgap => ?_
  · refine reaches_of_forall _ (forall_mem_singleton.mpr ?_) hsys
    exact keepsLog_write [1] [2] (by unfold Encodable; decide)
  · refine reaches_of_forall _ (forall_mem_append.mpr ⟨keepsLog_archivingFlush, ?_⟩) hsys'
    exact forall_mem_singleton.mpr (keepsLog_write [3] [4] (by unfold Encodable; decide))
  · rw [hlast] at hgap
    exact absurd hgap.1 (by decide)

/-- A write comes in after the log was read, and a follower that has everything
    before it is told that its frames are no longer held. -/
theorem late_write_reported_lost :
    ∃ sys sys', run (step Sha256.fips180 retaining) Sys.initial [.write [.put [1] [2]] .done]
        = some sys ∧
      run (step Sha256.fips180 retaining) sys [.write [.put [3] [4]] .done] = some sys' ∧
      logSince Sha256.fips180 1 10 sys.disk.wal sys'.st.lastSeq (rlogFiles retaining sys'.disk)
        = .error (.invalid "replication log gap: frames 2..3 are no longer held") := by
  have hend : ∃ sys, run (step Sha256.fips180 retaining) Sys.initial [.write [.put [1] [2]] .done]
      = some sys ∧
      ∃ sys', run (step Sha256.fips180 retaining) sys [.write [.put [3] [4]] .done] = some sys' ∧
        logSince Sha256.fips180 1 10 sys.disk.wal sys'.st.lastSeq (rlogFiles retaining sys'.disk)
          = .error (.invalid "replication log gap: frames 2..3 are no longer held") := by
    decide +kernel
  obtain ⟨sys, hsys, sys', hsys', hcall⟩ := hend
  exact ⟨sys, sys', hsys, hsys', hcall⟩

end Aikoql.Storage
