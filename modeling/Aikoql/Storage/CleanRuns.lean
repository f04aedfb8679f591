import Aikoql.Storage.Reopen

/-!
# What a Step Can Do

The steps of a run in which files behave, in five kinds.

A step is clean if no append is torn, no flush fails before its closing
checkpoint, and no publication is cut short. Such a step leaves the rows alone,
appends batches to the log, publishes a flush, publishes a compaction, or reopens
the database, and nothing is lost. What is proved of clean runs goes through
these five kinds.
-/

namespace Aikoql.Storage

open List

variable {sys' : Sys} {e : Event} {dirs : Directories} {frames : List WalFrame} {io : AppendIo}

def AppendIo.Whole (io : AppendIo) : Prop :=
  ∀ n, io ≠ .torn n

def GroupIo.Whole (io : GroupIo) : Prop :=
  ∀ i n, io ≠ .failed i (.torn n)

/-- A step in which no append is torn, no flush fails before its checkpoint and
    no publication is cut short. The creates of a group carry generations that
    were drawn. -/
def Clean (H : Sha256) (cfg : Config) (sys : Sys) : Event → Prop
  | .write _ io => io.Whole
  | .submit _ io => io.Whole
  | .group batches io =>
    io.Whole ∧ ∀ ops ∈ batches, ∀ op ∈ ops, Drawn sys.st.dirs op
  | .flushB fault => fault = none
  | .flushC fault _ => ∀ k build len, fault = some k → sys.flush = some (.built build len) →
      (sys.flushPublication H cfg build len none).ops.length ≤ k
  | .flushCrash _ _ => False
  | .compactCrash _ _ _ _ => False
  | _ => True

/-- A step after which every number that was drawn has its frame in the log: the
    encoder takes the batches that pass the checks, and the appends succeed. -/
def NoGap (sys : Sys) : Event → Prop
  | .write ops io => (checkBatch ops = .ok () → Encodable ops) ∧ io = .done
  | .submit i io => (∀ ops, sys.calls[i]? = some (.submitting ops) → checkBatch ops = .ok () →
      Encodable ops) ∧ io = .done
  | .group batches io => (∀ ops ∈ batches, Encodable ops) ∧ io = .done ∧
      sys.st.nextSeq + batches.length < 18446744073709551616
  | _ => True

/-- What a step can do to the rows. -/
inductive Change (H : Sha256) (cfg : Config) (sys : Sys) (l : Layers) :
    Event → Sys → Layers → Prop
  /-- The rows stay. -/
  | quiet {e : Event} {sys' : Sys} {l' : Layers} (flushed : l'.flushed = l.flushed)
      (unflushed : l'.unflushed = l.unflushed) (segments : sys'.st.segments = sys.st.segments)
      (records : sys'.st.segmentRecords = sys.st.segmentRecords)
      (nextSeq : sys'.st.nextSeq = sys.st.nextSeq) (rlog : sys'.disk.rlog = sys.disk.rlog)
      (history : sys'.history = sys.history) : Change H cfg sys l e sys' l'
  /-- Batches are appended; those of a write that failed have no effect. -/
  | appended {e : Event} {sys' : Sys} {new applied : List Batch} (drawn : Nat)
      (segments : sys'.st.segments = sys.st.segments)
      (records : sys'.st.segmentRecords = sys.st.segmentRecords)
      (nextSeq : sys'.st.nextSeq = sys.st.nextSeq + drawn) (length : new.length ≤ drawn)
      (numbered : Numbered sys.st.nextSeq (loggedOf new)) (rlog : sys'.disk.rlog = sys.disk.rlog)
      (history : sys'.history = sys.history ++ applied)
      (effect : applied = new ∨ applied = [] ∧ ∀ b ∈ new, b.effect = [] ∧ b.acked = false)
      (whole : NoGap sys e → new.length = drawn ∧ applied = new) :
      Change H cfg sys l e sys' { l with active := l.active ++ new }
  /-- A flush is published. -/
  | published {fault : Option Nat} {ckp : Option (List DirectoryFile)} {sys' : Sys}
      {build : FlushBuild} {len : Nat}
      {made : List (Segment × Std.ExtTreeMap ReplicaId SegmentAnchor)} {archive : List FileOp}
      (flush : sys.flush = some (.built build len)) (groups : GroupSegments H cfg l.detached made)
      (segments : sys'.st.segments = sys.st.segments ++ made.map Prod.fst)
      (nextSeq : sys'.st.nextSeq = sys.st.nextSeq)
      (archived : archiveOps H cfg (encodeAll H (loggedOf l.detached.flatten)) = .ok archive)
      (rlog : sys'.disk.rlog = (sys.disk.applyAll archive).rlog)
      (history : sys'.history = sys.history) : Change H cfg sys l (.flushC fault ckp) sys' l.publish
  /-- A compaction is published. -/
  | compacted {i : Nat} {kept : List Nat} {ckp : Option (List DirectoryFile)} {sys' : Sys}
      {capture : CompactCapture} {out : MergeOutput} (captured : sys.compactions[i]? = some capture)
      (current : capture.generation = sys.st.generation)
      (merged : merge H cfg.blockTarget cfg.mergeChunkBytes capture.policy sys.st.segments = .ok out)
      (segments : sys'.st.segments = out.segments) (nextSeq : sys'.st.nextSeq = sys.st.nextSeq)
      (rlog : sys'.disk.rlog = sys.disk.rlog) (history : sys'.history = sys.history) :
      Change H cfg sys l (.compactC i kept ckp) sys' l
  /-- The database is reopened. -/
  | reopened {e : Event} {sys' : Sys} {replayMax : Nat} (event : e = .reopen ∨ e = .crash)
      (segments : sys'.st.segments = sys.st.segments) (renumbered : Renumbered sys sys' l replayMax)
      (rlog : sys'.disk.rlog = sys.disk.rlog) (history : sys'.history = sys.history) :
      Change H cfg sys l e sys' l.replayed

section

variable {H : Sha256} {cfg : Config} {sys : Sys} {l : Layers}

theorem Intact.calls (h : Intact H cfg sys l) (hbelow : dirs.Below) (calls : List Call) :
    Intact H cfg { sys with st := { sys.st with dirs := dirs }, calls := calls } l :=
  ⟨h.acked, h.layout.congr le_rfl rfl rfl rfl, h.rows, h.older, h.rowsBelow,
    h.stored.congr rfl rfl rfl rfl rfl rfl rfl, ⟨h.wal.wal, h.wal.encodable, h.wal.covered⟩,
    hbelow, h.captures⟩

theorem reserveIdentity_below {dirs' : Directories} {ids : LogicalId × ReplicaId × U64}
    (h : dirs.Below) (hreserve : reserveIdentity dirs = .ok (ids, dirs')) : dirs'.Below := by
  simp only [reserveIdentity, bind_eq_ok, pure_eq_ok] at hreserve
  rcases hreserve with ⟨lid, _, rid, _, pgen, _, heq⟩
  obtain ⟨_, rfl⟩ := Prod.mk.inj heq
  exact ⟨(h.mono (Nat.le_succ _)).placements, (h.mono (Nat.le_succ _)).pending⟩

section

variable (h : Intact H cfg sys l)
include h

theorem Intact.failedStep {drawn : Nat} (hfail : Failed H sys drawn frames [] sys')
    (hwhole : NoGap sys e → drawn = 0) :
    ∃ l', Intact H cfg sys' l' ∧ Change H cfg sys l e sys' l' := by
  have hlogged : loggedOf (frames.map Batch.unapplied) = frames := by
    rw [loggedOf, map_map]
    exact map_id _
  refine ⟨_, h.failed hfail, .appended drawn ?_ ?_ ?_ ?_ (hlogged.symm ▸ hfail.numbered) ?_ ?_
    (.inr ⟨rfl, fun b hb => ?_⟩) fun hgap => ?_⟩
  · rw [hfail.sys]
  · rw [hfail.sys]
  · rw [hfail.sys]
  · exact (length_map _).trans_le hfail.length_le
  · rw [hfail.sys]
  · rw [hfail.sys]
    exact (append_nil _).symm
  · rcases mem_map.mp hb with ⟨f, _, rfl⟩
    exact ⟨rfl, rfl⟩
  · obtain rfl := hwhole hgap
    rw [length_eq_zero_iff.mp (Nat.le_zero.mp hfail.length_le)]
    exact ⟨rfl, rfl⟩

theorem Intact.wroteStep {grouped : Bool} (hwrote : Wrote H grouped sys frames sys')
    (hdrawn : grouped = true → ∀ f ∈ frames, ∀ op ∈ f.ops, Drawn sys.st.dirs op) (e : Event) :
    ∃ l', Intact H cfg sys' l' ∧ Change H cfg sys l e sys' l' := by
  rcases h.wrote hwrote hdrawn with ⟨new, hhistory, hframes, hnew⟩
  have hlen : new.length = frames.length := by rw [← hframes, loggedOf, length_map]
  refine ⟨_, hnew, .appended frames.length ?_ ?_ ?_ hlen.le (hframes.symm ▸ hwrote.numbered) ?_ hhistory
    (.inl rfl) fun _ => ⟨hlen, rfl⟩⟩
  · rw [hwrote.st]
  · rw [hwrote.st]
  · rw [hwrote.st]
  · rw [hwrote.disk]

theorem Intact.writeStep (ops : List Op) (hio : io.Whole)
    (hgap : NoGap sys e → (checkBatch ops = .ok () → Encodable ops) ∧ io = .done) :
    ∃ l', Intact H cfg (sys.write H ops io) l' ∧ Change H cfg sys l e (sys.write H ops io) l' := by
  rcases Sys.write_cases H sys ops io with
    ⟨_, hf⟩ | ⟨hrefused, hf⟩ | ⟨seq, _, hdone, hsync, hf⟩ | ⟨_, hsync, hf⟩ | ⟨seq, _, hw⟩
  · exact h.failedStep hf fun _ => rfl
  · exact h.failedStep hf fun hno => absurd ((hgap hno).1 hrefused.1) hrefused.2
  · cases io with
    | done => exact absurd rfl hdone
    | unsynced => exact absurd rfl hsync
    | torn n => exact absurd rfl (hio n)
    | unwritten => exact h.failedStep hf fun hno => absurd (hgap hno).2 hdone
  · exact h.failedStep hf fun hno => absurd ((hgap hno).2.symm.trans hsync) (by simp)
  · exact h.wroteStep hw (by simp) e

theorem Intact.submitStep {i : Nat} {ops : List Op}
    (hcall : sys.calls[i]? = some (.submitting ops)) (hio : io.Whole) :
    let sys' := ({ sys with calls := sys.calls.eraseIdx i } : Sys).write H ops io
    ∃ l', Intact H cfg sys' l' ∧ Change H cfg sys l (.submit i io) sys' l' := by
  intro sys'
  have hfree := h.calls h.below (sys.calls.eraseIdx i)
  rcases hfree.writeStep ops hio (e := .write ops io) id with ⟨l', hl', hchange⟩
  refine ⟨l', hl', ?_⟩
  -- The call that is gone from the list is not part of any kind.
  cases hchange with
  | quiet hfl hun hsegs hrecords hnum hrlog hhistory =>
    exact .quiet hfl hun hsegs hrecords hnum hrlog hhistory
  | appended drawn hsegs hrecords hnum hlen hnumbered hrlog hhistory heffect hwhole =>
    exact .appended drawn hsegs hrecords hnum hlen hnumbered hrlog hhistory heffect
      fun hno => hwhole ⟨hno.1 ops hcall, hno.2⟩
  | reopened hevent => rcases hevent with hevent | hevent <;> cases hevent

theorem Intact.groupStep (batches : List (List Op)) {io : GroupIo} (hio : io.Whole)
    (hcheck : ∀ ops ∈ batches, checkBatch ops = .ok ())
    (hdrawn : ∀ ops ∈ batches, ∀ op ∈ ops, Drawn sys.st.dirs op) :
    ∃ l', Intact H cfg (sys.commit H batches io) l' ∧
      Change H cfg sys l (.group batches io) (sys.commit H batches io) l' := by
  rcases Sys.commit_cases H sys batches io hcheck with ⟨drawn, frames, torn, htorn, hfailed, hf⟩ |
    ⟨frames, hops, hw⟩
  · have hnil : torn = [] := by
      rcases htorn with rfl | ⟨i, failed, ops, seq, hio', hdone, hsync, _, _, _, rfl⟩
      · rfl
      · cases failed with
        | done => exact absurd rfl hdone
        | unsynced => exact absurd rfl hsync
        | torn n => exact absurd hio' (hio i n)
        | unwritten => rfl
    subst hnil
    refine h.failedStep hf fun hno => ?_
    obtain ⟨henc, rfl, hroom⟩ := hno
    -- Nothing is left that could have failed.
    rcases hfailed with hsync | ⟨err, herr⟩
    · cases hsync
    · rw [appendGroup_done H batches sys.st sys.disk henc hroom] at herr
      cases herr
  · refine h.wroteStep hw (fun _ f hf op hop => hdrawn f.ops ?_ op hop) _
    exact hops ▸ mem_map_of_mem hf

/-- A clean step is of one of the kinds, and nothing is lost. -/
theorem Intact.step (hcfg : cfg.blockTarget ≠ 0) (hclean : Clean H cfg sys e)
    (hstep : step H cfg sys e = some sys') :
    ∃ l', Intact H cfg sys' l' ∧ Change H cfg sys l e sys' l' := by
  cases step_stepped hstep with
  | write => exact h.writeStep _ hclean id
  | group hchecked => exact h.groupStep _ hclean.1 hchecked hclean.2
  | call hdrawn =>
    refine ⟨l, h.calls ?_ _, .quiet rfl rfl rfl rfl rfl rfl rfl⟩
    rcases hdrawn with rfl | ⟨ids, hreserve⟩
    · exact h.below
    · exact reserveIdentity_below h.below hreserve
  | submit hcall => exact h.submitStep hcall hclean
  | rotate =>
    rcases l.unflushed_rotate with ⟨hun, hfl, _⟩
    exact ⟨l.rotate, h.rotate, .quiet hfl hun (rotate_segments _) (rotate_segmentRecords _)
      (rotate_nextSeq _) rfl rfl⟩
  | flushA hflush =>
    rcases h.flushA hflush with ⟨l', hfl, hun, hnext⟩
    exact ⟨l', hnext, .quiet hfl hun (flushPhaseA_segments _ _)
      (flushPhaseA_segmentRecords _ _) (flushPhaseA_nextSeq _ _) rfl rfl⟩
  | @flushB plan fault hflush =>
    obtain rfl : fault = none := hclean
    rcases h.layout.flushB_ok hcfg hflush with ⟨build, hbuilt⟩
    rcases Sys.flushB_built hbuilt with ⟨published, _, heq⟩
    refine ⟨l, h.flushB hcfg hflush, ?_⟩
    rw [heq, builtOps_eq, applyAll_segments]
    exact .quiet rfl rfl rfl rfl rfl rfl rfl
  | @flushC build len fault ckp _ hflush hrun =>
    subst hrun
    rcases h.flushC hflush fault ckp fun k hk => hclean k build len hk hflush with
      ⟨made, archive, hgroups, hsegs, hnum, harchive, hrlog, hnext⟩
    exact ⟨l.publish, hnext, .published hflush hgroups hsegs hnum harchive hrlog rfl⟩
  | compactA hcapture => exact ⟨l, h.compactA hcapture, .quiet rfl rfl rfl rfl rfl rfl rfl⟩
  | @compactC i kept ckp _ _ hcapture hrun =>
    subst hrun
    rcases h.compactC hcapture kept ckp with
      ⟨hnext, hnum, hrlog, ⟨hsegs, hrecords⟩ | ⟨out, hmerge, hgen, hsegs⟩⟩
    · exact ⟨l, hnext, .quiet rfl rfl hsegs hrecords hnum hrlog rfl⟩
    · exact ⟨l, hnext, .compacted hcapture hgen hmerge hsegs hnum hrlog rfl⟩
  | reopened hevent hrecover =>
    rcases h.recover hrecover with ⟨hnext, hdisk, _, hsegs, hhistory, _, _, hnum⟩
    exact ⟨_, hnext, .reopened hevent hsegs hnum (by rw [hdisk]) hhistory⟩
  | crashed hevent =>
    rcases hevent with ⟨_, _, _, rfl, _⟩ | ⟨_, _, _, _, rfl, _⟩ <;> exact hclean.elim

end

end

end Aikoql.Storage
