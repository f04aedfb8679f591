import Aikoql.Storage.System

/-!
# What a Write Does

The one place where the write path is taken apart.

A write has four outcomes. It is refused before it draws a sequence number; the
encoder refuses it after; its append fails and leaves some bytes; or its frame
is in the log, and then its operations were applied up to the first one a gate
refused. `Sys.write_cases` says so, and everything else that is proved about
writes goes through it. `Sys.commit_cases` does the same for a group commit.
-/

namespace Aikoql.Storage

open List

variable {frames : List WalFrame} (H : Sha256) {next : Nat}

def gates (grouped : Bool) : Directories → List Op → Directories × Option FormatError
  | dirs, [] => (dirs, none)
  | dirs, op :: ops =>
    match gate grouped dirs op with
    | (dirs, some e) => (dirs, some e)
    | (dirs, none) => gates grouped dirs ops

theorem applyOps_eq (grouped : Bool) (seq : Nat) (st : State) (ops : List Op) :
    applyOps grouped seq st ops = ({ st with
            active := (takesEffect grouped st.dirs ops).foldl (applyRow seq) st.active
            dirs := (gates grouped st.dirs ops).1 },
          (gates grouped st.dirs ops).2) := by
  induction ops generalizing st with
  | nil => rfl
  | cons op ops ih =>
    rw [applyOps, takesEffect, gates]
    rcases hg : gate grouped st.dirs op with ⟨dirs, _ | e⟩
    · simp only [applyOp, hg]
      rw [ih]
      rfl
    · simp only [applyOp, hg]
      rfl

theorem takesEffect_of_gates (grouped : Bool) (dirs : Directories) (ops : List Op)
    (h : (gates grouped dirs ops).2 = none) : takesEffect grouped dirs ops = ops := by
  induction ops generalizing dirs with
  | nil => rfl
  | cons op ops ih =>
    rw [gates] at h
    rw [takesEffect]
    rcases hg : gate grouped dirs op with ⟨dirs', _ | e⟩
    · rw [hg] at h
      simp only
      rw [ih dirs' h]
    · rw [hg] at h
      cases h

theorem takesEffect_isPrefix (grouped : Bool) (dirs : Directories) (ops : List Op) :
    takesEffect grouped dirs ops <+: ops := by
  induction ops generalizing dirs with
  | nil => exact nil_prefix
  | cons op ops ih =>
    rw [takesEffect]
    rcases gate grouped dirs op with ⟨dirs', _ | e⟩
    · exact prefix_cons_iff.mpr (.inr ⟨_, rfl, ih dirs'⟩)
    · exact prefix_cons_iff.mpr (.inr ⟨_, rfl, nil_prefix⟩)

/-! ## Writes -/

theorem draw_ok {seq : U64} (h : draw next = .ok seq) : seq.val = next := by
  unfold draw at h
  split at h
  · cases h
    rfl
  · cases h

theorem drawSeq_error {st : State} {e : FormatError} (h : drawSeq st = .error e) :
    18446744073709551616 ≤ st.nextSeq + 1 := by
  by_contra hlt
  have hdraw : draw st.nextSeq = .ok ⟨st.nextSeq, by omega⟩ := dif_pos (by omega)
  rw [drawSeq, hdraw, ok_bind, ensure_pos (by omega), ok_bind] at h
  cases h

theorem drawSeq_ok {st st' : State} {seq : U64} (h : drawSeq st = .ok (seq, st')) :
    seq.val = st.nextSeq ∧ st' = { st with nextSeq := st.nextSeq + 1 } := by
  simp only [drawSeq, bind_eq_ok, ensure_eq_ok, pure_eq_ok, exists_const] at h
  rcases h with ⟨seq', hdraw, _, hpair⟩
  obtain ⟨rfl, rfl⟩ := Prod.mk.inj hpair
  exact ⟨draw_ok hdraw, rfl⟩

def Numbered (next : Nat) (frames : List WalFrame) : Prop :=
  frames.map (fun f => f.seq.val) = List.range' next frames.length

theorem Numbered.nil (next : Nat) : Numbered next [] := rfl

theorem numbered_cons {f : WalFrame} :
    Numbered next (f :: frames) ↔ f.seq.val = next ∧ Numbered (next + 1) frames := by
  simp [Numbered, range'_succ]

theorem Numbered.mem (h : Numbered next frames) :
    ∀ f ∈ frames, next ≤ f.seq.val ∧ f.seq.val < next + frames.length := by
  intro f hf
  have hmem : f.seq.val ∈ List.range' next frames.length := h ▸ mem_map_of_mem hf
  exact mem_range'_1.mp hmem

theorem Numbered.pairwise (h : Numbered next frames) :
    frames.Pairwise fun a b => a.seq < b.seq := by
  have hrange : (frames.map fun f => f.seq.val).Pairwise (· < ·) := h ▸ pairwise_lt_range'
  exact (pairwise_map.mp hrange).imp fun {a b} hab => hab

theorem LogOk.append {new : List WalFrame} (hlog : LogOk frames)
    (hbelow : ∀ f ∈ frames, f.seq.val < next) (henc : ∀ f ∈ new, Encodable f.ops)
    (hnum : Numbered next new) :
    LogOk (frames ++ new) ∧ ∀ f ∈ frames ++ new, f.seq.val < next + new.length := by
  refine ⟨⟨forall_mem_append.mpr ⟨hlog.encodable, henc⟩,
    pairwise_append.mpr ⟨hlog.increasing, hnum.pairwise, ?_⟩⟩, fun f hf => ?_⟩
  · intro a ha b hb
    exact (hbelow a ha).trans_le (hnum.mem b hb).1
  · rcases mem_append.mp hf with hf | hf
    · have := hbelow f hf
      omega
    · exact (hnum.mem f hf).2

def effects (grouped : Bool) : Directories → List WalFrame → List WalFrame
  | _, [] => []
  | dirs, f :: frames =>
    ⟨f.seq, takesEffect grouped dirs f.ops⟩ :: effects grouped (gates grouped dirs f.ops).1 frames

def gatesAll (grouped : Bool) (dirs : Directories) (frames : List WalFrame) : Directories :=
  frames.foldl (fun dirs f => (gates grouped dirs f.ops).1) dirs

def Accepted (grouped : Bool) : Directories → List WalFrame → Prop
  | _, [] => True
  | dirs, f :: frames =>
    (gates grouped dirs f.ops).2 = none ∧ Accepted grouped (gates grouped dirs f.ops).1 frames

theorem effects_of_accepted (grouped : Bool) (dirs : Directories) (frames : List WalFrame)
    (h : Accepted grouped dirs frames) : effects grouped dirs frames = frames := by
  induction frames generalizing dirs with
  | nil => rfl
  | cons f frames ih =>
    rw [effects, takesEffect_of_gates grouped dirs f.ops h.1, ih _ h.2]

/-- Batches went through the log into memory: they passed the checks, they drew
    the next sequence numbers, and their operations were applied, each up to the
    first one a gate refused. They are acknowledged if no gate refused any. -/
structure Wrote (H : Sha256) (grouped : Bool) (sys : Sys) (frames : List WalFrame) (sys' : Sys) :
    Prop where
  checked : ∀ f ∈ frames, checkBatch f.ops = .ok ()
  encodable : ∀ f ∈ frames, Encodable f.ops
  numbered : Numbered sys.st.nextSeq frames
  st : sys'.st = { sys.st with
    nextSeq := sys.st.nextSeq + frames.length
    active := (effects grouped sys.st.dirs frames).foldl applyFrame sys.st.active
    dirs := gatesAll grouped sys.st.dirs frames }
  disk : sys'.disk = { sys.disk with wal := sys.disk.wal ++ encodeAll H frames }
  history : ∃ new : List Batch, sys'.history = sys.history ++ new ∧
    new.map Batch.frame = frames ∧ new.map Batch.applied = effects grouped sys.st.dirs frames ∧
    ∀ b ∈ new, b.acked = true ↔ Accepted grouped sys.st.dirs frames
  flush : sys'.flush = sys.flush
  compactions : sys'.compactions = sys.compactions
  calls : sys'.calls = sys.calls

/-- A batch of the history: it passed the checks, what took effect is a beginning
    of it, and all of it if it was acknowledged. -/
structure Batch.Sound (b : Batch) : Prop where
  checked : checkBatch b.frame.ops = .ok ()
  effect : b.effect <+: b.frame.ops
  acked : b.acked = true → b.effect = b.frame.ops

theorem effects_isPrefix (grouped : Bool) (dirs : Directories) (new : List Batch)
    (h : new.map Batch.applied = effects grouped dirs (new.map Batch.frame)) :
    ∀ b ∈ new, b.effect <+: b.frame.ops := by
  induction new generalizing dirs with
  | nil => intro b hb; cases hb
  | cons b new ih =>
    rw [map_cons, map_cons, effects, List.cons.injEq] at h
    have hhead : b.effect = takesEffect grouped dirs b.frame.ops := congrArg WalFrame.ops h.1
    exact forall_mem_cons.mpr ⟨hhead ▸ takesEffect_isPrefix _ _ _, ih _ h.2⟩

theorem Wrote.sound {H : Sha256} {grouped : Bool} {sys sys' : Sys} {new : List Batch}
    (hwrote : Wrote H grouped sys frames sys') (hframe : new.map Batch.frame = frames)
    (happlied : new.map Batch.applied = effects grouped sys.st.dirs frames)
    (hacked : ∀ b ∈ new, b.acked = true ↔ Accepted grouped sys.st.dirs frames) :
    ∀ b ∈ new, b.Sound := by
  subst hframe
  intro b hb
  refine ⟨hwrote.checked b.frame (mem_map_of_mem hb), effects_isPrefix _ _ _ happlied b hb,
    fun hb' => ?_⟩
  rw [effects_of_accepted _ _ _ ((hacked b hb).mp hb')] at happlied
  exact congrArg WalFrame.ops (map_inj_left.mp happlied b hb)

/-- A write or a group commit failed before it applied anything: it drew some
    sequence numbers, it left some whole frames in the log, and behind them the
    torn beginning of another one. -/
structure Failed (H : Sha256) (sys : Sys) (drawn : Nat) (frames : List WalFrame) (torn : Bytes)
    (sys' : Sys) : Prop where
  checked : ∀ f ∈ frames, checkBatch f.ops = .ok ()
  encodable : ∀ f ∈ frames, Encodable f.ops
  numbered : Numbered sys.st.nextSeq frames
  length_le : frames.length ≤ drawn
  torn_lt : torn = [] ∨ ∃ f : WalFrame,
    Encodable f.ops ∧ torn <+: frameBytes H f ∧ torn.length < (frameBytes H f).length
  sys : sys' = { sys with
    st := { sys.st with nextSeq := sys.st.nextSeq + drawn }
    disk := { sys.disk with wal := sys.disk.wal ++ (encodeAll H frames ++ torn) } }

theorem Failed.unlogged {H : Sha256} {torn : Bytes} (sys : Sys) (drawn : Nat)
    (htorn : torn = [] ∨ ∃ f : WalFrame,
      Encodable f.ops ∧ torn <+: frameBytes H f ∧ torn.length < (frameBytes H f).length) :
    Failed H sys drawn [] torn { sys with
      st := { sys.st with nextSeq := sys.st.nextSeq + drawn }
      disk := { sys.disk with wal := sys.disk.wal ++ torn } } :=
  ⟨by simp, by simp, Numbered.nil _, Nat.zero_le _, htorn, rfl⟩

theorem Failed.refl (sys : Sys) : Failed H sys 0 [] [] sys := by
  simpa using Failed.unlogged sys 0 (.inl rfl)

theorem length_frameBytes_pos (f : WalFrame) : 0 < (frameBytes H f).length := by
  rw [length_frameBytes]
  omega

theorem encodeAll_eq_nil {H : Sha256} : encodeAll H frames = [] ↔ frames = [] := by
  constructor
  · intro h
    cases frames with
    | nil => rfl
    | cons f frames =>
      rw [encodeAll_cons, append_eq_nil_iff] at h
      have := length_frameBytes_pos H f
      rw [h.1] at this
      cases this
  · rintro rfl
    rfl

theorem AppendIo.written_cases (io : AppendIo) (f : WalFrame) (hio : io ≠ .done) :
    (io = .unsynced ∧ io.written (frameBytes H f) = frameBytes H f) ∨
      (io ≠ .unsynced ∧ io.written (frameBytes H f) <+: frameBytes H f ∧
        (io.written (frameBytes H f)).length < (frameBytes H f).length) := by
  have hpos := length_frameBytes_pos H f
  cases io with
  | done => exact absurd rfl hio
  | unwritten => exact .inr ⟨by simp, nil_prefix, hpos⟩
  | torn n =>
    refine .inr ⟨by simp, take_prefix _ _, ?_⟩
    simp only [AppendIo.written, length_take]
    omega
  | unsynced => exact .inl ⟨rfl, rfl⟩

theorem Sys.write_cases (sys : Sys) (ops : List Op) (io : AppendIo) : -- Refused at the interface.
    (checkBatch ops ≠ .ok () ∨ 18446744073709551616 ≤ sys.st.nextSeq + 1) ∧
        Failed H sys 0 [] [] (sys.write H ops io) ∨
    -- Refused by the encoder.
    (checkBatch ops = .ok () ∧ ¬Encodable ops) ∧ Failed H sys 1 [] [] (sys.write H ops io) ∨
    -- Failed at the append.
    (∃ seq : U64, seq.val = sys.st.nextSeq ∧ io ≠ .done ∧ io ≠ .unsynced ∧
      Failed H sys 1 [] (io.written (frameBytes H ⟨seq, ops⟩)) (sys.write H ops io)) ∨
    -- Failed at the sync.
    (∃ seq : U64, io = .unsynced ∧ Failed H sys 1 [⟨seq, ops⟩] [] (sys.write H ops io)) ∨
    -- Logged and applied.
    ∃ seq : U64, io = .done ∧ Wrote H false sys [⟨seq, ops⟩] (sys.write H ops io) := by
  unfold Sys.write writeAt appliedBy
  cases hcheck : checkBatch ops with
  | error e => exact .inl ⟨.inl (by simp), by simpa using Failed.refl H sys⟩
  | ok _ =>
    cases hdraw : drawSeq sys.st with
    | error e => exact .inl ⟨.inr (drawSeq_error hdraw), by simpa using Failed.refl H sys⟩
    | ok drawn =>
      obtain ⟨seq, st'⟩ := drawn
      obtain ⟨hseq, rfl⟩ := drawSeq_ok hdraw
      cases henc : encodeFrame H seq ops with
      | error e =>
        refine .inr (.inl ⟨⟨rfl, fun h => ?_⟩, ?_⟩)
        · rw [(encodeFrame_eq_ok H seq ops _).mpr ⟨h, rfl⟩] at henc
          cases henc
        · simpa [appendAndApply, henc, Except.isOk, Except.toBool] using
            Failed.unlogged sys 1 (.inl rfl)
      | ok frame =>
        obtain ⟨hencodable, rfl⟩ := (encodeFrame_eq_ok H seq ops frame).mp henc
        have hnum : Numbered sys.st.nextSeq [⟨seq, ops⟩] :=
          numbered_cons.mpr ⟨hseq, Numbered.nil _⟩
        by_cases hio : io = .done
        · refine .inr (.inr (.inr (.inr ⟨seq, hio, ?_⟩)))
          subst hio
          simp only [Option.filter_none, appendAndApply, henc, if_true, applyOps_eq,
            Except.isOk, Except.toBool, and_self, Disk.apply, AppendIo.written]
          cases hg : (gates false sys.st.dirs ops).2 with
          | none | some =>
            exact ⟨by simpa using hcheck, by simpa using hencodable, hnum, rfl, by simp,
              ⟨_, rfl, rfl, rfl, by simp [Accepted, hg]⟩, rfl, rfl, rfl⟩
        · simp only [Option.filter_none, appendAndApply, henc, hio, if_false, and_false,
            append_nil, Disk.apply]
          rcases AppendIo.written_cases H io ⟨seq, ops⟩ hio with
            ⟨hsync, hwritten⟩ | ⟨hsync, hisPre, hlen⟩
          · refine .inr (.inr (.inr (.inl ⟨seq, hsync, ?_⟩)))
            exact {
              checked := by simpa using hcheck
              encodable := by simpa using hencodable
              numbered := hnum
              length_le := le_rfl
              torn_lt := .inl rfl
              sys := by simp [hwritten] }
          · refine .inr (.inr (.inl ⟨seq, hseq, hio, hsync, ?_⟩))
            exact .unlogged sys 1 (.inr ⟨⟨seq, ops⟩, hencodable, hisPre, hlen⟩)

/-! ## Group commits -/

/-- A frame as the group commit keeps it: its number and its operations. -/
def WalFrame.pair (f : WalFrame) : U64 × List Op :=
  (f.seq, f.ops)

def TornBy (H : Sha256) (next : Nat) (io : GroupIo) (batches : List (List Op)) (torn : Bytes) :
    Prop :=
  torn = [] ∨ ∃ i failed ops, ∃ seq : U64,
    io = .failed i failed ∧ failed ≠ .done ∧ failed ≠ .unsynced ∧ batches[i]? = some ops ∧
    Encodable ops ∧ seq.val = next + i ∧ torn = failed.written (frameBytes H ⟨seq, ops⟩)

theorem TornBy.cons {H : Sha256} {io : GroupIo} {ops : List Op} {batches : List (List Op)}
    {torn : Bytes} (hhead : io.head = .done) (h : TornBy H (next + 1) io.tail batches torn) :
    TornBy H next io (ops :: batches) torn := by
  rcases h with h | ⟨i, failed, ops', seq, hio, hdone, hsync, hget, henc, hseq, htorn⟩
  · exact .inl h
  · cases io with
    | done => cases hio
    | unsynced => cases hio
    | failed n io' =>
      obtain ⟨rfl, rfl⟩ := GroupIo.failed.inj hio
      cases n with
      | zero => exact absurd hhead hdone
      | succ n =>
        exact .inr ⟨n + 1, io', ops', seq, rfl, hdone, hsync, by simpa using hget, henc,
          by rw [hseq]; simp only [Nat.add_sub_cancel]; omega, htorn⟩

theorem GroupIo.head_ne_done {io : GroupIo} (h : io.head ≠ .done) : io = .failed 0 io.head := by
  cases io with
  | done => exact absurd rfl h
  | unsynced => exact absurd rfl h
  | failed n io' =>
    cases n with
    | zero => rfl
    | succ n => exact absurd rfl h

theorem appendGroup_cases (batches : List (List Op)) (st : State) (disk : Disk) (io : GroupIo) :
    (∃ frames : List WalFrame, frames.map WalFrame.ops = batches ∧
      (∀ f ∈ frames, Encodable f.ops) ∧ Numbered st.nextSeq frames ∧
      appendGroup H st disk io batches = ({ st with nextSeq := st.nextSeq + frames.length },
          { disk with wal := disk.wal ++ encodeAll H frames }, frames.map WalFrame.pair, .ok ())) ∨
    ∃ (drawn : Nat) (frames : List WalFrame) (torn : Bytes) (pairs : List (U64 × List Op))
      (e : FormatError),
      (∀ f ∈ frames, f.ops ∈ batches ∧ Encodable f.ops) ∧ Numbered st.nextSeq frames ∧
      frames.length ≤ drawn ∧
      TornBy H st.nextSeq io batches torn ∧
      appendGroup H st disk io batches = ({ st with nextSeq := st.nextSeq + drawn },
          { disk with wal := disk.wal ++ (encodeAll H frames ++ torn) }, pairs, .error e) := by
  induction batches generalizing st disk io with
  | nil => exact .inl ⟨[], rfl, by simp, Numbered.nil _, by simp [appendGroup]⟩
  | cons ops batches ih =>
    rw [appendGroup]
    cases hdraw : drawSeq st with
    | error e =>
      exact .inr ⟨0, [], [], [], e, by simp, Numbered.nil _, le_rfl, .inl rfl, by simp⟩
    | ok drawn =>
      obtain ⟨seq, st'⟩ := drawn
      obtain ⟨hseq, rfl⟩ := drawSeq_ok hdraw
      cases henc : encodeFrame H seq ops with
      | error e =>
        exact .inr ⟨1, [], [], [(seq, ops)], e, by simp, Numbered.nil _, by simp,
          .inl rfl, by simp [henc]⟩
      | ok frame =>
        obtain ⟨hencodable, rfl⟩ := (encodeFrame_eq_ok H seq ops frame).mp henc
        simp only [henc]
        by_cases hhead : io.head = .done
        · -- The head is in the log; the rest decides.
          rcases ih { st with nextSeq := st.nextSeq + 1 }
              { disk with wal := disk.wal ++ frameBytes H ⟨seq, ops⟩ } io.tail with
            ⟨frames, hops, hencs, hnum, hrest⟩ |
            ⟨drawn, frames, torn, pairs, e, hencs, hnum, hle, htorn, hrest⟩
          · refine .inl ⟨⟨seq, ops⟩ :: frames, by rw [map_cons, hops], ?_,
              numbered_cons.mpr ⟨hseq, hnum⟩, ?_⟩
            · exact forall_mem_cons.mpr ⟨hencodable, hencs⟩
            · simp only [hhead, if_true, Disk.apply, AppendIo.written, hrest]
              simp [WalFrame.pair, Nat.add_assoc, Nat.add_comm 1]
          · refine .inr ⟨drawn + 1, ⟨seq, ops⟩ :: frames, torn, (seq, ops) :: pairs, e,
              forall_mem_cons.mpr ⟨⟨mem_cons_self, hencodable⟩, fun f hf =>
                ⟨mem_cons_of_mem _ (hencs f hf).1, (hencs f hf).2⟩⟩,
              numbered_cons.mpr ⟨hseq, hnum⟩, by simpa using hle, TornBy.cons hhead htorn, ?_⟩
            simp only [hhead, if_true, Disk.apply, AppendIo.written, hrest]
            simp [Nat.add_assoc, Nat.add_comm 1]
        · have hio := GroupIo.head_ne_done hhead
          simp only [hhead, if_false, Disk.apply]
          rcases AppendIo.written_cases H io.head ⟨seq, ops⟩ hhead with
            ⟨hsync, hwritten⟩ | ⟨hsync, hisPre, hlen⟩
          · exact .inr ⟨1, [⟨seq, ops⟩], [], [(seq, ops)], ioError,
              by simpa using hencodable, numbered_cons.mpr ⟨hseq, Numbered.nil _⟩, le_rfl,
              .inl rfl, by simp [hwritten]⟩
          · exact .inr ⟨1, [], io.head.written (frameBytes H ⟨seq, ops⟩), [(seq, ops)],
              ioError, by simp, Numbered.nil _, by simp,
              .inr ⟨0, io.head, ops, seq, hio, hhead, hsync, rfl, hencodable, hseq, rfl⟩,
              by simp⟩

theorem appendGroup_done (batches : List (List Op)) (st : State) (disk : Disk)
    (henc : ∀ ops ∈ batches, Encodable ops)
    (hroom : st.nextSeq + batches.length < 18446744073709551616) :
    (appendGroup H st disk .done batches).2.2.2 = .ok () := by
  induction batches generalizing st disk with
  | nil => rfl
  | cons ops batches ih =>
    rw [forall_mem_cons] at henc
    rw [length_cons] at hroom
    rw [appendGroup]
    cases hdraw : drawSeq st with
    | error e =>
      have := drawSeq_error hdraw
      omega
    | ok drawn =>
      obtain ⟨seq, st'⟩ := drawn
      obtain ⟨_, rfl⟩ := drawSeq_ok hdraw
      simp only [(encodeFrame_eq_ok H seq ops _).mpr ⟨henc.1, rfl⟩, GroupIo.head, GroupIo.tail,
        if_true]
      exact ih _ _ henc.2 (by simp only; omega)

theorem applyGroup_eq (frames : List WalFrame) (st : State) (outcome : Except FormatError Unit) :
    (applyGroup st (frames.map WalFrame.pair) outcome).1 = { st with
            active := (effects true st.dirs frames).foldl applyFrame st.active
            dirs := gatesAll true st.dirs frames } ∧
      ((applyGroup st (frames.map WalFrame.pair) outcome).2.isOk = true
        ↔ outcome.isOk = true ∧ Accepted true st.dirs frames) := by
  induction frames generalizing st outcome with
  | nil => exact ⟨rfl, by simp [applyGroup, Accepted]⟩
  | cons f frames ih =>
    have hop := applyOps_eq true f.seq.val st f.ops
    rw [map_cons, WalFrame.pair, applyGroup, Accepted]
    cases hg : (gates true st.dirs f.ops).2 with
    | none =>
      rw [hg] at hop
      simp only [hop]
      rcases ih { st with
        active := (takesEffect true st.dirs f.ops).foldl (applyRow f.seq.val) st.active
        dirs := (gates true st.dirs f.ops).1 } outcome with ⟨hst, hok⟩
      exact ⟨hst, by simpa using hok⟩
    | some e =>
      rw [hg] at hop
      simp only [hop]
      rcases ih { st with
        active := (takesEffect true st.dirs f.ops).foldl (applyRow f.seq.val) st.active
        dirs := (gates true st.dirs f.ops).1 } (.error e) with ⟨hst, hok⟩
      refine ⟨hst, ?_⟩
      rw [hok]
      simp [Except.isOk, Except.toBool]

theorem takesEffectAll_eq (acked : Bool) (frames : List WalFrame) (st : State) :
    (takesEffectAll acked st (frames.map WalFrame.pair)).map Batch.frame = frames ∧
      (takesEffectAll acked st (frames.map WalFrame.pair)).map Batch.applied
        = effects true st.dirs frames ∧
      ∀ b ∈ takesEffectAll acked st (frames.map WalFrame.pair), b.acked = acked := by
  induction frames generalizing st with
  | nil => exact ⟨rfl, rfl, by simp [takesEffectAll]⟩
  | cons f frames ih =>
    have hop := applyOps_eq true f.seq.val st f.ops
    rcases ih (applyOps true f.seq.val st f.ops).1 with ⟨hframe, happlied, hacked⟩
    rw [map_cons, WalFrame.pair, takesEffectAll, effects]
    refine ⟨congrArg _ hframe, ?_, ?_⟩
    · rw [map_cons, happlied, hop]
      rfl
    · exact forall_mem_cons.mpr ⟨rfl, hacked⟩

theorem Sys.commit_cases (sys : Sys) (batches : List (List Op)) (io : GroupIo)
    (hcheck : ∀ ops ∈ batches, checkBatch ops = .ok ()) :
    (∃ drawn frames torn, TornBy H sys.st.nextSeq io batches torn ∧
      (io = .unsynced ∨ ∃ e, (appendGroup H sys.st sys.disk io batches).2.2.2 = .error e) ∧
      Failed H sys drawn frames torn (sys.commit H batches io)) ∨
    ∃ frames, frames.map WalFrame.ops = batches ∧
      Wrote H true sys frames (sys.commit H batches io) := by
  unfold Sys.commit commitGroup appliedByGroup
  rcases appendGroup_cases H batches sys.st sys.disk io with
    ⟨frames, hops, henc, hnum, happ⟩ | ⟨drawn, frames, torn, pairs, e, henc, hnum, hle, htorn, happ⟩
  · rw [happ]
    simp only
    by_cases hio : io = .unsynced
    · refine .inl ⟨frames.length, frames, [], .inl rfl, .inl hio,
        fun f hf => hcheck f.ops (hops ▸ mem_map_of_mem hf), henc, hnum, le_rfl, .inl rfl, ?_⟩
      simp [hio]
    · refine .inr ⟨frames, hops, ?_⟩
      simp only [hio, if_false]
      rcases applyGroup_eq frames { sys.st with nextSeq := sys.st.nextSeq + frames.length }
        (.ok ()) with ⟨hst, hok⟩
      set acked := (applyGroup { sys.st with nextSeq := sys.st.nextSeq + frames.length }
        (frames.map WalFrame.pair) (.ok ())).2.isOk with hacked
      rcases takesEffectAll_eq acked frames
        { sys.st with nextSeq := sys.st.nextSeq + frames.length } with ⟨hframe, happlied, hall⟩
      exact {
        checked := fun f hf => hcheck f.ops (hops ▸ mem_map_of_mem hf)
        encodable := henc
        numbered := hnum
        st := hst
        disk := rfl
        history := ⟨_, rfl, hframe, happlied, fun b hb => by
          rw [hall b hb, hacked, hok]
          simp [Except.isOk, Except.toBool]⟩
        flush := rfl
        compactions := rfl
        calls := rfl }
  · rw [happ]
    refine .inl ⟨drawn, frames, torn, htorn, .inr ⟨e, rfl⟩, fun f hf => hcheck f.ops (henc f hf).1,
      fun f hf => (henc f hf).2, hnum, hle, ?_, by simp⟩
    rcases htorn with rfl | ⟨i, failed, ops, seq, _, hdone, hsync, _, hencodable, _, rfl⟩
    · exact .inl rfl
    · rcases AppendIo.written_cases H failed ⟨seq, ops⟩ hdone with ⟨h, _⟩ | ⟨_, hisPre, hlen⟩
      · exact absurd h hsync
      · exact .inr ⟨⟨seq, ops⟩, hencodable, hisPre, hlen⟩

/-- A write or a group commit, by whether it is applied. -/
inductive Sys.Written (sys sys' : Sys) : Prop where
  | failed {drawn : Nat} {frames : List WalFrame} {torn : Bytes}
      (h : Failed H sys drawn frames torn sys')
  | wrote {grouped : Bool} {frames : List WalFrame} (h : Wrote H grouped sys frames sys')

theorem Sys.written_write (sys : Sys) (ops : List Op) (io : AppendIo) :
    sys.Written H (sys.write H ops io) := by
  rcases Sys.write_cases H sys ops io with
    ⟨_, h⟩ | ⟨_, h⟩ | ⟨_, _, _, _, h⟩ | ⟨_, _, h⟩ | ⟨_, _, h⟩
  · exact .failed h
  · exact .failed h
  · exact .failed h
  · exact .failed h
  · exact .wrote h

theorem Sys.written_commit (sys : Sys) (batches : List (List Op)) (io : GroupIo)
    (hcheck : ∀ ops ∈ batches, checkBatch ops = .ok ()) :
    sys.Written H (sys.commit H batches io) := by
  rcases Sys.commit_cases H sys batches io hcheck with ⟨_, _, _, _, _, h⟩ | ⟨_, _, h⟩
  · exact .failed h
  · exact .wrote h

end Aikoql.Storage
