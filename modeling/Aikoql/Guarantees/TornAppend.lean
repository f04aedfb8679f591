import Aikoql.Storage.WriteSteps

/-!
# Failed Appends

What a failed append does to the batches around it.

An append that fails may leave the beginning of its frame in the log, and
neither the write nor the group commit takes it back. As long as those bytes are
the last ones, replay drops them as a torn tail. The next append puts a valid
frame behind them, and replay then takes the torn bytes for damage in the middle
of the log and refuses all of it, acknowledged batches included
(`torn_append_poisons_log`). If every append starts at a log that ends with a
whole frame, and torn bytes hold no frame of their own, every acknowledged batch
is recovered (`acked_recovered`).

## Main definitions

* `Recovers`: Replay yields every acknowledged batch.
* `AppendsCleanly`: An append starts behind a whole frame.

## Main theorems

* `acked_recovered`: Replay in every run of such appends.
* `torn_append_poisons_log`: An append behind a torn one.
-/

namespace Aikoql.Storage

open List Runs

variable {frames : List WalFrame} {H : Sha256} {sys sys' : Sys} {torn : Bytes}

/-- Replay accepts the log and yields every acknowledged batch. -/
def Recovers (H : Sha256) (sys : Sys) : Prop :=
  ∃ ends ops, replayedOps H sys.disk.wal = .ok (ends, ops) ∧ ∀ f ∈ sys.acked, f.numbered <:+: ops

/-- The walk over a log consumes it whole: it ends with a frame. -/
def WholeFrames (H : Sha256) (wal : Bytes) : Prop :=
  (replayFrames H wal).toOption.map Prod.snd = some wal.length
  deriving Decidable

/-- An append starts at a log that ends with a whole frame, and if it fails part
    of the way then no offset of what it leaves decodes as a frame. -/
def AppendsCleanly (H : Sha256) (sys : Sys) : Event → Prop
  | .write ops io =>
    WholeFrames H sys.disk.wal ∧ ∀ n, io = .torn n → ∀ seq : U64, seq.val = sys.st.nextSeq →
      anyFrameFrom H (io.written (frameBytes H ⟨seq, ops⟩)) 0 = false
  | .group batches io =>
    WholeFrames H sys.disk.wal ∧ ∀ torn, TornBy H sys.st.nextSeq io batches torn →
      anyFrameFrom H torn 0 = false
  | _ => False

/-! ## Torn tails -/

theorem drop_append_ge {α : Type} (front torn : List α) (pos : Nat) (h : front.length ≤ pos) :
    (front ++ torn).drop pos = torn.drop (pos - front.length) := by
  rw [drop_append, drop_eq_nil_of_le h, nil_append]

theorem frameAt_append (H : Sha256) (front torn : Bytes) (pos : Nat) (h : front.length ≤ pos) :
    FrameAt H (front ++ torn) pos ↔ FrameAt H torn (pos - front.length) := by
  unfold FrameAt
  rw [drop_append_ge front torn pos h]

theorem not_frameAt_of_anyFrameFrom {bytes : Bytes} (h : anyFrameFrom H bytes 0 = false) (pos : Nat) :
    ¬FrameAt H bytes pos := by
  intro hframe
  rw [anyFrameFrom, any_eq_false] at h
  refine h pos ?_ ((decodeFrame_isOk_iff H bytes pos).mpr hframe)
  rw [mem_range'_1]
  exact ⟨Nat.zero_le _, by have := hframe.lt; omega⟩

theorem readFrameBytes_isPrefix (H : Sha256) (front torn : Bytes) (f : WalFrame)
    (henc : Encodable f.ops) (hisPre : torn <+: frameBytes H f)
    (hlen : torn.length < (frameBytes H f).length) :
    readFrameBytes (front ++ torn) front.length (front ++ torn).length = none := by
  have hdrop : (front ++ torn).drop front.length = torn := drop_left' rfl
  have htotal := length_frameBytes H f
  unfold readFrameBytes
  rw [hdrop]
  by_cases hshort : torn.length < frameHeaderLen
  · rw [if_pos (by rw [length_append]; omega)]
  · rw [if_neg (by rw [length_append]; omega)]
    have hhead : torn.take frameHeaderLen = frameHeader f.seq (encodePayload f.ops).length := by
      rw [prefix_iff_eq_take] at hisPre
      rw [hisPre, take_take, min_eq_left (by omega), frameBytes, frameBody, append_assoc]
      exact take_left' rfl
    have hpayload : leNat (leBytes 4 (encodePayload f.ops).length) = (encodePayload f.ops).length :=
      leNat_leBytes_of_lt 4 _ (by have := henc.2; omega)
    simp only [hhead, drop_frameHeader_len, hpayload, length_append]
    split_ifs with h₁ h₂ h₃ h₄ h₅
    · rfl
    · rfl
    · rfl
    · rfl
    · rfl
    · simp only [frameHeaderLen] at h₄ htotal
      omega

theorem torn_of_isPrefix (H : Sha256) (front torn : Bytes) (f : WalFrame)
    (henc : Encodable f.ops) (hisPre : torn <+: frameBytes H f)
    (hlen : torn.length < (frameBytes H f).length) (hfree : anyFrameFrom H torn 0 = false) :
    Torn H (front ++ torn) front.length := by
  refine ⟨fun seq body hread => ?_, fun pos hpos hframe => ?_⟩
  · rw [readFrameBytes_isPrefix H front torn f henc hisPre hlen] at hread
    cases hread
  · exact not_frameAt_of_anyFrameFrom hfree _ ((frameAt_append H front torn pos hpos).mp hframe)

/-! ## The log of a run -/

/-- The log is a list of whole frames with a torn tail, and the frames include every acknowledged
    batch. -/
structure Logged (H : Sha256) (sys : Sys) (frames : List WalFrame) (torn : Bytes) : Prop where
  log : LogOk frames
  wal : sys.disk.wal = encodeAll H frames ++ torn
  torn : Torn H (encodeAll H frames ++ torn) (encodeAll H frames).length
  below : ∀ f ∈ frames, f.seq.val < sys.st.nextSeq
  acked : ∀ f ∈ sys.acked, f ∈ frames

theorem Logged.torn_eq_nil (h : Logged H sys frames torn) (hwhole : WholeFrames H sys.disk.wal) :
    torn = [] := by
  have hwalk : replayFrames H sys.disk.wal = .ok (frames, (encodeAll H frames).length) := by
    rw [h.wal]
    exact replayFrames_encodeAll H h.log h.torn.anyFrameFrom
  rw [WholeFrames, hwalk, h.wal] at hwhole
  simpa [Except.toOption] using hwhole

theorem Logged.recovers (h : Logged H sys frames torn) : Recovers H sys := by
  have hreplay := replayedOps_encodeAll H frames torn h.log h.torn
  rw [← h.wal] at hreplay
  exact ⟨_, _, hreplay, fun f hf => numbered_infix (h.acked f hf)⟩

theorem Logged.failed {new : List WalFrame} {drawn : Nat} (h : Logged H sys frames [])
    (hfail : Failed H sys drawn new torn sys') (hfree : anyFrameFrom H torn 0 = false) :
    Logged H sys' (frames ++ new) torn := by
  rcases h.log.append h.below hfail.encodable hfail.numbered with ⟨hlog, hbelow⟩
  have hle := hfail.length_le
  rw [hfail.sys]
  refine ⟨hlog, by simp [h.wal], ?_, fun f hf => ?_, fun f hf => ?_⟩
  · rcases hfail.torn_lt with rfl | ⟨f, henc, hisPre, hlen⟩
    · exact Torn.of_length_le H _ _ (by simp)
    · exact torn_of_isPrefix H _ torn f henc hisPre hlen hfree
  · have := hbelow f hf
    show f.seq.val < sys.st.nextSeq + drawn
    omega
  · exact mem_append_left _ (h.acked f hf)

theorem Logged.wrote {grouped : Bool} {new : List WalFrame} (h : Logged H sys frames [])
    (hwrote : Wrote H grouped sys new sys') : Logged H sys' (frames ++ new) [] := by
  rcases h.log.append h.below hwrote.encodable hwrote.numbered with ⟨hlog, hbelow⟩
  refine ⟨hlog, by simp [hwrote.disk, h.wal], Torn.of_length_le H _ _ (by simp), ?_, ?_⟩
  · rw [hwrote.st]
    exact hbelow
  · intro f hf
    rcases hwrote.history with ⟨batches, hhist, hframe, _, _⟩
    rw [Sys.acked, hhist, filter_append, map_append, mem_append] at hf
    rcases hf with hf | hf
    · exact mem_append_left _ (h.acked f hf)
    · rcases mem_map.mp hf with ⟨b, hb, rfl⟩
      refine mem_append_right _ ?_
      rw [← hframe]
      exact mem_map_of_mem (mem_filter.mp hb).1

theorem Logged.step {cfg : Config} {e : Event} (h : ∃ frames torn, Logged H sys frames torn)
    (hc : AppendsCleanly H sys e) (hstep : step H cfg sys e = some sys') :
    ∃ frames torn, Logged H sys' frames torn := by
  rcases h with ⟨frames, torn, h⟩
  cases e with
  | write ops io =>
    obtain rfl := h.torn_eq_nil hc.1
    cases hstep
    rcases Sys.write_cases H sys ops io with
      ⟨_, hf⟩ | ⟨_, hf⟩ | ⟨seq, hseq, hdone, hsync, hf⟩ | ⟨seq, _, hf⟩ | ⟨seq, _, hw⟩
    · exact ⟨_, _, h.failed hf rfl⟩
    · exact ⟨_, _, h.failed hf rfl⟩
    · refine ⟨_, _, h.failed hf ?_⟩
      cases io with
      | done => exact absurd rfl hdone
      | unwritten => rfl
      | torn n => exact hc.2 n rfl seq hseq
      | unsynced => exact absurd rfl hsync
    · exact ⟨_, _, h.failed hf rfl⟩
    · exact ⟨_, _, h.wrote hw⟩
  | group batches io =>
    obtain rfl := h.torn_eq_nil hc.1
    simp only [Storage.step] at hstep
    split at hstep
    · rename_i hcheck
      cases hstep
      rw [all_eq_true] at hcheck
      rcases Sys.commit_cases H sys batches io fun ops hops => eq_ok_of_isOk (hcheck ops hops) with
        ⟨drawn, new, torn, htorn, _, hf⟩ | ⟨new, _, hw⟩
      · exact ⟨_, _, h.failed hf (hc.2 torn htorn)⟩
      · exact ⟨_, _, h.wrote hw⟩
    · cases hstep
  | _ => exact hc.elim

theorem logged_initial (H : Sha256) : Logged H Sys.initial [] [] where
  log := ⟨by simp, List.Pairwise.nil⟩
  wal := rfl
  torn := Torn.of_length_le H _ _ (by simp)
  below := by simp
  acked := by simp [Sys.initial, Sys.acked]

/-- Acknowledged batches are recovered: in every run of writes and group commits
    that append cleanly, replay accepts the log and yields every batch that was
    acknowledged. -/
theorem acked_recovered (H : Sha256) (cfg : Config) (sys : Sys)
    (hreach : Reaches (step H cfg) (AppendsCleanly H) Sys.initial sys) : Recovers H sys := by
  have h := hreach.invariant (P := fun sys => ∃ frames torn, Logged H sys frames torn)
    ⟨[], [], logged_initial H⟩ fun _ _ _ hP hc hstep => Logged.step hP hc hstep
  rcases h with ⟨frames, torn, h⟩
  exact h.recovers

/-- The run of an acknowledged batch, a failed append that leaves five bytes, and
    another acknowledged batch. -/
def tornRun : List Event :=
  [.write [.put [1] [2]] .done, .write [.put [3] [4]] (.torn 5), .write [.put [5] [6]] .done]

/-- A torn append at the end of a run does no harm. -/
theorem acked_recovered_before_torn :
    ∃ sys, run (step Sha256.fips180 Config.new) Sys.initial (tornRun.take 2) = some sys ∧
      Recovers Sha256.fips180 sys := by
  obtain ⟨sys, hrun, -⟩ : ∃ sys,
      run (step Sha256.fips180 Config.new) Sys.initial (tornRun.take 2) = some sys ∧ True := by
    decide +kernel
  refine ⟨sys, hrun, acked_recovered _ _ sys (reaches_of_run _ ?_ hrun)⟩
  refine ⟨⟨rfl, fun n h => by cases h⟩, fun sys' hstep => ?_⟩
  cases hstep
  refine ⟨⟨?_, fun n h seq hseq => ?_⟩, fun _ _ => trivial⟩
  · decide +kernel
  · obtain rfl : seq = 2 := Fin.ext hseq
    decide +kernel

/-- An append behind a torn one: the writes around it are acknowledged, and
    replay refuses the log. -/
theorem torn_append_poisons_log :
    ∃ sys, run (step Sha256.fips180 Config.new) Sys.initial tornRun = some sys ∧
      sys.acked.length = 2 ∧ ¬Recovers Sha256.fips180 sys := by
  have hend : ∃ sys, run (step Sha256.fips180 Config.new) Sys.initial tornRun = some sys ∧
      sys.acked.length = 2 ∧ (replayedOps Sha256.fips180 sys.disk.wal).isOk = false := by
    decide +kernel
  obtain ⟨sys, hsys, hacked, hreplay⟩ := hend
  refine ⟨sys, hsys, hacked, fun ⟨ends, ops, hok, _⟩ => ?_⟩
  rw [hok] at hreplay
  cases hreplay

end Aikoql.Storage
