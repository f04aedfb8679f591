import Aikoql.Guarantees.TornAppend

/-!
# Torn Tails

What replay makes of a log that was cut at some byte.

A cut leaves whole frames and the beginning of one more, and replay is to return the
frames and drop the rest. Whether the rest is a torn tail or damage is decided by
looking for a frame at every offset of it. Those offsets are inside the keys and values
of the batch that was cut, so a value that holds the bytes of a frame turns its own torn
frame into damage, and replay refuses the log. Replay returns the whole frames and nothing
else exactly when no offset of the rest decodes as a frame.

## Definitions

* `framesWithin`: The frames that a cut leaves whole.
* `cutRest`: What it leaves of the frame it runs through.

## Theorems

* `cut_damaged`: With a frame in the rest both walks fail.
* `cut_replayed`: The exact condition.
* `cut_refused`: A value that holds the bytes of a frame.
-/

namespace Aikoql.Storage

open List

variable {H : Sha256} {frames : List WalFrame}

/-- The frames that lie within the first bytes of their log. -/
def framesWithin (H : Sha256) : List WalFrame → Nat → List WalFrame
  | [], _ => []
  | f :: frames, n =>
    if (frameBytes H f).length ≤ n then f :: framesWithin H frames (n - (frameBytes H f).length)
    else []

/-- What a cut leaves of the frame it runs through. -/
def cutRest (H : Sha256) (frames : List WalFrame) (n : Nat) : Bytes :=
  ((encodeAll H frames).take n).drop (encodeAll H (framesWithin H frames n)).length

theorem framesWithin_isPrefix (frames : List WalFrame) (n : Nat) :
    framesWithin H frames n <+: frames := by
  induction frames generalizing n with
  | nil => exact prefix_rfl
  | cons f frames ih =>
    unfold framesWithin
    split
    · exact cons_prefix_cons.mpr ⟨rfl, ih _⟩
    · exact nil_prefix

theorem take_encodeAll (frames : List WalFrame) (n : Nat) :
    (encodeAll H frames).take n = encodeAll H (framesWithin H frames n) ++ cutRest H frames n ∧
      (cutRest H frames n = [] ∨ ∃ f ∈ frames, cutRest H frames n <+: frameBytes H f ∧
        (cutRest H frames n).length < (frameBytes H f).length) := by
  induction frames generalizing n with
  | nil => simp [framesWithin, cutRest]
  | cons f frames ih =>
    by_cases hfit : (frameBytes H f).length ≤ n
    · have hwithin : framesWithin H (f :: frames) n
          = f :: framesWithin H frames (n - (frameBytes H f).length) := if_pos hfit
      have htake : (encodeAll H (f :: frames)).take n
          = frameBytes H f ++ (encodeAll H frames).take (n - (frameBytes H f).length) := by
        rw [encodeAll_cons, List.take_append, take_of_length_le hfit]
      have hrest : cutRest H (f :: frames) n = cutRest H frames (n - (frameBytes H f).length) := by
        rw [cutRest, htake, hwithin, encodeAll_cons, length_append, ← drop_drop,
          drop_left' rfl, cutRest]
      obtain ⟨hsplit, hcut⟩ := ih (n - (frameBytes H f).length)
      rw [htake, hwithin, hrest, encodeAll_cons, append_assoc, ← hsplit]
      refine ⟨rfl, hcut.imp_right ?_⟩
      rintro ⟨g, hg, hbegins⟩
      exact ⟨g, mem_cons_of_mem f hg, hbegins⟩
    · -- The cut runs through the first frame, and nothing of the others is left.
      have hwithin : framesWithin H (f :: frames) n = [] := if_neg hfit
      have hrest : cutRest H (f :: frames) n = (frameBytes H f).take n := by
        rw [cutRest, hwithin, encodeAll_cons, take_append_of_le_length (by omega)]
        rfl
      rw [hwithin, hrest, encodeAll_cons, take_append_of_le_length (by omega)]
      refine ⟨rfl, .inr ⟨f, mem_cons_self, take_prefix n _, ?_⟩⟩
      rw [length_take]
      omega

theorem LogOk.framesWithin (hlog : LogOk frames) (n : Nat) : LogOk (framesWithin H frames n) :=
  ⟨fun g hg => hlog.encodable g ((framesWithin_isPrefix frames n).subset hg),
    hlog.increasing.sublist (framesWithin_isPrefix frames n).sublist⟩

theorem not_frameAt_isPrefix (front torn : Bytes) (f : WalFrame) (henc : Encodable f.ops)
    (hisPre : torn <+: frameBytes H f) (hlen : torn.length < (frameBytes H f).length) :
    ¬FrameAt H (front ++ torn) front.length := by
  rintro ⟨frame, rest, henc', hbytes⟩
  have hread := readFrameBytes_frame H (front ++ torn) rest front.length frame henc' hbytes
  rw [readFrameBytes_isPrefix H front torn f henc hisPre hlen] at hread
  cases hread

/-- Whole frames and a part of one more that holds a frame: both walks stop with an error. -/
theorem walks_damaged {σ : Type} {whole : List WalFrame} {rest : Bytes} {g : WalFrame} {at_ : Nat}
    (f : U64 → σ → Op → Except FormatError σ) (s : σ) (hlog : LogOk whole) (henc : Encodable g.ops)
    (hisPre : rest <+: frameBytes H g) (hlen : rest.length < (frameBytes H g).length)
    (hframe : FrameAt H rest at_) :
    (replayFrames H (encodeAll H whole ++ rest)).isOk = false ∧
      (replayReader H (encodeAll H whole ++ rest) f s).isOk = false := by
  have hlater : FrameAt H (encodeAll H whole ++ rest) ((encodeAll H whole).length + at_) := by
    rw [frameAt_append H _ _ _ (Nat.le_add_right _ _), Nat.add_sub_cancel_left]
    exact hframe
  constructor
  · rw [replayFrames, replayFramesLoop_encodeAll H _ rest whole [] _ 0 _ none hlog (by simp) rfl
      (by simp) (Nat.zero_add _) (not_frameAt_isPrefix _ _ g henc hisPre hlen),
      if_pos ((anyFrameFrom_iff H _ _).mpr ⟨_, Nat.le_add_right _ _, hlater⟩)]
    rfl
  · obtain ⟨after, hafter⟩ := Option.ne_none_iff_exists'.mp fun hnone =>
      (findValidFrameAfter_eq_none_iff H _ _).mp hnone _ (Nat.le_add_right _ _) hlater
    rw [replayReader, replayReaderLoop_encodeAll H _ rest f whole _ 0 none s hlog (by simp) rfl
      (by simp), Nat.zero_add]
    · cases whole.foldlM (replayFrame f) s with
      | error e => rfl
      | ok s' =>
        simp only [ok_bind, tornOrDamaged, hafter]
        rfl
    · intro seq body hread
      rw [Nat.zero_add, readFrameBytes_isPrefix H _ rest g henc hisPre hlen] at hread
      cases hread

theorem cut_damaged {σ : Type} (n : Nat) (f : U64 → σ → Op → Except FormatError σ) (s : σ)
    (hlog : LogOk frames) (hany : anyFrameFrom H (cutRest H frames n) 0 = true) :
    (replayFrames H ((encodeAll H frames).take n)).isOk = false ∧
      (replayReader H ((encodeAll H frames).take n) f s).isOk = false := by
  obtain ⟨hsplit, hcut⟩ := take_encodeAll (H := H) frames n
  obtain ⟨at_, -, hframe⟩ := (anyFrameFrom_iff H _ 0).mp hany
  rw [hsplit]
  rcases hcut with hnil | ⟨g, hg, hbegins, hshort⟩
  · have hlt := hframe.lt
    rw [hnil] at hlt
    exact absurd hlt (Nat.not_lt_zero _)
  · exact walks_damaged f s (hlog.framesWithin n) (hlog.encodable g hg) hbegins hshort hframe

/-- Replay returns exactly the frames in front of a cut and their length, from memory and
    from a file, exactly when no offset of what the cut leaves of a frame decodes as a frame.
    Otherwise both walks fail. -/
theorem cut_replayed {σ : Type} (H : Sha256) (frames : List WalFrame) (n : Nat)
    (f : U64 → σ → Op → Except FormatError σ) (s : σ) (hlog : LogOk frames) :
    ((replayFrames H ((encodeAll H frames).take n)
        = .ok (framesWithin H frames n, (encodeAll H (framesWithin H frames n)).length) ∧
      replayReader H ((encodeAll H frames).take n) f s
        = (fun s' => (((encodeAll H (framesWithin H frames n)).length,
            ((encodeAll H frames).take n).length), s'))
          <$> (framesWithin H frames n).foldlM (replayFrame f) s) ↔
      anyFrameFrom H (cutRest H frames n) 0 = false) ∧
    (anyFrameFrom H (cutRest H frames n) 0 = true →
      (replayFrames H ((encodeAll H frames).take n)).isOk = false ∧
        (replayReader H ((encodeAll H frames).take n) f s).isOk = false) := by
  refine ⟨⟨fun ⟨hframes, _⟩ => ?_, fun hfree => ?_⟩, cut_damaged n f s hlog⟩
  · rw [← Bool.not_eq_true]
    intro hany
    have hbad := (cut_damaged n f s hlog hany).1
    rw [hframes] at hbad
    cases hbad
  obtain ⟨hsplit, hcut⟩ := take_encodeAll (H := H) frames n
  have htorn : Torn H (encodeAll H (framesWithin H frames n) ++ cutRest H frames n)
      (encodeAll H (framesWithin H frames n)).length := by
    rcases hcut with hnil | ⟨g, hg, hbegins, hshort⟩
    · exact Torn.of_length_le H _ _ (by simp [hnil])
    · exact torn_of_isPrefix H _ _ g (hlog.encodable g hg) hbegins hshort hfree
  rw [hsplit]
  exact ⟨replayFrames_encodeAll H (hlog.framesWithin n) htorn.anyFrameFrom,
    replayReader_encodeAll H _ _ f s (hlog.framesWithin n) htorn⟩

/-- Two batches, cut in the middle of the second. -/
theorem cut_replayed_two : replayFrames Sha256.fips180
        ((encodeAll Sha256.fips180 [⟨1, [.put [1] [2]]⟩, ⟨2, [.delete [1]]⟩]).take 50)
      = .ok ([⟨1, [.put [1] [2]]⟩], 42) := by
  have hlog : LogOk [⟨1, [.put [1] [2]]⟩, ⟨2, [.delete [1]]⟩] :=
    ⟨by simp [Encodable, encodePayload, encodeOp], by simp⟩
  have hfree : anyFrameFrom Sha256.fips180 (cutRest Sha256.fips180
      [⟨1, [.put [1] [2]]⟩, ⟨2, [.delete [1]]⟩] 50) 0 = false := by
    decide +kernel
  rw [((cut_replayed Sha256.fips180 _ 50 (fun _ s _ => .ok s) () hlog).1.mpr hfree).1]
  decide +kernel

/-- A value that holds the bytes of a frame: a log cut right behind it is refused. -/
theorem cut_refused : ∃ frame : WalFrame, LogOk [frame] ∧
      (replayFrames Sha256.fips180 ((frameBytes Sha256.fips180 frame).take 69)).isOk = false ∧
      (replayedOps Sha256.fips180 ((frameBytes Sha256.fips180 frame).take 69)).isOk = false := by
  refine ⟨⟨1, [.put [1] (frameBytes Sha256.fips180 ⟨1, [.delete []]⟩)]⟩, ⟨?_, ?_⟩, ?_, ?_⟩
  · simp only [mem_singleton, forall_eq, Encodable]
    decide +kernel
  · exact pairwise_singleton _ _
  · decide +kernel
  · decide +kernel

end Aikoql.Storage
