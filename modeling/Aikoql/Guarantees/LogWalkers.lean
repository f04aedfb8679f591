import Aikoql.Storage.Replay

/-!
# Log Walkers

The three walks over a log agree.

`replayFrames` decodes frames out of a byte string, `replayReader` reads and checks one
frame at a time and scans in chunks for what stands behind damage, and `validPrefixLen`
checks frames without keeping them and probes offset by offset. They differ on a frame
whose checksum is right and whose operations do not decode, so the file is to hold none
(`Decodes`).

## Theorems

* `Decodes.probeFrames`: The probes find what the in-memory decoder finds.
* `loops_agree`: The loops agree from every offset, by induction on the fuel.
* `walkers_agree`: The walks agree, and so do the scan and the probes.
-/

namespace Aikoql.Storage

open List

variable {H : Sha256} {file : Bytes} {pos : Nat}

def Decodes (H : Sha256) (file : Bytes) : Prop :=
  ∀ pos seq body, readFrameBytes file pos file.length = some (seq, body) →
    checksumOk H body = true → (decodePayload (payloadOf body)).isOk = true

theorem Decodes.unreadable (h : Decodes H file) (hno : ¬FrameAt H file pos) (seq : U64)
    (body : Bytes) (hread : readFrameBytes file pos file.length = some (seq, body)) :
    checksumOk H body = false := by
  rw [← Bool.not_eq_true]
  intro hck
  refine hno ((validCandidate_iff H file pos).mp ?_)
  rw [validCandidate, hread]
  simp only [hck, h pos seq body hread hck, Bool.and_true]

theorem validateFrameAt_frame {frame : WalFrame} {rest : Bytes} (henc : Encodable frame.ops)
    (hbytes : file.drop pos = frameBytes H frame ++ rest) :
    validateFrameAt H file pos = .ok (some (frame.seq, (frameBytes H frame).length)) := by
  rw [validateFrameAt, readFrameBytes_frame H file rest pos frame henc hbytes]
  simp only [checksumOk_frameBytes, if_true, payloadOf_frameBytes,
    decodePayload_encodePayload _ henc]
  rfl

theorem Decodes.validateFrameAt (h : Decodes H file) (hno : ¬FrameAt H file pos) :
    validateFrameAt H file pos = .ok none := by
  rw [Storage.validateFrameAt]
  split
  · rfl
  · rename_i seq body hread
    rw [h.unreadable hno seq body hread]
    rfl

theorem Decodes.probeFrames (h : Decodes H file) (probes : List Nat) : probeFrames H file probes
    = .ok (probes.any fun at_ => (decodeFrame H (file.drop at_)).isOk) := by
  induction probes with
  | nil => rfl
  | cons at_ probes ih =>
    rw [Storage.probeFrames, any_cons]
    by_cases hframe : FrameAt H file at_
    · rw [(decodeFrame_isOk_iff H file at_).mpr hframe]
      obtain ⟨frame, rest, henc, hbytes⟩ := hframe
      rw [validateFrameAt_frame henc hbytes]
      rfl
    · rw [Bool.eq_false_iff.mpr ((decodeFrame_isOk_iff H file at_).not.mpr hframe),
        h.validateFrameAt hframe, Bool.false_or, ← ih]
      rfl

/-- Three walks agree: they report one length and the callback is handed the operations of
    the frames that were decoded in memory, or all of them fail. -/
def WalksAgree (file : Bytes) (acc : List WalFrame) (mem : Except FormatError (List WalFrame × Nat))
    (valid : Except FormatError Nat) (reader : (σ : Type) →
      (U64 → σ → Op → Except FormatError σ) → σ → Except FormatError ((Nat × Nat) × σ)) : Prop :=
  (∃ frames n, mem = .ok (acc ++ frames, n) ∧ valid = .ok n ∧
    ∀ σ f s, reader σ f s = (fun s' => ((n, file.length), s'))
      <$> (frames.flatMap WalFrame.numbered).foldlM (fun s op => f op.1 s op.2) s) ∨
  mem.isOk = false ∧ valid.isOk = false ∧ ∀ σ f s, (reader σ f s).isOk = false

theorem loops_agree (hdec : Decodes H file) (fuel pos : Nat) (last : Option U64)
    (acc : List WalFrame) : WalksAgree file acc (replayFramesLoop H file fuel pos last acc)
      (validPrefixLoop H file fuel pos last)
      (fun _ f => replayReaderLoop H file f fuel pos last) := by
  induction fuel generalizing pos last acc with
  | zero => exact .inl ⟨[], pos, by rw [append_nil]; rfl, rfl, fun _ _ _ => rfl⟩
  | succ fuel ih =>
    by_cases hend : file.length ≤ pos
    · simp only [replayFramesLoop, validPrefixLoop, replayReaderLoop, if_pos hend]
      exact .inl ⟨[], pos, by rw [append_nil], rfl, fun _ _ _ => rfl⟩
    by_cases hframe : FrameAt H file pos
    · obtain ⟨frame, rest, henc, hbytes⟩ := hframe
      simp only [replayFramesLoop, validPrefixLoop, replayReaderLoop, if_neg hend,
        validateFrameAt_frame henc hbytes, readFrameBytes_frame H file rest pos frame henc hbytes,
        hbytes, decodeFrame_append H frame rest henc, checksumOk_frameBytes, if_true, ok_bind,
        payloadOf_frameBytes, walkPayload_encodePayload _ _ _ henc]
      cases last.filter fun prev => decide (frame.seq ≤ prev) with
      | some prev => exact .inr ⟨rfl, rfl, fun _ _ _ => rfl⟩
      | none =>
        rcases ih (pos + (frameBytes H frame).length) (some frame.seq) (acc ++ [frame]) with
          ⟨frames, n, hmem, hvalid, hreader⟩ | ⟨hmem, hvalid, hreader⟩
        · refine .inl ⟨frame :: frames, n, ?_, hvalid, fun σ f s => ?_⟩
          · rw [hmem, append_assoc, singleton_append]
          · rw [flatMap_cons, foldlM_append, WalFrame.numbered, foldlM_map]
            dsimp only
            cases frame.ops.foldlM (f frame.seq) s with
            | error e => rfl
            | ok s' => exact hreader σ f s'
        · refine .inr ⟨hmem, hvalid, fun σ f s => ?_⟩
          dsimp only
          cases frame.ops.foldlM (f frame.seq) s with
          | error e => rfl
          | ok s' => exact hreader σ f s'
    -- No frame here: each walk asks whether one stands behind.
    · have hreader : ∀ (σ : Type) (f : U64 → σ → Op → Except FormatError σ) (s : σ),
          replayReaderLoop H file f (fuel + 1) pos last s = tornOrDamaged H file pos s := by
        intro σ f s
        rw [replayReaderLoop, if_neg hend]
        split
        · rfl
        · rename_i seq body hread
          rw [hdec.unreadable hframe seq body hread, if_neg Bool.false_ne_true]
      simp only [replayFramesLoop, validPrefixLoop, if_neg hend, ok_bind,
        hdec.validateFrameAt hframe, hdec.probeFrames]
      rw [← anyFrameFrom]
      cases hd : decodeFrame H (file.drop pos) with
      | ok r => exact absurd ((decodeFrame_isOk_iff H file pos).mp (by rw [hd]; rfl)) hframe
      | error e =>
        by_cases hany : anyFrameFrom H file (pos + 1) = true
        · obtain ⟨at_, hat, hlater⟩ := (anyFrameFrom_iff H file (pos + 1)).mp hany
          have hfound : findValidFrameAfter H file pos file.length ≠ none := fun hnone =>
            (findValidFrameAfter_eq_none_iff H file pos).mp hnone at_ (by omega) hlater
          obtain ⟨after, hafter⟩ := Option.ne_none_iff_exists'.mp hfound
          simp only [hany, if_true]
          refine .inr ⟨rfl, rfl, fun σ f s => ?_⟩
          simp only [hreader, tornOrDamaged, hafter]
          rfl
        · have hnone : findValidFrameAfter H file pos file.length = none := by
            refine (findValidFrameAfter_eq_none_iff H file pos).mpr fun at_ hat hlater => ?_
            refine hany ((anyFrameFrom_iff H file (pos + 1)).mpr ⟨at_, ?_, hlater⟩)
            exact Nat.lt_of_le_of_ne hat fun heq => hframe (heq ▸ hlater)
          simp only [hany, Bool.false_eq_true, if_false]
          refine .inl ⟨[], pos, by rw [append_nil], rfl, fun σ f s => ?_⟩
          simp only [hreader, tornOrDamaged, hnone]
          rfl

/-- In a file without a frame that has a right checksum and does not decode, the three walks
    agree; and from every offset the chunked scan and the probes agree on whether a frame
    follows. -/
theorem walkers_agree (H : Sha256) (file : Bytes) (hdec : Decodes H file) :
    WalksAgree file [] (replayFrames H file) (validPrefixLen H file)
        (fun _ => replayReader H file) ∧
    ∀ pos, (findValidFrameAfter H file pos file.length).isSome = anyFrameFrom H file pos ∧
      probeFrames H file (List.range' pos (file.length - pos)) = .ok (anyFrameFrom H file pos) := by
  refine ⟨loops_agree hdec _ 0 none [], fun pos => ⟨?_, hdec.probeFrames _⟩⟩
  rw [Bool.eq_iff_iff, anyFrameFrom_iff, ← Option.ne_none_iff_isSome, Ne,
    findValidFrameAfter_eq_none_iff]
  push Not
  rfl

namespace LogWalkers

def first : WalFrame := ⟨1, [.put [1] [2]]⟩

def second : WalFrame := ⟨2, [.delete [1]]⟩

/-- Two batches and the beginning of a third. -/
def tornLog : Bytes :=
  encodeAll Sha256.fips180 [first, second] ++ (frameBytes Sha256.fips180 ⟨3, [.delete [2]]⟩).take 30

/-- Two batches, the first with a byte of its checksum changed. -/
def damagedLog : Bytes :=
  (frameBytes Sha256.fips180 first).set 41 0 ++ frameBytes Sha256.fips180 second

theorem decodes_of_all {file : Bytes} {n : Nat} (hlen : file.length = n)
    (hall : ∀ pos < n, (readFrameBytes file pos n).all
      (fun r => (decodePayload (payloadOf r.2)).isOk) = true) : Decodes Sha256.fips180 file := by
  intro pos seq body hread hck
  by_cases hlt : pos < n
  · have hpos := hall pos hlt
    rwa [← hlen, hread] at hpos
  · rw [(Torn.of_length_le _ _ pos (by omega)).unreadable seq body hread] at hck
    cases hck

/-- The walks drop the torn tail alike and refuse the damaged log alike. -/
theorem torn_dropped_damage_refused : validPrefixLen Sha256.fips180 tornLog = .ok 79 ∧
    (validPrefixLen Sha256.fips180 damagedLog).isOk = false := by
  have htorn := (walkers_agree Sha256.fips180 tornLog
    (decodes_of_all (n := 109) (by decide +kernel) (by decide +kernel))).1
  have hdamaged := (walkers_agree Sha256.fips180 damagedLog
    (decodes_of_all (n := 79) (by decide +kernel) (by decide +kernel))).1
  constructor
  · have hlen : (replayFrames Sha256.fips180 tornLog).toOption.map Prod.snd = some 79 := by
      decide +kernel
    rcases htorn with ⟨frames, n, hmem, hvalid, -⟩ | ⟨hbad, -⟩
    · rw [hmem] at hlen
      exact hvalid.trans (congrArg _ (Option.some.inj hlen))
    · cases hmem : replayFrames Sha256.fips180 tornLog with
      | ok r => rw [hmem] at hbad; cases hbad
      | error e => rw [hmem] at hlen; cases hlen
  · have hbad : (replayFrames Sha256.fips180 damagedLog).isOk = false := by decide +kernel
    rcases hdamaged with ⟨frames, n, hmem, -⟩ | ⟨-, hvalid, -⟩
    · rw [hmem] at hbad
      cases hbad
    · exact hvalid

end LogWalkers

end Aikoql.Storage
