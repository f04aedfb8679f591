import Aikoql.Storage.Wal

/-!
# Log Replay

The two walkers that read a whole log back, and what they recover.

`replayFrames` walks a byte string in memory. `replayReader` walks a file: it
reads one frame's bytes at a time, checks them, and hands each operation to a
callback as it is decoded. They share a classification of what they cannot
read. With nothing valid behind it, it is the torn tail of an interrupted
append and the walk stops there; with a valid frame behind it, it is damage and
the walk fails.

`FrameAt` says that an offset holds a frame, in terms of the encoder alone. The
chunked scan for a later frame is exact for it, which reduces the
classification to a statement about offsets: a tail is torn when it holds no
frame at any offset.

## Theorems

* `findValidFrameAfter_eq_none_iff`: The chunked scan misses no frame.
-/

namespace Aikoql.Storage

open List

variable (H : Sha256) {σ : Type} {file : Bytes} {pos : Nat}
variable {frames : List WalFrame} {frame : WalFrame}

/-! ## Walking a byte string in memory -/

def anyFrameFrom (H : Sha256) (bytes : Bytes) (probe : Nat) : Bool :=
  (List.range' probe (bytes.length - probe)).any fun at_ =>
    (decodeFrame H (bytes.drop at_)).isOk

def replayFramesLoop (H : Sha256) (bytes : Bytes) :
    Nat → Nat → Option U64 → List WalFrame → Except FormatError (List WalFrame × Nat)
  | 0, pos, _, frames => .ok (frames, pos)
  | fuel + 1, pos, lastSeq, frames =>
    if bytes.length ≤ pos then
      .ok (frames, pos)
    else
      match decodeFrame H (bytes.drop pos) with
      | .ok (frame, len) =>
        match lastSeq.filter fun prev => decide (frame.seq ≤ prev) with
        | some prev =>
          let shown := frame.debug
          .error (.corrupt s!"WAL sequence must increase: {shown} after {prev}")
        | none =>
          replayFramesLoop H bytes fuel (pos + len) (some frame.seq) (frames ++ [frame])
      | .error _ =>
        if anyFrameFrom H bytes (pos + 1) then
          .error (.corrupt s!"WAL damage at offset {pos} with valid frames after")
        else
          .ok (frames, pos)

/-- Walk frames from the start: the frames, and the length of the valid
    prefix. -/
def replayFrames (H : Sha256) (bytes : Bytes) : Except FormatError (List WalFrame × Nat) :=
  replayFramesLoop H bytes bytes.length 0 none []

/-! ## Walking a file -/

/-- The bytes of the frame at an offset of a file, before its checksum is
    verified, or none if no frame starts there. -/
def readFrameBytes (file : Bytes) (pos fileEnd : Nat) : Option (U64 × Bytes) :=
  if fileEnd < pos + frameHeaderLen then
    none
  else
    let head := (file.drop pos).take frameHeaderLen
    let payloadLen := leNat ((head.drop 15).take 4)
    let total := frameHeaderLen + payloadLen + 8
    let body := (file.drop pos).take total
    if head.length ≠ frameHeaderLen then
      none
    else if head.take 4 ≠ walMagic then
      none
    else if leNat ((head.drop 4).take 2) ≠ walFormatVersion ∨
        (head.drop 6).take 1 ≠ [frameBatch] then
      none
    else if fileEnd < pos + total then
      none
    else if body.length ≠ total then
      none
    else
      some (u64OfBytes ((head.drop 7).take 8), body)

/-- Whether the last eight bytes are the checksum of those before them. -/
def checksumOk (H : Sha256) (bytes : Bytes) : Bool :=
  checksum8 H (bytes.take (bytes.length - 8)) = bytes.drop (bytes.length - 8)

def payloadOf (bytes : Bytes) : Bytes :=
  (bytes.take (bytes.length - 8)).drop frameHeaderLen

def validCandidate (H : Sha256) (file : Bytes) (cand fileEnd : Nat) : Bool :=
  match readFrameBytes file cand fileEnd with
  | none => false
  | some (_, bytes) => checksumOk H bytes && (decodePayload (payloadOf bytes)).isOk

def scanChunk : Nat := 65536

def findValidFrameLoop (H : Sha256) (file : Bytes) (fileEnd : Nat) : Nat → Nat → Option Nat
  | 0, _ => none
  | fuel + 1, pos =>
    if fileEnd ≤ pos then
      none
    else
      let want := min (fileEnd - pos) scanChunk
      let buf := (file.drop pos).take want
      if want < 4 ∨ buf.length < 4 then
        none
      else
        let hit := (List.range (buf.length - 3)).find? fun i =>
          decide ((buf.drop i).take 4 = walMagic) && validCandidate H file (pos + i) fileEnd
        match hit with
        | some i => some (pos + i)
        | none =>
          if buf.length < want then none
          else findValidFrameLoop H file fileEnd fuel (pos + (want - 3))

def findValidFrameAfter (H : Sha256) (file : Bytes) (pos fileEnd : Nat) : Option Nat :=
  findValidFrameLoop H file fileEnd (fileEnd - pos) pos

def tornOrDamaged {σ : Type} (H : Sha256) (file : Bytes) (pos : Nat) (s : σ) :
    Except FormatError ((Nat × Nat) × σ) :=
  match findValidFrameAfter H file pos file.length with
  | some after =>
    .error (.corrupt s!"WAL damage at offset {pos} with valid frames after (next at {after})")
  | none => .ok ((pos, file.length), s)

def replayReaderLoop {σ : Type} (H : Sha256) (file : Bytes)
    (f : U64 → σ → Op → Except FormatError σ) :
    Nat → Nat → Option U64 → σ → Except FormatError ((Nat × Nat) × σ)
  | 0, pos, _, s => .ok ((pos, file.length), s)
  | fuel + 1, pos, lastSeq, s =>
    if file.length ≤ pos then
      .ok ((pos, file.length), s)
    else
      match readFrameBytes file pos file.length with
      | none => tornOrDamaged H file pos s
      | some (seq, bytes) =>
        if checksumOk H bytes then
          match lastSeq.filter fun prev => decide (seq ≤ prev) with
          | some prev =>
            .error (.corrupt s!"WAL sequence must increase: {seq} after {prev}")
          | none => do
              let s ← walkPayload (payloadOf bytes) (f seq) s
              replayReaderLoop H file f fuel (pos + bytes.length) (some seq) s
        else
          tornOrDamaged H file pos s

/-- Walk a log file, handing each operation to `f`. Returns the length of the
    valid prefix, the size of the file, and what `f` accumulated. -/
def replayReader {σ : Type} (H : Sha256) (file : Bytes)
    (f : U64 → σ → Op → Except FormatError σ) (s : σ) :
    Except FormatError ((Nat × Nat) × σ) :=
  replayReaderLoop H file f file.length 0 none s

def validateFrameAt (H : Sha256) (file : Bytes) (pos : Nat) :
    Except FormatError (Option (U64 × Nat)) :=
  match readFrameBytes file pos file.length with
  | none => .ok none
  | some (seq, body) =>
    if checksumOk H body then do
      let _ ← decodePayload (payloadOf body)
      return some (seq, body.length)
    else
      .ok none

/-- Whether one of some offsets holds a valid frame. -/
def probeFrames (H : Sha256) (file : Bytes) : List Nat → Except FormatError Bool
  | [] => .ok false
  | at_ :: probes => do
      if (← validateFrameAt H file at_).isSome then return true
      else probeFrames H file probes

def validPrefixLoop (H : Sha256) (file : Bytes) : Nat → Nat → Option U64 → Except FormatError Nat
  | 0, pos, _ => .ok pos
  | fuel + 1, pos, lastSeq =>
    if file.length ≤ pos then
      .ok pos
    else do
      match ← validateFrameAt H file pos with
      | some (seq, total) =>
        match lastSeq.filter fun prev => decide (seq ≤ prev) with
        | some prev => .error (.corrupt s!"WAL sequence must increase: {seq} after {prev}")
        | none => validPrefixLoop H file fuel (pos + total) (some seq)
      | none =>
        if ← probeFrames H file (List.range' (pos + 1) (file.length - (pos + 1))) then
          .error (.corrupt s!"WAL damage at offset {pos} with valid frames after")
        else
          return pos

/-- The length of the beginning of a log file that a snapshot copies: everything
    in front of a torn tail. -/
def validPrefixLen (H : Sha256) (file : Bytes) : Except FormatError Nat :=
  validPrefixLoop H file file.length 0 none

/-! ## Offsets that hold a frame -/

def FrameAt (H : Sha256) (file : Bytes) (pos : Nat) : Prop :=
  ∃ frame rest, Encodable frame.ops ∧ file.drop pos = frameBytes H frame ++ rest

theorem decodeFrame_isOk_iff (file : Bytes) (pos : Nat) :
    (decodeFrame H (file.drop pos)).isOk = true ↔ FrameAt H file pos := by
  constructor
  · intro h
    cases hd : decodeFrame H (file.drop pos) with
    | error e => rw [hd] at h; cases h
    | ok r =>
      obtain ⟨frame, n⟩ := r
      rcases decodeFrame_ok hd with ⟨henc, _, rest, hrest⟩
      exact ⟨frame, rest, henc, hrest⟩
  · rintro ⟨frame, rest, henc, hrest⟩
    rw [hrest, decodeFrame_append H frame rest henc]
    rfl

theorem take_frameHeader_magic (seq : U64) (n : Nat) : (frameHeader seq n).take 4 = walMagic :=
  rfl

theorem drop_frameHeader_version (seq : U64) (n : Nat) :
    ((frameHeader seq n).drop 4).take 2 = leBytes 2 walFormatVersion :=
  rfl

theorem drop_frameHeader_type (seq : U64) (n : Nat) :
    ((frameHeader seq n).drop 6).take 1 = [frameBatch] :=
  rfl

theorem drop_frameHeader_seq (seq : U64) (n : Nat) :
    ((frameHeader seq n).drop 7).take 8 = u64Bytes seq :=
  rfl

theorem drop_frameHeader_len (seq : U64) (n : Nat) :
    ((frameHeader seq n).drop 15).take 4 = leBytes 4 n :=
  rfl

theorem readFrameBytes_frame (file rest : Bytes) (pos : Nat) (frame : WalFrame)
    (henc : Encodable frame.ops) (h : file.drop pos = frameBytes H frame ++ rest) :
    readFrameBytes file pos file.length = some (frame.seq, frameBytes H frame) := by
  have hlen : file.length - pos = (frameBytes H frame).length + rest.length := by
    rw [← length_drop, h, length_append]
  have hframe := length_frameBytes H frame
  have hhead : (file.drop pos).take frameHeaderLen
      = frameHeader frame.seq (encodePayload frame.ops).length := by
    rw [h, frameBytes, frameBody]
    simp only [append_assoc]
    exact take_left' (length_frameHeader _ _)
  have hlenField : leNat (leBytes 4 (encodePayload frame.ops).length)
      = (encodePayload frame.ops).length := leNat_leBytes_of_lt 4 _ henc.2
  have hbody : (file.drop pos).take (frameHeaderLen + (encodePayload frame.ops).length + 8)
      = frameBytes H frame := by
    rw [h]
    exact take_left' hframe
  have hpos : pos ≤ file.length := by
    by_contra hc
    simp only [frameHeaderLen] at hframe
    omega
  simp only [readFrameBytes, hhead, take_frameHeader_magic, drop_frameHeader_version,
    drop_frameHeader_type, drop_frameHeader_seq, drop_frameHeader_len, hlenField, hbody,
    length_frameHeader, u64OfBytes_u64Bytes]
  rw [if_neg (by omega), if_neg (by simp), if_neg (by simp), if_neg (by decide),
    if_neg (by omega), if_neg (by omega)]

theorem checksumOk_frameBytes (frame : WalFrame) : checksumOk H (frameBytes H frame) = true := by
  have hlen : (frameBytes H frame).length - 8 = (frameBody frame).length := by
    rw [length_frameBytes, length_frameBody, Nat.add_sub_cancel]
  rw [checksumOk, hlen, frameBytes, take_left', drop_left'] <;> simp

theorem payloadOf_frameBytes (frame : WalFrame) :
    payloadOf (frameBytes H frame) = encodePayload frame.ops := by
  have hlen : (frameBytes H frame).length - 8 = (frameBody frame).length := by
    rw [length_frameBytes, length_frameBody, Nat.add_sub_cancel]
  rw [payloadOf, hlen, frameBytes, take_left' rfl, frameBody]
  exact drop_left' (length_frameHeader _ _)

theorem eq_frameHeader (head : Bytes) (hlen : head.length = frameHeaderLen)
    (hmagic : head.take 4 = walMagic)
    (hversion : leNat ((head.drop 4).take 2) = walFormatVersion)
    (htype : (head.drop 6).take 1 = [frameBatch]) :
    head = frameHeader (u64OfBytes ((head.drop 7).take 8)) (leNat ((head.drop 15).take 4)) := by
  have hl : head.length = 19 := hlen
  have hsplit : head = head.take 4 ++ ((head.drop 4).take 2 ++ ((head.drop 6).take 1 ++
      ((head.drop 7).take 8 ++ (head.drop 15).take 4))) := by
    have h15 : (head.drop 15).take 4 = head.drop 15 :=
      take_of_length_le (by rw [length_drop, hl])
    have h7 : (head.drop 7).take 8 ++ head.drop 15 = head.drop 7 := by
      rw [show head.drop 15 = (head.drop 7).drop 8 by rw [drop_drop], take_append_drop]
    have h6 : (head.drop 6).take 1 ++ head.drop 7 = head.drop 6 := by
      rw [show head.drop 7 = (head.drop 6).drop 1 by rw [drop_drop], take_append_drop]
    have h4 : (head.drop 4).take 2 ++ head.drop 6 = head.drop 4 := by
      rw [show head.drop 6 = (head.drop 4).drop 2 by rw [drop_drop], take_append_drop]
    rw [h15, h7, h6, h4, take_append_drop]
  have hver : (head.drop 4).take 2 = leBytes 2 walFormatVersion := by
    have h2 := leBytes_leNat ((head.drop 4).take 2)
    rw [length_take, length_drop, hl, hversion] at h2
    exact h2.symm
  have hseq : u64Bytes (u64OfBytes ((head.drop 7).take 8)) = (head.drop 7).take 8 :=
    u64Bytes_u64OfBytes _ (by rw [length_take, length_drop, hl]; rfl)
  have hfield : leBytes 4 (leNat ((head.drop 15).take 4)) = (head.drop 15).take 4 := by
    have h4 := leBytes_leNat ((head.drop 15).take 4)
    rwa [length_take, length_drop, hl] at h4
  rw [frameHeader, hseq, hfield, ← hver, ← hmagic, ← singleton_append, ← htype]
  exact hsplit

theorem readFrameBytes_some {body : Bytes} {seq : U64}
    (h : readFrameBytes file pos file.length = some (seq, body)) :
    ∃ payload sum rest, payload.length < 2 ^ 32 ∧ sum.length = 8 ∧
      body = frameHeader seq payload.length ++ payload ++ sum ∧
      file.drop pos = body ++ rest := by
  simp only [readFrameBytes] at h
  generalize hhead : (file.drop pos).take frameHeaderLen = head at h
  generalize hn : leNat ((head.drop 15).take 4) = n at h
  generalize hbody : (file.drop pos).take (frameHeaderLen + n + 8) = b at h
  split at h
  · cases h
  split at h
  · cases h
  split at h
  · cases h
  split at h
  · cases h
  split at h
  · cases h
  split at h
  · cases h
  rename_i hend hlen hmagic hfixed htotal hblen
  rw [not_not] at hlen hmagic hblen
  rw [not_or, not_not, not_not] at hfixed
  obtain ⟨rfl, rfl⟩ := Prod.mk.inj (Option.some.inj h)
  have heq := eq_frameHeader head hlen hmagic hfixed.1 hfixed.2
  rw [hn] at heq
  have hlt : n < 2 ^ 32 := by
    have hl := leNat_lt ((head.drop 15).take 4)
    rw [hn, length_take] at hl
    calc n < 256 ^ min 4 (head.drop 15).length := hl
      _ ≤ 256 ^ 4 := Nat.pow_le_pow_right (by norm_num) (Nat.min_le_left _ _)
      _ = 2 ^ 32 := by norm_num
  have hisPre : b.take frameHeaderLen = head := by
    rw [← hbody, take_take, ← hhead]
    congr 1
    omega
  refine ⟨(b.drop frameHeaderLen).take n, (b.drop frameHeaderLen).drop n,
    (file.drop pos).drop (frameHeaderLen + n + 8), ?_, ?_, ?_, ?_⟩
  · rw [length_take]
    omega
  · rw [length_drop, length_drop]
    omega
  · have hplen : ((b.drop frameHeaderLen).take n).length = n := by
      rw [length_take, length_drop]
      omega
    rw [hplen, ← heq, append_assoc, take_append_drop, ← hisPre, take_append_drop]
  · rw [← hbody, take_append_drop]

theorem validCandidate_iff (file : Bytes) (pos : Nat) :
    validCandidate H file pos file.length = true ↔ FrameAt H file pos := by
  constructor
  · intro h
    rw [validCandidate] at h
    split at h
    · cases h
    rename_i seq body hread
    rw [Bool.and_eq_true] at h
    rcases readFrameBytes_some hread with ⟨payload, sum, rest, hlt, hsum, rfl, hdrop⟩
    have hlen : (frameHeader seq payload.length ++ payload ++ sum).length - 8
        = (frameHeader seq payload.length ++ payload).length := by
      rw [length_append, hsum, Nat.add_sub_cancel]
    rw [checksumOk, payloadOf, hlen, take_left' rfl, drop_left' rfl, decide_eq_true_eq,
      drop_left' (length_frameHeader _ _)] at h
    rcases h with ⟨hck, hpay⟩
    cases hd : decodePayload payload with
    | error e => rw [hd] at hpay; cases hpay
    | ok ops =>
      rcases decodePayload_ok hd with ⟨hne, rfl⟩
      refine ⟨⟨seq, ops⟩, rest, ⟨hne, hlt⟩, ?_⟩
      rw [hdrop, ← hck]
      rfl
  · rintro ⟨frame, rest, henc, hdrop⟩
    rw [validCandidate, readFrameBytes_frame H file rest pos frame henc hdrop]
    simp only [checksumOk_frameBytes, payloadOf_frameBytes, decodePayload_encodePayload _ henc]
    rfl

theorem FrameAt.lt {H : Sha256} (h : FrameAt H file pos) : pos + frameHeaderLen < file.length := by
  rcases h with ⟨frame, rest, _, hdrop⟩
  have hlen := congrArg List.length hdrop
  rw [length_drop, length_append, length_frameBytes] at hlen
  simp only [frameHeaderLen] at hlen ⊢
  omega

theorem FrameAt.magic {H : Sha256} (h : FrameAt H file pos) :
    (file.drop pos).take 4 = walMagic := by
  rcases h with ⟨frame, rest, _, hdrop⟩
  rw [hdrop]
  rfl

theorem findValidFrameLoop_eq_none_iff (file : Bytes) (fuel pos : Nat)
    (hfuel : file.length - pos ≤ fuel) : findValidFrameLoop H file file.length fuel pos = none ↔
      ∀ at_, pos ≤ at_ → ¬FrameAt H file at_ := by
  induction fuel generalizing pos with
  | zero =>
    refine iff_of_true rfl (fun at_ hat h => ?_)
    have := h.lt
    omega
  | succ fuel ih =>
    rw [findValidFrameLoop]
    split
    · refine iff_of_true rfl (fun at_ hat h => ?_)
      have := h.lt
      omega
    rename_i hend
    generalize hw : min (file.length - pos) scanChunk = want
    have hbuf : ((file.drop pos).take want).length = want := by
      rw [length_take, length_drop]
      omega
    simp only [hbuf, or_self, lt_self_iff_false, if_false]
    split
    · refine iff_of_true rfl (fun at_ hat h => ?_)
      have := h.lt
      simp only [scanChunk, frameHeaderLen] at *
      omega
    rename_i hwant
    have hstep : file.length - (pos + (want - 3)) ≤ fuel := by omega
    split
    · -- A hit is a frame, so the right side fails as well.
      rename_i i hhit
      have hp := find?_some hhit
      rw [Bool.and_eq_true, validCandidate_iff] at hp
      exact iff_of_false (by simp) (fun hall => hall (pos + i) (by omega) hp.2)
    · rename_i hmiss
      rw [ih _ hstep]
      constructor
      · intro hall at_ hat hframe
        by_cases hnext : pos + (want - 3) ≤ at_
        · exact hall at_ hnext hframe
        · have hmem : at_ - pos ∈ List.range (want - 3) := by
            rw [mem_range]
            omega
          have hno := find?_eq_none.mp hmiss (at_ - pos) hmem
          have hmagic : (((file.drop pos).take want).drop (at_ - pos)).take 4 = walMagic := by
            rw [drop_take, drop_drop, take_take, Nat.add_sub_of_le hat, Nat.min_eq_left (by omega)]
            exact hframe.magic
          rw [hmagic, decide_eq_true rfl, Bool.true_and, Nat.add_sub_of_le hat,
            validCandidate_iff] at hno
          exact hno hframe
      · intro hall at_ hat
        exact hall at_ (by omega)

theorem findValidFrameAfter_eq_none_iff (file : Bytes) (pos : Nat) :
    findValidFrameAfter H file pos file.length = none ↔ ∀ at_, pos ≤ at_ → ¬FrameAt H file at_ :=
  findValidFrameLoop_eq_none_iff H file _ pos (le_refl _)

/-! ## What replay recovers -/

def encodeAll (H : Sha256) (frames : List WalFrame) : Bytes :=
  frames.flatMap (frameBytes H)

@[simp] theorem encodeAll_nil : encodeAll H [] = [] :=
  rfl

@[simp] theorem encodeAll_cons (frame : WalFrame) (frames : List WalFrame) :
    encodeAll H (frame :: frames) = frameBytes H frame ++ encodeAll H frames :=
  rfl

@[simp] theorem encodeAll_append (fs gs : List WalFrame) :
    encodeAll H (fs ++ gs) = encodeAll H fs ++ encodeAll H gs := by
  simp [encodeAll]

/-- A log as the writers produce it: every batch fits the format and sequence
    numbers strictly increase. -/
structure LogOk (frames : List WalFrame) : Prop where
  encodable : ∀ frame ∈ frames, Encodable frame.ops
  increasing : frames.Pairwise fun a b => a.seq < b.seq

theorem LogOk.tail (h : LogOk (frame :: frames)) : LogOk frames :=
  ⟨fun g hg => h.encodable g (mem_cons_of_mem frame hg), (pairwise_cons.mp h.increasing).2⟩

/-- Replay one frame: its operations in order, under its sequence number. -/
def replayFrame {σ : Type} (f : U64 → σ → Op → Except FormatError σ) (s : σ) (frame : WalFrame) :
    Except FormatError σ :=
  frame.ops.foldlM (f frame.seq) s

/-- A tail that replay discards: nothing from there on is a frame, and what
    stands first does not even carry a matching checksum. -/
structure Torn (H : Sha256) (file : Bytes) (pos : Nat) : Prop where
  unreadable : ∀ seq body, readFrameBytes file pos file.length = some (seq, body) →
    checksumOk H body = false
  noFrame : ∀ at_, pos ≤ at_ → ¬FrameAt H file at_

theorem Torn.of_length_le (file : Bytes) (pos : Nat) (h : file.length ≤ pos) : Torn H file pos := by
  refine ⟨fun seq body hread => ?_, fun at_ hat hframe => ?_⟩
  · rw [readFrameBytes, if_pos (by simp only [frameHeaderLen]; omega)] at hread
    cases hread
  · have := hframe.lt
    omega

/-- Behind whole frames, what stands there is a torn tail or damage. -/
theorem replayReaderLoop_end (file : Bytes) (f : U64 → σ → Op → Except FormatError σ)
    (fuel pos : Nat) (last : Option U64) (s : σ) (hfuel : file.length ≤ fuel + pos)
    (hbad : ∀ seq body, readFrameBytes file pos file.length = some (seq, body) →
      checksumOk H body = false) :
    replayReaderLoop H file f fuel pos last s = tornOrDamaged H file pos s := by
  have hover : file.length ≤ pos → tornOrDamaged H file pos s = .ok ((pos, file.length), s) := by
    intro hend
    rw [tornOrDamaged, (findValidFrameAfter_eq_none_iff H file pos).mpr fun at_ hat hframe => ?_]
    have := hframe.lt
    omega
  cases fuel with
  | zero => exact (hover (by omega)).symm
  | succ fuel =>
    rw [replayReaderLoop]
    split
    · rename_i hend
      exact (hover hend).symm
    split
    · rfl
    · rename_i seq body hread
      rw [hbad seq body hread, if_neg Bool.false_ne_true]

theorem walk_step {file tail : Bytes} {pos : Nat} {last : Option U64}
    (hlog : LogOk (frame :: frames)) (hlast : ∀ prev ∈ last, ∀ g ∈ frame :: frames, prev < g.seq)
    (hfile : file.drop pos = encodeAll H (frame :: frames) ++ tail) :
    file.drop pos = frameBytes H frame ++ (encodeAll H frames ++ tail) ∧
      file.drop (pos + (frameBytes H frame).length) = encodeAll H frames ++ tail ∧
      (frameBytes H frame).length ≤ file.length - pos ∧ 0 < (frameBytes H frame).length ∧
      last.filter (fun prev => decide (frame.seq ≤ prev)) = none ∧
      ∀ prev ∈ some frame.seq, ∀ g ∈ frames, prev < g.seq := by
  rw [encodeAll_cons, append_assoc] at hfile
  refine ⟨hfile, ?_, ?_, ?_, ?_, ?_⟩
  · rw [← drop_drop, hfile, drop_left' rfl]
  · rw [← length_drop, hfile, length_append]
    exact Nat.le_add_right _ _
  · rw [length_frameBytes]
    omega
  · rw [Option.filter_eq_none_iff]
    intro prev hprev
    rw [decide_eq_true_eq, not_le]
    exact hlast prev hprev frame mem_cons_self
  · rintro prev ⟨⟩
    exact (pairwise_cons.mp hlog.increasing).1

/-- A walk of whole frames hands out their operations and goes on behind them. -/
theorem replayReaderLoop_encodeAll (file tail : Bytes) (f : U64 → σ → Op → Except FormatError σ)
    (frames : List WalFrame) (fuel pos : Nat) (last : Option U64) (s : σ) (hlog : LogOk frames)
    (hlast : ∀ prev ∈ last, ∀ frame ∈ frames, prev < frame.seq)
    (hfile : file.drop pos = encodeAll H frames ++ tail) (hfuel : file.length ≤ fuel + pos)
    (hbad : ∀ seq body, readFrameBytes file (pos + (encodeAll H frames).length) file.length
      = some (seq, body) → checksumOk H body = false) :
    replayReaderLoop H file f fuel pos last s = frames.foldlM (replayFrame f) s >>=
      tornOrDamaged H file (pos + (encodeAll H frames).length) := by
  induction frames generalizing fuel pos last s with
  | nil => exact replayReaderLoop_end H file f fuel pos last s hfuel hbad
  | cons frame frames ih =>
    have henc := hlog.encodable frame mem_cons_self
    obtain ⟨hdrop, hnext, hlen, hpos, hfresh, hlater⟩ := walk_step H hlog hlast hfile
    rw [encodeAll_cons, length_append, ← Nat.add_assoc] at hbad ⊢
    cases fuel with
    | zero => omega
    | succ fuel =>
      rw [replayReaderLoop, if_neg (by omega), readFrameBytes_frame H file _ pos frame henc hdrop]
      simp only [checksumOk_frameBytes, if_true, hfresh, payloadOf_frameBytes,
        walkPayload_encodePayload _ _ _ henc, foldlM_cons, replayFrame]
      cases frame.ops.foldlM (f frame.seq) s with
      | error e => rfl
      | ok s' =>
        simp only [ok_bind]
        exact ih fuel _ _ s' hlog.tail hlater hnext (by omega) hbad

theorem replayReader_encodeAll (frames : List WalFrame) (tail : Bytes)
    (f : U64 → σ → Op → Except FormatError σ) (s : σ) (hlog : LogOk frames)
    (htorn : Torn H (encodeAll H frames ++ tail) (encodeAll H frames).length) :
    replayReader H (encodeAll H frames ++ tail) f s
      = (fun s' => (((encodeAll H frames).length, (encodeAll H frames ++ tail).length), s'))
          <$> frames.foldlM (replayFrame f) s := by
  rw [replayReader, replayReaderLoop_encodeAll H (encodeAll H frames ++ tail) tail f frames
    _ 0 none s hlog (by simp) rfl (by simp) (by simpa using htorn.unreadable), Nat.zero_add,
    map_eq_pure_bind]
  refine bind_congr fun s' => ?_
  rw [tornOrDamaged, (findValidFrameAfter_eq_none_iff H _ _).mpr htorn.noFrame]
  rfl

theorem replayReader_log (frames : List WalFrame) (f : U64 → σ → Op → Except FormatError σ) (s : σ)
    (hlog : LogOk frames) : replayReader H (encodeAll H frames) f s
      = (fun s' => (((encodeAll H frames).length, (encodeAll H frames).length), s'))
          <$> frames.foldlM (replayFrame f) s := by
  have h := replayReader_encodeAll H frames [] f s hlog (Torn.of_length_le H _ _ (by simp))
  rwa [append_nil] at h

theorem anyFrameFrom_iff (bytes : Bytes) (probe : Nat) :
    anyFrameFrom H bytes probe = true ↔ ∃ at_, probe ≤ at_ ∧ FrameAt H bytes at_ := by
  simp only [anyFrameFrom, any_eq_true, mem_range'_1, decodeFrame_isOk_iff]
  constructor
  · rintro ⟨at_, hat, hframe⟩
    exact ⟨at_, hat.1, hframe⟩
  · rintro ⟨at_, hat, hframe⟩
    have hlt := hframe.lt
    exact ⟨at_, ⟨hat, by omega⟩, hframe⟩

theorem anyFrameFrom_succ {bytes : Bytes} {pos : Nat} (hno : ¬FrameAt H bytes pos) :
    anyFrameFrom H bytes (pos + 1) = anyFrameFrom H bytes pos := by
  rw [Bool.eq_iff_iff, anyFrameFrom_iff, anyFrameFrom_iff]
  refine ⟨fun ⟨at_, hat, hframe⟩ => ⟨at_, by omega, hframe⟩, fun ⟨at_, hat, hframe⟩ => ?_⟩
  exact ⟨at_, Nat.lt_of_le_of_ne hat fun heq => hno (heq ▸ hframe), hframe⟩

theorem anyFrameFrom_of_length_le {bytes : Bytes} {pos : Nat} (hend : bytes.length ≤ pos) :
    anyFrameFrom H bytes pos = false := by
  rw [anyFrameFrom, Nat.sub_eq_zero_of_le hend]
  rfl

theorem Torn.anyFrameFrom (h : Torn H file pos) : anyFrameFrom H file pos = false := by
  rw [← Bool.not_eq_true, anyFrameFrom_iff]
  rintro ⟨at_, hat, hframe⟩
  exact h.noFrame at_ hat hframe

/-- A walk of whole frames collects them and stops behind them, where no frame is: with an
    error if one follows later. -/
theorem replayFramesLoop_encodeAll (bytes tail : Bytes) (frames acc : List WalFrame)
    (fuel pos stop : Nat) (last : Option U64) (hlog : LogOk frames)
    (hlast : ∀ prev ∈ last, ∀ frame ∈ frames, prev < frame.seq)
    (hbytes : bytes.drop pos = encodeAll H frames ++ tail) (hfuel : bytes.length ≤ fuel + pos)
    (hstop : pos + (encodeAll H frames).length = stop) (hno : ¬FrameAt H bytes stop) :
    replayFramesLoop H bytes fuel pos last acc
      = if anyFrameFrom H bytes stop then
          .error (.corrupt s!"WAL damage at offset {stop} with valid frames after")
        else .ok (acc ++ frames, stop) := by
  induction frames generalizing fuel pos last acc with
  | nil =>
    obtain rfl : pos = stop := hstop
    rw [append_nil]
    cases fuel with
    | zero =>
      rw [anyFrameFrom_of_length_le H (by omega)]
      rfl
    | succ fuel =>
      rw [replayFramesLoop]
      split
      · rename_i hend
        rw [anyFrameFrom_of_length_le H hend]
        rfl
      have hbad := (decodeFrame_isOk_iff H bytes pos).not.mpr hno
      cases hd : decodeFrame H (bytes.drop pos) with
      | ok r =>
        rw [hd] at hbad
        exact absurd rfl hbad
      | error e =>
        rw [← anyFrameFrom_succ H hno]
  | cons frame frames ih =>
    have henc := hlog.encodable frame mem_cons_self
    obtain ⟨hdrop, hnext, hlen, hpos, hfresh, hlater⟩ := walk_step H hlog hlast hbytes
    rw [encodeAll_cons, length_append, ← Nat.add_assoc] at hstop
    cases fuel with
    | zero => omega
    | succ fuel =>
      rw [replayFramesLoop, if_neg (by omega), hdrop, decodeFrame_append H frame _ henc]
      simp only [hfresh]
      rw [ih (acc ++ [frame]) fuel _ _ hlog.tail hlater hnext (by omega) hstop,
        append_assoc, singleton_append]

theorem replayFrames_encodeAll {frames : List WalFrame} {tail : Bytes} (hlog : LogOk frames)
    (htail : anyFrameFrom H (encodeAll H frames ++ tail) (encodeAll H frames).length = false) :
    replayFrames H (encodeAll H frames ++ tail) = .ok (frames, (encodeAll H frames).length) := by
  have hno : ¬FrameAt H (encodeAll H frames ++ tail) (encodeAll H frames).length := by
    intro hframe
    exact absurd ((anyFrameFrom_iff H _ _).mpr ⟨_, le_refl _, hframe⟩) (by simp [htail])
  rw [replayFrames, replayFramesLoop_encodeAll H _ tail frames [] _ 0 _ none hlog (by simp) rfl
    (by simp) (Nat.zero_add _) hno, htail]
  rfl

theorem replayFrames_log (frames : List WalFrame) (hlog : LogOk frames) :
    replayFrames H (encodeAll H frames) = .ok (frames, (encodeAll H frames).length) := by
  have h : replayFrames H (encodeAll H frames ++ []) = .ok (frames, (encodeAll H frames).length) :=
    replayFrames_encodeAll H hlog (anyFrameFrom_of_length_le H (by simp))
  rwa [append_nil] at h

/-! ## Collecting the operations -/

def replayedOps (H : Sha256) (wal : Bytes) : Except FormatError ((Nat × Nat) × List (U64 × Op)) :=
  replayReader H wal (fun seq acc op => .ok (acc ++ [(seq, op)])) []

def WalFrame.numbered (f : WalFrame) : List (U64 × Op) :=
  f.ops.map fun op => (f.seq, op)

theorem replayFrame_numbered (f : WalFrame) (acc : List (U64 × Op)) :
    replayFrame (fun seq acc op => .ok (acc ++ [(seq, op)])) acc f
      = (.ok (acc ++ f.numbered) : Except FormatError _) := by
  rw [replayFrame, WalFrame.numbered]
  induction f.ops generalizing acc with
  | nil => simp [pure, Except.pure]
  | cons op ops ih => rw [foldlM_cons, ok_bind, ih, append_assoc]; rfl

theorem foldlM_numbered (frames : List WalFrame) (acc : List (U64 × Op)) :
    frames.foldlM (replayFrame fun seq acc op => .ok (acc ++ [(seq, op)])) acc
      = (.ok (acc ++ frames.flatMap WalFrame.numbered) : Except FormatError _) := by
  induction frames generalizing acc with
  | nil => simp [pure, Except.pure]
  | cons f frames ih =>
    rw [foldlM_cons, replayFrame_numbered, ok_bind, ih, append_assoc, flatMap_cons]

theorem replayedOps_encodeAll (frames : List WalFrame) (torn : Bytes) (hlog : LogOk frames)
    (htorn : Torn H (encodeAll H frames ++ torn) (encodeAll H frames).length) :
    replayedOps H (encodeAll H frames ++ torn)
      = .ok (((encodeAll H frames).length, (encodeAll H frames ++ torn).length),
          frames.flatMap WalFrame.numbered) := by
  rw [replayedOps, replayReader_encodeAll H frames torn _ [] hlog htorn, foldlM_numbered]
  rfl

theorem numbered_infix {f : WalFrame} (h : f ∈ frames) :
    f.numbered <:+: frames.flatMap WalFrame.numbered := by
  rcases append_of_mem h with ⟨before, after, rfl⟩
  exact ⟨before.flatMap WalFrame.numbered, after.flatMap WalFrame.numbered, by simp⟩

end Aikoql.Storage
