import Aikoql.Storage.Replay
import Aikoql.Storage.State

/-!
# The Replication Log

What a follower is sent: the frames behind a sequence number, from the archive
of covered logs and the log itself.

The call samples the log, then the largest sequence number, then the archive. It
walks the frames of all files in order, skips those the follower has, and stops
with an error at the first one that does not continue the run. If it finds
nothing although the sequence numbers say there is something, the frames are
gone.
-/

namespace Aikoql.Storage

/-- Where a walk stands: whether it has enough frames, the last sequence number
    it has, and the frames. -/
structure Taken where
  full : Bool
  last : Nat
  out : List WalFrame
  deriving DecidableEq

def takeFrames (max : Nat) : Taken → List WalFrame → Except FormatError Taken
  | t, [] => .ok t
  | t, f :: frames =>
    if f.seq.val ≤ t.last then
      takeFrames max t frames
    else if f.seq.val ≠ t.last + 1 then
      let seq := f.seq.val
      let last := t.last
      .error (.invalid
        s!"replication log gap: frame {seq} after {last} (re-bootstrap the follower)")
    else if max ≤ (t.out ++ [f]).length then
      .ok ⟨true, f.seq.val, t.out ++ [f]⟩
    else
      takeFrames max ⟨false, f.seq.val, t.out ++ [f]⟩ frames

/-- Walk the files until there are enough frames. -/
def takeSources (H : Sha256) (max : Nat) : Taken → List Bytes → Except FormatError Taken
  | t, [] => .ok t
  | t, bytes :: sources => do
      let (frames, _) ← replayFrames H bytes
      let t ← takeFrames max t frames
      if t.full then return t else takeSources H max t sources

/-- The archive files, oldest first. -/
def rlogFiles (cfg : Config) (disk : Disk) : List Bytes :=
  if cfg.retainLog then disk.rlog.toList.map Prod.snd else []

/-- At most `max` frames behind `after`, from a sample of the log, of the largest
    sequence number and of the archive. -/
def logSince (H : Sha256) (after max : Nat) (wal : Bytes) (lastSeq : Nat)
    (archive : List Bytes) : Except FormatError (List WalFrame) := do
  let next := lastSeq + 1
  let first := after + 1
  let t ← takeSources H max ⟨false, after, []⟩ (archive ++ [wal])
  ensure (¬(t.out = [] ∧ after + 1 < next)) (.invalid
    s!"replication log gap: frames {first}..{next} are no longer held")
  return t.out

end Aikoql.Storage
