import Aikoql.Lib.Layers
import Aikoql.Lib.Scatter
import Aikoql.Storage.Write

/-!
# The Read Paths

Point reads and batched reads of byte keys over the memory of a database.

They ask the active memtable first, then the immutable ones and then the
segments, youngest first, and take the first answer; a tombstone is an answer.
Point reads skip a segment by its key range and by its filter. The scan of the
database and object reads are not modelled.
-/

namespace Aikoql.Storage

def memGet (st : State) (key : Bytes) : Option (Option Bytes) :=
  match st.active.get key with
  | some value => some value
  | none => firstHit st.immutables fun mem => mem.get key

def probe (H : Sha256) (key : Bytes) (s : Segment) : Option SegmentEntry :=
  if key < s.keyMin ∨ s.keyMax < key then none
  else if s.bloomMayContainHashes (bloomHashes H key) then s.get key
  else none

/-- The point read. -/
def get (H : Sha256) (st : State) (key : Bytes) : Option Bytes :=
  match memGet st key with
  | some value => value
  | none => (firstHit st.segments (probe H key)).bind SegmentEntry.live

/-! ## Batched reads -/

def Segment.locateBlock (s : Segment) (key : Bytes) : Option Nat :=
  let i := (s.blocks.takeWhile fun block => lastKey block < key).length
  match s.blocks[i]? with
  | some block => if firstKey block ≤ key then some i else none
  | none => none

/-- The batched read of a segment: positions are grouped by block, and block by block
    their keys are looked up. -/
def Segment.getMany (s : Segment) (keys : List Bytes) : List (Option SegmentEntry) :=
  scatter (keys.map fun _ => none) (s.blocks.zipIdx.flatMap fun bi =>
    (keys.zipIdx.filter fun kp => s.locateBlock kp.1 = some bi.2).map fun kp =>
      (kp.2, blockGet bi.1 kp.1 0))

def Segment.mayHold (H : Sha256) (s : Segment) (key : Bytes) : Bool :=
  !decide (key < s.keyMin ∨ s.keyMax < key) && s.bloomMayContainHashes (bloomHashes H key)

def batchPass (H : Sha256) (found : List (Option Bytes) × List (Bytes × Nat)) (s : Segment) :
    List (Option Bytes) × List (Bytes × Nat) :=
  let wanted := found.2.filter fun kp => s.mayHold H kp.1
  let hits := (wanted.zip (s.getMany (wanted.map Prod.fst))).filterMap fun ke =>
    ke.2.map fun e => (ke.1.2, e.live)
  (scatter found.1 hits, found.2.filter fun kp => !(hits.map Prod.fst).contains kp.2)

def firstPositions (keys : List Bytes) : List (Bytes × Nat) :=
  keys.zipIdx.filter fun kp => keys.idxOf kp.1 = kp.2

def firstAnswers (H : Sha256) (st : State) (keys : List Bytes) : List (Option Bytes) :=
  let hits := (firstPositions keys).filterMap fun kp =>
    (memGet st kp.1).map fun value => (kp.2, value)
  let remaining := (firstPositions keys).filter fun kp => (memGet st kp.1).isNone
  (st.segments.reverse.foldl (batchPass H) (scatter (keys.map fun _ => none) hits, remaining)).1

/-- The batched read: the other positions of a key take the answer of the first. -/
def getMany (H : Sha256) (st : State) (keys : List Bytes) : List (Option Bytes) :=
  let answers := firstAnswers H st keys
  scatter answers ((keys.zipIdx.filter fun kp => keys.idxOf kp.1 ≠ kp.2).filterMap fun kp =>
    answers[keys.idxOf kp.1]?.map fun answer => (kp.2, answer))

end Aikoql.Storage
