import Aikoql.Storage.Wal

/-!
# Segments

Immutable sorted files of rows: how a writer lays them out in blocks and what
the read paths find in them.

A segment holds rows sorted by key and, within a key, newest first. The writer
cuts the rows into blocks of a target size in a dry pass that mirrors the
encoder, so a run of rows of one key may continue in the next block. Readers
find a block through the index of first and last keys. A point read of the byte
surface looks into the first block whose range covers the key and nowhere else;
a scan walks the blocks in order and yields the newest byte row of each key.

A segment is modelled by its decoded content: the rows of its blocks, the index
keys being their first and last rows. The filter is the set of bits its writer
set.
-/

namespace Aikoql.Storage

def flagPut : Nat := 1
def flagDelete : Nat := 2

/-- One row of a segment. -/
structure SegmentEntry where
  key : Bytes
  value : Bytes
  seq : Nat
  flags : Nat
  replicaId : ReplicaId
  deriving DecidableEq

/-- Whether a row is a delete tombstone. -/
def SegmentEntry.isDelete (e : SegmentEntry) : Bool :=
  e.flags &&& flagDelete ≠ 0

def SegmentEntry.live (e : SegmentEntry) : Option Bytes :=
  if e.isDelete then none else some e.value

/-! ## Cutting rows into blocks -/

/-- Which block format a writer produces: restart points, replica ids, and the
    dense cadence table, each including the one before. -/
structure BlockVersion where
  v2 : Bool
  v3 : Bool
  v4 : Bool
  deriving DecidableEq

/-- The format without replica ids. -/
def newV2 : BlockVersion := ⟨true, false, false⟩

/-- The format an identity-carrying writer produces. -/
def newV4 : BlockVersion := ⟨true, true, true⟩

def restartInterval : Nat := 16

def commonStart (a b : Bytes) : Nat :=
  ((a.zip b).takeWhile fun xy => xy.1 = xy.2).length

def sharedOf (prev : Option Bytes) (e : SegmentEntry) : Nat :=
  match prev with
  | some p => commonStart p e.key
  | none => 0

def entryLen (w : BlockVersion) (e : SegmentEntry) (shared : Nat) : Nat :=
  2 + 2 + (e.key.length - shared) + 4 + e.value.length + 8 + 1 + if w.v3 then 8 else 0

/-- What the dry pass keeps of the block it is filling. -/
structure SplitState where
  len : Nat
  prev : Option Bytes
  lastRestartKey : Option Bytes
  runHeadShared : Option Nat
  count : Nat

/-- A block nothing was put into yet. -/
def SplitState.fresh : SplitState :=
  ⟨0, none, none, none, 0⟩

def behind (key : Bytes) (earlier : Option Bytes) : Bool :=
  earlier.all fun p => p < key

/-- Put a row into the block being filled. A restart that lands inside a run is
    moved to the run's head, which then stores its whole key. -/
def SplitState.push (w : BlockVersion) (st : SplitState) (keyChanged : Bool)
    (e : SegmentEntry) : SplitState :=
  let cadence := st.count % restartInterval = 0
  let isRestart := w.v2 && cadence && behind e.key st.lastRestartKey
  let isDense := w.v4 && cadence
  let shared := if isRestart || isDense then 0 else sharedOf st.prev e
  let runHead := if keyChanged then some shared else st.runHeadShared
  { len := st.len + entryLen w e shared + if isRestart then runHead.getD 0 else 0
    prev := some e.key
    lastRestartKey := if isRestart then some e.key else st.lastRestartKey
    runHeadShared := if isRestart then none else runHead
    count := st.count + 1 }

/-- Whether the next row would take a block past its target. -/
def SplitState.full (w : BlockVersion) (target : Nat) (st : SplitState) (e : SegmentEntry) :
    Bool :=
  decide (0 < st.len) && decide (target < st.len + entryLen w e (sharedOf st.prev e))

def splitBlocks (w : BlockVersion) (target : Nat) :
    SplitState → List SegmentEntry → List SegmentEntry → List (List SegmentEntry)
  | _, block, [] => [block.reverse]
  | st, block, e :: es =>
    let keyChanged := behind e.key st.prev
    if st.full w target e then
      block.reverse :: splitBlocks w target (SplitState.fresh.push w keyChanged e) [e] es
    else
      splitBlocks w target (st.push w keyChanged e) (e :: block) es

/-! ## Segments and their writer -/

/-- A published segment: its header fields, its blocks, their format, and the
    bits of its filter. -/
structure Segment where
  keyMin : Bytes
  keyMax : Bytes
  seqLo : Nat
  seqHi : Nat
  entryCount : Nat
  v4 : Bool
  blocks : List (List SegmentEntry)
  bloomM : Nat
  bloomBits : List Nat
  deriving DecidableEq

def Segment.entries (s : Segment) : List SegmentEntry :=
  s.blocks.flatten

/-- Where a replica's newest row stands in a segment. -/
structure SegmentAnchor where
  replicaId : ReplicaId
  seq : Nat
  blockId : Nat
  entryOffset : Nat
  deriving DecidableEq

def bloomBitsPerKey : Nat := 10
def bloomProbes : Nat := 4

/-- The two words of a key's hash the filter probes with. -/
def bloomHashes (H : Sha256) (key : Bytes) : Nat × Nat :=
  (leNat ((H.digest key).take 8), leNat (((H.digest key).drop 8).take 8))

def bloomBitsOf (m : Nat) (hashes : Nat × Nat) : List Nat :=
  (List.range bloomProbes).map fun i => (hashes.1 + i * hashes.2) % m

def positions (blocks : List (List SegmentEntry)) : List (SegmentEntry × Nat × Nat) :=
  blocks.zipIdx.flatMap fun bi => bi.1.zipIdx.map fun eo => (eo.1, bi.2, eo.2)

def addAnchor (anchors : Std.ExtTreeMap ReplicaId SegmentAnchor)
    (row : SegmentEntry × Nat × Nat) : Std.ExtTreeMap ReplicaId SegmentAnchor :=
  let e := row.1
  if e.replicaId = 0 then
    anchors
  else
    match anchors[e.replicaId]? with
    | some a =>
      if a.seq < e.seq then
        anchors.insert e.replicaId ⟨e.replicaId, e.seq, row.2.1, row.2.2⟩
      else
        anchors
    | none => anchors.insert e.replicaId ⟨e.replicaId, e.seq, row.2.1, row.2.2⟩

def anchorsOf (blocks : List (List SegmentEntry)) : Std.ExtTreeMap ReplicaId SegmentAnchor :=
  (positions blocks).foldl addAnchor ∅

/-- Whether two neighbouring rows are in publish order. -/
def inOrder (a b : SegmentEntry) : Bool :=
  !(decide (b.key < a.key) || (decide (a.key = b.key) && decide (a.seq < b.seq)))

/-- Whether a check holds of all neighbouring rows. -/
def allAdjacent (p : SegmentEntry → SegmentEntry → Bool) : List SegmentEntry → Bool
  | a :: b :: es => p a b && allAdjacent p (b :: es)
  | _ => true

/-- What a block of a format stores of a row; without replica ids every row
    reads back as a byte row. -/
def storedEntry (w : BlockVersion) (e : SegmentEntry) : SegmentEntry :=
  if w.v3 then e else { e with replicaId := 0 }

def firstKey (rows : List SegmentEntry) : Bytes :=
  (rows.head?.map SegmentEntry.key).getD []

def lastKey (rows : List SegmentEntry) : Bytes :=
  (rows.getLast?.map SegmentEntry.key).getD []

def layOut (H : Sha256) (w : BlockVersion) (target : Nat) (entries : List SegmentEntry) :
    Segment :=
  let seqs := entries.map SegmentEntry.seq
  let m := bloomBitsPerKey * entries.length
  { keyMin := firstKey entries
    keyMax := lastKey entries
    seqLo := seqs.min?.getD 0
    seqHi := seqs.max?.getD 0
    entryCount := entries.length
    v4 := w.v4
    blocks := (splitBlocks w target SplitState.fresh [] entries).map
      fun block => block.map (storedEntry w)
    bloomM := m
    bloomBits := entries.flatMap fun e => bloomBitsOf m (bloomHashes H e.key) }

/-- The largest key a segment's index can hold. -/
def maxKeyLen : Nat := 65535

def checkKeyLens (entries : List SegmentEntry) : Except FormatError Unit :=
  match entries.find? fun e => maxKeyLen < e.key.length with
  | some e =>
    let len := e.key.length
    .error (.invalid s!"key length {len} exceeds the {maxKeyLen} byte format limit")
  | none => .ok ()

/-- The writer's checks of its input. -/
def checkEntries (target : Nat) (entries : List SegmentEntry) : Except FormatError Unit := do
  ensure (target ≠ 0) (.invalid "target block size must be > 0")
  ensure (entries ≠ []) (.invalid "cannot publish an empty segment")
  checkKeyLens entries
  ensure (allAdjacent (fun a b => !(decide (a.key = b.key) && decide (a.seq = b.seq))) entries)
    (.invalid "duplicate (key, seq) pair")
  ensure (allAdjacent inOrder entries)
    (.invalid "entries not in publish order (key asc, seq desc within key)")

/-- The writer: check the rows, lay them out, and anchor their replicas. -/
def publishSortedEntries (H : Sha256) (w : BlockVersion) (target : Nat)
    (entries : List SegmentEntry) :
    Except FormatError (Segment × Std.ExtTreeMap ReplicaId SegmentAnchor) := do
  checkEntries target entries
  let s := layOut H w target entries
  return (s, if w.v3 then anchorsOf s.blocks else ∅)

/-! ## Read paths -/

def Segment.locate (s : Segment) (key : Bytes) : List (List SegmentEntry) :=
  match s.blocks.dropWhile fun block => lastKey block < key with
  | [] => []
  | block :: behind => if firstKey block ≤ key then block :: behind else []

def blockGet (block : List SegmentEntry) (key : Bytes) (rid : ReplicaId) : Option SegmentEntry :=
  block.find? fun e => e.key = key ∧ e.replicaId = rid

/-- The point read of the byte surface. -/
def Segment.get (s : Segment) (key : Bytes) : Option SegmentEntry :=
  (s.locate key).head?.bind fun block => blockGet block key 0

def scanLoop (start : Bytes) (stop : Option Bytes) :
    Option Bytes → List SegmentEntry → List SegmentEntry
  | _, [] => []
  | last, e :: es =>
    if e.key < start then scanLoop start stop last es
    else if stop.any fun s => decide (s ≤ e.key) then []
    else if last = some e.key then scanLoop start stop last es
    else if e.replicaId ≠ 0 then scanLoop start stop last es
    else e :: scanLoop start stop (some e.key) es

/-- The byte rows of a range of keys, one per key. -/
def Segment.scanIter (s : Segment) (start : Bytes) (stop : Option Bytes) : List SegmentEntry :=
  scanLoop start stop none (s.blocks.dropWhile fun block => lastKey block < start).flatten

/-- The filter probe over an already computed pair of hashes. -/
def Segment.bloomMayContainHashes (s : Segment) (hashes : Nat × Nat) : Bool :=
  (bloomBitsOf s.bloomM hashes).all fun bit => s.bloomBits.contains bit

def Segment.blockEntryCount (s : Segment) (blockId : Nat) : Option Nat :=
  s.blocks[blockId]?.map List.length

end Aikoql.Storage
