import Aikoql.Storage.Wal

/-!
# The Memtable

The in-memory layer of recent writes: a sorted map from keys to version chains.

A chain holds the versions of one key in ascending order of sequence number,
one entry per sequence number. A batch has one sequence number, so of several
operations a batch makes on one key only the last leaves an entry; that holds
across the byte and the object surface, since both write to the same chain.
Reads are on one surface: a byte read takes the newest byte row of the chain and
an object read the newest row of the object's replica, and neither sees the
other's rows.
-/

namespace Aikoql.Storage

open List

/-- One memtable entry. A byte row has no replica to name, so it can never
    answer an object read; a missing value is a delete tombstone. -/
inductive MemEntry where
  | byte (value : Option Bytes)
  | object (value : Option Bytes) (replicaId : ReplicaId)
  deriving DecidableEq

namespace MemEntry

def value : MemEntry → Option Bytes
  | byte v => v
  | object v _ => v

def replicaId : MemEntry → ReplicaId
  | byte _ => 0
  | object _ rid => rid

def isIdentity : MemEntry → Bool
  | byte _ => false
  | object _ rid => rid ≠ 0

/-- The length the byte accounting charges for the value. -/
def valueLen (e : MemEntry) : Nat :=
  (e.value.map List.length).getD 0

end MemEntry

/-- The versions of one key, in ascending order of sequence number. -/
structure VersionChain where
  versions : List (Nat × MemEntry)
  sorted : versions.Pairwise fun a b => a.1 < b.1

namespace VersionChain

def insertVersion (seq : Nat) (e : MemEntry) : List (Nat × MemEntry) → List (Nat × MemEntry)
  | [] => [(seq, e)]
  | v :: rest =>
    if v.1 < seq then v :: insertVersion seq e rest
    else if v.1 = seq then (seq, e) :: rest
    else (seq, e) :: v :: rest

theorem mem_insertVersion {seq : Nat} {e : MemEntry} {vs : List (Nat × MemEntry)}
    (h : vs.Pairwise fun a b => a.1 < b.1) {v : Nat × MemEntry} :
    v ∈ insertVersion seq e vs ↔ v = (seq, e) ∨ v ∈ vs ∧ v.1 ≠ seq := by
  induction vs with
  | nil => simp [insertVersion]
  | cons w vs ih =>
    obtain ⟨hlt, hsorted⟩ := pairwise_cons.mp h
    have hbehind := hlt v
    rw [insertVersion]
    split
    · rw [mem_cons, ih hsorted]
      grind
    · split <;> grind

theorem sorted_insertVersion (seq : Nat) (e : MemEntry) (vs : List (Nat × MemEntry))
    (h : vs.Pairwise fun a b => a.1 < b.1) :
    (insertVersion seq e vs).Pairwise fun a b => a.1 < b.1 := by
  induction vs with
  | nil => simp [insertVersion]
  | cons w vs ih =>
    obtain ⟨hlt, hsorted⟩ := pairwise_cons.mp h
    rw [insertVersion]
    split
    · refine pairwise_cons.mpr ⟨fun v hv => ?_, ih hsorted⟩
      rcases (mem_insertVersion hsorted).mp hv with rfl | ⟨hv, -⟩
      · assumption
      · exact hlt v hv
    split
    · next heq =>
        subst heq
        exact pairwise_cons.mpr ⟨hlt, hsorted⟩
    · have hw : seq < w.1 := by omega
      refine pairwise_cons.mpr ⟨forall_mem_cons.mpr ⟨hw, fun v hv => ?_⟩, h⟩
      exact hw.trans (hlt v hv)

def empty : VersionChain :=
  ⟨[], List.Pairwise.nil⟩

def insert (chain : VersionChain) (seq : Nat) (e : MemEntry) : VersionChain :=
  ⟨insertVersion seq e chain.versions, sorted_insertVersion seq e chain.versions chain.sorted⟩

@[simp] theorem versions_insert (chain : VersionChain) (seq : Nat) (e : MemEntry) :
    (chain.insert seq e).versions = insertVersion seq e chain.versions :=
  rfl

def byteHead (chain : VersionChain) : Option (Option Bytes) :=
  chain.versions.reverse.findSome? fun v =>
    match v.2 with
    | .byte value => some value
    | .object _ _ => none

def objectHead (chain : VersionChain) (rid : ReplicaId) : Option (Option Bytes) :=
  chain.versions.reverse.findSome? fun v =>
    match v.2 with
    | .byte _ => none
    | .object value r => if r = rid then some value else none

end VersionChain

/-- The approximate cost of an entry beyond its key and value. -/
def entryOverhead : Nat := 24

/-- The in-memory layer of recent writes. -/
structure Memtable where
  map : Std.ExtTreeMap Bytes VersionChain
  bytes : Nat

namespace Memtable

def new : Memtable :=
  ⟨∅, 0⟩

def isEmpty (m : Memtable) : Bool :=
  m.map.isEmpty

def chain (m : Memtable) (key : Bytes) : VersionChain :=
  m.map[key]?.getD VersionChain.empty

/-- The one insertion path. A replacement moves the byte count by the
    difference of the value lengths, a new version charges the whole entry. -/
def insert (m : Memtable) (key : Bytes) (seq : Nat) (e : MemEntry) : Memtable :=
  match m.map[key]? with
  | none =>
    ⟨m.map.insert key (VersionChain.empty.insert seq e),
      m.bytes + (key.length + e.valueLen + entryOverhead)⟩
  | some chain =>
    match chain.versions.lookup seq with
    | some old => ⟨m.map.insert key (chain.insert seq e), m.bytes + e.valueLen - old.valueLen⟩
    | none =>
      ⟨m.map.insert key (chain.insert seq e), m.bytes + (key.length + e.valueLen + entryOverhead)⟩

def apply (m : Memtable) (key : Bytes) (seq : Nat) (value : Option Bytes) : Memtable :=
  m.insert key seq (.byte value)

def applyObject (m : Memtable) (key : Bytes) (seq : Nat) (value : Option Bytes)
    (rid : ReplicaId) : Memtable :=
  m.insert key seq (.object value rid)

def get (m : Memtable) (key : Bytes) : Option (Option Bytes) :=
  m.map[key]?.bind VersionChain.byteHead

/-- The newest row of a replica under a key. -/
def getByRid (m : Memtable) (key : Bytes) (rid : ReplicaId) : Option (Option Bytes) :=
  m.map[key]?.bind fun chain => chain.objectHead rid

/-- All entries, by key and then by sequence number. -/
def entries (m : Memtable) : List (Bytes × Nat × MemEntry) :=
  m.map.toList.flatMap fun kc => kc.2.versions.map fun v => (kc.1, v.1, v.2)

/-- Whether any entry carries an identity; such a table is flushed to blocks
    that persist replicas. -/
def hasIdentity (m : Memtable) : Bool :=
  m.entries.any fun e => e.2.2.isIdentity

/-- One byte head per key with the prefix, in key order. Keys that hold only
    object rows do not appear. -/
def prefixHeads (m : Memtable) (keyPrefix : Bytes) : List (Bytes × Option Bytes) :=
  ((m.map.toList.dropWhile fun kc => kc.1 < keyPrefix).takeWhile
    fun kc => keyPrefix.isPrefixOf kc.1).filterMap
      fun kc => kc.2.byteHead.map fun value => (kc.1, value)

theorem chain_insert (m : Memtable) (key key' : Bytes) (seq : Nat) (e : MemEntry) :
    (m.insert key seq e).chain key'
      = if key = key' then (m.chain key').insert seq e else m.chain key' := by
  have hmap : (m.insert key seq e).map = m.map.insert key ((m.chain key).insert seq e) := by
    unfold insert chain
    split
    · rename_i h
      rw [h]
      rfl
    · rename_i c h
      rw [h]
      split <;> rfl
  rw [chain, hmap, Std.ExtTreeMap.getElem?_insert]
  by_cases h : key = key'
  · subst h
    simp
  · have hcmp : compare key key' ≠ .eq := fun hc => h (Std.LawfulEqOrd.eq_of_compare hc)
    rw [if_neg hcmp, if_neg h, chain]

theorem get_eq_byteHead (m : Memtable) (key : Bytes) : m.get key = (m.chain key).byteHead := by
  unfold get chain
  cases m.map[key]? <;> rfl

end Memtable

end Aikoql.Storage
