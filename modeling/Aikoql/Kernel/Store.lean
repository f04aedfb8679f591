import Aikoql.Kernel.Object

/-!
# The Rows of the Kernel

What the kernel keeps in its storage engine, and how a batch changes it.

Every row has a kind and a name, so the engine's flat key space is one table for
each kind: the versions of an object by commit time, the head of an object, the
events by sequence number, the head of the journal, and the derived indexes, which
have rows and no values. Names of one kind are spelled injectively as keys and the
kinds have prefixes of their own, so nothing is lost by keeping them apart.

A batch is applied as a whole: its puts in order, and then its deletes.
-/

namespace Aikoql.Kernel

/-- The row of an object's head: its newest version. -/
structure Head where
  version : Nat
  commitTs : Nat
  state : LifecycleState
  deriving DecidableEq

/-- The row of the journal's head. -/
structure JournalHead where
  seq : Nat
  audit : Bytes
  lastTs : Nat
  deriving DecidableEq

/-- The outcome of a write under an idempotency key. -/
structure IdemRow where
  koid : Koid
  version : Nat
  commitTs : Nat
  kind : Option Byte
  deriving DecidableEq

/-- The outcome of a write. -/
structure Remembered where
  koid : Koid
  version : Nat
  commitTs : Nat
  journalSeq : Nat
  deriving DecidableEq

structure TxnRecord where
  body : Option Bytes
  results : List Remembered
  deriving DecidableEq

/-- An edge between objects, as the relationship indexes name it. -/
structure Edge where
  src : Koid
  relType : Text
  dst : Koid
  deriving DecidableEq

/-- The tables of the kernel. The relationship indexes are the same edges under two
    names, one starting with the source and one with the destination. -/
structure Store where
  objects : Koid → Std.ExtTreeMap Nat KnowledgeObject
  heads : Std.ExtTreeMap Koid Head
  events : Std.ExtTreeMap Nat KnowledgeEvent
  journal : Option JournalHead
  tombs : Std.ExtTreeMap Koid (Bytes × Nat)
  idem : Std.ExtTreeMap Text IdemRow
  relOut : Finset Edge
  relIn : Finset Edge
  types : Finset (Text × Koid)
  usageHead : Option (Nat × Nat)
  usage : Std.ExtTreeMap Text Nat
  txns : Std.ExtTreeMap Text TxnRecord
  schemas : Std.ExtTreeMap Text Bytes

/-- A store without rows. -/
def Store.empty : Store :=
  ⟨fun _ => ∅, ∅, ∅, none, ∅, ∅, ∅, ∅, ∅, none, ∅, ∅, ∅⟩

/-! ## Batches -/

/-- A row that is written. -/
inductive Put where
  | object (koid : Koid) (commitTs : Nat) (ko : KnowledgeObject)
  | head (koid : Koid) (head : Head)
  | event (seq : Nat) (ke : KnowledgeEvent)
  | journal (head : JournalHead)
  | tomb (koid : Koid) (payloadHash : Bytes) (seq : Nat)
  | idem (key : Text) (row : IdemRow)
  | relOut (edge : Edge)
  | relIn (edge : Edge)
  | typeRow (typeName : Text) (koid : Koid)
  | usageHead (seq commitTs : Nat)
  | usageRow (tenant : Text) (count : Nat)
  | txn (id : Text) (record : TxnRecord)
  | schema (typeName : Text) (bytes : Bytes)

/-- A row that is deleted. -/
inductive Del where
  | object (koid : Koid) (commitTs : Nat)
  | head (koid : Koid)
  | relOut (edge : Edge)
  | relIn (edge : Edge)
  | typeRow (typeName : Text) (koid : Koid)

/-- A unit of work against the engine. -/
structure WriteBatch where
  puts : List Put
  dels : List Del

def WriteBatch.empty : WriteBatch := ⟨[], []⟩

def WriteBatch.append (a b : WriteBatch) : WriteBatch :=
  ⟨a.puts ++ b.puts, a.dels ++ b.dels⟩

def Store.put (s : Store) : Put → Store
  | .object koid ts ko =>
    { s with objects := fun k => if k = koid then (s.objects k).insert ts ko else s.objects k }
  | .head koid head => { s with heads := s.heads.insert koid head }
  | .event seq ke => { s with events := s.events.insert seq ke }
  | .journal head => { s with journal := some head }
  | .tomb koid payloadHash seq => { s with tombs := s.tombs.insert koid (payloadHash, seq) }
  | .idem key row => { s with idem := s.idem.insert key row }
  | .relOut edge => { s with relOut := insert edge s.relOut }
  | .relIn edge => { s with relIn := insert edge s.relIn }
  | .typeRow typeName koid => { s with types := insert (typeName, koid) s.types }
  | .usageHead seq ts => { s with usageHead := some (seq, ts) }
  | .usageRow tenant count => { s with usage := s.usage.insert tenant count }
  | .txn id record => { s with txns := s.txns.insert id record }
  | .schema typeName bytes => { s with schemas := s.schemas.insert typeName bytes }

def Store.del (s : Store) : Del → Store
  | .object koid ts =>
    { s with objects := fun k => if k = koid then (s.objects k).erase ts else s.objects k }
  | .head koid => { s with heads := s.heads.erase koid }
  | .relOut edge => { s with relOut := s.relOut.erase edge }
  | .relIn edge => { s with relIn := s.relIn.erase edge }
  | .typeRow typeName koid => { s with types := s.types.erase (typeName, koid) }

def Store.writeBatch (s : Store) (batch : WriteBatch) : Store :=
  batch.dels.foldl Store.del (batch.puts.foldl Store.put s)

/-! ## Reads -/

def Store.getObjectVersion (s : Store) (koid : Koid) (commitTs : Nat) : Option KnowledgeObject :=
  (s.objects koid)[commitTs]?

def Store.headObject (s : Store) (koid : Koid) : Option KnowledgeObject :=
  s.heads[koid]?.bind fun head => s.getObjectVersion koid head.commitTs

/-- The newest version committed at or before a time, with its commit time. -/
def Store.getVersionAt (s : Store) (koid : Koid) (snapTs : Nat) : Option (Nat × KnowledgeObject) :=
  ((s.objects koid).toList.filter fun row => row.1 ≤ snapTs).getLast?

def Store.objectAt (s : Store) (koid : Koid) (snapTs : Nat) : Option KnowledgeObject :=
  (s.getVersionAt koid snapTs).map Prod.snd

theorem Store.exists_of_objectAt {s : Store} {koid : Koid} {snapTs : Nat} {ko : KnowledgeObject}
    (h : s.objectAt koid snapTs = some ko) : ∃ ts, s.getObjectVersion koid ts = some ko := by
  obtain ⟨⟨ts, _⟩, hlast, rfl⟩ := Option.map_eq_some_iff.mp h
  have hmem := List.mem_of_mem_filter (List.mem_of_getLast? hlast)
  exact ⟨ts, Std.ExtTreeMap.mem_toList_iff_getElem?_eq_some.mp hmem⟩

/-! ## Derived indexes -/

def RelationshipRef.edge (koid : Koid) (rel : RelationshipRef) : Edge :=
  match rel.direction with
  | .outbound => ⟨koid, rel.relType, rel.target⟩
  | .inbound => ⟨rel.target, rel.relType, koid⟩

/-- Both rows of an edge. -/
def writeRelIndex (edge : Edge) : List Put :=
  [.relOut edge, .relIn edge]

def delRelIndex (edge : Edge) : List Del :=
  [.relOut edge, .relIn edge]

/-- The types of the catalog's own objects, which no index lists. -/
def isCatalogType (typeName : Text) : Bool :=
  (utf8 "aikoql:catalog").isPrefixOf typeName

def writeTypeIndex (typeName : Text) (koid : Koid) : List Put :=
  if isCatalogType typeName then [] else [.typeRow typeName koid]

def Store.headObjects (s : Store) : List (Koid × KnowledgeObject) :=
  s.heads.toList.filterMap fun kh =>
    (s.getObjectVersion kh.1 kh.2.commitTs).map fun ko => (kh.1, ko)

def Store.derivedEdges (s : Store) : Finset Edge :=
  (s.headObjects.flatMap fun ko => ko.2.relationships.map (RelationshipRef.edge ko.1)).toFinset

def Store.derivedTypes (s : Store) : Finset (Text × Koid) :=
  ((s.headObjects.filter fun ko => !isCatalogType ko.2.metadata.typeName).map fun ko =>
    (ko.2.metadata.typeName, ko.1)).toFinset

/-- Compute all derived indexes from the heads. Rows that are not called for are
    deleted and those that are missing are put, in one batch. -/
def Store.rebuildDerivedIndexes (s : Store) : Store :=
  { s with relOut := s.derivedEdges, relIn := s.derivedEdges, types := s.derivedTypes }

end Aikoql.Kernel
