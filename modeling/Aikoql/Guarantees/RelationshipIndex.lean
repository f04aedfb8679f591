import Aikoql.Kernel.Outcomes

/-!
# Relationship Index

Whether the relationship rows are those the heads call for.

A version puts the rows of all its edges and deletes those of the relationships the
version before had more often. The deletes of a batch are applied after its puts, and
a row stands for an edge however many objects hold it and however often. So a row is
lost if a relationship is dropped whose edge is still held: once more in the same
list, by the object at the other end, or by another operation of the batch
(`edges_lost`). Erasing an object deletes none of its rows, so they stay behind unless
another object holds the same edges.

If no call does either, the rows are those of the edges the heads hold
(`index_exact`), and the first call that does makes them differ (`index_exact_iff`).

## Main definitions

* `IndexExact`: Both indexes have the rows of the edges heads hold.
* `KeepsEdges`: A call drops no edge that is still held.

## Main theorems

* `index_exact`: The indexes in every run of such calls.
* `index_exact_iff`: The first call that is not one makes them differ.
* `edges_lost`: Runs after which the rows are not those of the edges held.
-/

namespace Aikoql.Kernel

open List
open Storage (Sha256)

/-- Both indexes have the rows that a rebuild computes from the heads. -/
def IndexExact (s : Store) : Prop :=
  s.relOut = s.rebuildDerivedIndexes.relOut ∧ s.relIn = s.rebuildDerivedIndexes.relIn
  deriving Decidable

/-! ## Edges behind a call -/

/-- The edges the heads hold once a call is committed: those of the lists it writes, and
    those of the heads it neither replaces nor erases. -/
def edgesBehind (st : State) (io : Ambient) (call : Call) : List Edge :=
  ((call.lists st io).flatMap fun l => l.2.map (RelationshipRef.edge l.1)) ++
    (st.store.headObjects.filter fun ko =>
      ko.1 ∉ (call.lists st io).map Prod.fst ∧ call.erases ≠ some ko.1).flatMap fun ko =>
        ko.2.relationships.map (RelationshipRef.edge ko.1)

/-- A call drops no relationship whose edge is still held, and erases no object with an
    edge that no other object holds. -/
def KeepsEdges (st : State) (io : Ambient) (call : Call) : Prop :=
  (∀ l ∈ call.lists st io, ∀ rel ∈ st.store.headRels l.1,
      l.2.count rel < (st.store.headRels l.1).count rel → rel.edge l.1 ∉ edgesBehind st io call) ∧
    ∀ l ∈ call.erases.toList.map fun koid => (koid, st.store.headRels koid),
      ∀ rel ∈ l.2, rel.edge l.1 ∈ edgesBehind st io call
  deriving Decidable

theorem mem_edgesBehind {st : State} {io : Ambient} {call : Call} {e : Edge} :
    e ∈ edgesBehind st io call ↔ (∃ l ∈ call.lists st io, ∃ rel ∈ l.2, rel.edge l.1 = e) ∨
        ∃ koid ko, st.store.headObject koid = some ko ∧
          (∀ l ∈ call.lists st io, l.1 ≠ koid) ∧ call.erases ≠ some koid ∧
          ∃ rel ∈ ko.relationships, rel.edge koid = e := by
  simp only [edgesBehind, mem_append, mem_flatMap, mem_map]
  refine or_congr Iff.rfl ?_
  constructor
  · rintro ⟨⟨koid, ko⟩, hmem, hrel⟩
    obtain ⟨hhead, hfree⟩ := mem_filter.mp hmem
    obtain ⟨hlists, herases⟩ := of_decide_eq_true hfree
    refine ⟨koid, ko, mem_headObjects.mp hhead, ?_, herases, hrel⟩
    intro l hl heq
    exact hlists ⟨l, hl, heq⟩
  · rintro ⟨koid, ko, hhead, hlists, herases, hrel⟩
    refine ⟨(koid, ko), mem_filter.mpr ⟨mem_headObjects.mpr hhead, ?_⟩, hrel⟩
    refine decide_eq_true ⟨?_, herases⟩
    rintro ⟨l, hl, heq⟩
    exact hlists l hl heq

section

variable {H : Sha256} {st : State} {io : Ambient} {call : Call} {ts : Nat} {batch : WriteBatch}
  {pipe : Pipeline} {change : Change}

theorem Describes.mem_edgesBehind (hlists : change.commits.map Commit.lists = call.lists st io)
    (herases : change.erased = call.erases) (e : Edge) :
    e ∈ edgesBehind st io call ↔ (∃ c ∈ change.commits, e ∈ c.edges) ∨
        ∃ koid ko, st.store.headObject koid = some ko ∧
          (∀ c ∈ change.commits, c.ko.koid ≠ koid) ∧ change.erased ≠ some koid ∧
          ∃ rel ∈ ko.relationships, rel.edge koid = e := by
  rw [Kernel.mem_edgesBehind, ← hlists, ← herases]
  simp only [mem_map, exists_exists_and_eq_and, forall_exists_index, and_imp,
    forall_apply_eq_imp_iff₂, Commit.edges, Commit.lists]

theorem Describes.mem_derivedEdges (h : Describes H st ts batch pipe change)
    (hlists : change.commits.map Commit.lists = call.lists st io)
    (herases : change.erased = call.erases) (e : Edge) :
    e ∈ (st.store.writeBatch batch).derivedEdges ↔ e ∈ edgesBehind st io call := by
  rw [Kernel.mem_derivedEdges, Describes.mem_edgesBehind hlists herases]
  constructor
  · rintro ⟨koid, ko, hko, hrel⟩
    rcases h.headObject_cases hko with ⟨c, hc, rfl, rfl⟩ | ⟨hcommits, herased, hhead⟩
    · exact .inl ⟨c, hc, mem_map.mpr hrel⟩
    · exact .inr ⟨koid, ko, hhead, hcommits, herased, hrel⟩
  · rintro (⟨c, hc, he⟩ | ⟨koid, ko, hhead, hcommits, herased, hrel⟩)
    · exact ⟨c.ko.koid, c.ko, h.headObject_commit hc, mem_map.mp he⟩
    · exact ⟨koid, ko, (h.headObject_other hcommits herased).trans hhead, hrel⟩

theorem keepsEdges_iff (hlists : change.commits.map Commit.lists = call.lists st io)
    (herases : change.erased = call.erases) :
    KeepsEdges st io call ↔
      (∀ c ∈ change.commits, ∀ e ∈ c.removed st.store, e ∉ edgesBehind st io call) ∧
        ∀ koid ko, change.erased = some koid → st.store.headObject koid = some ko →
          ∀ rel ∈ ko.relationships, rel.edge koid ∈ edgesBehind st io call := by
  unfold KeepsEdges
  rw [← hlists, ← herases]
  refine and_congr ?_ ?_
  · rw [forall_mem_map]
    refine forall₂_congr fun c _ => ?_
    constructor
    · intro hkeeps e he
      obtain ⟨rel, hrel, hlt, rfl⟩ := mem_removed.mp he
      exact hkeeps rel hrel hlt
    · intro hkeeps rel hrel hlt
      exact hkeeps _ (mem_removed.mpr ⟨rel, hrel, hlt, rfl⟩)
  · constructor
    · intro hkeeps koid ko herased hhead rel hrel
      refine hkeeps _ (mem_map_of_mem (Option.mem_toList.mpr herased)) rel ?_
      exact (Store.head_eq hhead).1 ▸ hrel
    · intro hkeeps l hl rel hrel
      obtain ⟨koid, hkoid, rfl⟩ := mem_map.mp hl
      have herased := Option.mem_toList.mp hkoid
      unfold Store.headRels at hrel
      cases hhead : st.store.headObject koid with
      | none => simp [hhead] at hrel
      | some ko =>
        rw [hhead] at hrel
        exact hkeeps koid ko herased hhead rel hrel

theorem Commit.mem_edges_or_removed {c : Commit} {ko : KnowledgeObject}
    (hhead : st.store.headObject c.ko.koid = some ko) {rel : RelationshipRef}
    (hrel : rel ∈ ko.relationships) :
    rel.edge c.ko.koid ∈ c.edges ∨ rel.edge c.ko.koid ∈ c.removed st.store := by
  by_cases hmem : rel ∈ c.ko.relationships
  · exact .inl (mem_map_of_mem hmem)
  · right
    have hrels := (Store.head_eq hhead).1
    refine mem_removed.mpr ⟨rel, hrels ▸ hrel, ?_, rfl⟩
    rw [count_eq_zero_of_not_mem hmem, hrels]
    exact count_pos_iff.mpr hrel

theorem keepsEdges_iff_rows (h : Describes H st ts batch pipe change)
    (hlists : change.commits.map Commit.lists = call.lists st io)
    (herases : change.erased = call.erases) :
    KeepsEdges st io call ↔ ∀ e, ((e ∈ st.store.derivedEdges ∨ ∃ c ∈ change.commits, e ∈ c.edges) ∧
        ∀ c ∈ change.commits, e ∉ c.removed st.store) ↔ e ∈ edgesBehind st io call := by
  rw [keepsEdges_iff hlists herases]
  have hbehind := Describes.mem_edgesBehind hlists herases
  constructor
  · rintro ⟨hdropped, herased⟩ e
    constructor
    · rintro ⟨hheld | hwritten, hnot⟩
      · -- Follow the head that holds the edge: it is replaced, erased or stays.
        obtain ⟨koid, ko, hhead, rel, hrel, rfl⟩ := (Kernel.mem_derivedEdges _ _).mp hheld
        by_cases hcommits : ∀ c ∈ change.commits, c.ko.koid ≠ koid
        · by_cases hcase : change.erased = some koid
          · exact herased koid ko hcase hhead rel hrel
          · exact (hbehind _).mpr (.inr ⟨koid, ko, hhead, hcommits, hcase, rel, hrel, rfl⟩)
        · push Not at hcommits
          obtain ⟨c, hc, rfl⟩ := hcommits
          have hedge := (Commit.mem_edges_or_removed hhead hrel).resolve_right (hnot c hc)
          exact (hbehind _).mpr (.inl ⟨c, hc, hedge⟩)
      · exact (hbehind e).mpr (.inl hwritten)
    · intro he
      refine ⟨?_, fun c hc hremoved => hdropped c hc e hremoved he⟩
      rcases (hbehind e).mp he with hwritten | ⟨koid, ko, hhead, -, -, hrel⟩
      · exact .inr hwritten
      · exact .inl ((Kernel.mem_derivedEdges _ _).mpr ⟨koid, ko, hhead, hrel⟩)
  · intro hrows
    constructor
    · intro c hc e hremoved he
      exact ((hrows e).mpr he).2 c hc hremoved
    · intro koid ko herased hhead rel hrel
      refine (hrows _).mp ⟨.inl ((Kernel.mem_derivedEdges _ _).mpr ⟨koid, ko, hhead, rel, hrel, rfl⟩),
        ?_⟩
      -- An erasure commits nothing, so it deletes nothing.
      rw [(h.alone koid herased).1]
      exact forall_mem_nil _

theorem index_exact_iff (h : Describes H st ts batch pipe change)
    (hlists : change.commits.map Commit.lists = call.lists st io)
    (herases : change.erased = call.erases) (hst : IndexExact st.store) :
    IndexExact (st.store.writeBatch batch) ↔ KeepsEdges st io call := by
  obtain ⟨hout, hin⟩ := hst
  change st.store.relOut = st.store.derivedEdges at hout
  change st.store.relIn = st.store.derivedEdges at hin
  rw [keepsEdges_iff_rows h hlists herases]
  have hderived := h.mem_derivedEdges hlists herases
  constructor
  · rintro ⟨hout', -⟩ e
    change _ = (st.store.writeBatch batch).derivedEdges at hout'
    rw [← hout, ← h.mem_relOut, hout', hderived]
  · intro hrows
    constructor
    · ext e
      rw [h.mem_relOut, hout, hrows, ← hderived]
      rfl
    · ext e
      rw [h.mem_relIn, hin, hrows, ← hderived]
      rfl

end

/-! ## Runs -/

def Turn.KeepsEdges (A : Admission) (C : Crypto) (st : State) (t : Turn) : Prop :=
  t.taken = true → (stage A C st t.io t.call).2.isWrite = true → Kernel.KeepsEdges st t.io t.call
  deriving Decidable

/-- If every call that is committed keeps edges, both indexes have the rows of the edges
    held by heads and no others. -/
theorem index_exact (A : Admission) (C : Crypto) (st : State)
    (h : Runs.Reaches (turn A C) (Turn.KeepsEdges A C) State.initial st) :
    IndexExact st.store := by
  refine (h.invariant (P := fun st => IndexExact st.store ∧ st.store.Keyed) ?_ ?_).1
  · exact ⟨⟨rfl, rfl⟩, fun koid ko hko => by cases hko⟩
  · rintro st ⟨io, call, taken⟩ st' ⟨hexact, hkeyed⟩ hkeeps hstep
    cases hstep
    rcases step_cases A C io hkeyed call taken with
      ⟨hstore, -⟩ | ⟨batch, ts, change, ⟨htaken, hwrite⟩, hstore, hbatch, hlists, herases⟩
    · change IndexExact (step A C st io call taken).1.store ∧ _
      rw [hstore]
      exact ⟨hexact, hkeyed⟩
    · change IndexExact (step A C st io call taken).1.store ∧ _
      rw [hstore]
      exact ⟨(index_exact_iff hbatch hlists herases hexact).mpr (hkeeps htaken hwrite),
        hbatch.keyed hkeyed⟩

/-! ## Runs with two objects -/

section

open Samples

/-- The first note cites the second, said by the first. -/
def cites : RelationshipRef := ⟨utf8 "cites", 2, .outbound⟩

/-- The same edge, said by the second. -/
def citedBy : RelationshipRef := ⟨utf8 "cites", 1, .inbound⟩

def creating (koid : Koid) (rels : List RelationshipRef) : RememberRequest :=
  { RememberRequest.create ann note with koid := some koid, relationships := rels }

def updating (koid : Koid) (rels : List RelationshipRef) : RememberRequest :=
  { RememberRequest.update ann koid note with relationships := rels }

def repeatedEdge : List Call :=
  [.remember (creating 2 []), .remember (creating 1 [cites, cites]), .remember (updating 1 [cites])]

def bothEnds : List Call :=
  [.remember (creating 1 [cites]), .remember (creating 2 [citedBy]), .remember (updating 1 [])]

def oneBatch : List Call :=
  [.remember (creating 1 [cites]), .remember (creating 2 []),
    .transact [⟨ann, updating 2 [citedBy]⟩, ⟨ann, updating 1 []⟩] none none]

def erasedEnd : List Call :=
  [.remember (creating 2 []), .remember (creating 1 [cites]), .forget ann 1 .erase none none]

def singleEdge : List Call :=
  [.remember (creating 2 []), .remember (creating 1 [cites]), .evolve ann 1 .active .human none none,
    .remember (updating 1 [cites]), .remember (updating 1 [])]

theorem singleEdge_exact :
    ∃ st, Runs.run (turn .unrestricted (.unsigned Sha256.fips180)) State.initial
        (spaced singleEdge) = some st ∧
      st.pipe.seq = 5 ∧ IndexExact st.store := by
  exact Runs.exists_run (P := fun st => st.pipe.seq = 5) (by decide +kernel)
    (by decide +kernel) fun st hreach hseq =>
    ⟨hseq, index_exact .unrestricted (.unsigned Sha256.fips180) st hreach⟩

def IndexDiffers (calls : List Call) : Prop :=
  ∃ st, Runs.run (turn .unrestricted (.unsigned Sha256.fips180)) State.initial (spaced calls)
    = some st ∧ ¬IndexExact st.store

theorem edges_lost : IndexDiffers repeatedEdge ∧ IndexDiffers bothEnds ∧ IndexDiffers oneBatch ∧
      IndexDiffers erasedEnd := by
  unfold IndexDiffers
  decide +kernel

end

end Aikoql.Kernel
