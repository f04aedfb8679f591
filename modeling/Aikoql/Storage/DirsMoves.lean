import Aikoql.Storage.WriteSteps

/-!
# Moves of the Directories

What a gate, a flush and a replay do to the directories is made of four moves. The
allocators advance, or a record of one of the three families is merged into its map and
owed to its log. A property the moves keep is therefore kept by all of them (`Kept`).

## Theorems

* `Kept.gatesAll`, `Kept.replayGate`: Batches and replayed operations keep it.
-/

namespace Aikoql.Storage

/-- Directories with the same maps that owe the same records. -/
structure SameMaps (dirs dirs' : Directories) : Prop where
  identity : dirs'.identity = dirs.identity
  replicas : dirs'.replicas = dirs.replicas
  placements : dirs'.placements = dirs.placements
  pendingIdentity : dirs'.pendingIdentity = dirs.pendingIdentity
  pendingReplicas : dirs'.pendingReplicas = dirs.pendingReplicas
  pendingPlacements : dirs'.pendingPlacements = dirs.pendingPlacements

theorem SameMaps.refl (dirs : Directories) : SameMaps dirs dirs :=
  ⟨rfl, rfl, rfl, rfl, rfl, rfl⟩

def Directories.Ahead (dirs dirs' : Directories) : Prop :=
  dirs.nextLogicalId ≤ dirs'.nextLogicalId ∧ dirs.nextReplicaId ≤ dirs'.nextReplicaId ∧
    dirs.nextPlacementGeneration ≤ dirs'.nextPlacementGeneration

/-- The moves keep a property, if the placements that are merged are as said. -/
structure Kept (placed : ReplicaId → Placement → Prop) (P : Directories → Prop) : Prop where
  allocated : ∀ {dirs dirs' : Directories}, P dirs → SameMaps dirs dirs' → dirs.Ahead dirs' →
    P dirs'
  identity : ∀ {dirs : Directories} {oid : ObjectId} {lid : LogicalId} {m : IdentityMap},
    P dirs → mergeIdentity dirs.identity oid lid = .ok m →
    P { dirs with identity := m, pendingIdentity := dirs.pendingIdentity ++ [⟨oid, lid⟩] }
  replica : ∀ {dirs : Directories} {lid : LogicalId} {rid : ReplicaId} {m : ReplicaMap},
    P dirs → mergeReplica dirs.replicas lid localNodeId rid = .ok m →
    P { dirs with
      replicas := m, pendingReplicas := dirs.pendingReplicas ++ [⟨lid, localNodeId, rid⟩] }
  placement : ∀ {dirs : Directories} {rid : ReplicaId} {p : Placement} {m : PlacementMap},
    P dirs → placed rid p → mergePlacement dirs.placements rid p = .ok m →
    P { dirs with placements := m, pendingPlacements := dirs.pendingPlacements ++ [⟨rid, p⟩] }

variable {placed : ReplicaId → Placement → Prop} {P : Directories → Prop} {dirs : Directories}

theorem Kept.place (h : Kept placed P) {rid : ReplicaId} {placement : Nat → Placement}
    (hplaced : ∀ g, placed rid (placement g)) (hP : P dirs) :
    P (Storage.place dirs rid placement).1 := by
  have hnext : P { dirs with nextPlacementGeneration := dirs.nextPlacementGeneration + 1 } :=
    h.allocated hP ⟨rfl, rfl, rfl, rfl, rfl, rfl⟩ ⟨le_rfl, le_rfl, Nat.le_succ _⟩
  simp only [Storage.place]
  split
  · exact hnext
  · rename_i m hm
    exact h.placement hnext (hplaced _) hm

theorem Kept.placeAnchors (h : Kept placed P) (anchors : List (ReplicaId × Anchor))
    (hplaced : ∀ ra ∈ anchors, ∀ g,
      placed ra.1 (.segment ⟨ra.2.segmentId, ra.2.blockId, ra.2.entryOffset, g⟩))
    (hP : P dirs) : P (Storage.placeAnchors dirs anchors).1 := by
  induction anchors generalizing dirs with
  | nil => exact hP
  | cons ra anchors ih =>
    rw [List.forall_mem_cons] at hplaced
    have hplace := h.place hplaced.1 hP
    rw [Storage.placeAnchors]
    split
    · rename_i heq
      rwa [heq] at hplace
    · rename_i heq
      rw [heq] at hplace
      exact ih hplaced.2 hplace

section

variable (h : Kept placed P) (hmemtable : ∀ rid g, placed rid (.memtable g))

include h hmemtable

theorem Kept.applyCreate (oid : ObjectId) (lid : LogicalId) (rid : ReplicaId) (pgen : U64)
    (hP : P dirs) : P (Storage.applyCreate dirs oid lid rid pgen).1 := by
  simp only [Storage.applyCreate]
  split
  · exact hP
  · rename_i hidentity
    have hP := h.identity hP hidentity
    split
    · exact hP
    · rename_i hreplica
      have hP := h.replica hP hreplica
      split
      · exact hP
      · rename_i hplacement
        exact h.placement hP (hmemtable _ _) hplacement

theorem Kept.gate (grouped : Bool) (op : Op) (hP : P dirs) :
    P (Storage.gate grouped dirs op).1 := by
  cases op with
  | put k v => exact hP
  | delete k => exact hP
  | putObject rid k v => exact h.place (hmemtable rid) hP
  | deleteObject rid k => exact h.place (hmemtable rid) hP
  | createObject oid lid rid pgen =>
    refine h.applyCreate hmemtable oid lid rid pgen ?_
    split
    · exact h.allocated hP ⟨rfl, rfl, rfl, rfl, rfl, rfl⟩
        ⟨le_max_left _ _, le_max_left _ _, le_max_left _ _⟩
    · exact hP

theorem Kept.gates (grouped : Bool) (ops : List Op) (hP : P dirs) :
    P (Storage.gates grouped dirs ops).1 := by
  induction ops generalizing dirs with
  | nil => exact hP
  | cons op ops ih =>
    have hop := h.gate hmemtable grouped op hP
    rw [Storage.gates]
    split
    · rename_i heq
      rwa [heq] at hop
    · rename_i heq
      rw [heq] at hop
      exact ih hop

theorem Kept.gatesAll (grouped : Bool) (frames : List WalFrame) (hP : P dirs) :
    P (Storage.gatesAll grouped dirs frames) := by
  induction frames generalizing dirs with
  | nil => exact hP
  | cons f frames ih => exact ih (h.gates hmemtable grouped f.ops hP)

theorem Kept.replayGate (op : Op) (hP : P dirs) : P (Storage.replayGate dirs op).1 := by
  have hmove : ∀ rid, P (replayObjectPlacement dirs rid).1 := by
    intro rid
    unfold replayObjectPlacement
    split
    · exact hP
    · exact h.place (hmemtable rid) hP
  cases op with
  | put k v => exact hP
  | delete k => exact hP
  | putObject rid k v => exact hmove rid
  | deleteObject rid k => exact hmove rid
  | createObject oid lid rid pgen => exact h.applyCreate hmemtable oid lid rid pgen hP

end

end Aikoql.Storage
