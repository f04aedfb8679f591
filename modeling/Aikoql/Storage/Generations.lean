import Aikoql.Storage.FlushSteps

/-!
# Placement Generations

The allocator of placement generations is ahead of every placement.

A placement under a fresh generation is newer than the one it replaces, so the
gate accepts it, and a flush or an object write is never refused. A create
carries a generation of its own. A write allocates past it. A group commit does
not, so a group keeps the allocator ahead only if the creates in it carry
generations that were drawn.
-/

namespace Aikoql.Storage

open List

variable {dirs : Directories} {placements : PlacementMap} {grouped : Bool} {bound : Nat}

def PlacementsBelow (bound : Nat) (placements : PlacementMap) : Prop :=
  ∀ (rid : ReplicaId) (p : Placement), placements[rid]? = some p → p.generation < bound

/-- Every placement is below a bound, and so is every one that is owed. -/
structure Directories.BelowBound (dirs : Directories) (bound : Nat) : Prop where
  placements : PlacementsBelow bound dirs.placements
  pending : ∀ r ∈ dirs.pendingPlacements, r.placement.generation < bound

def Directories.Below (dirs : Directories) : Prop :=
  dirs.BelowBound dirs.nextPlacementGeneration

theorem Directories.BelowBound.mono {bound' : Nat} (h : dirs.BelowBound bound)
    (hle : bound ≤ bound') : dirs.BelowBound bound' :=
  ⟨fun rid p hp => (h.placements rid p hp).trans_le hle, fun r hr => (h.pending r hr).trans_le hle⟩

def Drawn (dirs : Directories) : Op → Prop
  | .createObject _ _ _ pgen => pgen.val < dirs.nextPlacementGeneration
  | _ => True

theorem mergePlacement_below {placements' : PlacementMap} {rid : ReplicaId} {p : Placement}
    (h : PlacementsBelow bound placements) (hp : p.generation < bound)
    (hmerge : mergePlacement placements rid p = .ok placements') :
    PlacementsBelow bound placements' := by
  rcases putNewer_ok hmerge with ⟨_, rfl⟩ | ⟨_, rfl⟩
  · exact h
  · intro rid' p' hget
    rcases getElem?_insert_cases hget with ⟨-, rfl⟩ | ⟨-, hget⟩
    · exact hp
    · exact h rid' p' hget

theorem mergePlacement_newer {rid : ReplicaId} {p : Placement}
    (h : ∀ q, placements[rid]? = some q → q.generation < p.generation) :
    mergePlacement placements rid p = .ok (placements.insert rid p) := by
  unfold mergePlacement putNewer
  cases hq : placements[rid]? with
  | none => rfl
  | some q =>
    have hlt := h q hq
    have hne : q ≠ p := fun heq => absurd (congrArg Placement.generation heq) hlt.ne
    simp [hne, hlt, hlt.le]

theorem place_eq (h : dirs.Below) (rid : ReplicaId) (placed : Nat → Placement)
    (hgen : ∀ n, (placed n).generation = n) : place dirs rid placed = ({ dirs with
            nextPlacementGeneration := dirs.nextPlacementGeneration + 1
            placements := dirs.placements.insert rid (placed dirs.nextPlacementGeneration)
            pendingPlacements :=
              dirs.pendingPlacements ++ [⟨rid, placed dirs.nextPlacementGeneration⟩] }, none) := by
  have hmerge : mergePlacement dirs.placements rid (placed dirs.nextPlacementGeneration)
      = .ok (dirs.placements.insert rid (placed dirs.nextPlacementGeneration)) :=
    mergePlacement_newer fun q hq => (h.placements rid q hq).trans_eq (hgen _).symm
  simp only [place, hmerge]

theorem place_below (h : dirs.Below) (rid : ReplicaId) (placed : Nat → Placement)
    (hgen : ∀ n, (placed n).generation = n) : (place dirs rid placed).1.Below ∧
      dirs.nextPlacementGeneration ≤ (place dirs rid placed).1.nextPlacementGeneration := by
  rw [place_eq h rid placed hgen]
  refine ⟨⟨fun rid' p hget => ?_, fun r hr => ?_⟩, Nat.le_succ _⟩
  · rcases getElem?_insert_cases hget with ⟨-, rfl⟩ | ⟨-, hget⟩
    · rw [hgen]
      exact Nat.lt_succ_self _
    · exact (h.placements rid' p hget).trans (Nat.lt_succ_self _)
  · rcases mem_append.mp hr with hr | hr
    · exact (h.pending r hr).trans (Nat.lt_succ_self _)
    · rw [mem_singleton.mp hr, hgen]
      exact Nat.lt_succ_self _

/-! ## Writes -/

theorem applyCreate_below (h : dirs.Below) (oid : ObjectId) (lid : LogicalId) (rid : ReplicaId)
    (pgen : U64) (hpgen : pgen.val < dirs.nextPlacementGeneration) :
    (applyCreate dirs oid lid rid pgen).1.Below ∧
      (applyCreate dirs oid lid rid pgen).1.nextPlacementGeneration
        = dirs.nextPlacementGeneration := by
  unfold applyCreate
  cases mergeIdentity dirs.identity oid lid with
  | error e => exact ⟨h, rfl⟩
  | ok identity =>
    simp only
    cases mergeReplica dirs.replicas lid localNodeId rid with
    | error e => exact ⟨⟨h.placements, h.pending⟩, rfl⟩
    | ok replicas =>
      simp only
      cases hmerge : mergePlacement dirs.placements rid (.memtable pgen.val) with
      | error e => exact ⟨⟨h.placements, h.pending⟩, rfl⟩
      | ok placements =>
        have hbelow : PlacementsBelow dirs.nextPlacementGeneration placements :=
          mergePlacement_below h.placements (p := .memtable pgen.val) hpgen hmerge
        exact ⟨⟨hbelow, forall_mem_append.mpr ⟨h.pending, forall_mem_singleton.mpr hpgen⟩⟩, rfl⟩

theorem gate_below (h : dirs.Below) (op : Op) (hop : grouped = true → Drawn dirs op) :
    (gate grouped dirs op).1.Below ∧
      dirs.nextPlacementGeneration ≤ (gate grouped dirs op).1.nextPlacementGeneration := by
  cases op with
  | put | delete => exact ⟨h, le_rfl⟩
  | putObject rid k v => exact place_below h rid .memtable fun _ => rfl
  | deleteObject rid k => exact place_below h rid .memtable fun _ => rfl
  | createObject oid lid rid pgen =>
    simp only [gate]
    split
    · -- The write allocates past the generation of the create first.
      have hbelow : (allocatePast dirs lid rid pgen).Below :=
        ⟨(h.mono (le_max_left _ _)).placements, (h.mono (le_max_left _ _)).pending⟩
      have hcreate := applyCreate_below hbelow oid lid rid pgen
        (Nat.lt_of_lt_of_le (Nat.lt_succ_self _) (le_max_right _ _))
      exact ⟨hcreate.1, hcreate.2 ▸ le_max_left _ _⟩
    · rename_i halloc
      cases grouped with
      | true =>
        have hcreate := applyCreate_below h oid lid rid pgen (hop rfl)
        exact ⟨hcreate.1, hcreate.2.ge⟩
      | false =>
        -- The identity is refused, and nothing changes.
        cases hid : mergeIdentity dirs.identity oid lid with
        | error e =>
          rw [applyCreate, hid]
          exact ⟨h, le_rfl⟩
        | ok identity =>
          rw [hid] at halloc
          exact absurd rfl halloc

theorem Drawn.mono {dirs' : Directories} {op : Op} (h : Drawn dirs op)
    (hle : dirs.nextPlacementGeneration ≤ dirs'.nextPlacementGeneration) : Drawn dirs' op := by
  cases op with
  | createObject oid lid rid pgen => exact Nat.lt_of_lt_of_le h hle
  | _ => trivial

theorem gates_below (ops : List Op) (h : dirs.Below)
    (hops : grouped = true → ∀ op ∈ ops, Drawn dirs op) : (gates grouped dirs ops).1.Below ∧
      dirs.nextPlacementGeneration ≤ (gates grouped dirs ops).1.nextPlacementGeneration := by
  induction ops generalizing dirs with
  | nil => exact ⟨h, le_rfl⟩
  | cons op ops ih =>
    have hop := gate_below h op fun hg => hops hg op mem_cons_self
    rw [gates]
    cases hgate : gate grouped dirs op with
    | mk dirs' refused =>
      rw [hgate] at hop
      cases refused with
      | some e => exact hop
      | none =>
        have hrest := ih hop.1 fun hg op' hop' =>
          (hops hg op' (mem_cons_of_mem op hop')).mono hop.2
        exact ⟨hrest.1, hop.2.trans hrest.2⟩

theorem gatesAll_below (frames : List WalFrame) (h : dirs.Below)
    (hops : grouped = true → ∀ f ∈ frames, ∀ op ∈ f.ops, Drawn dirs op) :
    (gatesAll grouped dirs frames).Below ∧
      dirs.nextPlacementGeneration ≤ (gatesAll grouped dirs frames).nextPlacementGeneration := by
  induction frames generalizing dirs with
  | nil => exact ⟨h, le_rfl⟩
  | cons f frames ih =>
    have hf := gates_below f.ops h fun hg => hops hg f mem_cons_self
    have hrest := ih hf.1 fun hg f' hf' op hop =>
      (hops hg f' (mem_cons_of_mem f hf') op hop).mono hf.2
    exact ⟨hrest.1, hf.2.trans hrest.2⟩

/-! ## Flushes and compactions -/

theorem placeAnchors_below (anchors : List (ReplicaId × Anchor)) (h : dirs.Below) :
    (placeAnchors dirs anchors).2 = none ∧ (placeAnchors dirs anchors).1.Below ∧
      dirs.nextPlacementGeneration ≤ (placeAnchors dirs anchors).1.nextPlacementGeneration := by
  induction anchors generalizing dirs with
  | nil => exact ⟨rfl, h, le_rfl⟩
  | cons ra anchors ih =>
    obtain ⟨rid, a⟩ := ra
    have hplace := place_below h rid
      (fun pgen => .segment ⟨a.segmentId, a.blockId, a.entryOffset, pgen⟩) fun _ => rfl
    rw [placeAnchors]
    rw [place_eq h rid _ fun _ => rfl] at hplace ⊢
    have hrest := ih hplace.1
    exact ⟨hrest.1, hrest.2.1, hplace.2.trans hrest.2.2⟩

theorem relocate_below (relocs : ReplicaId → Option (Option Anchor)) (rids : List ReplicaId)
    (pgen : Nat) :
    pgen ≤ (relocate relocs pgen rids).1 ∧ ∀ moves, (relocate relocs pgen rids).2 = .ok moves →
        ∀ r ∈ moves, pgen ≤ r.placement.generation ∧
          r.placement.generation < (relocate relocs pgen rids).1 := by
  induction rids generalizing pgen with
  | nil =>
    refine ⟨le_rfl, fun moves h r hr => ?_⟩
    cases h
    cases hr
  | cons rid rids ih =>
    rw [relocate]
    cases relocs rid with
    | none => exact ⟨Nat.le_succ _, fun moves h => by cases h⟩
    | some anchor =>
      rcases ih (pgen + 1) with ⟨hle, hrest⟩
      refine ⟨(Nat.le_succ _).trans hle, fun moves h r hr => ?_⟩
      simp only at h
      cases hok : (relocate relocs (pgen + 1) rids).2 with
      | error e =>
        rw [hok] at h
        cases h
      | ok rest =>
        rw [hok] at h
        cases h
        rcases mem_cons.mp hr with rfl | hr
        · have hgen : (relocated anchor pgen).generation = pgen := by
            cases anchor <;> rfl
          rw [hgen]
          exact ⟨le_rfl, hle⟩
        · have := hrest rest hok r hr
          exact ⟨(Nat.le_succ _).trans this.1, this.2⟩

theorem mergeRecords_below (records : List PlacementRecord) (h : PlacementsBelow bound placements)
    (hrecords : ∀ r ∈ records, r.placement.generation < bound) :
    PlacementsBelow bound (mergeRecords placements records).1 := by
  induction records generalizing placements with
  | nil => exact h
  | cons r records ih =>
    rw [mergeRecords]
    cases hmerge : mergePlacement placements r.rid r.placement with
    | error e => exact h
    | ok placements' =>
      exact ih (mergePlacement_below h (hrecords r mem_cons_self) hmerge)
        fun r' hr' => hrecords r' (mem_cons_of_mem r hr')

end Aikoql.Storage
