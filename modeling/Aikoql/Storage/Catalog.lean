import Aikoql.Storage.Anchors
import Aikoql.Storage.CompactSteps

/-!
# What the Directory Files Hold

The directory logs and checkpoints of a database, from one publication to the next.

A family's authoritative records are those of the newest checkpoint followed by those
of the logs behind it. A publication appends what the family owes, and a checkpoint
replaces everything by the map itself, so in both cases merging the authoritative
records yields the map in memory. All of this needs that no file is ahead of the
current generation: the next publication would make it authoritative.

## Theorems

* `authoritative_publish`: A publication appends to the authoritative records.
-/

namespace Aikoql.Storage

open List Std.ExtTreeMap Option

variable (disk : Disk) {g : Nat}
variable {identities : List IdentityRecord} {replicas : List ReplicaRecord}
  {placements : List PlacementRecord}

/-! ## One family -/

section

variable {α : Type}

/-- The records of a family that count at a generation, given the checkpoint they
    start from. -/
def authoritative (logs : DeltaLogs α) (base : Option (Nat × List α)) (current : Nat) : List α :=
  match base with
  | none => logs.records 0 current
  | some (g, records) => records ++ logs.records g current

/-- The logs after a publication: there is a new one if the family owes anything. -/
def DeltaLogs.publish (logs : DeltaLogs α) (g : Nat) (pending : List α) : DeltaLogs α :=
  if pending.isEmpty then logs else logs.insert g pending

theorem mem_keys_publish {logs : DeltaLogs α} {g' : Nat} {pending : List α}
    (h : g' ∈ (logs.publish g pending).keys) : g' = g ∨ g' ∈ logs.keys := by
  unfold DeltaLogs.publish at h
  split at h
  · exact .inr h
  · rw [Std.ExtTreeMap.mem_keys, mem_insert] at h
    rcases h with h | h
    · exact .inl (Std.LawfulEqCmp.eq_of_compare h).symm
    · exact .inr (Std.ExtTreeMap.mem_keys.mpr h)

theorem keys_eq_map_fst (logs : DeltaLogs α) : logs.keys = logs.toList.map Prod.fst :=
  map_fst_toList_eq_keys.symm

theorem keys_insert_last (logs : DeltaLogs α) (g : Nat) (records : List α)
    (h : ∀ g' ∈ logs.keys, g' < g) : (logs.insert g records).keys = logs.keys ++ [g] := by
  have hlast := toList_insert_last logs g records fun p hp =>
    h p.1 (keys_eq_map_fst logs ▸ List.mem_map_of_mem hp)
  rw [keys_eq_map_fst, keys_eq_map_fst, hlast, map_append]
  rfl

theorem records_succ (logs : DeltaLogs α) (after current : Nat) (h : ∀ g ∈ logs.keys, g ≤ current) :
    logs.records after (current + 1) = logs.records after current := by
  have hgens : logs.generations after (current + 1) = logs.generations after current := by
    refine filter_congr fun g hg => ?_
    have := h g hg
    simp only [decide_eq_decide]
    omega
  rw [DeltaLogs.records, hgens, DeltaLogs.records]

theorem records_publish (logs : DeltaLogs α) (after current : Nat) (pending : List α)
    (h : ∀ g ∈ logs.keys, g ≤ current) (hafter : after ≤ current) :
    (logs.publish (current + 1) pending).records after (current + 1)
      = logs.records after current ++ pending := by
  unfold DeltaLogs.publish
  cases pending with
  | nil => simpa using records_succ logs after current h
  | cons r rest =>
    have hkeys := keys_insert_last logs (current + 1) (r :: rest) fun g hg =>
      Nat.lt_succ_of_le (h g hg)
    have hold : (logs.keys.filter fun g => after < g ∧ g ≤ current + 1)
        = logs.generations after current := by
      refine filter_congr fun g hg => ?_
      have := h g hg
      simp only [decide_eq_decide]
      omega
    have hnew : ([current + 1].filter fun g => after < g ∧ g ≤ current + 1) = [current + 1] := by
      simp only [filter_cons, filter_nil]
      rw [if_pos (by simp; omega)]
    rw [if_neg (by simp), DeltaLogs.records, DeltaLogs.generations, hkeys, filter_append,
      flatMap_append, hold, hnew, DeltaLogs.records]
    congr 1
    · refine flatMap_congr fun g hg => ?_
      have hmem : g ∈ logs.keys := (List.mem_filter.mp hg).1
      have hlt := h g hmem
      rw [getElem?_insert_eq, if_neg (by omega)]
    · simp

theorem authoritative_publish (logs : DeltaLogs α) (base : Option (Nat × List α)) (current : Nat)
    (pending : List α) (h : ∀ g ∈ logs.keys, g ≤ current)
    (hbase : ∀ b ∈ base, b.1 ≤ current) :
    authoritative (logs.publish (current + 1) pending) base (current + 1)
      = authoritative logs base current ++ pending := by
  cases base with
  | none => exact records_publish logs 0 current pending h (Nat.zero_le _)
  | some b =>
    simp only [authoritative]
    rw [records_publish logs b.1 current pending h (hbase b rfl), append_assoc]

theorem authoritative_checkpoint (logs : DeltaLogs α) (g : Nat) (records : List α) :
    authoritative logs (some (g, records)) g = records := by
  have hnil : logs.generations g g = [] := by
    refine filter_eq_nil_iff.mpr fun g' _ => ?_
    simp only [decide_eq_true_eq]
    omega
  rw [authoritative, DeltaLogs.records, hnil]
  simp

end

/-! ## Checkpoints -/

theorem getLast?_of_max {l : List Nat} (hsorted : l.Pairwise (· < ·)) (hmem : g ∈ l)
    (hmax : ∀ x ∈ l, x ≤ g) : l.getLast? = some g := by
  rcases eq_nil_or_concat l with rfl | ⟨init, last, rfl⟩
  · cases hmem
  · rw [concat_eq_append] at hsorted hmem hmax ⊢
    have hlast := hmax last (by simp)
    rcases mem_append.mp hmem with hmem | hmem
    · have := (pairwise_append.mp hsorted).2.2 g hmem last (by simp)
      omega
    · simp [mem_singleton.mp hmem]

theorem sorted_keys {V : Type} (m : Std.ExtTreeMap Nat V) : m.keys.Pairwise (· < ·) := by
  rw [← map_fst_toList_eq_keys, pairwise_map]
  exact ordered_keys_toList.imp fun hab => Nat.compare_eq_lt.mp hab

theorem loadNewest_succ (checkpoints : Std.ExtTreeMap Nat DirectoryCheckpoint) (current : Nat)
    (h : ∀ g ∈ checkpoints.keys, g ≤ current) :
    loadNewest checkpoints (current + 1) = loadNewest checkpoints current := by
  have hkeys : (checkpoints.keys.filter fun g => g ≤ current + 1)
      = checkpoints.keys.filter fun g => g ≤ current := by
    refine filter_congr fun g hg => ?_
    have := h g hg
    simp only [decide_eq_decide]
    omega
  rw [loadNewest, hkeys, loadNewest]

theorem loadNewest_current {checkpoints : Std.ExtTreeMap Nat DirectoryCheckpoint}
    {c : DirectoryCheckpoint} (hget : checkpoints[g]? = some c)
    (h : ∀ g' ∈ checkpoints.keys, g' ≤ g) : loadNewest checkpoints g = some c := by
  have hall : (checkpoints.keys.filter fun g' => g' ≤ g) = checkpoints.keys :=
    filter_eq_self.mpr fun g' hg' => by simpa using h g' hg'
  have hmem : g ∈ checkpoints.keys := by
    rw [Std.ExtTreeMap.mem_keys, mem_iff_isSome_getElem?, hget]
    rfl
  rw [loadNewest, hall, getLast?_of_max (sorted_keys checkpoints) hmem h, bind_some, hget]

theorem loadNewest_mem {checkpoints : Std.ExtTreeMap Nat DirectoryCheckpoint} {current : Nat}
    {c : DirectoryCheckpoint} (h : loadNewest checkpoints current = some c) :
    ∃ g ≤ current, checkpoints[g]? = some c := by
  rcases bind_eq_some_iff.mp h with ⟨g, hg, hc⟩
  have hmem := mem_of_getLast? hg
  exact ⟨g, by simpa using (List.mem_filter.mp hmem).2, hc⟩

/-- No directory file is ahead of a generation, and checkpoints are named by theirs. -/
structure FilesUpTo (g : Nat) (disk : Disk) : Prop where
  identity : ∀ g' ∈ disk.identityLogs.keys, g' ≤ g
  replica : ∀ g' ∈ disk.replicaLogs.keys, g' ≤ g
  placement : ∀ g' ∈ disk.placementLogs.keys, g' ≤ g
  checkpoints : ∀ g' ∈ disk.checkpoints.keys, g' ≤ g
  named : ∀ (g' : Nat) (c : DirectoryCheckpoint), disk.checkpoints[g']? = some c → c.generation = g'

def baseOf {α : Type} (disk : Disk) (current : Nat) (records : DirectoryCheckpoint → List α) :
    Option (Nat × List α) :=
  (loadNewest disk.checkpoints current).map fun c => (c.generation, records c)

theorem identityRecords_eq (current : Nat) :
    identityRecords disk current = authoritative disk.identityLogs
      (baseOf disk current DirectoryCheckpoint.identities) current := by
  unfold identityRecords baseOf
  cases loadNewest disk.checkpoints current <;> rfl

theorem replicaRecords_eq (current : Nat) :
    replicaRecords disk current = authoritative disk.replicaLogs
      (baseOf disk current DirectoryCheckpoint.replicas) current := by
  unfold replicaRecords baseOf
  cases loadNewest disk.checkpoints current <;> rfl

theorem placementRecords_eq (current : Nat) :
    placementRecords disk current = authoritative disk.placementLogs
      (baseOf disk current DirectoryCheckpoint.placements) current := by
  unfold placementRecords baseOf
  cases loadNewest disk.checkpoints current <;> rfl

theorem FilesUpTo.base_le {disk : Disk} (h : FilesUpTo g disk) {α : Type}
    {records : DirectoryCheckpoint → List α} : ∀ b ∈ baseOf disk g records, b.1 ≤ g := by
  intro b hb
  rcases map_eq_some_iff.mp hb with ⟨c, hc, rfl⟩
  rcases loadNewest_mem hc with ⟨g', hle, hget⟩
  simp only [h.named g' c hget, hle]

/-! ## Publications -/

/-- The directory files after a publication of owed records. -/
structure LoggedDirs (g : Nat) (identities : List IdentityRecord) (replicas : List ReplicaRecord)
    (placements : List PlacementRecord) (disk disk' : Disk) : Prop where
  identity : disk'.identityLogs = disk.identityLogs.publish g identities
  replica : disk'.replicaLogs = disk.replicaLogs.publish g replicas
  placement : disk'.placementLogs = disk.placementLogs.publish g placements
  checkpoints : disk'.checkpoints = disk.checkpoints

/-- A publication keeps files up to its generation, and appends to the records that
    count. -/
theorem LoggedDirs.records {disk disk' : Disk}
    (h : LoggedDirs (g + 1) identities replicas placements disk disk') (hfiles : FilesUpTo g disk) :
    FilesUpTo (g + 1) disk' ∧ identityRecords disk' (g + 1) = identityRecords disk g ++ identities ∧
      replicaRecords disk' (g + 1) = replicaRecords disk g ++ replicas ∧
      placementRecords disk' (g + 1) = placementRecords disk g ++ placements := by
  have hbase : ∀ {α : Type} (records : DirectoryCheckpoint → List α),
      baseOf disk' (g + 1) records = baseOf disk g records := by
    intro α records
    rw [baseOf, baseOf, h.checkpoints, loadNewest_succ _ _ hfiles.checkpoints]
  have hkeys : ∀ {α : Type} {logs : DeltaLogs α} {pending : List α},
      (∀ g' ∈ logs.keys, g' ≤ g) → ∀ g' ∈ (logs.publish (g + 1) pending).keys, g' ≤ g + 1 := by
    intro α logs pending hle g' hg'
    rcases mem_keys_publish hg' with rfl | hmem
    · exact le_rfl
    · exact Nat.le_succ_of_le (hle g' hmem)
  refine ⟨⟨?_, ?_, ?_, ?_, ?_⟩, ?_, ?_, ?_⟩
  · exact h.identity ▸ hkeys hfiles.identity
  · exact h.replica ▸ hkeys hfiles.replica
  · exact h.placement ▸ hkeys hfiles.placement
  · exact h.checkpoints ▸ fun g' hg' => Nat.le_succ_of_le (hfiles.checkpoints g' hg')
  · exact h.checkpoints ▸ hfiles.named
  · rw [identityRecords_eq, identityRecords_eq, hbase, h.identity,
      authoritative_publish _ _ _ _ hfiles.identity hfiles.base_le]
  · rw [replicaRecords_eq, replicaRecords_eq, hbase, h.replica,
      authoritative_publish _ _ _ _ hfiles.replica hfiles.base_le]
  · rw [placementRecords_eq, placementRecords_eq, hbase, h.placement,
      authoritative_publish _ _ _ _ hfiles.placement hfiles.base_le]

/-- A file operation that leaves the directory files alone. -/
def FileOp.keepsDirs : FileOp → Bool
  | .identityLog _ _ => false
  | .replicaLog _ _ => false
  | .placementLog _ _ => false
  | .checkpoint _ => false
  | .prune _ _ => false
  | _ => true

/-- Two disks with the same directory files. -/
structure SameDirs (disk disk' : Disk) : Prop where
  identity : disk'.identityLogs = disk.identityLogs
  replica : disk'.replicaLogs = disk.replicaLogs
  placement : disk'.placementLogs = disk.placementLogs
  checkpoints : disk'.checkpoints = disk.checkpoints

theorem SameDirs.refl : SameDirs disk disk :=
  ⟨rfl, rfl, rfl, rfl⟩

theorem SameDirs.trans {a b c : Disk} (hab : SameDirs a b) (hbc : SameDirs b c) : SameDirs a c :=
  ⟨hbc.identity.trans hab.identity, hbc.replica.trans hab.replica,
    hbc.placement.trans hab.placement, hbc.checkpoints.trans hab.checkpoints⟩

theorem SameDirs.logged {a b c : Disk} (h : LoggedDirs g identities replicas placements a b)
    (hbc : SameDirs b c) :
    LoggedDirs g identities replicas placements a c :=
  ⟨hbc.identity.trans h.identity, hbc.replica.trans h.replica,
    hbc.placement.trans h.placement, hbc.checkpoints.trans h.checkpoints⟩

theorem sameDirs_applyAll (ops : List FileOp) (h : ∀ op ∈ ops, op.keepsDirs = true) :
    SameDirs disk (disk.applyAll ops) := by
  refine List.foldlRecOn ops Disk.apply (SameDirs.refl disk) fun d hd op hop => hd.trans ?_
  have hkeep := h op hop
  cases op <;> first | exact ⟨rfl, rfl, rfl, rfl⟩ | cases hkeep

theorem logOps_logged (g : Nat) (dirs : Directories) :
    LoggedDirs g dirs.pendingIdentity dirs.pendingReplicas dirs.pendingPlacements disk
      (disk.applyAll (logOps g dirs)) := by
  obtain ⟨identity, replicas, placements, pi, pr, pp, nl, nr, np⟩ := dirs
  cases pi <;> cases pr <;> cases pp <;> exact ⟨rfl, rfl, rfl, rfl⟩

theorem flushOps_logged {H : Sha256} {cfg : Config} (st : State) (build : FlushBuild)
    (dirs : Directories) {covered : Bytes} {archive : List FileOp}
    (harchive : archiveOps H cfg covered = .ok archive) (tail : Bytes) :
    LoggedDirs (st.generation + 1) dirs.pendingIdentity dirs.pendingReplicas dirs.pendingPlacements
      disk (disk.applyAll (flushOps H st build dirs archive tail)) := by
  rw [flushOps, commitOps, append_assoc, Disk.applyAll_append]
  refine SameDirs.logged (logOps_logged disk _ dirs) (sameDirs_applyAll _ _ ?_)
  simp only [forall_mem_append]
  exact ⟨by simp [FileOp.keepsDirs], forall_archiveOps harchive fun _ _ => rfl,
    forall_truncateOps tail rfl rfl rfl⟩

theorem compactOps_logged (H : Sha256) (disk : Disk) (st : State) (out : MergeOutput)
    (records : List PlacementRecord) :
    LoggedDirs (st.generation + 1) [] [] records disk (disk.applyAll (compactOps H st out records)) := by
  have hmerged : SameDirs disk (disk.applyAll (mergedOps st out)) := by
    refine sameDirs_applyAll _ _ ?_
    simp only [mergedOps, forall_mem_append, List.forall_mem_map]
    exact ⟨fun _ _ => rfl, fun _ _ => rfl⟩
  rw [compactOps, Disk.applyAll_append, Disk.applyAll_append]
  refine SameDirs.logged ?_ (sameDirs_applyAll _ _ fun op hop => ?_)
  · cases records with
    | nil => exact ⟨hmerged.identity, hmerged.replica, hmerged.placement, hmerged.checkpoints⟩
    | cons r records =>
      refine ⟨hmerged.identity, hmerged.replica, ?_, hmerged.checkpoints⟩
      exact congrArg (fun logs => logs.insert (st.generation + 1) (r :: records)) hmerged.placement
  · simp only [publishOps, mem_cons, not_mem_nil, or_false] at hop
    rcases hop with rfl | rfl <;> rfl

theorem mem_keys_of_filter {V : Type} {m : Std.ExtTreeMap Nat V} {p : Nat → V → Bool}
    (h : g ∈ (m.filter p).keys) : g ∈ m.keys := by
  rw [Std.ExtTreeMap.mem_keys] at h ⊢
  exact Std.ExtTreeMap.mem_of_mem_filter h

theorem applyAll_checkpointOps (st : State) (ckp : Option (List DirectoryFile)) (n : Nat) :
    let disk' := disk.applyAll ((checkpointOps st ckp).take n)
    disk' = disk ∨ disk' = disk.apply (.checkpoint (checkpointOf st)) ∨
      ∃ kept, disk' = (disk.apply (.checkpoint (checkpointOf st))).apply
        (.prune st.generation kept) := by
  cases ckp with
  | none => exact .inl (by simp [checkpointOps])
  | some kept =>
    rcases n with _ | _ | _ | n
    · exact .inl rfl
    · exact .inr (.inl rfl)
    · exact .inr (.inl rfl)
    · exact .inr (.inr ⟨kept, by simp [checkpointOps]; rfl⟩)

theorem checkpointOps_records (st : State) (ckp : Option (List DirectoryFile)) (n : Nat)
    {disk : Disk} (hfiles : FilesUpTo st.generation disk) :
    let disk' := disk.applyAll ((checkpointOps st ckp).take n)
    FilesUpTo st.generation disk' ∧
      ((identityRecords disk' st.generation = identityRecords disk st.generation ∧
          replicaRecords disk' st.generation = replicaRecords disk st.generation ∧
          placementRecords disk' st.generation = placementRecords disk st.generation) ∨
        (identityRecords disk' st.generation = (checkpointOf st).identities ∧
          replicaRecords disk' st.generation = (checkpointOf st).replicas ∧
          placementRecords disk' st.generation = (checkpointOf st).placements)) := by
  intro disk'
  -- Once the checkpoint is there it is the one that is loaded.
  have hloaded : ∀ d : Disk, FilesUpTo st.generation d →
      d.checkpoints[st.generation]? = some (checkpointOf st) →
      identityRecords d st.generation = (checkpointOf st).identities ∧
        replicaRecords d st.generation = (checkpointOf st).replicas ∧
        placementRecords d st.generation = (checkpointOf st).placements := by
    intro d hd hget
    have hload := loadNewest_current hget hd.checkpoints
    rw [identityRecords_eq, replicaRecords_eq, placementRecords_eq]
    simp only [baseOf, hload, map_some]
    exact ⟨authoritative_checkpoint _ _ _, authoritative_checkpoint _ _ _,
      authoritative_checkpoint _ _ _⟩
  have hwritten : FilesUpTo st.generation (disk.apply (.checkpoint (checkpointOf st))) := by
    refine ⟨hfiles.identity, hfiles.replica, hfiles.placement, fun g hg => ?_, fun g c hc => ?_⟩
    · simp only [Disk.apply, Std.ExtTreeMap.mem_keys, mem_insert] at hg
      rcases hg with hg | hg
      · exact (Std.LawfulEqCmp.eq_of_compare hg).symm.le
      · exact hfiles.checkpoints g (Std.ExtTreeMap.mem_keys.mpr hg)
    · rcases getElem?_insert_cases hc with ⟨hg, rfl⟩ | ⟨-, hc⟩
      · exact hg
      · exact hfiles.named g c hc
  have hget : (disk.apply (.checkpoint (checkpointOf st))).checkpoints[st.generation]?
      = some (checkpointOf st) := by
    simp [Disk.apply, checkpointOf]
  rcases applyAll_checkpointOps disk st ckp n with hd | hd | ⟨kept, hd⟩
  · rw [show disk' = disk from hd]
    exact ⟨hfiles, .inl ⟨rfl, rfl, rfl⟩⟩
  · rw [show disk' = disk.apply _ from hd]
    exact ⟨hwritten, .inr (hloaded _ hwritten hget)⟩
  · have hup : FilesUpTo st.generation disk' := by
      rw [show disk' = (disk.apply _).apply _ from hd]
      refine ⟨fun g hg => hwritten.identity g (mem_keys_of_filter hg),
        fun g hg => hwritten.replica g (mem_keys_of_filter hg),
        fun g hg => hwritten.placement g (mem_keys_of_filter hg),
        fun g hg => hwritten.checkpoints g (mem_keys_of_filter hg), fun g c hc => ?_⟩
      change ((disk.apply (.checkpoint (checkpointOf st))).checkpoints.filter _)[g]? = some c at hc
      rw [getElem?_filter', filter_eq_some_iff] at hc
      exact hwritten.named g c hc.1
    refine ⟨hup, .inr (hloaded _ hup ?_)⟩
    rw [show disk' = (disk.apply _).apply _ from hd]
    change ((disk.apply (.checkpoint (checkpointOf st))).checkpoints.filter _)[st.generation]? = _
    rw [getElem?_filter', hget, filter_some_pos (by simp)]

end Aikoql.Storage
