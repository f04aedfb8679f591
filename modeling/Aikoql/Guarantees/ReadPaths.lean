import Aikoql.Storage.MergeRows

/-!
# Read Paths

Whether the read paths of the storage engine answer alike.
-/

namespace Aikoql.Storage

open List Option

variable {H : Sha256} {s : Segment} {st : State} {keys : List Bytes} {key : Bytes} {p : Nat}

/-! ## Batched reads of a segment -/

theorem getElem?_length_takeWhile {α : Type} (q : α → Bool) (xs : List α) :
    xs[(xs.takeWhile q).length]? = (xs.dropWhile q).head? := by
  induction xs with
  | nil => rfl
  | cons x xs ih =>
    rw [takeWhile_cons, dropWhile_cons]
    split
    · exact ih
    · rfl

theorem Segment.head?_locate (s : Segment) (key : Bytes) :
    (s.locate key).head? = (s.locateBlock key).bind fun i => s.blocks[i]? := by
  have hget := getElem?_length_takeWhile (fun block => decide (lastKey block < key)) s.blocks
  unfold Segment.locate Segment.locateBlock
  dsimp only
  cases hd : s.blocks.dropWhile fun block => decide (lastKey block < key) with
  | nil =>
    rw [hd, head?_nil] at hget
    rw [hget]
    rfl
  | cons block behind =>
    rw [hd, head?_cons] at hget
    rw [hget]
    by_cases hfirst : firstKey block ≤ key
    · simp only [if_pos hfirst, head?_cons, bind_some, hget]
    · simp only [if_neg hfirst, head?_nil, bind_none]

theorem Segment.getMany_eq (s : Segment) (keys : List Bytes) : s.getMany keys = keys.map s.get := by
  refine ext_getElem? fun p => ?_
  cases hkey : keys[p]? with
  | none =>
    have hlen := List.getElem?_eq_none_iff.mp hkey
    rw [getElem?_eq_none (by simpa [Segment.getMany] using hlen),
      getElem?_eq_none (by simpa using hlen)]
  | some key =>
    have hblock : ∀ {block : List SegmentEntry} {i : Nat}, s.blocks[i]? = some block →
        s.locateBlock key = some i → some (s.get key) = some (blockGet block key 0) := by
      intro block i hi hlocate
      rw [Segment.get, Segment.head?_locate, hlocate, bind_some, hi, bind_some]
    rw [Segment.getMany, getElem?_scatter (a := some (s.get key)), getElem?_map, getElem?_map, hkey]
    · split
      · rfl
      · -- No block covers the key.
        rename_i hnone
        rw [map_some, map_some, Segment.get, Segment.head?_locate]
        cases hlocate : s.locateBlock key with
        | none => rfl
        | some i =>
          cases hi : s.blocks[i]? with
          | none => simp [hi]
          | some block =>
            refine absurd ⟨(p, blockGet block key 0), ?_, rfl⟩ hnone
            simp only [mem_flatMap, List.mem_map, mem_filter, Prod.exists, mem_zipIdx_iff_getElem?]
            exact ⟨block, i, hi, key, p, ⟨hkey, by simpa using hlocate⟩, rfl⟩
    · intro row hrow hp
      simp only [mem_flatMap, List.mem_map, mem_filter, Prod.exists,
        mem_zipIdx_iff_getElem?] at hrow
      obtain ⟨block, i, hi, key', p', ⟨hkey', hlocate⟩, rfl⟩ := hrow
      obtain rfl : p' = p := hp
      obtain rfl := Option.some.inj (hkey'.symm.trans hkey)
      exact hblock hi (by simpa using hlocate)

/-! ## Point reads of a segment -/

/-- The first block with rows of a key has none of its byte rows, and a later one does. -/
def Segment.Straddles (s : Segment) (key : Bytes) : Prop :=
  ∃ front block behind, s.blocks = front ++ block :: behind ∧
    (∀ e ∈ front.flatten, e.key ≠ key) ∧ (∃ e ∈ block, e.key = key) ∧
    (∀ e ∈ block, e.key = key → e.replicaId ≠ 0) ∧
    ∃ e ∈ behind.flatten, e.key = key ∧ e.replicaId = 0

/-- An answer is the newest byte row of a key, or there is none and the key has no byte
    rows. -/
def Segment.NewestByte (s : Segment) (key : Bytes) : Option SegmentEntry → Prop
  | some e => e ∈ s.entries ∧ e.key = key ∧ e.replicaId = 0 ∧
      ∀ e' ∈ s.entries, e'.key = key → e'.replicaId = 0 → e'.seq ≤ e.seq
  | none => ∀ e ∈ s.entries, ¬(e.key = key ∧ e.replicaId = 0)

theorem Segment.read_newestByte (h : s.Ok H) (key : Bytes) :
    s.NewestByte key (s.read (key, 0)) := by
  cases hread : s.read (key, 0) with
  | none =>
    intro e he
    simpa using find?_eq_none.mp hread e he
  | some e =>
    rcases Segment.read_max h hread with ⟨⟨hkey, hrid⟩, hmax⟩
    exact ⟨mem_of_find?_eq_some hread, hkey, hrid, hmax⟩

theorem Segment.get_eq_read (h : s.Ok H) (hkey : ¬s.Straddles key) :
    s.get key = s.read (key, 0) := by
  rw [Segment.read_eq_locate h, Segment.get]
  rcases Segment.locate_cases h key with hloc | ⟨hloc, -⟩
  swap
  · rw [hloc]
    rfl
  rw [hloc]
  cases hbehind : s.behind key with
  | nil => rfl
  | cons block behind =>
    rw [head?_cons, bind_some, flatten_cons]
    simp only [blockGet, find?_append]
    cases hfirst : block.find? (fun e => e.key = key ∧ e.replicaId = 0) with
    | some e => rfl
    | none =>
      rw [none_or]
      symm
      rw [find?_eq_none]
      intro e he hp
      obtain ⟨hek, hrid⟩ := of_decide_eq_true hp
      -- The byte row is behind a block that ends with the key, and that has none.
      have hblocks := s.front_append_behind key
      have hsorted := Segment.sorted_behind h key
      have hge := Segment.behind_ge h key
      rw [hbehind] at hblocks hsorted hge
      have hne : block ≠ [] := h.nonempty block (by simp [← hblocks])
      obtain ⟨last, hlast, hlastKey⟩ := lastKey_mem hne
      rw [flatten_cons, pairwise_append] at hsorted
      have hle : lastKey block ≤ key :=
        hlastKey ▸ hek ▸ (hsorted.2.2 last hlast e he).key_le
      refine hkey ⟨s.front key, block, behind, hblocks.symm, ?_, ⟨last, hlast, ?_⟩, ?_, e, he,
        hek, hrid⟩
      · exact fun e' he' => (Segment.front_lt h key e' he').ne
      · exact hlastKey.trans (le_antisymm hle (hge block mem_cons_self))
      · intro e' he' hek' hrid'
        exact find?_eq_none.mp hfirst e' he' (decide_eq_true ⟨hek', hrid'⟩)

/-- The point read of a key that straddles blocks asks the first of them only. -/
theorem Segment.get_straddles (h : s.Ok H) (hkey : s.Straddles key) : s.get key = none := by
  obtain ⟨front, block, behind, hsplit, hfront, ⟨last, hlast, hlastKey⟩, hblock, -⟩ := hkey
  rw [Segment.get]
  rcases Segment.locate_cases h key with hloc | ⟨hloc, -⟩
  swap
  · rw [hloc]
    rfl
  rw [hloc]
  have hblocks := (s.front_append_behind key).trans hsplit
  cases hbehind : s.behind key with
  | nil => rfl
  | cons first rest =>
    rw [hbehind] at hblocks
    refine find?_eq_none.mpr fun e he hp => ?_
    obtain ⟨hek, hrid⟩ := of_decide_eq_true hp
    have hother : first ≠ block := by
      rintro rfl
      exact hblock e he hek hrid
    -- The block that is read is neither in front of the first one with the key nor behind it.
    rcases append_eq_append_iff.mp hblocks with ⟨mid, hmid, hrest⟩ | ⟨mid, hmid, hrest⟩
    · cases mid with
      | nil => exact hother (cons.inj hrest).1
      | cons b mid =>
        obtain ⟨rfl, -⟩ := cons.inj hrest
        exact hfront e (mem_flatten.mpr ⟨first, by simp [hmid], he⟩) hek
    · cases mid with
      | nil => exact hother (cons.inj hrest).1.symm
      | cons b mid =>
        obtain ⟨rfl, -⟩ := cons.inj hrest
        have hlt := Segment.front_lt h key last (mem_flatten.mpr ⟨block, by simp [hmid], hlast⟩)
        exact hlt.ne hlastKey

theorem Segment.newestByte_get_iff (h : s.Ok H) (key : Bytes) :
    s.NewestByte key (s.get key) ↔ ¬s.Straddles key := by
  refine ⟨fun hnew hkey => ?_, fun hkey => ?_⟩
  · rw [Segment.get_straddles h hkey] at hnew
    obtain ⟨front, block, behind, hsplit, -, -, -, e, he, hrow⟩ := hkey
    refine hnew e ?_ hrow
    rw [Segment.entries, hsplit, flatten_append, flatten_cons]
    exact mem_append_right _ (mem_append_right _ he)
  · exact Segment.get_eq_read h hkey ▸ Segment.read_newestByte h key

/-- The point read, the batched read and the scan of a published segment all find the newest
    byte row of a key exactly when the key does not straddle blocks. -/
theorem segment_reads_newest {w : BlockVersion} {target : Nat} {entries : List SegmentEntry}
    {anchors : Std.ExtTreeMap ReplicaId SegmentAnchor}
    (hpub : publishSortedEntries H w target entries = .ok (s, anchors)) :
    (s.NewestByte key (s.get key) ∧ (∀ (keys : List Bytes) (p : Nat), keys[p]? = some key →
        (s.getMany keys)[p]? = some (s.get key)) ∧
      ∀ start stop, start ≤ key → (∀ t ∈ stop, key < t) →
        (s.scanIter start stop).find? (fun e => e.key = key) = s.get key) ↔
    ¬s.Straddles key := by
  simp only [publishSortedEntries, bind_eq_ok, pure_eq_ok] at hpub
  obtain ⟨_, hcheck, heq⟩ := hpub
  obtain ⟨rfl, -⟩ := Prod.mk.inj heq
  -- These paths do not ask for the format, so it may be one with replica ids.
  have hok := layOut_ok H w target entries true (by simp) hcheck
  have hiff := Segment.newestByte_get_iff hok key
  refine ⟨fun h => hiff.mp h.1, fun h => ⟨hiff.mpr h, fun keys p hp => ?_,
    fun start stop hstart hstop => ?_⟩⟩
  · rw [Segment.getMany_eq, getElem?_map, hp, map_some]
  · refine (Segment.find?_scanIter hok start stop key).trans ?_
    rw [if_pos ⟨hstart, hstop⟩]
    exact (Segment.get_eq_read hok h).symm

namespace ReadPaths

def putAt (key : Bytes) (seq : Nat) (rid : ReplicaId) : SegmentEntry :=
  ⟨key, [], seq, flagPut, rid⟩

def objectFirst : List SegmentEntry :=
  [putAt [1] 2 7, putAt [1] 1 0]

def inBlocks (target : Nat) : Segment :=
  layOut Sha256.fips180 newV4 target objectFirst

theorem inBlocks_published : ∃ anchors, publishSortedEntries Sha256.fips180 newV4 100 objectFirst
      = .ok (inBlocks 100, anchors) ∧ (inBlocks 100).get [1] = some (putAt [1] 1 0) ∧
    (inBlocks 100).NewestByte [1] ((inBlocks 100).get [1]) := by
  have hpub : publishSortedEntries Sha256.fips180 newV4 100 objectFirst
      = .ok (inBlocks 100, anchorsOf (inBlocks 100).blocks) := rfl
  have hblocks : (inBlocks 100).blocks = [objectFirst] := by decide +kernel
  refine ⟨_, hpub, by decide +kernel, ((segment_reads_newest hpub).mpr ?_).1⟩
  rintro ⟨front, block, behind, hsplit, -, -, -, e, he, -⟩
  -- There is one block only.
  have hlength := congrArg List.length (hblocks.symm.trans hsplit)
  simp only [length_append, length_cons, length_nil] at hlength
  obtain rfl : behind = [] := length_eq_zero_iff.mp (by omega)
  cases he

/-- If the object row fills a block then point reads and batched reads do not find the
    byte row behind it, and a scan does. -/
theorem get_misses_byte_row : ∃ anchors,
    publishSortedEntries Sha256.fips180 newV4 1 objectFirst = .ok (inBlocks 1, anchors) ∧
      putAt [1] 1 0 ∈ (inBlocks 1).entries ∧ (inBlocks 1).get [1] = none ∧
      (inBlocks 1).getMany [[1]] = [none] ∧
      (inBlocks 1).scanIter [1] none = [putAt [1] 1 0] :=
  ⟨_, rfl, by decide +kernel⟩

end ReadPaths

/-! ## Batched reads of the database -/

theorem probe_eq (H : Sha256) (key : Bytes) (s : Segment) :
    probe H key s = if s.mayHold H key then s.get key else none := by
  unfold probe Segment.mayHold
  by_cases hrange : key < s.keyMin ∨ s.keyMax < key
  · simp [hrange]
  · simp only [hrange, decide_false, Bool.not_false, Bool.true_and, if_false]

theorem batchPass_eq (answers : List (Option Bytes)) {remaining : List (Bytes × Nat)}
    (hkeys : ∀ kp ∈ remaining, keys[kp.2]? = some kp.1) (s : Segment) :
    batchPass H (answers, remaining) s = (scatter answers (remaining.filterMap fun kp =>
          (probe H kp.1 s).map fun e => (kp.2, e.live)),
        remaining.filter fun kp => (probe H kp.1 s).isNone) := by
  have hhits : ((remaining.filter fun kp => s.mayHold H kp.1).zip (s.getMany
      ((remaining.filter fun kp => s.mayHold H kp.1).map Prod.fst))).filterMap
        (fun ke => ke.2.map fun e => (ke.1.2, e.live))
      = remaining.filterMap fun kp => (probe H kp.1 s).map fun e => (kp.2, e.live) := by
    rw [Segment.getMany_eq, List.map_map, ← map_prod_left_eq_zip, filterMap_map, filterMap_filter]
    congr 1
    funext kp
    rw [probe_eq]
    split <;> rfl
  unfold batchPass
  simp only [hhits]
  refine congrArg (Prod.mk _) (filter_congr fun kp hkp => ?_)
  cases hprobe : probe H kp.1 s with
  | none =>
    -- Another key that was found is at another position.
    simp only [isNone_none, Bool.not_eq_true', contains_eq_mem, decide_eq_false_iff_not,
      List.mem_map, mem_filterMap, map_eq_some_iff]
    rintro ⟨_, ⟨kq, hkq, e, he, rfl⟩, hpos⟩
    have hsame := (hkeys kq hkq).symm.trans ((congrArg (keys[·]?) hpos).trans (hkeys kp hkp))
    rw [Option.some.inj hsame, hprobe] at he
    cases he
  | some e =>
    simp only [isNone_some, Bool.not_eq_false', contains_eq_mem, decide_eq_true_eq,
      List.mem_map, mem_filterMap, map_eq_some_iff]
    exact ⟨(kp.2, e.live), ⟨kp, hkp, e, hprobe, rfl⟩, rfl⟩

theorem getElem?_batchPasses (segs : List Segment) {answers : List (Option Bytes)}
    {remaining : List (Bytes × Nat)} (hkeys : ∀ kp ∈ remaining, keys[kp.2]? = some kp.1)
    (hnone : ∀ kp ∈ remaining, answers[kp.2]? = some none) (hp : keys[p]? = some key) :
    (segs.reverse.foldl (batchPass H) (answers, remaining)).1[p]? = if (key, p) ∈ remaining then
          some ((firstHit segs (probe H key)).bind SegmentEntry.live)
        else answers[p]? := by
  induction segs using List.reverseRecOn generalizing answers remaining with
  | nil =>
    split
    · rename_i hmem
      exact hnone (key, p) hmem
    · rfl
  | append_singleton segs s ih =>
    have hfound := fun {q : Nat} {k : Bytes} (hk : keys[q]? = some k) =>
      getElem?_scatter_filterMap answers hkeys (fun k => (probe H k s).map SegmentEntry.live) hk
    simp only [Option.map_map, Function.comp_def, isSome_map] at hfound
    rw [reverse_append, reverse_singleton, singleton_append, foldl_cons,
      batchPass_eq answers hkeys, ih, hfound hp, firstHit_append, firstHit_singleton]
    · simp only [mem_filter]
      cases hprobe : probe H key s with
      | none => simp
      | some e =>
        by_cases hmem : (key, p) ∈ remaining
        · simp [hmem, hnone _ hmem]
        · simp [hmem]
    · exact fun kp hkp => hkeys kp (mem_of_mem_filter hkp)
    · intro kp hkp
      obtain ⟨hmem, hleft⟩ := mem_filter.mp hkp
      rw [hfound (hkeys kp hmem), if_neg]
      · exact hnone kp hmem
      · rw [isNone_iff_eq_none.mp hleft]
        simp

theorem length_batchPasses (segs : List Segment)
    (found : List (Option Bytes) × List (Bytes × Nat)) :
    (segs.foldl (batchPass H) found).1.length = found.1.length := by
  induction segs generalizing found with
  | nil => rfl
  | cons s segs ih =>
    rw [foldl_cons, ih]
    exact length_scatter _ _

theorem mem_firstPositions : (key, p) ∈ firstPositions keys ↔
    keys[p]? = some key ∧ keys.idxOf key = p := by
  simp [firstPositions, mem_zipIdx_iff_getElem?]

theorem getElem?_firstAnswers (H : Sha256) (st : State) (hp : keys[p]? = some key) :
    (firstAnswers H st keys)[p]?
      = if keys.idxOf key = p then some (get H st key) else some none := by
  have hfirst : ∀ kp ∈ firstPositions keys, keys[kp.2]? = some kp.1 :=
    fun kp hkp => (mem_firstPositions.mp hkp).1
  have hstart := fun {q : Nat} {k : Bytes} (hk : keys[q]? = some k) =>
    getElem?_scatter_filterMap (keys.map fun _ => none) hfirst (memGet st) hk
  simp only [getElem?_map] at hstart
  rw [firstAnswers, getElem?_batchPasses st.segments ?_ ?_ hp, hstart hp]
  · simp only [mem_filter, mem_firstPositions, hp, true_and, get]
    by_cases hpos : keys.idxOf key = p
    · cases memGet st key <;> simp [hpos]
    · simp [hpos]
  · exact fun kp hkp => hfirst kp (mem_of_mem_filter hkp)
  · intro kp hkp
    obtain ⟨hmem, hleft⟩ := mem_filter.mp hkp
    rw [hstart (hfirst kp hmem), isNone_iff_eq_none.mp hleft, hfirst kp hmem]
    simp

/-- A batched read answers as point reads do, position by position: a key is answered at
    its first position, and its other positions take that answer. -/
theorem getMany_eq_get (H : Sha256) (st : State) (keys : List Bytes) :
    getMany H st keys = keys.map (get H st) := by
  refine ext_getElem? fun p => ?_
  cases hkey : keys[p]? with
  | none =>
    have hlen := List.getElem?_eq_none_iff.mp hkey
    rw [getElem?_eq_none, getElem?_eq_none]
    · simpa using hlen
    · rw [getMany, length_scatter, firstAnswers, length_batchPasses, length_scatter, length_map]
      exact hlen
  | some key =>
    have hfirst := getElem?_firstAnswers H st (getElem?_idxOf (mem_of_getElem? hkey))
    rw [if_pos rfl] at hfirst
    rw [getMany, getElem?_scatter_filterMap _ ?_
      (fun k => (firstAnswers H st keys)[keys.idxOf k]?) hkey, hfirst,
      getElem?_firstAnswers H st hkey, getElem?_map, hkey]
    · by_cases hpos : keys.idxOf key = p
      · simp [hpos]
      · simp [hpos, mem_zipIdx_iff_getElem?, hkey]
    · exact fun kp hkp => mem_zipIdx_iff_getElem?.mp (mem_of_mem_filter hkp)

end Aikoql.Storage
