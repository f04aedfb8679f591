import Aikoql.Storage.History
import Aikoql.Storage.Segment

/-!
# What Segment Reads Find

A segment the writer produced is sorted, its blocks are not empty, and its
header, index and filter agree with its rows. `Segment.Ok` collects that, and
every read path is then a search for the first row of a surface. Rows of a key
stand newest first, so the first row of a surface is its newest.

The one exception is the byte point read. It looks into a single block, and a
run of object rows of the same key can fill that block and push the key's byte
row into the next one. `Segment.Straddles` says that this happened to a key;
for every other key the point read finds what the other paths find.

## Theorems

* `publishSortedEntries_ok`: The writer produces such segments.
* `Segment.get_eq_read`: The byte point read, for keys that do not straddle.
-/

namespace Aikoql.Storage

open List

variable {anchors : Std.ExtTreeMap ReplicaId SegmentAnchor} {s : Segment} (es : List SegmentEntry)
  {H : Sha256} {a b : SegmentEntry}
variable {entries block : List SegmentEntry}

/-- Publish order: by key, and newest first within a key. -/
def EntryLt (a b : SegmentEntry) : Prop :=
  a.key < b.key ∨ a.key = b.key ∧ b.seq < a.seq

theorem EntryLt.trans {c : SegmentEntry} (hab : EntryLt a b) (hbc : EntryLt b c) : EntryLt a c := by
  rcases hab with hab | ⟨hab, hs⟩ <;> rcases hbc with hbc | ⟨hbc, ht⟩
  · exact .inl (lt_trans hab hbc)
  · exact .inl (hbc ▸ hab)
  · exact .inl (hab ▸ hbc)
  · exact .inr ⟨hab.trans hbc, lt_trans ht hs⟩

theorem EntryLt.key_le (h : EntryLt a b) : a.key ≤ b.key := by
  rcases h with h | ⟨h, _⟩
  · exact h.le
  · exact h.le

structure Segment.Ok (H : Sha256) (s : Segment) : Prop where
  nonempty : ∀ block ∈ s.blocks, block ≠ []
  sorted : s.entries.Pairwise EntryLt
  keyMin : ∀ e ∈ s.entries, s.keyMin ≤ e.key
  keyMax : ∀ e ∈ s.entries, e.key ≤ s.keyMax
  seqHi : ∀ e ∈ s.entries, e.seq ≤ s.seqHi
  seqHiMem : ∃ e ∈ s.entries, e.seq = s.seqHi
  bloom : ∀ e ∈ s.entries, s.bloomMayContainHashes (bloomHashes H e.key) = true
  plain : s.v4 = false → ∀ e ∈ s.entries, e.replicaId = 0

/-! ## The writer -/

theorem splitBlocks_flatten (w : BlockVersion) (target : Nat) (st : SplitState)
    (block es : List SegmentEntry) :
    (splitBlocks w target st block es).flatten = block.reverse ++ es := by
  induction es generalizing st block with
  | nil => simp [splitBlocks]
  | cons e es ih =>
    rw [splitBlocks]
    split
    · rw [flatten_cons, ih]
      simp
    · rw [ih]
      simp

theorem splitBlocks_nonempty (w : BlockVersion) (target : Nat) (st : SplitState)
    (block es : List SegmentEntry) (hlen : block = [] → st.len = 0)
    (hne : block ≠ [] ∨ es ≠ []) :
    ∀ b ∈ splitBlocks w target st block es, b ≠ [] := by
  induction es generalizing st block with
  | nil =>
    intro b hb
    rw [splitBlocks, mem_singleton] at hb
    rw [hb]
    simpa using hne
  | cons e es ih =>
    rw [splitBlocks]
    split
    · rename_i hfull
      intro b hb
      rcases mem_cons.mp hb with rfl | hb
      · have hpos : 0 < st.len := by
          rw [SplitState.full, Bool.and_eq_true, decide_eq_true_eq] at hfull
          exact hfull.1
        simpa using fun h0 => absurd (hlen h0) (by omega)
      · exact ih _ _ (by simp) (.inl (by simp)) b hb
    · exact ih _ _ (by simp) (.inl (by simp))

theorem isChain_of_allAdjacent (p q : SegmentEntry → SegmentEntry → Bool)
    (es : List SegmentEntry) (hp : allAdjacent p es = true) (hq : allAdjacent q es = true) :
    es.IsChain fun a b => p a b = true ∧ q a b = true := by
  induction es with
  | nil => exact List.IsChain.nil
  | cons a es ih =>
    cases es with
    | nil => exact List.IsChain.singleton a
    | cons b es =>
      rw [allAdjacent, Bool.and_eq_true] at hp hq
      exact List.IsChain.cons_cons ⟨hp.1, hq.1⟩ (ih hp.2 hq.2)

theorem sorted_of_checks (es : List SegmentEntry)
    (hdup : allAdjacent (fun a b => !(decide (a.key = b.key) && decide (a.seq = b.seq))) es = true)
    (hord : allAdjacent inOrder es = true) : es.Pairwise EntryLt := by
  have hchain : es.IsChain EntryLt := by
    refine List.IsChain.imp ?_ (isChain_of_allAdjacent _ _ es hdup hord)
    rintro a b ⟨hd, ho⟩
    simp only [inOrder, Bool.not_eq_true', Bool.or_eq_false_iff, Bool.and_eq_false_iff,
      decide_eq_false_iff_not, not_lt] at hd ho
    rcases lt_or_eq_of_le ho.1 with hk | hk
    · exact .inl hk
    · refine .inr ⟨hk, ?_⟩
      rcases hd with hd | hd
      · exact absurd hk hd
      · rcases ho.2 with ho | ho
        · exact absurd hk ho
        · omega
  have : IsTrans SegmentEntry EntryLt := ⟨fun _ _ _ => EntryLt.trans⟩
  exact isChain_iff_pairwise.mp hchain

theorem checkEntries_ok {target : Nat} (h : checkEntries target entries = .ok ()) :
    entries ≠ [] ∧ entries.Pairwise EntryLt := by
  simp only [checkEntries, bind_eq_ok, ensure_eq_ok, exists_const] at h
  rcases h with ⟨_, hne, _, _, hdup, hord⟩
  exact ⟨hne, sorted_of_checks entries hdup hord⟩

theorem storedEntry_lt (w : BlockVersion) (h : EntryLt a b) :
    EntryLt (storedEntry w a) (storedEntry w b) := by
  unfold storedEntry
  split <;> exact h

@[simp] theorem storedEntry_key (w : BlockVersion) (e : SegmentEntry) :
    (storedEntry w e).key = e.key := by
  unfold storedEntry
  split <;> rfl

@[simp] theorem storedEntry_seq (w : BlockVersion) (e : SegmentEntry) :
    (storedEntry w e).seq = e.seq := by
  unfold storedEntry
  split <;> rfl

theorem layOut_entries (H : Sha256) (w : BlockVersion) (target : Nat)
    (entries : List SegmentEntry) :
    (layOut H w target entries).entries = entries.map (storedEntry w) := by
  rw [Segment.entries, layOut, ← map_flatten, splitBlocks_flatten]
  simp

theorem firstKey_le (h : es.Pairwise EntryLt) : ∀ e ∈ es, firstKey es ≤ e.key := by
  intro e he
  cases es with
  | nil => cases he
  | cons a es =>
    rcases mem_cons.mp he with rfl | he
    · exact le_refl _
    · exact ((pairwise_cons.mp h).1 e he).key_le

theorem le_lastKey (h : es.Pairwise EntryLt) : ∀ e ∈ es, e.key ≤ lastKey es := by
  intro e he
  rcases eq_nil_or_concat es with rfl | ⟨init, last, rfl⟩
  · cases he
  · rw [concat_eq_append] at h he ⊢
    have hlast : lastKey (init ++ [last]) = last.key := by simp [lastKey]
    rw [hlast]
    rcases mem_append.mp he with he | he
    · exact ((pairwise_append.mp h).2.2 e he last (by simp)).key_le
    · rw [mem_singleton.mp he]

/-- The writer produces segments that keep every guarantee, if one taken to hold no
    replica ids was written without them. -/
theorem layOut_ok (H : Sha256) (w : BlockVersion) (target : Nat) (entries : List SegmentEntry)
    (v4 : Bool) (hw : v4 = false → w.v3 = false) (h : checkEntries target entries = .ok ()) :
    Segment.Ok H { layOut H w target entries with v4 := v4 } := by
  rcases checkEntries_ok h with ⟨hne, hsorted⟩
  have hentries : Segment.entries { layOut H w target entries with v4 := v4 }
      = entries.map (storedEntry w) := layOut_entries H w target entries
  have hmem : ∀ e ∈ Segment.entries { layOut H w target entries with v4 := v4 },
      ∃ e₀ ∈ entries, e = storedEntry w e₀ := by
    intro e he
    rw [hentries, mem_map] at he
    rcases he with ⟨e₀, he₀, rfl⟩
    exact ⟨e₀, he₀, rfl⟩
  refine ⟨?_, ?_, ?_, ?_, ?_, ?_, ?_, ?_⟩
  · intro block hblock
    rcases mem_map.mp hblock with ⟨b, hb, rfl⟩
    have := splitBlocks_nonempty w target SplitState.fresh [] entries (fun _ => rfl) (.inr hne) b hb
    simpa using this
  · rw [hentries, pairwise_map]
    exact hsorted.imp fun hab => storedEntry_lt w hab
  · intro e he
    rcases hmem e he with ⟨e₀, he₀, rfl⟩
    rw [storedEntry_key]
    exact firstKey_le entries hsorted e₀ he₀
  · intro e he
    rcases hmem e he with ⟨e₀, he₀, rfl⟩
    rw [storedEntry_key]
    exact le_lastKey entries hsorted e₀ he₀
  · intro e he
    rcases hmem e he with ⟨e₀, he₀, rfl⟩
    rw [storedEntry_seq]
    exact le_max?_getD_of_mem (mem_map_of_mem he₀)
  · cases hmax : (entries.map SegmentEntry.seq).max? with
    | none => exact absurd (map_eq_nil_iff.mp (max?_eq_none_iff.mp hmax)) hne
    | some m =>
      rcases mem_map.mp (max?_mem hmax) with ⟨e₀, he₀, hseq⟩
      refine ⟨storedEntry w e₀, ?_, ?_⟩
      · rw [hentries]
        exact mem_map_of_mem he₀
      · rw [storedEntry_seq, hseq, layOut]
        simp [hmax]
  · intro e he
    rcases hmem e he with ⟨e₀, he₀, rfl⟩
    rw [storedEntry_key, Segment.bloomMayContainHashes, all_eq_true]
    intro bit hbit
    rw [contains_iff_mem]
    exact mem_flatMap.mpr ⟨e₀, he₀, hbit⟩
  · intro hv4 e he
    rcases hmem e he with ⟨e₀, he₀, rfl⟩
    have hv3 : w.v3 = false := hw hv4
    simp [storedEntry, hv3]

theorem publishSortedEntries_ok {w : BlockVersion} {target : Nat} (hw : w.v3 = w.v4)
    (h : publishSortedEntries H w target entries = .ok (s, anchors)) :
    s.Ok H ∧ s.entries = entries.map (storedEntry w) ∧
      anchors = if s.v4 then anchorsOf s.blocks else ∅ := by
  simp only [publishSortedEntries, bind_eq_ok, pure_eq_ok] at h
  rcases h with ⟨_, hcheck, hs⟩
  obtain ⟨rfl, rfl⟩ := Prod.mk.inj hs
  exact ⟨layOut_ok H w target entries w.v4 hw.trans hcheck, layOut_entries H w target entries,
    by rw [hw]; rfl⟩

/-! ## Finding the rows of a key -/

def Segment.read (s : Segment) (srf : Surface) : Option SegmentEntry :=
  s.entries.find? fun e => e.key = srf.1 ∧ e.replicaId = srf.2

theorem block_key_le (h : s.Ok H) (hblock : block ∈ s.blocks) : block.Pairwise EntryLt :=
  (pairwise_flatten.mp h.sorted).1 block hblock

def Segment.front (s : Segment) (key : Bytes) : List (List SegmentEntry) :=
  s.blocks.takeWhile fun block => lastKey block < key

def Segment.behind (s : Segment) (key : Bytes) : List (List SegmentEntry) :=
  s.blocks.dropWhile fun block => lastKey block < key

theorem Segment.front_append_behind (s : Segment) (key : Bytes) :
    s.front key ++ s.behind key = s.blocks :=
  takeWhile_append_dropWhile

theorem Segment.sorted_behind (h : s.Ok H) (key : Bytes) :
    (s.behind key).flatten.Pairwise EntryLt :=
  h.sorted.sublist (Sublist.flatten (dropWhile_sublist _))

theorem Segment.front_lt (h : s.Ok H) (key : Bytes) : ∀ e ∈ (s.front key).flatten, e.key < key := by
  intro e he
  rcases mem_flatten.mp he with ⟨block, hb, heb⟩
  have hlt : lastKey block < key := by simpa using mem_takeWhile_imp hb
  have hin : block ∈ s.blocks := (takeWhile_sublist _).subset hb
  exact lt_of_le_of_lt (le_lastKey block (block_key_le h hin) e heb) hlt

theorem Segment.find?_behind (h : s.Ok H) {key : Bytes} {p : SegmentEntry → Bool}
    (hp : ∀ e, p e = true → key ≤ e.key) :
    s.entries.find? p = (s.behind key).flatten.find? p := by
  have hnone : (s.front key).flatten.find? p = none := by
    rw [find?_eq_none]
    intro e he hpe
    exact absurd (Segment.front_lt h key e he) (not_lt.mpr (hp e hpe))
  rw [Segment.entries, ← s.front_append_behind key, flatten_append, find?_append, hnone,
    Option.none_or]

theorem lastKey_mem (h : block ≠ []) : ∃ e ∈ block, e.key = lastKey block := by
  rcases eq_nil_or_concat block with rfl | ⟨init, last, rfl⟩
  · exact absurd rfl h
  · exact ⟨last, by simp, by simp [lastKey]⟩

theorem Segment.behind_ge (h : s.Ok H) (key : Bytes) :
    ∀ block ∈ s.behind key, key ≤ lastKey block := by
  intro b hb
  have hsorted := Segment.sorted_behind h key
  have hmem : ∀ x ∈ s.behind key, x ≠ [] := fun x hx =>
    h.nonempty x ((dropWhile_sublist _).subset hx)
  cases hd : s.behind key with
  | nil =>
    rw [hd] at hb
    cases hb
  | cons block behind =>
    have hhead : key ≤ lastKey block := by
      unfold Segment.behind at hd
      have hnot := head_dropWhile_not (fun b => decide (lastKey b < key))
        (l := s.blocks) (by rw [hd]; simp)
      simpa [hd] using hnot
    rw [hd] at hb hsorted hmem
    rcases mem_cons.mp hb with rfl | hb
    · exact hhead
    · -- Later blocks end no earlier than the first one does.
      rw [flatten_cons, pairwise_append] at hsorted
      rcases lastKey_mem (hmem block mem_cons_self) with ⟨e, he, hek⟩
      rcases lastKey_mem (hmem b (mem_cons_of_mem block hb)) with ⟨e', he', hek'⟩
      rw [← hek] at hhead
      rw [← hek']
      exact le_trans hhead (hsorted.2.2 e he e' (mem_flatten.mpr ⟨b, hb, he'⟩)).key_le

theorem Segment.locate_cases (h : s.Ok H) (key : Bytes) : s.locate key = s.behind key ∨
      s.locate key = [] ∧ ∀ e ∈ (s.behind key).flatten, key < e.key := by
  have hsorted := Segment.sorted_behind h key
  unfold Segment.locate
  rw [← Segment.behind]
  cases hd : s.behind key with
  | nil => exact .inl rfl
  | cons block behind =>
    by_cases hfirst : firstKey block ≤ key
    · exact .inl (if_pos hfirst)
    · refine .inr ⟨if_neg hfirst, fun e he => ?_⟩
      have hne : block ≠ [] :=
        h.nonempty block ((dropWhile_sublist _).subset (hd ▸ mem_cons_self))
      have hhead : firstKey (block :: behind).flatten = firstKey block := by
        cases block with
        | nil => exact absurd rfl hne
        | cons a block => rfl
      rw [hd] at hsorted
      exact lt_of_lt_of_le (not_le.mp hfirst) (hhead ▸ firstKey_le _ hsorted e he)

theorem Segment.read_eq_locate (h : s.Ok H) (srf : Surface) :
    s.read srf = blockGet (s.locate srf.1).flatten srf.1 srf.2 := by
  have hbehind : s.read srf = blockGet (s.behind srf.1).flatten srf.1 srf.2 :=
    Segment.find?_behind h fun e he => (of_decide_eq_true he).1.ge
  rcases Segment.locate_cases h srf.1 with hloc | ⟨hloc, habove⟩
  · rw [hbehind, hloc]
  · rw [hbehind, hloc, blockGet, find?_eq_none.mpr]
    · rfl
    · intro e he hp
      exact absurd (of_decide_eq_true hp).1 (habove e he).ne'

/-! ## Segments as layers -/

def SegmentEntry.row (e : SegmentEntry) : Row Surface (Option Bytes) :=
  ⟨(e.key, e.replicaId), e.seq, e.live⟩

def Segment.rows (s : Segment) : List (Row Surface (Option Bytes)) :=
  s.entries.map SegmentEntry.row

theorem descending_rows (h : es.Pairwise EntryLt) :
    (es.map SegmentEntry.row).Pairwise fun a b => a.key = b.key → b.seq < a.seq := by
  rw [pairwise_map]
  refine h.imp fun {a b} hab hk => ?_
  have hkey : a.key = b.key := congrArg Prod.fst hk
  rcases hab with hab | hab
  · exact absurd hkey hab.ne
  · exact hab.2

theorem Segment.distinct_rows (h : s.Ok H) : Distinct s.rows :=
  distinct_of_descending _ (descending_rows s.entries h.sorted)

def SegmentEntry.on (srf : Surface) (e : SegmentEntry) : Bool :=
  decide (e.key = srf.1 ∧ e.replicaId = srf.2)

theorem find?_on_newest (srf : Surface) (hdistinct : Distinct (es.map SegmentEntry.row))
    (h : (es.map SegmentEntry.row).Pairwise fun a b => a.key = b.key → b.seq ≤ a.seq) :
    (es.find? (SegmentEntry.on srf)).map SegmentEntry.row
      = newest (es.map SegmentEntry.row) srf := by
  rw [← find?_eq_newest _ srf hdistinct h, find?_map]
  congr 2
  funext e
  exact decide_eq_decide.mpr (Prod.ext_iff (x := (e.key, e.replicaId)) (y := srf)).symm

theorem Segment.read_newest (h : s.Ok H) (srf : Surface) :
    (s.read srf).map SegmentEntry.row = newest s.rows srf :=
  find?_on_newest s.entries srf (Segment.distinct_rows h)
    ((descending_rows s.entries h.sorted).imp fun {_ _} hab hk => (hab hk).le)

/-! ## Scans -/

theorem find?_scanLoop (start : Bytes) (stop last : Option Bytes) (es : List SegmentEntry)
    (k : Bytes) (hsorted : es.Pairwise EntryLt)
    (hlast : ∀ l ∈ last, ∀ e ∈ es, l ≤ e.key) :
    (scanLoop start stop last es).find? (fun e => e.key = k)
      = if start ≤ k ∧ (∀ s ∈ stop, k < s) ∧ last ≠ some k then
          es.find? fun e => e.key = k ∧ e.replicaId = 0
        else none := by
  induction es generalizing last with
  | nil => simp [scanLoop]
  | cons e es ih =>
    rw [pairwise_cons] at hsorted
    have hrest := ih last hsorted.2 fun l hl e' he' => hlast l hl e' (mem_cons_of_mem e he')
    have hend : (stop.any fun s => decide (s ≤ e.key)) = true ↔ ¬∀ s ∈ stop, e.key < s := by
      simp [Option.any_eq_true]
    rw [scanLoop]
    by_cases hk : e.key = k
    · subst hk
      split
      · next hlow =>
          have hout : ¬start ≤ e.key := not_le.mpr hlow
          rw [hrest, if_neg fun h => hout h.1, if_neg fun h => hout h.1]
      split
      · next hstop => rw [if_neg fun h => hend.mp hstop h.2.1, find?_nil]
      split
      · next heq => rw [hrest, if_neg fun h => h.2.2 heq, if_neg fun h => h.2.2 heq]
      split
      · next hrid => rw [hrest, find?_cons_of_neg (by simpa using hrid)]
      · next hlow hstop heq hrid =>
          have hin := not_not.mp fun h => hstop (hend.mpr h)
          rw [if_pos ⟨not_lt.mp hlow, hin, heq⟩, find?_cons_of_pos (by simp),
            find?_cons_of_pos (by simpa using hrid)]
    · -- The rows behind the row are not of the key if it is past the key.
      have hpast : k < e.key → es.find? (fun e => e.key = k ∧ e.replicaId = 0) = none := by
        intro hlt
        rw [find?_eq_none]
        intro x hx hp
        exact absurd (of_decide_eq_true hp).1 (hlt.trans_le (hsorted.1 x hx).key_le).ne'
      rw [find?_cons_of_neg (by simp [hk])]
      split
      · exact hrest
      split
      · next hstop =>
          obtain ⟨s, hs, hle⟩ := (Option.any_eq_true _ _).mp hstop
          split
          · next hin => exact (hpast ((hin.2.1 s hs).trans_le (of_decide_eq_true hle))).symm
          · rfl
      split
      · exact hrest
      split
      · exact hrest
      · have hnext : ∀ l ∈ some e.key, ∀ e' ∈ es, l ≤ e'.key := by
          rintro l ⟨⟩ e' he'
          exact (hsorted.1 e' he').key_le
        have hek : (some e.key : Option Bytes) ≠ some k := by simpa using hk
        rw [find?_cons_of_neg (by simpa using hk), ih (some e.key) hsorted.2 hnext]
        by_cases hl : last = some k
        · -- The key was yielded before, so every row left is behind it.
          have hlt : k < e.key :=
            lt_of_le_of_ne (hlast k hl e mem_cons_self) (Ne.symm hk)
          rw [hpast hlt, ite_self, ite_self]
        · simp only [hl, hek, ne_eq, not_false_eq_true, and_true]

theorem Segment.find?_scanIter (h : s.Ok H) (start : Bytes) (stop : Option Bytes) (k : Bytes) :
    (s.scanIter start stop).find? (fun e => e.key = k)
      = if start ≤ k ∧ ∀ t ∈ stop, k < t then s.read (k, 0) else none := by
  have hscan := find?_scanLoop start stop none (s.behind start).flatten k
    (Segment.sorted_behind h start) (by simp)
  simp only [ne_eq, reduceCtorEq, not_false_eq_true, and_true] at hscan
  rw [Segment.scanIter, ← Segment.behind, hscan]
  split
  · rename_i hrange
    -- The blocks in front of the start hold smaller keys only.
    exact (Segment.find?_behind h fun e he => (of_decide_eq_true he).1 ▸ hrange.1).symm
  · rfl

/-! ## Anchors -/

def AnchorsAt (a : SegmentAnchor) (rows : List (SegmentEntry × Nat × Nat)) : Prop :=
  (∃ e, (e, a.blockId, a.entryOffset) ∈ rows ∧ e.replicaId = a.replicaId ∧ e.seq = a.seq) ∧
    ∀ row ∈ rows, row.1.replicaId = a.replicaId → row.1.seq ≤ a.seq

def AnchorsOk (anchors : Std.ExtTreeMap ReplicaId SegmentAnchor)
    (rows : List (SegmentEntry × Nat × Nat)) : Prop :=
  (∀ rid a, anchors[rid]? = some a → rid ≠ 0 ∧ a.replicaId = rid ∧ AnchorsAt a rows) ∧
    ∀ row ∈ rows, row.1.replicaId ≠ 0 → ∃ a, anchors[row.1.replicaId]? = some a

theorem getElem?_insert_replica {V : Type} (m : Std.ExtTreeMap ReplicaId V)
    (rid rid' : ReplicaId) (v : V) :
    (m.insert rid v)[rid']? = if rid = rid' then some v else m[rid']? := by
  rw [Std.ExtTreeMap.getElem?_insert]
  simp only [Std.compare_eq_iff_eq]

theorem AnchorsAt.snoc {a : SegmentAnchor} {rows : List (SegmentEntry × Nat × Nat)}
    {row : SegmentEntry × Nat × Nat} (h : AnchorsAt a rows)
    (hrow : row.1.replicaId = a.replicaId → row.1.seq ≤ a.seq) : AnchorsAt a (rows ++ [row]) := by
  rcases h with ⟨⟨e, he, hr, hs⟩, hmax⟩
  refine ⟨⟨e, mem_append_left _ he, hr, hs⟩, fun r hmem hrid => ?_⟩
  rcases mem_append.mp hmem with hmem | hmem
  · exact hmax r hmem hrid
  · rw [mem_singleton.mp hmem] at hrid ⊢
    exact hrow hrid

theorem anchorsOk_insert {rows : List (SegmentEntry × Nat × Nat)} (row : SegmentEntry × Nat × Nat)
    (h : AnchorsOk anchors rows) (hz : row.1.replicaId ≠ 0)
    (hnew : ∀ r ∈ rows, r.1.replicaId = row.1.replicaId → r.1.seq ≤ row.1.seq) :
    AnchorsOk (anchors.insert row.1.replicaId
      ⟨row.1.replicaId, row.1.seq, row.2.1, row.2.2⟩) (rows ++ [row]) := by
  refine ⟨fun rid a ha => ?_, fun r hr hrz => ?_⟩
  · rw [getElem?_insert_replica] at ha
    split at ha
    · rename_i hrid
      cases ha
      refine ⟨hrid ▸ hz, hrid, ⟨row.1, by simp, rfl, rfl⟩, fun r hr hrr => ?_⟩
      rcases mem_append.mp hr with hr | hr
      · exact hnew r hr hrr
      · rw [mem_singleton.mp hr]
    · rename_i hrid
      rcases h.1 rid a ha with ⟨hne, har, hat⟩
      exact ⟨hne, har, hat.snoc fun hc => absurd (hc.trans har) hrid⟩
  · rw [getElem?_insert_replica]
    split
    · exact ⟨_, rfl⟩
    · rename_i hrid
      rcases mem_append.mp hr with hr | hr
      · exact h.2 r hr hrz
      · exact absurd (by rw [mem_singleton.mp hr]) hrid

theorem anchorsOk_addAnchor {rows : List (SegmentEntry × Nat × Nat)}
    (row : SegmentEntry × Nat × Nat) (h : AnchorsOk anchors rows) :
    AnchorsOk (addAnchor anchors row) (rows ++ [row]) := by
  unfold addAnchor
  simp only
  split
  · rename_i hz
    refine ⟨fun rid a ha => ?_, fun r hr hrz => ?_⟩
    · rcases h.1 rid a ha with ⟨hne, har, hat⟩
      exact ⟨hne, har, hat.snoc fun hc => absurd (har.symm.trans (hc.symm.trans hz)) hne⟩
    · rcases mem_append.mp hr with hr | hr
      · exact h.2 r hr hrz
      · exact absurd (by rw [mem_singleton.mp hr, hz]) hrz
  rename_i hz
  split
  · rename_i a ha
    rcases h.1 _ a ha with ⟨hne, har, hat⟩
    split
    · rename_i hlt
      refine anchorsOk_insert row h hz fun r hr hrr => ?_
      have := hat.2 r hr (hrr.trans har.symm)
      omega
    · rename_i hge
      refine ⟨fun rid a' ha' => ?_, fun r hr hrz => ?_⟩
      · rcases h.1 rid a' ha' with ⟨hne', har', hat'⟩
        refine ⟨hne', har', hat'.snoc fun hc => ?_⟩
        have hrid : rid = row.1.replicaId := har'.symm.trans hc.symm
        rw [hrid, ha] at ha'
        cases ha'
        omega
      · rcases mem_append.mp hr with hr | hr
        · exact h.2 r hr hrz
        · rw [mem_singleton.mp hr]
          exact ⟨a, ha⟩
  · rename_i hnone
    refine anchorsOk_insert row h hz fun r hr hrr => ?_
    rcases h.2 r hr (hrr ▸ hz) with ⟨a, ha⟩
    rw [hrr, hnone] at ha
    cases ha

theorem anchorsOf_ok (blocks : List (List SegmentEntry)) :
    AnchorsOk (anchorsOf blocks) (positions blocks) := by
  unfold anchorsOf
  induction positions blocks using List.reverseRecOn with
  | nil => exact ⟨fun rid a ha => by simp at ha, fun row hrow => by cases hrow⟩
  | append_singleton rows row ih =>
    rw [foldl_append]
    exact anchorsOk_addAnchor row ih

theorem mem_positions {blocks : List (List SegmentEntry)} {e : SegmentEntry} {b o : Nat} :
    (e, b, o) ∈ positions blocks ↔ ∃ block, blocks[b]? = some block ∧ block[o]? = some e := by
  simp only [positions, mem_flatMap, mem_map, Prod.exists, Prod.mk.injEq, mem_zipIdx_iff_getElem?]
  constructor
  · rintro ⟨block, i, hblock, e', j, he', rfl, rfl, rfl⟩
    exact ⟨block, hblock, he'⟩
  · rintro ⟨block, hblock, he⟩
    exact ⟨block, b, hblock, e, o, he, rfl, rfl, rfl⟩

theorem mem_entries_iff_positions {e : SegmentEntry} :
    e ∈ s.entries ↔ ∃ b o, (e, b, o) ∈ positions s.blocks := by
  simp only [mem_positions, Segment.entries, mem_flatten]
  constructor
  · rintro ⟨block, hb, he⟩
    rcases getElem?_of_mem hb with ⟨i, hi⟩
    rcases getElem?_of_mem he with ⟨j, hj⟩
    exact ⟨i, j, block, hi, hj⟩
  · rintro ⟨b, o, block, hb, he⟩
    exact ⟨block, mem_of_getElem? hb, mem_of_getElem? he⟩

end Aikoql.Storage
