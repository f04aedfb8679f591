import Aikoql.Storage.WriteSteps

/-!
# The Walk Over the Replication Log

What a follower is sent, if the files hold pieces of one numbered log.

The archive files follow one another, and the sample of the log may overlap them,
since a flush may have archived some of its frames in between. The walk skips
what it has, so overlapping pieces do no harm, and as long as no piece starts
past what was read before, it sees no hole. What it ends with is the beginning of
the log up to the furthest piece, without the frames the follower has.
-/

namespace Aikoql.Storage

open List

variable {log : List WalFrame} {a after b : Nat}

def piece (log : List WalFrame) (ab : Nat × Nat) : List WalFrame :=
  (log.take ab.2).drop ab.1

def walkedTo (log : List WalFrame) (after upto : Nat) : Taken :=
  ⟨false, upto, piece log (after, upto)⟩

/-- The number of frames a walk stops at: it always takes one. -/
def atLeastOne (count : Nat) : Nat :=
  max count 1

def WalkEnds (log : List WalFrame) (after count upto : Nat) (t : Taken) : Prop :=
  (t = walkedTo log after upto ∧ (piece log (after, upto)).length < atLeastOne count) ∨
    (t.full = true ∧ t.out = (piece log (after, upto)).take (atLeastOne count) ∧
      atLeastOne count ≤ (piece log (after, upto)).length)

theorem piece_eq_cons (hab : a < b) (hb : b ≤ log.length) :
    piece log (a, b) = log[a] :: piece log (a + 1, b) := by
  have hlen : a < (log.take b).length := by
    rw [length_take]
    omega
  rw [piece, piece, drop_eq_getElem_cons hlen, getElem_take]

theorem piece_snoc {upto : Nat} (hle : after ≤ upto) (h : upto < log.length) :
    piece log (after, upto) ++ [log[upto]] = piece log (after, upto + 1) := by
  rw [piece, piece, take_succ_eq_append_getElem h, drop_append_of_le_length]
  rw [length_take]
  omega

theorem length_piece (hb : b ≤ log.length) : (piece log (a, b)).length = b - a := by
  rw [piece, length_drop, length_take]
  omega

theorem Numbered.getElem {next : Nat} (h : Numbered next log) (i : Nat) (hi : i < log.length) :
    log[i].seq.val = next + i := by
  have hget : (log.map fun f => f.seq.val)[i]? = some (next + i) := by
    rw [h, getElem?_range' hi, Nat.one_mul]
  rw [getElem?_map, getElem?_eq_getElem hi] at hget
  exact Option.some.inj hget

theorem takeFrames_piece (hlog : Numbered 1 log) {count : Nat} (d a b upto : Nat) (hd : b - a = d)
    (hb : b ≤ log.length) (hafter : after ≤ upto) (ha : a ≤ upto)
    (hmore : (piece log (after, upto)).length < atLeastOne count) :
    ∃ t, takeFrames count (walkedTo log after upto) (piece log (a, b)) = .ok t ∧
      WalkEnds log after count (max upto b) t := by
  induction d generalizing a upto with
  | zero =>
    have hnil : piece log (a, b) = [] := by
      rw [← length_eq_zero_iff, length_piece hb, hd]
    have hmax : max upto b = upto := max_eq_left (by omega)
    rw [hnil, hmax]
    exact ⟨_, rfl, .inl ⟨rfl, hmore⟩⟩
  | succ d ih =>
    have hab : a < b := by omega
    have hseq := hlog.getElem a (by omega)
    rw [piece_eq_cons hab hb, takeFrames]
    by_cases hskip : a + 1 ≤ upto
    · -- The follower has this frame.
      rw [if_pos (by simp only [walkedTo]; omega)]
      exact ih (a + 1) upto (by omega) hafter hskip hmore
    · -- This frame is the next one.
      obtain rfl : a = upto := by omega
      rw [if_neg (by simp only [walkedTo]; omega), if_neg (by simp only [walkedTo]; omega)]
      have hout : (walkedTo log after a).out ++ [log[a]] = piece log (after, a + 1) :=
        piece_snoc hafter (by omega)
      have hmax : max a b = max (a + 1) b := by
        rw [max_eq_right (by omega), max_eq_right (by omega)]
      rw [hout, hmax]
      have hlen : (piece log (after, a + 1)).length = a + 1 - after := length_piece (by omega)
      have hlen' : (piece log (after, a)).length = a - after := length_piece (by omega)
      by_cases hfull : count ≤ (piece log (after, a + 1)).length
      · rw [if_pos hfull]
        refine ⟨_, rfl, .inr ⟨rfl, ?_, ?_⟩⟩
        · have hm : atLeastOne count = a + 1 - after := by
            simp only [atLeastOne] at hmore ⊢
            omega
          rw [max_eq_right (by omega), piece, piece, hm, take_drop, take_take,
            show min (after + (a + 1 - after)) b = a + 1 by omega]
        · rw [max_eq_right (by omega), length_piece hb]
          simp only [atLeastOne] at hmore ⊢
          omega
      · rw [if_neg hfull]
        have hnext : (⟨false, log[a].seq.val, piece log (after, a + 1)⟩ : Taken)
            = walkedTo log after (a + 1) := by
          rw [walkedTo, hseq, Nat.add_comm 1 a]
        rw [hnext]
        refine ih (a + 1) (a + 1) (by omega) (by omega) le_rfl ?_
        simp only [atLeastOne] at hmore ⊢
        omega

/-- No piece starts past what was read before. -/
def Linked : Nat → List (Nat × Nat) → Prop
  | _, [] => True
  | upto, ab :: pieces => ab.1 ≤ upto ∧ Linked (max upto ab.2) pieces

def reach (upto : Nat) (pieces : List (Nat × Nat)) : Nat :=
  pieces.foldl (fun upto ab => max upto ab.2) upto

theorem le_reach (pieces : List (Nat × Nat)) (upto : Nat) :
    upto ≤ reach upto pieces ∧ ∀ ab ∈ pieces, ab.2 ≤ reach upto pieces := by
  induction pieces generalizing upto with
  | nil => exact ⟨le_rfl, forall_mem_nil _⟩
  | cons ab pieces ih =>
    rcases ih (max upto ab.2) with ⟨hstart, hall⟩
    refine ⟨(le_max_left _ _).trans hstart, forall_mem_cons.mpr ⟨?_, hall⟩⟩
    exact (le_max_right _ _).trans hstart

theorem reach_le {pieces : List (Nat × Nat)} {upto bound : Nat} (hupto : upto ≤ bound)
    (h : ∀ ab ∈ pieces, ab.2 ≤ bound) : reach upto pieces ≤ bound := by
  induction pieces generalizing upto with
  | nil => exact hupto
  | cons ab pieces ih =>
    rw [forall_mem_cons] at h
    exact ih (max_le hupto h.1) h.2

theorem take_piece {m : Nat} (hab : a ≤ b) (hm : m ≤ (piece log (after, a)).length) :
    (piece log (after, a)).take m = (piece log (after, b)).take m := by
  rw [piece, length_drop, length_take] at hm
  rcases Nat.eq_zero_or_pos m with rfl | hpos
  · rw [take_zero, take_zero]
  · simp only at hm
    rw [piece, piece, take_drop, take_drop, take_take, take_take,
      min_eq_left (by simp only; omega), min_eq_left (by simp only; omega)]

theorem takeSources_linked (H : Sha256) {log : List WalFrame} (hlog : Numbered 1 log)
    {after count : Nat} (sources : List Bytes) (pieces : List (Nat × Nat))
    (hsources : Forall₂ (fun bytes ab =>
      ∃ n, replayFrames H bytes = .ok (piece log ab, n)) sources pieces)
    (hbound : ∀ ab ∈ pieces, ab.2 ≤ log.length) (upto : Nat) (hlinked : Linked upto pieces)
    (hafter : after ≤ upto) (hmore : (piece log (after, upto)).length < atLeastOne count) :
    ∃ t, takeSources H count (walkedTo log after upto) sources = .ok t ∧
      t.out = (piece log (after, reach upto pieces)).take (atLeastOne count) := by
  induction hsources generalizing upto with
  | nil =>
    exact ⟨_, rfl, (take_of_length_le hmore.le).symm⟩
  | @cons bytes ab sources pieces hread _ ih =>
    rcases hread with ⟨n, hread⟩
    rw [forall_mem_cons] at hbound
    rcases takeFrames_piece hlog _ ab.1 ab.2 upto rfl hbound.1 hafter hlinked.1 hmore with
      ⟨t, ht, hends⟩
    rw [takeSources, hread, ok_bind]
    simp only [show piece log ab = piece log (ab.1, ab.2) from rfl, ht, ok_bind]
    rcases hends with ⟨rfl, hmore'⟩ | ⟨hfull, hout, hlen⟩
    · exact ih hbound.2 (max upto ab.2) hlinked.2 (hafter.trans (le_max_left _ _)) hmore'
    · -- There are enough frames, and the rest would come behind them.
      rw [if_pos hfull]
      refine ⟨t, rfl, hout.trans (take_piece ?_ hlen)⟩
      exact (le_reach pieces (max upto ab.2)).1

theorem logSince_linked (H : Sha256) {log : List WalFrame} (hlog : Numbered 1 log)
    (after count lastSeq : Nat) (wal : Bytes) (archive : List Bytes) (pieces : List (Nat × Nat))
    (hsources : Forall₂ (fun bytes ab =>
      ∃ n, replayFrames H bytes = .ok (piece log ab, n)) (archive ++ [wal]) pieces)
    (hbound : ∀ ab ∈ pieces, ab.2 ≤ log.length) (hlinked : Linked after pieces) :
    (reach after pieces ≤ after ∧ after < lastSeq →
      ∃ e, logSince H after count wal lastSeq archive = .error e) ∧
    (¬(reach after pieces ≤ after ∧ after < lastSeq) → logSince H after count wal lastSeq archive
        = .ok ((piece log (after, reach after pieces)).take (atLeastOne count))) := by
  have hstart : (⟨false, after, []⟩ : Taken) = walkedTo log after after := by
    rw [walkedTo, piece, drop_eq_nil_of_le (length_take_le _ _)]
  have hmore : (piece log (after, after)).length < atLeastOne count := by
    rw [piece, drop_eq_nil_of_le (length_take_le _ _), atLeastOne, length_nil]
    omega
  rcases takeSources_linked H hlog (archive ++ [wal]) pieces hsources hbound after hlinked le_rfl
    hmore with ⟨t, ht, hout⟩
  have hreach : reach after pieces ≤ max after log.length :=
    reach_le (le_max_left _ _) fun ab hab => (hbound ab hab).trans (le_max_right _ _)
  -- Nothing is taken exactly if no piece reaches past the follower.
  have hnil : t.out = [] ↔ reach after pieces ≤ after := by
    rw [hout, take_eq_nil_iff, ← length_eq_zero_iff, piece, length_drop, length_take, atLeastOne]
    omega
  rw [logSince, hstart, ht, ok_bind]
  constructor
  · intro hgap
    rw [ensure_neg (not_not_intro ⟨hnil.mpr hgap.1, by omega⟩)]
    exact ⟨_, rfl⟩
  · intro hok
    have hheld : ¬(t.out = [] ∧ after + 1 < lastSeq + 1) :=
      fun hgap => hok ⟨hnil.mp hgap.1, by omega⟩
    rw [ensure_pos hheld, ok_bind, hout]
    rfl

end Aikoql.Storage
