import Aikoql.Lib.Layers
import Aikoql.Storage.Memtable

/-!
# Histories and Memtables

What a log leaves in a memtable that is built from it.

A surface is a key together with the replica that reads it, with replica zero
for the byte surface. A memtable fed the frames of a log keeps one entry per key
and frame, the last one, whichever surface it was written on.
-/

namespace Aikoql.Storage

open List

/-- A key and the replica that reads it; replica zero is the byte surface. -/
abbrev Surface := Bytes × ReplicaId

/-- The memtable entry an operation makes, with its key. -/
def Op.entry : Op → Option (Bytes × MemEntry)
  | .put k v => some (k, .byte (some v))
  | .delete k => some (k, .byte none)
  | .createObject _ _ _ _ => none
  | .putObject rid k v => some (k, .object (some v) rid)
  | .deleteObject rid k => some (k, .object none rid)

def WalFrame.entries (frame : WalFrame) : List (Bytes × MemEntry) :=
  frame.ops.filterMap Op.entry

def applyRow (seq : Nat) (m : Memtable) : Op → Memtable
  | .put k v => m.apply k seq (some v)
  | .delete k => m.apply k seq none
  | .createObject _ _ _ _ => m
  | .putObject rid k v => m.applyObject k seq (some v) rid
  | .deleteObject rid k => m.applyObject k seq none rid

def applyFrame (m : Memtable) (frame : WalFrame) : Memtable :=
  frame.ops.foldl (applyRow frame.seq.val) m

def memOf (frames : List WalFrame) : Memtable :=
  frames.foldl applyFrame Memtable.new

def WalFrame.version (k : Bytes) (frame : WalFrame) : Option (Nat × MemEntry) :=
  (lastWrite frame.entries k).map fun e => (frame.seq.val, e)

theorem applyRow_entry (seq : Nat) (m : Memtable) (op : Op) :
    applyRow seq m op = match op.entry with
      | some (k, e) => m.insert k seq e
      | none => m := by
  cases op <;> rfl

/-! ## Chains -/

theorem insertVersion_of_lt (seq : Nat) (e : MemEntry) (vs : List (Nat × MemEntry))
    (h : ∀ v ∈ vs, v.1 < seq) : VersionChain.insertVersion seq e vs = vs ++ [(seq, e)] := by
  induction vs with
  | nil => rfl
  | cons v vs ih =>
    rw [VersionChain.insertVersion, if_pos (h v mem_cons_self),
      ih (fun w hw => h w (mem_cons_of_mem v hw)), cons_append]

theorem insertVersion_replace (seq : Nat) (e old : MemEntry) (vs : List (Nat × MemEntry))
    (h : ∀ v ∈ vs, v.1 < seq) :
    VersionChain.insertVersion seq e (vs ++ [(seq, old)]) = vs ++ [(seq, e)] := by
  induction vs with
  | nil => simp [VersionChain.insertVersion]
  | cons v vs ih =>
    rw [cons_append, VersionChain.insertVersion, if_pos (h v mem_cons_self),
      ih (fun w hw => h w (mem_cons_of_mem v hw)), cons_append]

theorem chain_foldl_applyRow (seq : Nat) (k : Bytes) (vs : List (Nat × MemEntry))
    (hlt : ∀ v ∈ vs, v.1 < seq) (ops : List Op) (m : Memtable) (sofar : Option MemEntry)
    (hm : (m.chain k).versions = vs ++ (sofar.map fun e => (seq, e)).toList) :
    ((ops.foldl (applyRow seq) m).chain k).versions
      = vs ++ (((lastWrite (ops.filterMap Op.entry) k).or sofar).map fun e => (seq, e)).toList := by
  induction ops generalizing m sofar with
  | nil => simpa [lastWrite] using hm
  | cons op ops ih =>
    rw [foldl_cons, applyRow_entry, filterMap_cons]
    cases hop : op.entry with
    | none => exact ih m sofar hm
    | some ke =>
      obtain ⟨k', e⟩ := ke
      simp only
      by_cases hk : k' = k
      · subst hk
        have hins : ((m.insert k' seq e).chain k').versions
            = vs ++ ((some e).map fun e => (seq, e)).toList := by
          rw [Memtable.chain_insert, if_pos rfl, VersionChain.versions_insert, hm]
          cases sofar with
          | none => simpa using insertVersion_of_lt seq e vs hlt
          | some old => exact insertVersion_replace seq e old vs hlt
        rw [ih _ (some e) hins, ← singleton_append (x := (k', e)), lastWrite_append]
        simp [lastWrite]
      · have hkeep : (m.insert k' seq e).chain k = m.chain k := by
          rw [Memtable.chain_insert, if_neg hk]
        rw [ih _ sofar (by rw [hkeep, hm]), ← singleton_append (x := (k', e)), lastWrite_append]
        simp [lastWrite, hk]

theorem chain_applyFrame (m : Memtable) (frame : WalFrame) (k : Bytes)
    (hlt : ∀ v ∈ (m.chain k).versions, v.1 < frame.seq.val) :
    ((applyFrame m frame).chain k).versions = (m.chain k).versions ++ (frame.version k).toList := by
  have h := chain_foldl_applyRow frame.seq.val k _ hlt frame.ops m none (by simp)
  rw [applyFrame, h, Option.or_none]
  rfl

theorem chain_memOf (frames : List WalFrame) (k : Bytes)
    (hinc : frames.Pairwise fun a b => a.seq < b.seq) :
    ((memOf frames).chain k).versions = frames.filterMap (WalFrame.version k) := by
  induction frames using List.reverseRecOn with
  | nil => rfl
  | append_singleton frames frame ih =>
    rw [pairwise_append] at hinc
    have hprev := ih hinc.1
    have hlt : ∀ v ∈ ((memOf frames).chain k).versions, v.1 < frame.seq.val := by
      rw [hprev]
      intro v hv
      rcases mem_filterMap.mp hv with ⟨f, hf, hfv⟩
      rcases Option.map_eq_some_iff.mp hfv with ⟨e, _, rfl⟩
      exact hinc.2.2 f hf frame (by simp)
    have happ : memOf (frames ++ [frame]) = applyFrame (memOf frames) frame := by
      simp [memOf]
    rw [happ, chain_applyFrame _ _ _ hlt, hprev, filterMap_append]
    cases h : frame.version k <;> simp [h]

/-! ## Reading a surface -/

end Aikoql.Storage
