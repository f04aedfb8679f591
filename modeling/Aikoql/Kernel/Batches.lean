import Aikoql.Kernel.Store

/-!
# What a Batch Does to a Table

Each table of the store behind a batch, in terms of the rows of that table the batch
puts and deletes.

A batch lists rows of all kinds. A table only sees its own, so what it is afterwards is
read off the part of the batch that is about it, and the parts of two batches filled
one after the other are the two parts in order.

## Theorems

* `events_writeBatch`, `journal_writeBatch`, `heads_writeBatch`, `objects_writeBatch`:
  The tables behind a batch.
* `mem_relOut_writeBatch`, `mem_relIn_writeBatch`: The relationship rows behind a
  batch.
* `mem_headObjects`, `mem_derivedEdges`: The current versions, and the relationship
  rows they call for.
-/

namespace Aikoql.Kernel

open List

/-! ## Parts -/

def Put.asEvent : Put → Option (Nat × KnowledgeEvent)
  | .event seq ke => some (seq, ke)
  | _ => none

def Put.asJournal : Put → Option JournalHead
  | .journal h => some h
  | _ => none

def Put.asHead : Put → Option (Koid × Head)
  | .head koid h => some (koid, h)
  | _ => none

def Put.asObject : Put → Option (Koid × Nat × KnowledgeObject)
  | .object koid ts ko => some (koid, ts, ko)
  | _ => none

def Put.asRelOut : Put → Option Edge
  | .relOut edge => some edge
  | _ => none

def Put.asRelIn : Put → Option Edge
  | .relIn edge => some edge
  | _ => none

def Put.asTomb : Put → Option (Koid × Bytes × Nat)
  | .tomb koid payloadHash seq => some (koid, payloadHash, seq)
  | _ => none

def Put.asType : Put → Option (Text × Koid)
  | .typeRow typeName koid => some (typeName, koid)
  | _ => none

def Put.asUsage : Put → Option (Text × Nat)
  | .usageRow tenant count => some (tenant, count)
  | _ => none

def Put.asUsageHead : Put → Option (Nat × Nat)
  | .usageHead seq ts => some (seq, ts)
  | _ => none

def Put.asIdem : Put → Option (Text × IdemRow)
  | .idem key row => some (key, row)
  | _ => none

def Put.asTxn : Put → Option (Text × TxnRecord)
  | .txn id record => some (id, record)
  | _ => none

def Del.asHead : Del → Option Koid
  | .head koid => some koid
  | _ => none

def Del.asObject : Del → Option (Koid × Nat)
  | .object koid ts => some (koid, ts)
  | _ => none

def Del.asRelOut : Del → Option Edge
  | .relOut edge => some edge
  | _ => none

def Del.asRelIn : Del → Option Edge
  | .relIn edge => some edge
  | _ => none

def Del.asType : Del → Option (Text × Koid)
  | .typeRow typeName koid => some (typeName, koid)
  | _ => none

/-! ## Tables -/

theorem foldl_part {σ τ ω β : Type} {apply : σ → ω → σ} {table : σ → τ} {part : ω → Option β}
    {act : τ → β → τ} (h : ∀ s o, table (apply s o) = (part o).elim (table s) (act (table s)))
    (ops : List ω) (s : σ) :
    table (ops.foldl apply s) = (ops.filterMap part).foldl act (table s) := by
  induction ops generalizing s with
  | nil => rfl
  | cons o ops ih =>
    rw [foldl_cons, ih, h]
    cases hpart : part o with
    | none => rw [filterMap_cons_none hpart, Option.elim_none]
    | some b => rw [filterMap_cons_some hpart, foldl_cons, Option.elim_some]

theorem table_writeBatch {τ β γ : Type} {table : Store → τ} {put : Put → Option β}
    {del : Del → Option γ} {insert : τ → β → τ} {erase : τ → γ → τ}
    (hput : ∀ s p, table (s.put p) = (put p).elim (table s) (insert (table s)))
    (hdel : ∀ s d, table (s.del d) = (del d).elim (table s) (erase (table s)))
    (s : Store) (batch : WriteBatch) :
    table (s.writeBatch batch) = (batch.dels.filterMap del).foldl erase
          ((batch.puts.filterMap put).foldl insert (table s)) := by
  rw [Store.writeBatch, foldl_part hdel, foldl_part hput]

theorem table_writeBatch_puts {τ β : Type} {table : Store → τ} {put : Put → Option β}
    {insert : τ → β → τ}
    (hput : ∀ s p, table (s.put p) = (put p).elim (table s) (insert (table s)))
    (hdel : ∀ s d, table (s.del d) = table s) (s : Store) (batch : WriteBatch) :
    table (s.writeBatch batch) = (batch.puts.filterMap put).foldl insert (table s) := by
  have h := @table_writeBatch τ β Unit table put (fun _ => none) insert (fun m _ => m) hput hdel
    s batch
  simpa using h

section

variable (s : Store) (batch : WriteBatch)

theorem events_writeBatch : (s.writeBatch batch).events
      = (batch.puts.filterMap Put.asEvent).foldl (fun m e => m.insert e.1 e.2) s.events :=
  table_writeBatch_puts (fun s p => by cases p <;> rfl) (fun s d => by cases d <;> rfl) s batch

theorem journal_writeBatch : (s.writeBatch batch).journal
      = (batch.puts.filterMap Put.asJournal).foldl (fun _ h => some h) s.journal :=
  table_writeBatch_puts (fun s p => by cases p <;> rfl) (fun s d => by cases d <;> rfl) s batch

theorem usage_writeBatch : (s.writeBatch batch).usage
      = (batch.puts.filterMap Put.asUsage).foldl (fun m u => m.insert u.1 u.2) s.usage :=
  table_writeBatch_puts (fun s p => by cases p <;> rfl) (fun s d => by cases d <;> rfl) s batch

theorem idem_writeBatch : (s.writeBatch batch).idem
      = (batch.puts.filterMap Put.asIdem).foldl (fun m r => m.insert r.1 r.2) s.idem :=
  table_writeBatch_puts (fun s p => by cases p <;> rfl) (fun s d => by cases d <;> rfl) s batch

theorem txns_writeBatch : (s.writeBatch batch).txns
      = (batch.puts.filterMap Put.asTxn).foldl (fun m r => m.insert r.1 r.2) s.txns :=
  table_writeBatch_puts (fun s p => by cases p <;> rfl) (fun s d => by cases d <;> rfl) s batch

theorem types_writeBatch : (s.writeBatch batch).types
      = (batch.dels.filterMap Del.asType).foldl (fun m e => m.erase e)
          ((batch.puts.filterMap Put.asType).foldl (fun m e => insert e m) s.types) :=
  table_writeBatch (fun s p => by cases p <;> rfl) (fun s d => by cases d <;> rfl) s batch

theorem heads_writeBatch : (s.writeBatch batch).heads
      = (batch.dels.filterMap Del.asHead).foldl (fun m k => m.erase k)
          ((batch.puts.filterMap Put.asHead).foldl (fun m kh => m.insert kh.1 kh.2) s.heads) :=
  table_writeBatch (fun s p => by cases p <;> rfl) (fun s d => by cases d <;> rfl) s batch

theorem objects_writeBatch (koid : Koid) : (s.writeBatch batch).objects koid
      = (batch.dels.filterMap Del.asObject).foldl (fun m d => if koid = d.1 then m.erase d.2 else m)
          ((batch.puts.filterMap Put.asObject).foldl
            (fun m o => if koid = o.1 then m.insert o.2.1 o.2.2 else m) (s.objects koid)) :=
  @table_writeBatch _ _ _ (fun s => s.objects koid) _ _ _ _ (fun s p => by cases p <;> rfl)
    (fun s d => by cases d <;> rfl) s batch

theorem relOut_writeBatch : (s.writeBatch batch).relOut
      = (batch.dels.filterMap Del.asRelOut).foldl (fun m e => m.erase e)
          ((batch.puts.filterMap Put.asRelOut).foldl (fun m e => insert e m) s.relOut) :=
  table_writeBatch (fun s p => by cases p <;> rfl) (fun s d => by cases d <;> rfl) s batch

theorem relIn_writeBatch : (s.writeBatch batch).relIn
      = (batch.dels.filterMap Del.asRelIn).foldl (fun m e => m.erase e)
          ((batch.puts.filterMap Put.asRelIn).foldl (fun m e => insert e m) s.relIn) :=
  table_writeBatch (fun s p => by cases p <;> rfl) (fun s d => by cases d <;> rfl) s batch

end

/-! ## Rows -/

theorem foldl_eq_self {α τ : Type} {act : τ → α → τ} {xs : List α}
    (h : ∀ x ∈ xs, ∀ m, act m x = m) (m : τ) : xs.foldl act m = m := by
  induction xs with
  | nil => rfl
  | cons x xs ih =>
    rw [foldl_cons, h x mem_cons_self]
    exact ih fun y hy => h y (mem_cons_of_mem x hy)

theorem foldl_eq_one {α τ : Type} {act : τ → α → τ} {xs : List α} {x : α} (hx : x ∈ xs)
    (hnodup : xs.Nodup) (h : ∀ y ∈ xs, y ≠ x → ∀ m, act m y = m) (m : τ) :
    xs.foldl act m = act m x := by
  induction xs generalizing m with
  | nil => cases hx
  | cons y ys ih =>
    obtain ⟨hy, hys⟩ := nodup_cons.mp hnodup
    rw [foldl_cons]
    by_cases hyx : y = x
    · subst hyx
      refine foldl_eq_self (fun z hz => h z (mem_cons_of_mem y hz) ?_) _
      rintro rfl
      exact hy hz
    · rw [h y mem_cons_self hyx]
      have hmem : x ∈ ys := (mem_cons.mp hx).resolve_left (Ne.symm hyx)
      exact ih hmem hys (fun z hz => h z (mem_cons_of_mem y hz)) m

theorem getElem?_foldl_insert {κ β : Type} [Ord κ] [Std.TransOrd κ] [Std.LawfulEqOrd κ]
    [DecidableEq κ] (rows : List (κ × β)) (m : Std.ExtTreeMap κ β) (k : κ) :
    (rows.foldl (fun m r => m.insert r.1 r.2) m)[k]?
      = rows.foldl (fun found r => if r.1 = k then some r.2 else found) m[k]? := by
  induction rows generalizing m with
  | nil => rfl
  | cons r rows ih =>
    rw [foldl_cons, ih, foldl_cons, Std.ExtTreeMap.getElem?_insert]
    simp only [Std.LawfulEqCmp.compare_eq_iff_eq]

theorem foldl_found {κ β : Type} [DecidableEq κ] (rows : List (κ × β)) (found : Option β) (k : κ) :
    ((∀ r ∈ rows, r.1 ≠ k) ∧
        rows.foldl (fun found r => if r.1 = k then some r.2 else found) found = found) ∨
      ∃ r ∈ rows, r.1 = k ∧
        rows.foldl (fun found r => if r.1 = k then some r.2 else found) found = some r.2 := by
  induction rows generalizing found with
  | nil => exact .inl ⟨by simp, rfl⟩
  | cons r rows ih =>
    rw [foldl_cons]
    rcases ih (if r.1 = k then some r.2 else found) with ⟨hnone, hfound⟩ | ⟨r', hr', hk, hfound⟩
    · rw [hfound]
      by_cases hr : r.1 = k
      · exact .inr ⟨r, mem_cons_self, hr, by rw [if_pos hr]⟩
      · exact .inl ⟨forall_mem_cons.mpr ⟨hr, hnone⟩, by rw [if_neg hr]⟩
    · exact .inr ⟨r', mem_cons_of_mem _ hr', hk, hfound⟩

theorem mem_or_of_foldl_insert {κ β : Type} [Ord κ] [Std.TransOrd κ] [Std.LawfulEqOrd κ]
    [DecidableEq κ] {rows : List (κ × β)} {m : Std.ExtTreeMap κ β} {k : κ} {v : β}
    (h : (rows.foldl (fun m r => m.insert r.1 r.2) m)[k]? = some v) :
    (k, v) ∈ rows ∨ m[k]? = some v := by
  rw [getElem?_foldl_insert] at h
  rcases foldl_found rows m[k]? k with ⟨-, hfound⟩ | ⟨r, hr, rfl, hfound⟩
  · exact .inr (hfound ▸ h)
  · rw [hfound] at h
    cases h
    exact .inl hr

theorem mem_foldl_erase_names {κ β : Type} [Ord κ] [Std.TransOrd κ] [Std.LawfulEqOrd κ]
    (ks : List κ) (m : Std.ExtTreeMap κ β) (k : κ) :
    k ∈ ks.foldl (fun m k => m.erase k) m ↔ k ∈ m ∧ k ∉ ks := by
  induction ks generalizing m with
  | nil => simp
  | cons k' ks ih =>
    rw [foldl_cons, ih, Std.ExtTreeMap.mem_erase, mem_cons,
      Ne, Std.LawfulEqCmp.compare_eq_iff_eq, eq_comm]
    tauto

theorem foldl_erase_keys {κ β : Type} [Ord κ] [Std.TransOrd κ] [Std.LawfulEqOrd κ]
    (m : Std.ExtTreeMap κ β) : m.keys.foldl (fun m k => m.erase k) m = ∅ := by
  rw [Std.ExtTreeMap.eq_empty_iff_forall_not_mem]
  intro k hk
  rw [mem_foldl_erase_names, Std.ExtTreeMap.mem_keys] at hk
  exact hk.2 hk.1

theorem mem_foldl_insert {α : Type} [DecidableEq α] (es : List α) (m : Finset α) (x : α) :
    x ∈ es.foldl (fun m e => insert e m) m ↔ x ∈ m ∨ x ∈ es := by
  induction es generalizing m with
  | nil => simp
  | cons e es ih =>
    rw [foldl_cons, ih, Finset.mem_insert, mem_cons]
    tauto

theorem mem_foldl_erase {α : Type} [DecidableEq α] (es : List α) (m : Finset α) (x : α) :
    x ∈ es.foldl (fun m e => m.erase e) m ↔ x ∈ m ∧ x ∉ es := by
  induction es generalizing m with
  | nil => simp
  | cons e es ih =>
    rw [foldl_cons, ih, Finset.mem_erase, mem_cons]
    tauto

theorem mem_relOut_writeBatch (s : Store) (batch : WriteBatch) (e : Edge) :
    e ∈ (s.writeBatch batch).relOut ↔ (e ∈ s.relOut ∨ e ∈ batch.puts.filterMap Put.asRelOut) ∧
        e ∉ batch.dels.filterMap Del.asRelOut := by
  rw [relOut_writeBatch, mem_foldl_erase, mem_foldl_insert]

theorem mem_relIn_writeBatch (s : Store) (batch : WriteBatch) (e : Edge) :
    e ∈ (s.writeBatch batch).relIn ↔ (e ∈ s.relIn ∨ e ∈ batch.puts.filterMap Put.asRelIn) ∧
        e ∉ batch.dels.filterMap Del.asRelIn := by
  rw [relIn_writeBatch, mem_foldl_erase, mem_foldl_insert]

theorem mem_headObjects {s : Store} {koid : Koid} {ko : KnowledgeObject} :
    (koid, ko) ∈ s.headObjects ↔ s.headObject koid = some ko := by
  simp only [Store.headObjects, mem_filterMap, Store.headObject, Option.bind_eq_some_iff]
  constructor
  · rintro ⟨⟨koid', head⟩, hhead, hko⟩
    rcases Option.map_eq_some_iff.mp hko with ⟨ko', hko', heq⟩
    obtain ⟨rfl, rfl⟩ := Prod.mk.inj heq
    exact ⟨head, Std.ExtTreeMap.mem_toList_iff_getElem?_eq_some.mp hhead, hko'⟩
  · rintro ⟨head, hhead, hko⟩
    refine ⟨(koid, head), Std.ExtTreeMap.mem_toList_iff_getElem?_eq_some.mpr hhead, ?_⟩
    rw [hko]
    rfl

theorem mem_derivedEdges (s : Store) (e : Edge) : e ∈ s.derivedEdges ↔
      ∃ koid ko, s.headObject koid = some ko ∧ ∃ rel ∈ ko.relationships, rel.edge koid = e := by
  simp only [Store.derivedEdges, mem_toFinset, mem_flatMap, mem_map, Prod.exists, mem_headObjects]

end Aikoql.Kernel
