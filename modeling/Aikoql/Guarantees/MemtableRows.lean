import Aikoql.Storage.MemtableSegments

/-!
# The Rows of a Memtable

What a memtable holds and answers after any calls.

The memtable replaced a flat map from keys and sequence numbers to entries, and it must
still be one: calls come with sequence numbers in any order and may repeat one. A chain is
sorted and keeps one version for a number, so the entries are the rows of the flat map in
its order. Reads take the newest row of a kind from a chain, and the byte count is changed
by what each call adds and takes away.

## Main definitions

* `flatRows`: The flat map that calls make.
* `write`: One call, of a byte row or an object row.

## Main theorems

* `Memtable.mem_prefixHeads`: The keys with a prefix are next to each other.
* `memtable_refines_flat`: A memtable after any calls, as a flat map.
-/

namespace Aikoql.Storage

open List Option

/-- The rows of a list under their key and number. -/
def flatRows (rows : List (Bytes × Nat × MemEntry)) : List ((Bytes × Nat) × MemEntry) :=
  rows.map fun row => ((row.1, row.2.1), row.2.2)

def IsHead (rows : List (Bytes × Nat × MemEntry)) (key : Bytes) (kind : Option Bytes → MemEntry)
    (value : Option Bytes) : Prop :=
  ∃ seq, (key, seq, kind value) ∈ rows ∧ ∀ seq' value', (key, seq', kind value') ∈ rows → seq' ≤ seq

/-- In a list by ascending key, the rows are what looking up their keys finds. -/
theorem mem_iff_lookup {K W : Type} [LinearOrder K] [BEq K] [LawfulBEq K] {rows : List (K × W)}
    (h : rows.Pairwise fun a b => a.1 < b.1) (kv : K × W) : kv ∈ rows ↔ rows.lookup kv.1 = some kv.2 := by
  induction rows with
  | nil => simp
  | cons r rows ih =>
    rw [pairwise_cons] at h
    rw [mem_cons, lookup_cons]
    by_cases hk : kv.1 = r.1
    · have hnot : kv ∉ rows := fun hmem => (h.1 kv hmem).ne hk.symm
      simp [hk, hnot, Prod.ext_iff, eq_comm]
    · have hne : kv ≠ r := fun heq => hk (congrArg Prod.fst heq)
      rw [beq_false_of_ne hk]
      simp [hne, ih h.2]

namespace Memtable

def cost (row : Bytes × Nat × MemEntry) : Nat :=
  row.1.length + row.2.2.valueLen + entryOverhead

/-- One call: a byte row is applied by itself and an object row under its replica. -/
def write (m : Memtable) (row : Bytes × Nat × MemEntry) : Memtable :=
  match row.2.2 with
  | .byte value => m.apply row.1 row.2.1 value
  | .object value rid => m.applyObject row.1 row.2.1 value rid

/-- The versions of a chain, moved out from the `i`th of `n`. They are given copies of the key and
    the last one the key itself, which must be there. -/
def moveOut (n : Nat) : Nat → Option Bytes → List (Nat × MemEntry) →
    Option (List ((Bytes × Nat) × MemEntry))
  | _, _, [] => some []
  | i, key, (seq, e) :: versions => do
      let k ← key
      let rest ← moveOut n (i + 1) (if i + 1 = n then none else key) versions
      return ((k, seq), e) :: rest

/-- All entries, moved out by key and then by sequence number. -/
def intoEntries (m : Memtable) : Option (List ((Bytes × Nat) × MemEntry)) :=
  (m.map.toList.mapM fun kc => moveOut kc.2.versions.length 0 (some kc.1) kc.2.versions).map
    List.flatten

/-! ## Entries -/

theorem write_eq (m : Memtable) (row : Bytes × Nat × MemEntry) :
    m.write row = m.insert row.1 row.2.1 row.2.2 := by
  obtain ⟨key, seq, e⟩ := row
  cases e <;> rfl

theorem mem_entries_write (m : Memtable) (row other : Bytes × Nat × MemEntry) :
    other ∈ (m.write row).entries ↔
      other = row ∨ other ∈ m.entries ∧ (other.1, other.2.1) ≠ (row.1, row.2.1) := by
  obtain ⟨key, seq, e⟩ := row
  obtain ⟨key', seq', e'⟩ := other
  rw [write_eq, mem_entries, mem_entries, chain_insert]
  by_cases hkey : key = key'
  · subst hkey
    rw [if_pos rfl, VersionChain.versions_insert,
      VersionChain.mem_insertVersion (m.chain key).sorted]
    simp
  · rw [if_neg hkey]
    simp [Ne.symm hkey]

theorem mem_entries_foldl (rows : List (Bytes × Nat × MemEntry)) (key : Bytes) (seq : Nat)
    (e : MemEntry) : (key, seq, e) ∈ (rows.foldl write new).entries ↔
      lastWrite (flatRows rows) (key, seq) = some e := by
  -- By induction on the last call.
  induction rows using List.reverseRecOn with
  | nil => simp [new, entries, flatRows, lastWrite]
  | append_singleton rows row ih =>
    obtain ⟨key', seq', e'⟩ := row
    rw [foldl_concat, mem_entries_write, ih]
    unfold flatRows
    rw [map_append, lastWrite_append]
    by_cases hsame : (key', seq') = (key, seq)
    · cases hsame
      simp [lastWrite, eq_comm]
    · have hne : (key, seq, e) ≠ (key', seq', e') := by
        rintro ⟨⟩
        exact hsame rfl
      simp [lastWrite, hsame, hne, Ne.symm hsame]

theorem pairwise_entries (m : Memtable) :
    m.entries.Pairwise fun a b => a.1 < b.1 ∨ a.1 = b.1 ∧ a.2.1 < b.2.1 :=
  pairwise_map.mp m.sorted_entries

theorem nodup_entries (m : Memtable) : m.entries.Nodup := by
  refine m.pairwise_entries.imp fun {a b} hlt heq => ?_
  rw [heq] at hlt
  rcases hlt with hlt | ⟨-, hlt⟩
  · exact lt_irrefl _ hlt
  · exact lt_irrefl _ hlt

theorem moveOut_eq (n i : Nat) (key : Bytes) (vs : List (Nat × MemEntry)) (h : i + vs.length = n) :
    moveOut n i (some key) vs = some (vs.map fun v => ((key, v.1), v.2)) := by
  induction vs generalizing i with
  | nil => rfl
  | cons v vs ih =>
    rw [length_cons] at h
    unfold moveOut
    cases vs with
    | nil => rfl
    | cons w vs =>
      -- The key is gone only behind the last version.
      rw [if_neg (by simp at h; omega), ih (i + 1) (by omega)]
      rfl

theorem intoEntries_eq (m : Memtable) : m.intoEntries = some (flatRows m.entries) := by
  have hmove : (fun kc : Bytes × VersionChain =>
      moveOut kc.2.versions.length 0 (some kc.1) kc.2.versions)
        = fun kc => pure (kc.2.versions.map fun v => ((kc.1, v.1), v.2)) :=
    funext fun kc => moveOut_eq _ 0 kc.1 kc.2.versions (Nat.zero_add _)
  unfold intoEntries flatRows entries
  rw [hmove, mapM_pure, map_flatMap]
  simp [List.flatMap, Function.comp_def]

/-! ## Reads -/

theorem head_iff (m : Memtable) (key : Bytes) {kind : Option Bytes → MemEntry}
    {hit : Nat × MemEntry → Option (Option Bytes)}
    (hhit : ∀ v value, hit v = some value ↔ v.2 = kind value) (value : Option Bytes) :
    (m.chain key).versions.reverse.findSome? hit = some value ↔
      IsHead m.entries key kind value := by
  unfold IsHead
  simp only [mem_entries]
  have hsorted := (m.chain key).sorted
  generalize (m.chain key).versions = vs at hsorted ⊢
  induction vs using List.reverseRecOn with
  | nil => simp
  | append_singleton vs v ih =>
    obtain ⟨hvs, -, hlt⟩ := pairwise_append.mp hsorted
    rw [reverse_append, reverse_singleton, singleton_append, findSome?_cons]
    cases hv : hit v with
    | none =>
      have hother : ∀ seq value, (seq, kind value) ≠ v := by
        rintro seq value rfl
        rw [(hhit _ value).mpr rfl] at hv
        cases hv
      simpa [hother] using ih hvs
    | some newest =>
      obtain ⟨seq, e⟩ := v
      obtain rfl : e = kind newest := (hhit _ newest).mp hv
      constructor
      · rintro ⟨⟩
        refine ⟨seq, by simp, fun seq' value' hrow => ?_⟩
        rcases mem_append.mp hrow with hrow | hrow
        · exact (hlt _ hrow _ (mem_singleton_self _)).le
        · exact (Prod.mk.inj (mem_singleton.mp hrow)).1.le
      · rintro ⟨seq', hrow, hnewest⟩
        have hle := hnewest seq newest (by simp)
        rcases mem_append.mp hrow with hrow | hrow
        · have := hlt _ hrow _ (mem_singleton_self _)
          omega
        · have hkind := (Prod.mk.inj (mem_singleton.mp hrow)).2.symm
          exact hv.symm.trans ((hhit _ value).mpr hkind)

theorem get_iff (m : Memtable) (key : Bytes) (value : Option Bytes) :
    m.get key = some value ↔ IsHead m.entries key .byte value := by
  rw [get_eq_byteHead]
  refine m.head_iff key ?_ value
  rintro ⟨seq, e⟩ value
  cases e <;> simp

theorem getByRid_iff (m : Memtable) (key : Bytes) (rid : ReplicaId) (value : Option Bytes) :
    m.getByRid key rid = some value ↔ IsHead m.entries key (.object · rid) value := by
  have hchain : m.getByRid key rid = (m.chain key).objectHead rid := by
    unfold getByRid chain
    cases m.map[key]? <;> rfl
  rw [hchain]
  refine m.head_iff key ?_ value
  rintro ⟨seq, e⟩ value
  cases e <;> simp [and_comm]

theorem isPrefix_of_between {p k k' : Bytes} (hp : ¬k < p) (hlt : k < k') (h : p <+: k') :
    p <+: k := by
  induction p generalizing k k' with
  | nil => exact nil_prefix
  | cons a p ih =>
    obtain ⟨rest, rfl⟩ := h
    cases k with
    | nil => exact absurd (nil_lt_cons _ _) hp
    | cons b k =>
      rw [cons_lt_cons_iff] at hp
      rw [cons_append, cons_lt_cons_iff] at hlt
      obtain ⟨rfl, htail⟩ := hlt.resolve_left fun hba => hp (.inl hba)
      exact cons_prefix_cons.mpr
        ⟨rfl, ih (fun hkp => hp (.inr ⟨rfl, hkp⟩)) htail (prefix_append _ _)⟩

section

variable {α : Type} {q : α → Bool} {l : List α}

theorem takeWhile_eq_filter (h : l.Pairwise fun a b => q b = true → q a = true) :
    l.takeWhile q = l.filter q := by
  induction l with
  | nil => rfl
  | cons a l ih =>
    obtain ⟨ha, hl⟩ := pairwise_cons.mp h
    by_cases hq : q a = true
    · rw [takeWhile_cons_of_pos hq, filter_cons_of_pos hq, ih hl]
    · rw [takeWhile_cons_of_neg hq, filter_cons_of_neg hq, eq_comm, filter_eq_nil_iff]
      exact fun b hb hqb => hq (ha b hb hqb)

theorem dropWhile_eq_filter (h : l.Pairwise fun a b => q b = true → q a = true) :
    l.dropWhile q = l.filter fun a => !q a := by
  induction l with
  | nil => rfl
  | cons a l ih =>
    obtain ⟨ha, hl⟩ := pairwise_cons.mp h
    by_cases hq : q a = true
    · rw [dropWhile_cons_of_pos hq, filter_cons_of_neg (by simp [hq]), ih hl]
    · rw [dropWhile_cons_of_neg hq, eq_comm, filter_eq_self]
      refine forall_mem_cons.mpr ⟨by simp [hq], fun b hb => ?_⟩
      simpa using fun hqb => hq (ha b hb hqb)

end

theorem prefixHeads_eq (m : Memtable) (p : Bytes) :
    m.prefixHeads p = (m.map.toList.filter fun kc => p.isPrefixOf kc.1).filterMap
      fun kc => kc.2.byteHead.map fun value => (kc.1, value) := by
  have hkeys : m.map.toList.Pairwise fun a b => a.1 < b.1 :=
    Std.ExtTreeMap.ordered_keys_toList.imp fun {a b} hab => (compare_eq_lt_iff _ _).mp hab
  unfold prefixHeads
  rw [dropWhile_eq_filter, takeWhile_eq_filter, List.filter_filter]
  · refine congrArg _ (filter_congr fun kc _ => ?_)
    by_cases hp : p.isPrefixOf kc.1 = true
    · have hle : ¬kc.1 < p := ( isPrefixOf_iff_prefix.mp hp).le
      simpa [hp] using hle
    · simp [hp]
  · refine (hkeys.filter _).imp_of_mem fun {a b} ha _ hlt hb => ?_
    have hle : ¬a.1 < p := by simpa using (mem_filter.mp ha).2
    rw [ isPrefixOf_iff_prefix] at hb ⊢
    exact isPrefix_of_between hle hlt hb
  · refine hkeys.imp fun {a b} hlt hb => ?_
    simp only [decide_eq_true_eq] at hb ⊢
    exact hlt.trans hb

theorem mem_prefixHeads (m : Memtable) (p key : Bytes) (value : Option Bytes) :
    (key, value) ∈ m.prefixHeads p ↔ p <+: key ∧ m.get key = some value := by
  rw [prefixHeads_eq, get, bind_eq_some_iff, mem_filterMap]
  constructor
  · rintro ⟨⟨k, chain⟩, hmem, hvalue⟩
    obtain ⟨_, hhead, heq⟩ := map_eq_some_iff.mp hvalue
    cases heq
    rw [mem_filter, Std.ExtTreeMap.mem_toList_iff_getElem?_eq_some] at hmem
    exact ⟨ isPrefixOf_iff_prefix.mp hmem.2, chain, hmem.1, hhead⟩
  · rintro ⟨hp, chain, hchain, hhead⟩
    refine ⟨(key, chain), mem_filter.mpr ⟨?_, isPrefixOf_iff_prefix.mpr hp⟩, ?_⟩
    · exact Std.ExtTreeMap.mem_toList_iff_getElem?_eq_some.mpr hchain
    · rw [hhead]
      rfl

theorem pairwise_prefixHeads (m : Memtable) (p : Bytes) :
    (m.prefixHeads p).Pairwise fun a b => a.1 < b.1 := by
  rw [prefixHeads_eq, pairwise_filterMap]
  refine (Std.ExtTreeMap.ordered_keys_toList.filter _).imp fun {a b} hlt x hx y hy => ?_
  obtain ⟨_, -, rfl⟩ := map_eq_some_iff.mp hx
  obtain ⟨_, -, rfl⟩ := map_eq_some_iff.mp hy
  exact (compare_eq_lt_iff _ _).mp hlt

/-! ## The byte count -/

theorem bytes_insert (m : Memtable) (key : Bytes) (seq : Nat) (e : MemEntry) :
    (m.insert key seq e).bytes = ((m.chain key).versions.lookup seq).elim
      (m.bytes + cost (key, seq, e)) fun old => m.bytes + e.valueLen - old.valueLen := by
  unfold insert chain
  cases m.map[key]? with
  | none => rfl
  | some chain =>
    dsimp only [getD_some]
    cases chain.versions.lookup seq <;> rfl

theorem bytes_write (m : Memtable) (row : Bytes × Nat × MemEntry)
    (h : m.bytes = (m.entries.map cost).sum) :
    (m.write row).bytes = ((m.write row).entries.map cost).sum := by
  have hmem := m.mem_entries_write row
  have hnodup' := (m.write row).nodup_entries
  obtain ⟨key, seq, e⟩ := row
  rw [write_eq] at hmem hnodup' ⊢
  -- The rows of other keys and numbers, which stay.
  let others := m.entries.filter fun row => (row.1, row.2.1) ≠ (key, seq)
  have hothers : others.Nodup := m.nodup_entries.filter _
  have hold : ∀ x, (key, seq, x) ∈ m.entries ↔ (m.chain key).versions.lookup seq = some x :=
    fun x => (m.mem_entries key seq x).trans (mem_iff_lookup (m.chain key).sorted (seq, x))
  have hnot : ∀ x, (key, seq, x) ∉ others := fun x => by simp [others]
  have hbehind : (m.insert key seq e).entries.Perm ((key, seq, e) :: others) := by
    refine (perm_ext_iff_of_nodup hnodup' (nodup_cons.mpr ⟨hnot e, hothers⟩)).mpr ?_
    intro row
    rw [hmem, mem_cons, mem_filter, decide_eq_true_eq]
  have hbefore : m.entries.Perm
      (((m.chain key).versions.lookup seq).toList.map (fun x => (key, seq, x)) ++ others) := by
    refine (perm_ext_iff_of_nodup m.nodup_entries ?_).mpr ?_
    · cases (m.chain key).versions.lookup seq <;> simp [hothers, hnot]
    · rintro ⟨key', seq', x⟩
      by_cases hsame : (key', seq') = (key, seq)
      · cases hsame
        simp [hold, hnot, eq_comm]
      · have hstays : (key', seq', x) ∈ others ↔ (key', seq', x) ∈ m.entries := by
          rw [mem_filter, decide_eq_true_eq]
          exact and_iff_left hsame
        have hother : ∀ y, (key, seq, y) ≠ (key', seq', x) := by
          rintro y ⟨⟩
          exact hsame rfl
        simp [hstays, hother]
  rw [(hbehind.map cost).sum_eq, bytes_insert, h, (hbefore.map cost).sum_eq]
  cases (m.chain key).versions.lookup seq with
  | none => simp [Nat.add_comm]
  | some old =>
    simp [cost]
    omega

end Memtable

/-- After any calls, in any order of sequence numbers, the entries are the rows of the flat
    map, one for each key and number and the last that was applied, by key and then by
    number. Reads answer the newest row of their kind, and the byte count is the sum over
    the entries. -/
theorem memtable_refines_flat (rows : List (Bytes × Nat × MemEntry)) :
    let m := rows.foldl Memtable.write Memtable.new
    (m.entries.Pairwise fun a b => a.1 < b.1 ∨ a.1 = b.1 ∧ a.2.1 < b.2.1) ∧
      (∀ key seq e, (key, seq, e) ∈ m.entries ↔ lastWrite (flatRows rows) (key, seq) = some e) ∧
      m.intoEntries = some (flatRows m.entries) ∧
      (∀ key value, m.get key = some value ↔ IsHead m.entries key .byte value) ∧
      (∀ key rid value, m.getByRid key rid = some value ↔
        IsHead m.entries key (.object · rid) value) ∧
      (∀ p, ((m.prefixHeads p).Pairwise fun a b => a.1 < b.1) ∧
        ∀ key value, (key, value) ∈ m.prefixHeads p ↔
          p <+: key ∧ IsHead m.entries key .byte value) ∧
      m.bytes = (m.entries.map fun row =>
        row.1.length + row.2.2.valueLen + entryOverhead).sum := by
  intro m
  refine ⟨m.pairwise_entries, Memtable.mem_entries_foldl rows, m.intoEntries_eq, m.get_iff,
    m.getByRid_iff,
    fun p => ⟨m.pairwise_prefixHeads p, fun key value => ?_⟩, ?_⟩
  · rw [m.mem_prefixHeads, m.get_iff]
  · exact List.foldlRecOn (motive := fun m : Memtable => m.bytes = (m.entries.map Memtable.cost).sum)
      rows Memtable.write rfl fun m hm row _ => m.bytes_write row hm

end Aikoql.Storage
