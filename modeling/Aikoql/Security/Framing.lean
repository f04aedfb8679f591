import Aikoql.Security.FieldCrypto

/-!
# Values as Bytes

Which values are read back from their bytes.

A value that fits its counts is read back. The converse rests on what the reader can return at
all: an item is cut out of the bytes by a count of two bytes, so whatever is read has items
that fit, and encodes in no more bytes than it was read from. The exception is a key of a map.
Bytes that are no string are repaired, and a repaired key can be longer than its bytes.

## Definitions

* `Utf8.Exact`: A key that is made of its own bytes only, which it is if nothing was repaired.

## Theorems

* `bytesToValue_valueToBytes`: A value that fits is read back.
* `fits_of_readValue`: What is read fits.
* `bytesToValue_valueToBytes_iff`: A value is read back exactly if it fits.
-/

namespace Aikoql.Security

open List
open Kernel (Text Value encI64)

variable {v : Value}

/-! ## Values are read back -/

variable {u : Utf8}

theorem readSized_sized {b : Bytes} (h : b.length < 2 ^ 16) (rest : Bytes) :
    readSized (sized b ++ rest) = some (b, rest) := by
  have hwidth : (leBytes 2 b.length).length = 2 := length_leBytes _ _
  have htake : (leBytes 2 b.length ++ (b ++ rest)).take 2 = leBytes 2 b.length :=
    take_left' hwidth
  have hdrop : (leBytes 2 b.length ++ (b ++ rest)).drop 2 = b ++ rest := drop_left' hwidth
  rw [sized, append_assoc, readSized, htake, hdrop, leNat_leBytes_of_lt 2 _ (by omega), take_left,
    drop_left, if_neg (by simp only [length_append, hwidth]; omega), if_neg (by simp)]

theorem insertEntry_append {k : Text} {es : List (Text × Value)} (h : ∀ e ∈ es, e.1 < k) :
    insertEntry k v es = es ++ [(k, v)] := by
  induction es with
  | nil => rfl
  | cons e es ih =>
    obtain ⟨he, hes⟩ := forall_mem_cons.mp h
    rw [insertEntry, if_neg he.asymm, if_neg he.ne', ih hes, cons_append]

theorem bmod_encI64 {i : Int} (h : -2 ^ 63 ≤ i ∧ i < 2 ^ 63) :
    Int.bmod (beNat (encI64 i)) (2 ^ 64) = i := by
  have hlt : (i % 2 ^ 64).toNat < 256 ^ 8 := by omega
  have hmod : (i % 2 ^ 64).bmod (2 ^ 64) = i.bmod (2 ^ 64) := Int.emod_bmod i (2 ^ 64)
  rw [encI64, beNat_beBytes_of_lt 8 _ hlt, Int.toNat_of_nonneg (by omega), hmod]
  exact Int.bmod_eq_of_le (by omega) (by omega)

theorem take_leBytes (n : Nat) (b : Bytes) :
    (leBytes 2 n ++ b).take 2 = leBytes 2 n ∧ (leBytes 2 n ++ b).drop 2 = b ∧
      ¬(leBytes 2 n ++ b).length < 2 := by
  refine ⟨take_left' (length_leBytes _ _), drop_left' (length_leBytes _ _), ?_⟩
  rw [length_append, length_leBytes]
  omega

mutual

theorem readValue_valueToBytes : ∀ (v : Value) (fuel : Nat), fits u v = true →
    (valueToBytes v).length ≤ fuel + 1 → readValue u (fuel + 1) (valueToBytes v) = some v
  | .null, _, _, _ => rfl
  | .bool true, _, _, _ => rfl
  | .bool false, _, _, _ => rfl
  | .int i, fuel, hfits, _ => by
      have hi : -2 ^ 63 ≤ i ∧ i < 2 ^ 63 := by simpa [fits] using hfits
      have hwidth : (encI64 i).length = 8 := length_beBytes _ _
      rw [valueToBytes, readValue]
      exact (if_pos hwidth).trans (congrArg (some ∘ Value.int) (bmod_encI64 hi))
  | .float bits, fuel, hfits, _ => by
      have hbits : bits < 256 ^ 8 := by simpa [fits] using hfits
      rw [valueToBytes, readValue]
      exact (if_pos (length_leBytes 8 bits)).trans
        (congrArg (some ∘ Value.float) (leNat_leBytes_of_lt 8 bits hbits))
  | .text t, fuel, hfits, _ => by
      have ht : u.valid t = true := by simpa [fits] using hfits
      rw [valueToBytes, readValue]
      exact if_pos ht
  | .bytes b, _, _, _ => rfl
  | .list vs, fuel, hfits, hfuel => by
      simp only [fits, Bool.and_eq_true, decide_eq_true_eq] at hfits
      obtain ⟨hlen, hitems⟩ := hfits
      obtain ⟨htake, hdrop, hwidth⟩ := take_leBytes vs.length (itemsToBytes vs maxItems)
      have hcount : leNat (leBytes 2 vs.length) = vs.length :=
        leNat_leBytes_of_lt 2 _ (by unfold maxItems at hlen; omega)
      simp only [valueToBytes, Nat.min_eq_left hlen, length_cons, length_append,
        length_leBytes] at hfuel ⊢
      obtain ⟨fuel, rfl⟩ : ∃ k, fuel = k + 1 := ⟨fuel - 1, by omega⟩
      -- What is nested is read with one less, which is still as much as there are bytes.
      have hread := readItems_itemsToBytes vs maxItems fuel hitems hlen (by omega)
      rw [readValue]
      simp only [htake, hdrop, hcount, hread, if_neg hwidth]
      rfl
  | .map es, fuel, hfits, hfuel => by
      simp only [fits, Bool.and_eq_true, decide_eq_true_eq] at hfits
      obtain ⟨hlen, hentries⟩ := hfits
      obtain ⟨htake, hdrop, hwidth⟩ := take_leBytes es.length (entriesToBytes es maxItems)
      have hcount : leNat (leBytes 2 es.length) = es.length :=
        leNat_leBytes_of_lt 2 _ (by unfold maxItems at hlen; omega)
      simp only [valueToBytes, Nat.min_eq_left hlen, length_cons, length_append,
        length_leBytes] at hfuel ⊢
      obtain ⟨fuel, rfl⟩ : ∃ k, fuel = k + 1 := ⟨fuel - 1, by omega⟩
      have hread := readEntries_entriesToBytes es maxItems fuel [] hentries hlen (by omega)
        (by simp)
      rw [readValue]
      simp only [htake, hdrop, hcount, hread, if_neg hwidth]
      rfl

theorem readItems_itemsToBytes : ∀ (vs : List Value) (n fuel : Nat), fitItems u vs = true →
    vs.length ≤ n → (itemsToBytes vs n).length ≤ fuel + 1 →
    readItems (readValue u (fuel + 1)) vs.length (itemsToBytes vs n) = vs
  | [], _, _, _, _, _ => rfl
  | _ :: _, 0, _, _, hn, _ => by simp at hn
  | v :: vs, n + 1, fuel, hfits, hn, hfuel => by
      simp only [fitItems, Bool.and_eq_true, decide_eq_true_eq] at hfits
      obtain ⟨⟨hsize, hv⟩, hvs⟩ := hfits
      simp only [itemsToBytes, sized, length_append, length_leBytes] at hfuel
      rw [length_cons, itemsToBytes, readItems, readSized_sized hsize]
      simp only [readValue_valueToBytes v fuel hv (by omega),
        readItems_itemsToBytes vs n fuel hvs (by simpa using hn) (by omega), Option.toList_some,
        singleton_append]

theorem readEntries_entriesToBytes : ∀ (es : List (Text × Value)) (n fuel : Nat)
    (before : List (Text × Value)), fitEntries u es = true → es.length ≤ n →
    (entriesToBytes es n).length ≤ fuel + 1 → (∀ e ∈ before, ∀ e' ∈ es, e.1 < e'.1) →
    readEntries u (readValue u (fuel + 1)) es.length (entriesToBytes es n) before = before ++ es
  | [], _, _, before, _, _, _, _ => by simp [readEntries]
  | _ :: _, 0, _, _, _, hn, _, _ => by simp at hn
  | (k, v) :: es, n + 1, fuel, before, hfits, hn, hfuel, hbefore => by
      simp only [fitEntries, Bool.and_eq_true, decide_eq_true_eq, all_eq_true] at hfits
      obtain ⟨⟨⟨⟨⟨hkey, hvalid⟩, hsize⟩, hv⟩, hsorted⟩, hes⟩ := hfits
      simp only [entriesToBytes, sized, length_append, length_leBytes] at hfuel
      -- The key comes behind all keys so far, so the entry is appended.
      have happend : insertEntry k v before = before ++ [(k, v)] :=
        insertEntry_append fun e he => hbefore e he (k, v) mem_cons_self
      have hrest := readEntries_entriesToBytes es n fuel (before ++ [(k, v)]) hes
        (by simpa using hn) (by omega) (by
          intro e he e' he'
          rcases mem_append.mp he with he | he
          · exact hbefore e he e' (mem_cons_of_mem _ he')
          · obtain rfl := mem_singleton.mp he
            exact hsorted e' he')
      rw [length_cons, entriesToBytes, append_assoc, readEntries, readSized_sized hkey]
      simp only [readSized_sized hsize, readValue_valueToBytes v fuel hv (by omega),
        u.lossy_eq k hvalid, happend, hrest, append_assoc, singleton_append]

end

theorem valueToBytes_ne_nil (v : Value) : valueToBytes v ≠ [] := by
  cases v with
  | bool b => cases b <;> simp [valueToBytes]
  | _ => simp [valueToBytes]

theorem bytesToValue_valueToBytes (h : fits u v = true) :
    bytesToValue u (valueToBytes v) = some v := by
  obtain ⟨tag, rest, hbytes⟩ := exists_cons_of_ne_nil (valueToBytes_ne_nil v)
  have hlen : (valueToBytes v).length = rest.length + 1 := by rw [hbytes, length_cons]
  rw [bytesToValue, hlen]
  exact readValue_valueToBytes v rest.length h hlen.le

/-! ## What is read fits -/

/-- A key that is read from its own bytes only. -/
def Utf8.Exact (u : Utf8) (k : Text) : Prop :=
  ∀ b, u.lossy b = k → b = k

mutual

def keysExact (u : Utf8) : Value → Prop
  | .list vs => itemsExact u vs
  | .map es => entriesExact u es
  | _ => True

def itemsExact (u : Utf8) : List Value → Prop
  | [] => True
  | v :: vs => keysExact u v ∧ itemsExact u vs

def entriesExact (u : Utf8) : List (Text × Value) → Prop
  | [] => True
  | (k, v) :: es => u.Exact k ∧ keysExact u v ∧ entriesExact u es

end

theorem entriesExact_iff {es : List (Text × Value)} :
    entriesExact u es ↔ ∀ e ∈ es, u.Exact e.1 ∧ keysExact u e.2 := by
  induction es with
  | nil => simp [entriesExact]
  | cons e es ih => rw [entriesExact, forall_mem_cons, ih, and_assoc]

theorem length_of_readSized {b item rest : Bytes} (h : readSized b = some (item, rest)) :
    b.length = 2 + item.length + rest.length ∧ item.length < 2 ^ 16 := by
  unfold readSized at h
  split_ifs at h with hshort hlong
  cases h
  have hcount := leNat_lt (b.take 2)
  rw [length_take, Nat.min_eq_left (by omega)] at hcount
  simp only [length_drop, length_take] at hlong ⊢
  omega

/-- What a reader returns for bytes: a value that fits, and that needs no more bytes. -/
def ReadsFitting (u : Utf8) (read : Bytes → Option Value) : Prop :=
  ∀ b v, read b = some v → keysExact u v →
    fits u v = true ∧ (valueToBytes v).length ≤ b.length

theorem fits_readItems {read : Bytes → Option Value} (h : ReadsFitting u read) (n : Nat)
    (b : Bytes) (hkeys : itemsExact u (readItems read n b)) :
    fitItems u (readItems read n b) = true ∧ (readItems read n b).length ≤ n ∧
      ∀ m, (itemsToBytes (readItems read n b) m).length ≤ b.length := by
  induction n generalizing b with
  | zero => exact ⟨rfl, le_rfl, fun m => by simp [readItems, itemsToBytes]⟩
  | succ n ih =>
    rw [readItems] at hkeys ⊢
    cases hsized : readSized b with
    | none => exact ⟨rfl, Nat.zero_le _, fun m => by simp [itemsToBytes]⟩
    | some found =>
      obtain ⟨item, rest⟩ := found
      obtain ⟨hlen, hitem⟩ := length_of_readSized hsized
      simp only [hsized] at hkeys ⊢
      cases hread : read item with
      | none =>
        simp only [hread, Option.toList_none, nil_append] at hkeys ⊢
        obtain ⟨hfits, hcount, hbytes⟩ := ih rest hkeys
        exact ⟨hfits, by omega, fun m => (hbytes m).trans (by omega)⟩
      | some v =>
        simp only [hread, Option.toList_some, singleton_append] at hkeys ⊢
        obtain ⟨hv, hvs⟩ := hkeys
        obtain ⟨hfits, hcount, hbytes⟩ := ih rest hvs
        obtain ⟨hfit, hsize⟩ := h item v hread hv
        refine ⟨?_, by rw [length_cons]; omega, fun m => ?_⟩
        · rw [fitItems, hfit, hfits, decide_eq_true (by omega)]
          rfl
        · cases m with
          | zero => simp [itemsToBytes]
          | succ m =>
            have := hbytes m
            simp only [itemsToBytes, sized, length_append, length_leBytes]
            omega

/-- The entries of a map that is being read: sorted, with a bound on the bytes of each value,
    and all of them within a number of bytes. -/
structure Reading (u : Utf8) (size : Text → Nat) (total : Nat) (es : List (Text × Value)) :
    Prop where
  sorted : es.Pairwise fun e e' => e.1 < e'.1
  keys : ∀ e ∈ es, e.1.length < 2 ^ 16 ∧ u.valid e.1 = true ∧ size e.1 < 2 ^ 16
  values : ∀ e ∈ es, keysExact u e.2 →
    fits u e.2 = true ∧ (valueToBytes e.2).length ≤ size e.1
  total_le : (es.map fun e => 4 + e.1.length + size e.1).sum ≤ total

theorem mem_insertEntry {k : Text} {es : List (Text × Value)} {e : Text × Value}
    (hsorted : es.Pairwise fun e e' => e.1 < e'.1) :
    e ∈ insertEntry k v es ↔ e = (k, v) ∨ e ∈ es ∧ e.1 ≠ k := by
  induction es with
  | nil => simp [insertEntry]
  | cons e' es ih =>
    obtain ⟨hhead, htail⟩ := pairwise_cons.mp hsorted
    rw [insertEntry]
    split_ifs with hlt heq
    · have hother : ∀ f ∈ e' :: es, f.1 ≠ k := by
        rintro f hf
        rcases mem_cons.mp hf with rfl | hf
        · exact hlt.ne'
        · exact (hlt.trans (hhead f hf)).ne'
      rw [mem_cons]
      exact or_congr_right ⟨fun he => ⟨he, hother e he⟩, And.left⟩
    · rw [mem_cons, mem_cons]
      refine or_congr_right ⟨fun he => ⟨.inr he, (heq ▸ hhead e he).ne'⟩, ?_⟩
      rintro ⟨rfl | he, hne⟩
      · exact absurd heq.symm hne
      · exact he
    · rw [mem_cons, ih htail, mem_cons]
      refine ⟨?_, ?_⟩
      · rintro (rfl | he | he)
        · exact .inr ⟨.inl rfl, Ne.symm heq⟩
        · exact .inl he
        · exact .inr ⟨.inr he.1, he.2⟩
      · rintro (he | ⟨rfl | he, hne⟩)
        · exact .inr (.inl he)
        · exact .inl rfl
        · exact .inr (.inr ⟨he, hne⟩)

theorem sorted_insertEntry {k : Text} {es : List (Text × Value)}
    (hsorted : es.Pairwise fun e e' => e.1 < e'.1) :
    (insertEntry k v es).Pairwise fun e e' => e.1 < e'.1 := by
  induction es with
  | nil => exact pairwise_singleton _ _
  | cons e es ih =>
    obtain ⟨hhead, htail⟩ := pairwise_cons.mp hsorted
    rw [insertEntry]
    split_ifs with hlt heq
    · refine pairwise_cons.mpr ⟨fun f hf => ?_, hsorted⟩
      rcases mem_cons.mp hf with rfl | hf
      · exact hlt
      · exact hlt.trans (hhead f hf)
    · exact pairwise_cons.mpr ⟨fun f hf => heq ▸ hhead f hf, htail⟩
    · refine pairwise_cons.mpr ⟨fun f hf => ?_, ih htail⟩
      rcases (mem_insertEntry htail).mp hf with rfl | ⟨hf, -⟩
      · exact lt_of_le_of_ne (not_lt.mp hlt) (Ne.symm heq)
      · exact hhead f hf

theorem sum_insertEntry {k : Text} {n : Nat} {size : Text → Nat} {es : List (Text × Value)}
    (hsorted : es.Pairwise fun e e' => e.1 < e'.1) :
    ((insertEntry k v es).map fun e => 4 + e.1.length + Function.update size k n e.1).sum
      ≤ 4 + k.length + n + (es.map fun e => 4 + e.1.length + size e.1).sum := by
  have hbehind : ∀ {fs : List (Text × Value)}, (∀ f ∈ fs, k < f.1) →
      (fs.map fun e => 4 + e.1.length + Function.update size k n e.1)
        = fs.map fun e => 4 + e.1.length + size e.1 := by
    intro fs hfs
    refine map_congr_left fun f hf => ?_
    rw [Function.update_of_ne (hfs f hf).ne']
  induction es with
  | nil => simp [insertEntry]
  | cons e es ih =>
    obtain ⟨hhead, htail⟩ := pairwise_cons.mp hsorted
    rw [insertEntry]
    split_ifs with hlt heq
    · rw [map_cons, sum_cons, Function.update_self, hbehind fun f hf => ?_]
      rcases mem_cons.mp hf with rfl | hf
      · exact hlt
      · exact hlt.trans (hhead f hf)
    · rw [map_cons, map_cons, sum_cons, sum_cons, Function.update_self,
        hbehind fun f hf => heq ▸ hhead f hf]
      dsimp only
      omega
    · have := ih htail
      rw [map_cons, map_cons, sum_cons, sum_cons, Function.update_of_ne (Ne.symm heq)]
      omega

theorem Reading.insert {k : Text} {n total : Nat} {size : Text → Nat} {es : List (Text × Value)}
    (h : Reading u size total es) (hk : k.length < 2 ^ 16) (hvalid : u.valid k = true)
    (hn : n < 2 ^ 16)
    (hv : keysExact u v → fits u v = true ∧ (valueToBytes v).length ≤ n) :
    Reading u (Function.update size k n) (4 + k.length + n + total) (insertEntry k v es) where
  sorted := sorted_insertEntry h.sorted
  keys e he := by
    rcases (mem_insertEntry h.sorted).mp he with rfl | ⟨he, hne⟩
    · exact ⟨hk, hvalid, by rwa [Function.update_self]⟩
    · rw [Function.update_of_ne hne]
      exact h.keys e he
  values e he hexact := by
    rcases (mem_insertEntry h.sorted).mp he with rfl | ⟨he, hne⟩
    · rw [Function.update_self]
      exact hv hexact
    · rw [Function.update_of_ne hne]
      exact h.values e he hexact
  total_le := (sum_insertEntry h.sorted).trans (Nat.add_le_add_left h.total_le _)

/-- The next entry of a map: the entries stay as they are, or one is inserted. -/
theorem readEntries_succ (read : Bytes → Option Value) (n : Nat) (b : Bytes)
    (es : List (Text × Value)) :
    readEntries u read (n + 1) b es = es ∨ ∃ key rest item rest',
      readSized b = some (key, rest) ∧ readSized rest = some (item, rest') ∧
      (read item = none ∧ readEntries u read (n + 1) b es = readEntries u read n rest' es ∨
        ∃ v, read item = some v ∧ readEntries u read (n + 1) b es
          = readEntries u read n rest' (insertEntry (u.lossy key) v es)) := by
  rw [readEntries]
  cases hkey : readSized b with
  | none => exact .inl rfl
  | some found =>
    obtain ⟨key, rest⟩ := found
    cases hitem : readSized rest with
    | none => exact .inl (by simp only [hitem])
    | some found =>
      obtain ⟨item, rest'⟩ := found
      refine .inr ⟨key, rest, item, rest', rfl, hitem, ?_⟩
      simp only [hitem]
      cases hread : read item with
      | none => exact .inl ⟨rfl, rfl⟩
      | some v => exact .inr ⟨v, rfl, rfl⟩

theorem keys_readEntries (read : Bytes → Option Value) (n : Nat) (b : Bytes) {k : Text}
    {es : List (Text × Value)} (hsorted : es.Pairwise fun e e' => e.1 < e'.1)
    (hk : ∃ e ∈ es, e.1 = k) : ∃ e ∈ readEntries u read n b es, e.1 = k := by
  induction n generalizing b es with
  | zero => exact hk
  | succ n ih =>
    rcases readEntries_succ (u := u) read n b es with
      heq | ⟨key, rest, item, rest', -, -, ⟨-, heq⟩ | ⟨w, -, heq⟩⟩
    · rwa [heq]
    · rw [heq]
      exact ih _ hsorted hk
    · rw [heq]
      refine ih _ (sorted_insertEntry hsorted) ?_
      obtain ⟨e, he, rfl⟩ := hk
      by_cases hne : e.1 = u.lossy key
      · exact ⟨(u.lossy key, w), (mem_insertEntry hsorted).mpr (.inl rfl), hne.symm⟩
      · exact ⟨e, (mem_insertEntry hsorted).mpr (.inr ⟨he, hne⟩), rfl⟩

theorem length_insertEntry_le {k : Text} (es : List (Text × Value)) :
    (insertEntry k v es).length ≤ es.length + 1 := by
  induction es with
  | nil => exact le_rfl
  | cons e es ih =>
    rw [insertEntry]
    split_ifs
    · exact le_rfl
    · exact Nat.le_succ _
    · exact Nat.succ_le_succ ih

theorem Reading.mono {size : Text → Nat} {total total' : Nat} {es : List (Text × Value)}
    (h : Reading u size total es) (hle : total ≤ total') : Reading u size total' es :=
  ⟨h.sorted, h.keys, h.values, h.total_le.trans hle⟩

theorem Reading.readEntries {read : Bytes → Option Value} (hread : ReadsFitting u read)
    {n total : Nat} {b : Bytes} {size : Text → Nat} {es : List (Text × Value)}
    (h : Reading u size total es)
    (hkeys : ∀ e ∈ readEntries u read n b es, u.Exact e.1) :
    (∃ size', Reading u size' (total + b.length) (readEntries u read n b es)) ∧
      (readEntries u read n b es).length ≤ es.length + n := by
  induction n generalizing b es size total with
  | zero => exact ⟨⟨size, h.mono (Nat.le_add_right _ _)⟩, le_rfl⟩
  | succ n ih =>
    rcases readEntries_succ (u := u) read n b es with
      heq | ⟨key, rest, item, rest', hkey, hitem, ⟨-, heq⟩ | ⟨w, hw, heq⟩⟩
    · rw [heq]
      exact ⟨⟨size, h.mono (Nat.le_add_right _ _)⟩, Nat.le_add_right _ _⟩
    · obtain ⟨hlen, -⟩ := length_of_readSized hkey
      obtain ⟨hlen', -⟩ := length_of_readSized hitem
      rw [heq] at hkeys ⊢
      obtain ⟨⟨size', hsize⟩, hcount⟩ := ih h hkeys
      exact ⟨⟨size', hsize.mono (by omega)⟩, by omega⟩
    · obtain ⟨hlen, hshort⟩ := length_of_readSized hkey
      obtain ⟨hlen', hshort'⟩ := length_of_readSized hitem
      rw [heq] at hkeys ⊢
      -- The key is among those of the map, so nothing of it was repaired.
      obtain ⟨e, he, hek⟩ := keys_readEntries (u := u) read n rest'
        (sorted_insertEntry h.sorted)
        ⟨(u.lossy key, w), (mem_insertEntry h.sorted).mpr (.inl rfl), rfl⟩
      have hexact : key = u.lossy key := (hkeys e he key hek.symm).trans hek
      obtain ⟨⟨size', hsize⟩, hcount⟩ := ih (h.insert (hexact ▸ hshort) (u.valid_lossy key) hshort'
        fun hexact => hread item w hw hexact) hkeys
      have hinsert := length_insertEntry_le (k := u.lossy key) (v := w) es
      rw [← hexact] at hsize hcount hinsert
      rw [← hexact]
      exact ⟨⟨size', hsize.mono (by omega)⟩, by omega⟩

theorem Reading.fits {size : Text → Nat} {total : Nat} {es : List (Text × Value)}
    (h : Reading u size total es) (hexact : entriesExact u es) :
    fitEntries u es = true ∧ ∀ m, (entriesToBytes es m).length ≤ total := by
  induction es generalizing total with
  | nil => exact ⟨rfl, fun m => by simp [entriesToBytes]⟩
  | cons e es ih =>
    obtain ⟨hhead, htail⟩ := pairwise_cons.mp h.sorted
    obtain ⟨hkeys, hkeys'⟩ := forall_mem_cons.mp h.keys
    obtain ⟨hvalues, hvalues'⟩ := forall_mem_cons.mp h.values
    obtain ⟨-, hv, hes⟩ := hexact
    obtain ⟨hfit, hsize⟩ := hvalues hv
    have htotal := h.total_le
    rw [map_cons, sum_cons] at htotal
    obtain ⟨hfits, hbytes⟩ := ih ⟨htail, hkeys', hvalues', le_rfl⟩ hes
    refine ⟨?_, fun m => ?_⟩
    · simp only [fitEntries, hkeys.1, hkeys.2.1, hfit, hfits, hsize.trans_lt hkeys.2.2,
        all_eq_true.mpr fun e' he' => decide_eq_true (hhead e' he'), decide_true, Bool.and_self]
    · cases m with
      | zero => simp [entriesToBytes]
      | succ m =>
        have := hbytes m
        simp only [entriesToBytes, sized, length_append, length_leBytes]
        omega

/-- What is read fits, and encodes in no more bytes than it was read from. -/
theorem fits_of_readValue (fuel : Nat) : ReadsFitting u (readValue u fuel) := by
  induction fuel with
  | zero =>
    intro b v h
    cases h
  | succ fuel ih =>
    intro b v h hexact
    cases b with
    | nil => cases h
    | cons tag b =>
      have hcount : leNat (b.take 2) ≤ maxItems := by
        have hlt := leNat_lt (b.take 2)
        have hwidth : 256 ^ (b.take 2).length ≤ 256 ^ 2 :=
          Nat.pow_le_pow_right (by decide) (length_take_le 2 b)
        unfold maxItems
        omega
      simp only [readValue] at h
      -- One case for each tag, and the last for bytes that are none.
      split at h
      · split at h <;> cases h
        rename_i hvalid
        exact ⟨hvalid, by simp [valueToBytes]⟩
      · split at h <;> cases h
        rename_i hlen
        have hle := Int.le_bmod (x := beNat b) (m := 2 ^ 64) (by decide)
        have hlt := Int.bmod_lt (x := beNat b) (m := 2 ^ 64) (by decide)
        refine ⟨?_, ?_⟩
        · rw [fits, decide_eq_true_iff]
          omega
        · rw [valueToBytes, length_cons, length_cons, hlen, encI64, length_beBytes]
      · split at h <;> cases h
        rename_i hlen
        refine ⟨decide_eq_true (by simpa [hlen] using leNat_lt b), ?_⟩
        simp [valueToBytes, length_leBytes, hlen]
      · split at h <;> cases h
        rename_i hlen
        refine ⟨rfl, ?_⟩
        cases decide (b ≠ [0]) <;> simp [valueToBytes, hlen]
      · cases h
        exact ⟨rfl, by simp [valueToBytes]⟩
      · cases h
        exact ⟨rfl, by simp [valueToBytes]⟩
      · split at h <;> cases h
        rename_i hlong
        obtain ⟨hfits, hlen, hbytes⟩ := fits_readItems ih _ _ hexact
        have := hbytes maxItems
        rw [length_drop] at this
        refine ⟨?_, ?_⟩
        · rw [fits, hfits, decide_eq_true (hlen.trans hcount), Bool.and_self]
        · simp only [valueToBytes, length_cons, length_append, length_leBytes]
          omega
      · split at h <;> cases h
        rename_i hlong
        have hempty : Reading u (fun _ => 0) 0 [] := ⟨.nil, by simp, by simp, by simp⟩
        obtain ⟨⟨size, hsize⟩, hlen⟩ := hempty.readEntries ih fun e he =>
          (entriesExact_iff.mp hexact e he).1
        obtain ⟨hfits, hbytes⟩ := hsize.fits hexact
        have := hbytes maxItems
        rw [length_drop, Nat.zero_add] at this
        rw [length_nil, Nat.zero_add] at hlen
        refine ⟨?_, ?_⟩
        · rw [Security.fits, hfits, decide_eq_true (hlen.trans hcount), Bool.and_self]
        · simp only [valueToBytes, length_cons, length_append, length_leBytes]
          omega
      · cases h

/-- A value is read back exactly if it fits, unless a key could have been repaired. -/
theorem bytesToValue_valueToBytes_iff (hexact : keysExact u v) :
    bytesToValue u (valueToBytes v) = some v ↔ fits u v = true :=
  ⟨fun h => (fits_of_readValue _ _ v h hexact).1, bytesToValue_valueToBytes⟩

end Aikoql.Security
