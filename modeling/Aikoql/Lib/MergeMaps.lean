import Aikoql.Lib.Fallible

/-!
# Merging Records into Maps

Two rules for building a map from records that may arrive more than once.

A write-once map accepts a record that repeats what it holds and refuses one
that contradicts it. If all records agree with one map then they can be merged
in any number and order, and `foldlM_putOnce` says what the result holds.

A gated map keeps, of each key, the value of the largest generation, and
refuses two different values of one generation. A map that took a record in
absorbs it from then on (`Absorbs`), which is what makes replaying a suffix of
the records harmless.

## Theorems

* `foldlM_putOnce`: Merging records that agree with one map.
* `absorbs_putNewer`: A merged record is absorbed.
-/

namespace Aikoql

open List Std.ExtTreeMap

variable {K V ε : Type} [Ord K] [Std.TransOrd K] [Std.LawfulEqOrd K] [DecidableEq V]

variable {α : Type} {m m' : Std.ExtTreeMap K V} {k k' : K} {v : V}

omit [DecidableEq V] in
theorem getElem?_insert_eq [DecidableEq K] (m : Std.ExtTreeMap K V) (k k' : K) (v : V) :
    (m.insert k v)[k']? = if k = k' then some v else m[k']? := by
  rw [Std.ExtTreeMap.getElem?_insert]
  simp only [Std.compare_eq_iff_eq]

omit [DecidableEq V] in
theorem getElem?_erase_eq [DecidableEq K] (m : Std.ExtTreeMap K V) (k k' : K) :
    (m.erase k)[k']? = if k = k' then none else m[k']? := by
  rw [getElem?_erase]
  simp only [Std.compare_eq_iff_eq]

omit [DecidableEq V] in
theorem getElem?_insert_cases {v' : V} (h : (m.insert k v)[k']? = some v') :
    k = k' ∧ v = v' ∨ k ≠ k' ∧ m[k']? = some v' := by
  classical
  rw [getElem?_insert_eq] at h
  split_ifs at h with hk
  · exact .inl ⟨hk, Option.some.inj h⟩
  · exact .inr ⟨hk, h⟩

omit [DecidableEq V] in
theorem getElem?_erase_cases (h : (m.erase k)[k']? = some v) : k ≠ k' ∧ m[k']? = some v := by
  classical
  rw [getElem?_erase_eq] at h
  split_ifs at h with hk
  exact ⟨hk, h⟩

omit [DecidableEq V] in
theorem getElem?_foldl_insert_agree [DecidableEq K] (key : α → K) (value : α → V) (as : List α)
    (m : Std.ExtTreeMap K V) (k : K) (v : V) (hagree : ∀ a ∈ as, key a = k → value a = v) :
    (as.foldl (fun m a => m.insert (key a) (value a)) m)[k]?
      = if ∃ a ∈ as, key a = k then some v else m[k]? := by
  induction as generalizing m with
  | nil => simp
  | cons a as ih =>
    rw [foldl_cons, ih _ fun a' ha' => hagree a' (mem_cons_of_mem a ha')]
    by_cases hrest : ∃ a' ∈ as, key a' = k
    · obtain ⟨a', ha', hkey⟩ := hrest
      rw [if_pos ⟨a', ha', hkey⟩, if_pos ⟨a', mem_cons_of_mem a ha', hkey⟩]
    · rw [if_neg hrest, getElem?_insert_eq]
      by_cases hfirst : key a = k
      · rw [if_pos hfirst, if_pos ⟨a, mem_cons_self, hfirst⟩, hagree a mem_cons_self hfirst]
      · rw [if_neg hfirst, if_neg]
        rintro ⟨a', ha', hkey⟩
        rcases mem_cons.mp ha' with rfl | ha'
        · exact hfirst hkey
        · exact hrest ⟨a', ha', hkey⟩

omit [DecidableEq V] in
theorem toList_insert_last (m : Std.ExtTreeMap Nat V) (k : Nat) (v : V)
    (h : ∀ p ∈ m.toList, p.1 < k) : (m.insert k v).toList = m.toList ++ [(k, v)] := by
  have hsorted : ∀ m' : Std.ExtTreeMap Nat V, m'.toList.Pairwise fun a b => a.1 < b.1 := fun m' =>
    ordered_keys_toList.imp fun hab => Nat.compare_eq_lt.mp hab
  have : Std.Irrefl fun a b : Nat × V => a.1 < b.1 := ⟨fun a => Nat.lt_irrefl a.1⟩
  have : Std.Antisymm fun a b : Nat × V => a.1 < b.1 :=
    ⟨fun a b hab hba => absurd hab (Nat.lt_asymm hba)⟩
  refine (hsorted _).eq_of_mem_iff ?_ ?_
  · refine pairwise_append.mpr ⟨hsorted m, pairwise_singleton _ _, fun a ha b hb => ?_⟩
    rw [mem_singleton.mp hb]
    exact h a ha
  · rintro ⟨k', v'⟩
    rw [mem_append, mem_singleton, mem_toList_iff_getElem?_eq_some,
      mem_toList_iff_getElem?_eq_some, getElem?_insert_eq, Prod.mk.injEq]
    by_cases hk : k = k'
    · subst hk
      -- The key is a new one, so only the inserted value is listed under it.
      have hnew : m[k]? ≠ some v' := fun hget =>
        absurd (h (k, v') (mem_toList_iff_getElem?_eq_some.mpr hget)) (Nat.lt_irrefl k)
      simp [hnew, eq_comm]
    · simp [hk, Ne.symm hk]

/-- Every binding of the first map is one of the second. -/
def Within (m T : Std.ExtTreeMap K V) : Prop :=
  ∀ (k : K) (v : V), m[k]? = some v → T[k]? = some v

omit [DecidableEq V] [Std.LawfulEqOrd K] in
theorem Within.antisymm [Std.LawfulEqOrd K] {T : Std.ExtTreeMap K V} (h : Within m T)
    (h' : Within T m) : m = T := by
  refine Std.ExtTreeMap.ext_getElem? fun k => ?_
  cases hm : m[k]? with
  | some v => exact (h k v hm).symm
  | none =>
    cases hT : T[k]? with
    | none => rfl
    | some v =>
      have := h' k v hT
      rw [hm] at this
      cases this

/-! ## Write-once maps -/

/-- Merge a record into a write-once map; a record that contradicts the map is
    refused with what the map holds. -/
def putOnce (refuse : V → ε) (m : Std.ExtTreeMap K V) (k : K) (v : V) :
    Except ε (Std.ExtTreeMap K V) :=
  match m[k]? with
  | some w => if w = v then .ok m else .error (refuse w)
  | none => .ok (m.insert k v)

theorem putOnce_ok [DecidableEq K] {refuse : V → ε} (h : putOnce refuse m k v = .ok m') :
    (∀ w ∈ m[k]?, w = v) ∧ ∀ k' v', m'[k']? = some v' ↔ m[k']? = some v' ∨ (k' = k ∧ v' = v) := by
  unfold putOnce at h
  split at h
  · rename_i w hw
    split at h
    · rename_i hv
      cases h
      subst hv
      refine ⟨fun w' hw' => ?_, fun k' v' => ⟨.inl, ?_⟩⟩
      · rw [hw] at hw'
        exact (Option.some.inj hw').symm
      · rintro (h | ⟨rfl, rfl⟩)
        · exact h
        · exact hw
    · cases h
  · rename_i hnone
    cases h
    refine ⟨fun w hw => absurd hw (by simp [hnone]), fun k' v' => ?_⟩
    rw [getElem?_insert_eq]
    by_cases hk : k = k'
    · subst hk
      simp [hnone, eq_comm]
    · simp [hk, Ne.symm hk]

theorem held_of_foldlM_putOnce [DecidableEq K] (key : α → K) (value : α → V) (refuse : α → V → ε)
    (rs : List α) (h : rs.foldlM (fun m r => putOnce (refuse r) m (key r) (value r)) m = .ok m') :
    (∀ r ∈ rs, m'[key r]? = some (value r)) ∧ Within m m' := by
  obtain ⟨hall, hkept⟩ := foldlM_leaves (fun m (kv : K × V) => m[kv.1]? = some kv.2)
    (fun r => (key r, value r)) _ rs
    (fun _ _ _ hput => ((putOnce_ok hput).2 _ _).mpr (.inr ⟨rfl, rfl⟩))
    (fun _ _ _ _ hput hkv => ((putOnce_ok hput).2 _ _).mpr (.inl hkv)) m m' h
  exact ⟨hall, fun k v => hkept (k, v)⟩

omit [Std.LawfulEqOrd K] in
theorem foldlM_putOnce_of_held (key : α → K) (value : α → V) (refuse : α → V → ε) (rs : List α)
    (m : Std.ExtTreeMap K V) (h : ∀ r ∈ rs, m[key r]? = some (value r)) :
    rs.foldlM (fun m r => putOnce (refuse r) m (key r) (value r)) m = .ok m := by
  refine foldlM_fixed _ rs m fun r hr => ?_
  rw [putOnce, h r hr]
  exact if_pos rfl

/-! ## Gated maps -/

/-- Merge a record into a map gated by a generation: the larger generation
    stays, and two values of one generation must agree. -/
def putNewer (gen : V → Nat) (refuse : ε) (m : Std.ExtTreeMap K V) (k : K) (v : V) :
    Except ε (Std.ExtTreeMap K V) :=
  match m[k]? with
  | none => .ok (m.insert k v)
  | some w =>
    if gen v < gen w then .ok m
    else if w = v then .ok m
    else if gen w < gen v then .ok (m.insert k v)
    else .error refuse

/-- A map that has taken a record in: what it holds of the key is the record or
    newer. -/
def Absorbs (gen : V → Nat) (m : Std.ExtTreeMap K V) (k : K) (v : V) : Prop :=
  ∃ w, m[k]? = some w ∧ (gen v < gen w ∨ w = v)

omit [Std.LawfulEqOrd K] in
theorem putNewer_of_absorbs {gen : V → Nat} {refuse : ε} (h : Absorbs gen m k v) :
    putNewer gen refuse m k v = .ok m := by
  rcases h with ⟨w, hw, hlt | heq⟩
  · simp [putNewer, hw, hlt]
  · simp [putNewer, hw, heq]

omit [Std.LawfulEqOrd K] in
/-- The three ways a record is accepted: the map has it or something newer, or
    the record takes its place. -/
theorem putNewer_ok {gen : V → Nat} {refuse : ε} (h : putNewer gen refuse m k v = .ok m') :
    (Absorbs gen m k v ∧ m' = m) ∨ ((∀ w ∈ m[k]?, gen w < gen v) ∧ m' = m.insert k v) := by
  unfold putNewer at h
  split at h
  · rename_i hnone
    cases h
    exact .inr ⟨fun w hw => absurd hw (by simp [hnone]), rfl⟩
  · rename_i w hw
    split at h
    · rename_i hlt
      cases h
      exact .inl ⟨⟨w, hw, .inl hlt⟩, rfl⟩
    · split at h
      · rename_i heq
        cases h
        exact .inl ⟨⟨w, hw, .inr heq⟩, rfl⟩
      · split at h
        · rename_i hlt
          cases h
          refine .inr ⟨fun w' hw' => ?_, rfl⟩
          rw [hw] at hw'
          exact Option.some.inj hw' ▸ hlt
        · cases h

theorem absorbs_putNewer [DecidableEq K] {gen : V → Nat} {refuse : ε}
    (h : putNewer gen refuse m k v = .ok m') : Absorbs gen m' k v := by
  rcases putNewer_ok h with ⟨habs, rfl⟩ | ⟨_, rfl⟩
  · exact habs
  · exact ⟨v, by rw [getElem?_insert_eq, if_pos rfl], .inr rfl⟩

/-- Merging another record keeps what is absorbed, as generations only grow. -/
theorem Absorbs.putNewer [DecidableEq K] {gen : V → Nat} {refuse : ε} {v' : V}
    (habs : Absorbs gen m k v) (h : putNewer gen refuse m k' v' = .ok m') : Absorbs gen m' k v := by
  rcases putNewer_ok h with ⟨_, rfl⟩ | ⟨hlt, rfl⟩
  · exact habs
  · rcases habs with ⟨w, hw, hv⟩
    by_cases hk : k' = k
    · subst hk
      have hwv := hlt w hw
      refine ⟨v', by rw [getElem?_insert_eq, if_pos rfl], .inl ?_⟩
      rcases hv with hv | rfl
      · exact lt_trans hv hwv
      · exact hwv
    · exact ⟨w, by rw [getElem?_insert_eq, if_neg hk, hw], hv⟩

theorem absorbs_foldlM [DecidableEq K] (gen : V → Nat) (key : α → K) (value : α → V)
    (refuse : α → ε) (rs : List α) (m m' : Std.ExtTreeMap K V)
    (h : rs.foldlM (fun m r => Aikoql.putNewer gen (refuse r) m (key r) (value r)) m = .ok m') :
    ∀ r ∈ rs, Absorbs gen m' (key r) (value r) :=
  (foldlM_leaves (fun m (kv : K × V) => Absorbs gen m kv.1 kv.2) (fun r => (key r, value r)) _ rs
    (fun _ _ _ hput => absorbs_putNewer hput) (fun _ _ _ _ hput habs => habs.putNewer hput)
    m m' h).1

omit [Std.LawfulEqOrd K] in
theorem foldlM_of_absorbs (gen : V → Nat) (key : α → K) (value : α → V) (refuse : α → ε)
    (rs : List α) (m : Std.ExtTreeMap K V) (h : ∀ r ∈ rs, Absorbs gen m (key r) (value r)) :
    rs.foldlM (fun m r => putNewer gen (refuse r) m (key r) (value r)) m = .ok m :=
  foldlM_fixed _ rs m fun r hr => putNewer_of_absorbs (h r hr)

/-- A value some record has of a key, and no record of the key is newer. -/
def Newest (gen : V → Nat) (key : α → K) (value : α → V) (rs : List α) (k : K) (v : V) : Prop :=
  (∃ r ∈ rs, key r = k ∧ value r = v) ∧ ∀ r ∈ rs, key r = k → gen (value r) ≤ gen v

/-- Records of which those of one key and generation agree are all accepted, and leave
    of each key the newest value. -/
theorem foldlM_putNewer [DecidableEq K] (gen : V → Nat) (key : α → K) (value : α → V)
    (refuse : α → ε) (rs : List α) (hagree : ∀ r ∈ rs, ∀ r' ∈ rs, key r = key r' →
      gen (value r) = gen (value r') → value r = value r') :
    ∃ m, rs.foldlM (fun m r => Aikoql.putNewer gen (refuse r) m (key r) (value r)) ∅ = .ok m ∧
      ∀ k v, m[k]? = some v ↔ Newest gen key value rs k v := by
  -- All the map holds are values of records, so none of them is refused.
  obtain ⟨m, hfold, hfrom⟩ : ∃ m : Std.ExtTreeMap K V,
      rs.foldlM (fun m r => Aikoql.putNewer gen (refuse r) m (key r) (value r)) ∅ = .ok m ∧
        ∀ k v, m[k]? = some v → ∃ r ∈ rs, key r = k ∧ value r = v := by
    refine exists_foldlM (fun m : Std.ExtTreeMap K V => ∀ k v, m[k]? = some v →
      ∃ r ∈ rs, key r = k ∧ value r = v) _ rs (fun m r hr hm => ?_) ∅ fun k v hk => by simp at hk
    have hinsert : ∀ k v, (m.insert (key r) (value r))[k]? = some v →
        ∃ r ∈ rs, key r = k ∧ value r = v := by
      intro k v hk
      rcases getElem?_insert_cases hk with h | ⟨-, hk⟩
      · exact ⟨r, hr, h⟩
      · exact hm k v hk
    unfold Aikoql.putNewer
    split
    · exact ⟨_, rfl, hinsert⟩
    · rename_i w hw
      split_ifs with hold hsame hnew
      · exact ⟨_, rfl, hm⟩
      · exact ⟨_, rfl, hm⟩
      · exact ⟨_, rfl, hinsert⟩
      · obtain ⟨r', hr', hkey, rfl⟩ := hm _ _ hw
        exact absurd (hagree r' hr' r hr hkey (by omega)) hsame
  have habsorbs := absorbs_foldlM gen key value refuse rs ∅ m hfold
  refine ⟨m, hfold, fun k v => ⟨fun hk => ⟨hfrom k v hk, ?_⟩, ?_⟩⟩
  · rintro r hr rfl
    obtain ⟨w, hw, hle⟩ := habsorbs r hr
    obtain rfl : w = v := Option.some.inj (hw.symm.trans hk)
    rcases hle with hlt | rfl
    · omega
    · exact Nat.le_refl _
  · rintro ⟨⟨r, hr, rfl, rfl⟩, hmax⟩
    obtain ⟨w, hw, hlt | rfl⟩ := habsorbs r hr
    · obtain ⟨r', hr', hkey, rfl⟩ := hfrom _ _ hw
      exact absurd (hmax r' hr' hkey) (by omega)
    · exact hw

/-! ## Listing a map -/

omit [DecidableEq V] in
/-- Inserting the bindings of a map one after the other, each accepted where the key is
    not bound, yields the map. -/
theorem foldlM_toList [DecidableEq K]
    (put : Std.ExtTreeMap K V → K → V → Except ε (Std.ExtTreeMap K V))
    (hput : ∀ m k v, m[k]? = none → put m k v = .ok (m.insert k v)) (m : Std.ExtTreeMap K V) :
    m.toList.foldlM (fun m kv => put m kv.1 kv.2) ∅ = .ok m := by
  -- Whatever was inserted is bound, and the keys that are left are not.
  have hfold : ∀ (kvs : List (K × V)) (start : Std.ExtTreeMap K V),
      (kvs.map Prod.fst).Nodup → (∀ kv ∈ kvs, start[kv.1]? = none) →
      ∃ m', kvs.foldlM (fun m kv => put m kv.1 kv.2) start = .ok m' ∧
        ∀ k v, m'[k]? = some v ↔ start[k]? = some v ∨ (k, v) ∈ kvs := by
    intro kvs
    induction kvs with
    | nil => exact fun start _ _ => ⟨start, rfl, fun k v => by simp⟩
    | cons kv kvs ih =>
      intro start hnodup hfresh
      rw [map_cons, nodup_cons] at hnodup
      have hother : ∀ x ∈ kvs, kv.1 ≠ x.1 := fun x hx heq =>
        hnodup.1 (heq ▸ mem_map_of_mem hx)
      rcases ih (start.insert kv.1 kv.2) hnodup.2 (fun x hx => by
        rw [getElem?_insert_eq, if_neg (hother x hx)]
        exact hfresh x (mem_cons_of_mem kv hx)) with ⟨m', hm', hget⟩
      refine ⟨m', ?_, fun k v => ?_⟩
      · rw [foldlM_cons, hput _ _ _ (hfresh kv mem_cons_self), ok_bind, hm']
      · rw [hget, getElem?_insert_eq, mem_cons]
        by_cases hk : kv.1 = k
        · have hnone := hfresh kv mem_cons_self
          rw [hk] at hnone
          rw [if_pos hk, hnone]
          simp [Prod.ext_iff, hk, eq_comm]
        · have hne : (k, v) ≠ kv := fun heq => hk (congrArg Prod.fst heq).symm
          rw [if_neg hk]
          simp [hne]
  have hnodup : (m.toList.map Prod.fst).Nodup := by
    rw [nodup_iff_pairwise_ne, pairwise_map]
    exact ordered_keys_toList.imp fun {a b} hab h => by simp [h] at hab
  rcases hfold m.toList ∅ hnodup (fun kv _ => by simp) with ⟨m', hm', hget⟩
  rw [hm']
  congr 1
  refine Within.antisymm (fun k v hk => ?_) (fun k v hk => ?_)
  · exact mem_toList_iff_getElem?_eq_some.mp (((hget k v).mp hk).resolve_left (by simp))
  · exact (hget k v).mpr (.inr (mem_toList_iff_getElem?_eq_some.mpr hk))

end Aikoql
