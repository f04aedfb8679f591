import Aikoql.Security.Envelope
import Aikoql.Lib.MergeMaps

/-!
# Loading Tenant Keys

A row that lists the wraps of some keys is loaded to these keys.

Rows are written from maps in memory and read into maps again, so the invariants of the
key system are about maps and say which row lists which map.

## Theorems

* `lists_wrapAll`, `Envelope.Consistent.lists_wraps`: What is written lists the keys.
* `Lists.load`, `Lists.loadPrev`: What lists keys is loaded to them.
-/

namespace Aikoql.Security

open List Std.ExtTreeMap
open Kernel (Text)

variable {deks : Std.ExtTreeMap Text Key} {row : List WrappedDek} {e : Envelope} {kek : Key}

def Lists (kek : Key) (row : List WrappedDek) (deks : Std.ExtTreeMap Text Key) : Prop :=
  ∀ w, w ∈ row ↔ w.kek = kek ∧ deks[w.tenant]? = some w.dek

theorem mem_wrapAll {w : WrappedDek} :
    w ∈ wrapAll deks kek ↔ w.kek = kek ∧ deks[w.tenant]? = some w.dek := by
  unfold wrapAll
  constructor
  · intro h
    obtain ⟨p, hp, rfl⟩ := List.mem_map.mp h
    exact ⟨rfl, mem_toList_iff_getElem?_eq_some.mp hp⟩
  · rintro ⟨hkek, hdek⟩
    refine List.mem_map.mpr ⟨(w.tenant, w.dek), ?_, ?_⟩
    · exact mem_toList_iff_getElem?_eq_some.mpr hdek
    · rw [← hkek]

theorem lists_wrapAll (deks : Std.ExtTreeMap Text Key) (kek : Key) :
    Lists kek (wrapAll deks kek) deks :=
  fun _ => mem_wrapAll

theorem lists_nil (kek : Key) : Lists kek [] ∅ := by
  intro w
  simp

theorem Lists.eq_empty (h : Lists kek [] deks) : deks = ∅ := by
  refine Std.ExtTreeMap.ext_getElem? fun tenant => ?_
  cases hdek : deks[tenant]? with
  | none => simp
  | some dek => exact absurd ((h ⟨tenant, kek, dek⟩).mpr ⟨rfl, hdek⟩) not_mem_nil

theorem wrapAll_eq_nil (h : wrapAll deks kek = []) : deks = ∅ :=
  Lists.eq_empty (h ▸ lists_wrapAll deks kek)

@[simp]
theorem rowOf_getD (row : List WrappedDek) : (rowOf row).getD [] = row := by
  cases row <;> rfl

theorem Envelope.unwrapsAll_iff : e.unwrapsAll row = true ↔ ∀ w ∈ row, w.kek = e.kek := by
  unfold Envelope.unwrapsAll WrappedDek.unwrap
  rw [all_eq_true]
  refine forall₂_congr fun w _ => ?_
  by_cases hkek : w.kek = e.kek
  · simp [hkek]
  · simp [hkek]

/-! ## Memory -/

/-- The wraps in memory are those of the keys in memory. -/
def Envelope.Consistent (e : Envelope) : Prop :=
  ∀ tenant : Text, e.wrappedDeks[tenant]?
    = e.deks[tenant]?.map fun dek => (⟨tenant, e.kek, dek⟩ : WrappedDek)

theorem Envelope.Consistent.lists_wraps (h : e.Consistent) : Lists e.kek e.wraps e.deks := by
  intro w
  unfold Envelope.wraps
  constructor
  · intro hw
    obtain ⟨⟨tenant, w'⟩, hp, rfl⟩ := List.mem_map.mp hw
    have hwrapped := mem_toList_iff_getElem?_eq_some.mp hp
    rw [h tenant] at hwrapped
    obtain ⟨dek, hdek, rfl⟩ := Option.map_eq_some_iff.mp hwrapped
    exact ⟨rfl, hdek⟩
  · rintro ⟨hkek, hdek⟩
    refine List.mem_map.mpr ⟨(w.tenant, w), ?_, rfl⟩
    rw [mem_toList_iff_getElem?_eq_some, h, hdek, ← hkek]
    rfl

theorem Envelope.Consistent.tenantKey (h : e.Consistent) (tenant : Text) (random : Key) :
    (e.tenantKey tenant random).1.Consistent := by
  unfold Envelope.tenantKey
  cases e.deks[tenant]? with
  | some dek => exact h
  | none =>
    intro tenant'
    simp only [getElem?_insert_eq]
    by_cases heq : tenant = tenant'
    · rw [if_pos heq, if_pos heq, ← heq]
      rfl
    · rw [if_neg heq, if_neg heq]
      exact h tenant'

theorem Envelope.Consistent.rollDeks (random : Text → Key) : (e.rollDeks random).1.Consistent := by
  intro tenant
  exact Std.ExtTreeMap.getElem?_map

theorem Envelope.rollDeks_prevDeks (h : e.prevDeks = ∅) (random : Text → Key) :
    (e.rollDeks random).1.prevDeks = e.deks := by
  refine Std.ExtTreeMap.ext_getElem? fun tenant => ?_
  unfold Envelope.rollDeks
  dsimp only
  rw [h, foldl_eq_foldl_toList]
  cases hdek : e.deks[tenant]? with
  | some dek =>
    rw [getElem?_foldl_insert_agree Prod.fst Prod.snd e.deks.toList ∅ tenant dek, if_pos]
    · exact ⟨(tenant, dek), mem_toList_iff_getElem?_eq_some.mpr hdek, rfl⟩
    · rintro ⟨tenant', dek'⟩ hp rfl
      have hdek' := mem_toList_iff_getElem?_eq_some.mp hp
      exact Option.some.inj (hdek'.symm.trans hdek)
  | none =>
    have hother : ∀ p ∈ e.deks.toList, p.1 ≠ tenant := by
      rintro ⟨tenant', dek'⟩ hp rfl
      rw [mem_toList_iff_getElem?_eq_some.mp hp] at hdek
      cases hdek
    rw [getElem?_foldl_insert_agree Prod.fst Prod.snd e.deks.toList ∅ tenant [] fun p hp heq =>
      absurd heq (hother p hp), if_neg]
    · simp
    · rintro ⟨p, hp, heq⟩
      exact hother p hp heq

theorem Lists.foldl_insert {V : Type} (h : Lists kek row deks) (value : WrappedDek → V)
    (tenant : Text) :
    (row.foldl (fun m w => m.insert w.tenant (value w)) (∅ : Std.ExtTreeMap Text V))[tenant]?
      = deks[tenant]?.map fun dek => value ⟨tenant, kek, dek⟩ := by
  cases hdek : deks[tenant]? with
  | some dek =>
    have hin : (⟨tenant, kek, dek⟩ : WrappedDek) ∈ row := (h _).mpr ⟨rfl, hdek⟩
    rw [getElem?_foldl_insert_agree WrappedDek.tenant value row ∅ tenant (value ⟨tenant, kek, dek⟩),
      if_pos ⟨_, hin, rfl⟩]
    · rfl
    · -- The row has one wrap for the tenant.
      rintro ⟨tenant', kek', dek'⟩ hw rfl
      obtain ⟨rfl, hdek'⟩ := (h _).mp hw
      cases hdek'.symm.trans hdek
      rfl
  | none =>
    have hother : ∀ w ∈ row, w.tenant ≠ tenant := by
      rintro w hw rfl
      rw [((h w).mp hw).2] at hdek
      cases hdek
    cases hrow : row with
    | nil => simp
    | cons first rest =>
      rw [← hrow, getElem?_foldl_insert_agree WrappedDek.tenant value row ∅ tenant (value first)
        fun w hw heq => absurd heq (hother w hw), if_neg]
      · simp
      · rintro ⟨w, hw, heq⟩
        exact hother w hw heq

theorem Envelope.Consistent.adopt {newKek : Key} :
    (e.adopt newKek (e.rewrapped newKek)).Consistent := by
  intro tenant
  exact (lists_wrapAll e.deks newKek).foldl_insert id tenant

/-! ## Loading -/

theorem foldlM_loadDek (h : ∀ w ∈ row, w.kek = e.kek) :
    row.foldlM Envelope.loadDek e = some { e with
      deks := row.foldl (fun m w => m.insert w.tenant w.dek) e.deks
      wrappedDeks := row.foldl (fun m w => m.insert w.tenant w) e.wrappedDeks } := by
  induction row generalizing e with
  | nil => rfl
  | cons w row ih =>
    rw [forall_mem_cons] at h
    have hload : e.loadDek w = some { e with
        deks := e.deks.insert w.tenant w.dek
        wrappedDeks := e.wrappedDeks.insert w.tenant w } := by
      unfold Envelope.loadDek WrappedDek.unwrap
      rw [if_pos h.1]
      rfl
    rw [foldlM_cons, hload]
    exact ih h.2

theorem foldlM_loadPrevDek (h : ∀ w ∈ row, w.kek = e.kek) :
    row.foldlM Envelope.loadPrevDek e = some { e with
      prevDeks := row.foldl (fun m w => m.insert w.tenant w.dek) e.prevDeks } := by
  induction row generalizing e with
  | nil => rfl
  | cons w row ih =>
    rw [forall_mem_cons] at h
    have hload : e.loadPrevDek w
        = some { e with prevDeks := e.prevDeks.insert w.tenant w.dek } := by
      unfold Envelope.loadPrevDek WrappedDek.unwrap
      rw [if_pos h.1]
      rfl
    rw [foldlM_cons, hload]
    exact ih h.2

theorem Lists.load {prevRow : List WrappedDek} {prevDeks : Std.ExtTreeMap Text Key}
    (h : Lists kek row deks) (hprev : Lists kek prevRow prevDeks) :
    ∃ e : Envelope, ((row.foldlM Envelope.loadDek (Envelope.init kek)).bind fun e =>
        prevRow.foldlM Envelope.loadPrevDek e) = some e ∧
      e.kek = kek ∧ e.deks = deks ∧ e.prevDeks = prevDeks ∧ e.Consistent := by
  have hmap : ∀ {row : List WrappedDek} {m : Std.ExtTreeMap Text Key}, Lists kek row m →
      row.foldl (fun m w => m.insert w.tenant w.dek) ∅ = m := by
    intro row m hlists
    refine Std.ExtTreeMap.ext_getElem? fun tenant => ?_
    rw [hlists.foldl_insert WrappedDek.dek tenant]
    exact Option.map_id_apply
  rw [foldlM_loadDek fun w hw => ((h w).mp hw).1, Option.bind_some,
    foldlM_loadPrevDek fun w hw => ((hprev w).mp hw).1]
  refine ⟨_, rfl, rfl, hmap h, hmap hprev, ?_⟩
  intro tenant
  refine (h.foldl_insert id tenant).trans ?_
  rw [show (row.foldl (fun m w => m.insert w.tenant w.dek) (Envelope.init kek).deks) = deks
    from hmap h]
  rfl

end Aikoql.Security
