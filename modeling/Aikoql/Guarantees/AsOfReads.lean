import Aikoql.Kernel.Reads

/-!
# Reads of a Past Instant

Which version a read of a millisecond returns.

A time stamp has the millisecond in its upper bits, so the versions of a millisecond are
those up to the last time stamp of it. The read makes that time stamp by a shift. The
source guards it by `checked_shl`, which looks at the distance of the shift and not at the
bits that are lost, so a millisecond that does not fit wraps around to an early one.

## Definitions

* `NewestAt`: The newest version of an object up to a millisecond.
* `ReadsNewest`: What a read of a millisecond is to return.
* `ShiftsWell`: The milliseconds for which it does.

## Theorems

* `getVersionAt_iff`: The version that is read is the newest one.
* `as_of_newest`: The exact condition.
* `AsOfReads.as_of_wraps`: A version that is gone at a later millisecond.
-/

namespace Aikoql.Kernel

open List
open Storage (Sha256)

variable {s : Store} {koid : Koid} {atMillis : Nat} {row : Nat × KnowledgeObject}

/-- The newest version of an object up to a millisecond, with its commit time. -/
def NewestAt (s : Store) (koid : Koid) (atMillis : Nat) (row : Nat × KnowledgeObject) : Prop :=
  s.getObjectVersion koid row.1 = some row.2 ∧ row.1 / 2 ^ 16 ≤ atMillis ∧
    ∀ ts ko, s.getObjectVersion koid ts = some ko → ts / 2 ^ 16 ≤ atMillis → ts ≤ row.1

theorem NewestAt.unique {row' : Nat × KnowledgeObject} (h : NewestAt s koid atMillis row)
    (h' : NewestAt s koid atMillis row') : row = row' := by
  obtain ⟨ts, ko⟩ := row
  obtain ⟨ts', ko'⟩ := row'
  obtain rfl : ts = ts' :=
    Nat.le_antisymm (h'.2.2 ts ko h.1 h.2.1) (h.2.2 ts' ko' h'.1 h'.2.1)
  obtain rfl : ko = ko' := Option.some.inj (h.1.symm.trans h'.1)
  rfl

theorem mem_versions : row ∈ ((s.objects koid).toList.filter fun row =>
      row.1 ≤ Reader.endOfMillis atMillis) ↔
    s.getObjectVersion koid row.1 = some row.2 ∧ row.1 ≤ Reader.endOfMillis atMillis := by
  rw [mem_filter, Std.ExtTreeMap.mem_toList_iff_getElem?_eq_some, decide_eq_true_eq]
  rfl

/-- The commit times of an object fit into 64 bits, as they do in the source. -/
def Store.StampsFit (s : Store) (koid : Koid) : Prop :=
  ∀ ts ko, s.getObjectVersion koid ts = some ko → ts < 2 ^ 64

/-- A millisecond whose time stamp loses no bits, or loses them and is all ones. -/
def ShiftsWell (atMillis : Nat) : Prop :=
  atMillis < 2 ^ 48 ∨ atMillis % 2 ^ 48 = 2 ^ 48 - 1

theorem le_endOfMillis {ts : Nat} (hat : ShiftsWell atMillis) (hts : ts < 2 ^ 64) :
    ts ≤ Reader.endOfMillis atMillis ↔ ts / 2 ^ 16 ≤ atMillis := by
  unfold Reader.endOfMillis
  rcases hat with hat | hat
  · omega
  · omega

section

variable (hfits : s.StampsFit koid) (hat : ShiftsWell atMillis)
include hfits hat

theorem newestAt_of_getVersionAt
    (h : s.getVersionAt koid (Reader.endOfMillis atMillis) = some row) :
    NewestAt s koid atMillis row := by
  obtain ⟨older, hrows⟩ := getLast?_eq_some_iff.mp h
  have hmem := mem_versions.mp (hrows ▸ mem_append_right older (mem_singleton_self row))
  refine ⟨hmem.1, (le_endOfMillis hat (hfits _ _ hmem.1)).mp hmem.2, fun ts ko hko hts => ?_⟩
  have hsorted : (older ++ [row]).Pairwise fun a b => a.1 < b.1 := by
    rw [← hrows]
    exact (Std.ExtTreeMap.ordered_keys_toList.imp Nat.compare_eq_lt.mp).filter _
  have hother : (ts, ko) ∈ older ++ [row] := by
    rw [← hrows]
    exact mem_versions.mpr ⟨hko, (le_endOfMillis hat (hfits _ _ hko)).mpr hts⟩
  rcases mem_append.mp hother with holder | hlast
  · exact (((pairwise_append.mp hsorted).2.2 _ holder) _ (mem_singleton_self _)).le
  · rw [← mem_singleton.mp hlast]

theorem exists_getVersionAt (hrow : s.getObjectVersion koid row.1 = some row.2)
    (hle : row.1 / 2 ^ 16 ≤ atMillis) :
    ∃ found, s.getVersionAt koid (Reader.endOfMillis atMillis) = some found := by
  refine Option.ne_none_iff_exists'.mp fun hnone => ?_
  have hmem := mem_versions.mpr ⟨hrow, (le_endOfMillis hat (hfits _ _ hrow)).mpr hle⟩
  rw [getLast?_eq_none_iff.mp hnone] at hmem
  cases hmem

theorem getVersionAt_iff : s.getVersionAt koid (Reader.endOfMillis atMillis) = some row ↔
      NewestAt s koid atMillis row := by
  refine ⟨newestAt_of_getVersionAt hfits hat, fun h => ?_⟩
  obtain ⟨found, hfound⟩ := exists_getVersionAt hfits hat h.1 h.2.1
  rw [hfound, (newestAt_of_getVersionAt hfits hat hfound).unique h]

end

theorem getObjectVersion_of_getVersionAt (h : s.getVersionAt koid (Reader.endOfMillis atMillis)
      = some row) :
    s.getObjectVersion koid row.1 = some row.2 ∧ row.1 ≤ Reader.endOfMillis atMillis :=
  mem_versions.mp (mem_of_getLast? h)

/-- A read of a millisecond returns the newest version up to it, unless that is valid no
    more, and finds a version as new as one that a read of an earlier millisecond finds. -/
def ReadsNewest (r : Reader) (s : Store) (ctx : KnowledgeContext) (koid : Koid)
    (atMillis : Nat) : Prop :=
  (∀ row, NewestAt s koid atMillis row → r.getAsOf s ctx koid atMillis
    = .ok (if row.2.validTo.any fun t => t ≤ atMillis then none else some row.2)) ∧
  ((∀ row, ¬NewestAt s koid atMillis row) → r.getAsOf s ctx koid atMillis = .ok none) ∧
  ∀ earlier ≤ atMillis, ∀ row, s.getVersionAt koid (Reader.endOfMillis earlier) = some row →
    ∃ row', s.getVersionAt koid (Reader.endOfMillis atMillis) = some row' ∧ row.1 ≤ row'.1

theorem readsNewest {r : Reader} {ctx : KnowledgeContext} (hat : ShiftsWell atMillis)
    (hfits : s.StampsFit koid) (hreads : ∀ row, NewestAt s koid atMillis row →
      r.auth.authorize ctx.subject row.2 .read = .ok ()) :
    ReadsNewest r s ctx koid atMillis := by
  refine ⟨fun row h => ?_, fun hnone => ?_, fun earlier hle row h => ?_⟩
  · unfold Reader.getAsOf Store.objectAt
    rw [(getVersionAt_iff hfits hat).mpr h]
    simp only [Option.map_some, hreads row h]
    split <;> rfl
  · cases hfound : s.getVersionAt koid (Reader.endOfMillis atMillis) with
    | none => simp [Reader.getAsOf, Store.objectAt, hfound]
    | some row => exact absurd ((getVersionAt_iff hfits hat).mp hfound) (hnone row)
  · obtain ⟨hrow, hts⟩ := getObjectVersion_of_getVersionAt h
    have hstamp := hfits _ _ hrow
    have hmillis : row.1 / 2 ^ 16 ≤ atMillis := by
      by_cases hsmall : earlier < 2 ^ 48
      · exact ((le_endOfMillis (.inl hsmall) hstamp).mp hts).trans hle
      · omega
    obtain ⟨row', hfound⟩ := exists_getVersionAt hfits hat hrow hmillis
    exact ⟨row', hfound, (newestAt_of_getVersionAt hfits hat hfound).2.2 _ _ hrow hmillis⟩

namespace AsOfReads

open Samples

def committed : Option State :=
  turn .unrestricted (.unsigned Sha256.fips180) .initial ⟨⟨1, 1, fun _ => 0⟩,
    .remember { RememberRequest.create ann ⟨utf8 "note", none, 0, []⟩ with koid := some 1 }, true⟩

theorem committed_row : ∃ st, committed = some st ∧
    ∃ row, st.store.getVersionAt 1 (Reader.endOfMillis 1) = some row ∧ row.1 < 2 ^ 64 ∧
      row.2.validTo = none ∧ (plainReader.auth.authorize ann.subject row.2 .read).isOk = true ∧
      ∀ row' ∈ (st.store.objects 1).toList, row'.1 = row.1 := by
  decide +kernel

/-- A store with one version of an object, committed in the last millisecond. -/
def late (ko : KnowledgeObject) : Store :=
  { Store.empty with objects := fun _ => (∅ : Std.ExtTreeMap Nat _).insert (2 ^ 64 - 1) ko }

theorem getObjectVersion_late {ko ko' : KnowledgeObject} {ts : Nat}
    (h : (late ko).getObjectVersion koid ts = some ko') : ts = 2 ^ 64 - 1 := by
  simp only [late, Store.getObjectVersion, Std.ExtTreeMap.getElem?_insert, Nat.compare_eq_eq] at h
  by_contra hne
  rw [if_neg (Ne.symm hne)] at h
  simp at h

end AsOfReads

/-- For every reader and store, the reads of a millisecond return the newest version up to it
    exactly if its time stamp loses no bits, or loses them and is all ones. -/
theorem as_of_newest (atMillis : Nat) :
    (∀ (r : Reader) (s : Store) (ctx : KnowledgeContext) (koid : Koid), s.StampsFit koid →
      (∀ row, NewestAt s koid atMillis row → r.auth.authorize ctx.subject row.2 .read = .ok ()) →
      ReadsNewest r s ctx koid atMillis) ↔ ShiftsWell atMillis := by
  refine ⟨fun h => ?_, fun hat r s ctx koid hfits hreads => readsNewest hat hfits hreads⟩
  by_contra hat
  obtain ⟨-, -, row, -, -, hvalid, hallowed, -⟩ := AsOfReads.committed_row
  have hrow : (AsOfReads.late row.2).getObjectVersion 1 (2 ^ 64 - 1) = some row.2 := by
    simp [AsOfReads.late, Store.getObjectVersion]
  have hsmall : ¬2 ^ 64 - 1 ≤ Reader.endOfMillis atMillis := by
    unfold ShiftsWell at hat
    unfold Reader.endOfMillis
    omega
  have hnewest : NewestAt (AsOfReads.late row.2) 1 atMillis (2 ^ 64 - 1, row.2) := by
    refine ⟨hrow, ?_, fun ts ko hko _ => (AsOfReads.getObjectVersion_late hko).le⟩
    unfold ShiftsWell at hat
    omega
  have hread := (h Samples.plainReader _ Samples.ann 1
    (fun ts ko hko => by have := AsOfReads.getObjectVersion_late hko; omega)
    (fun row' hrow' => hnewest.unique hrow' ▸ eq_ok_of_isOk hallowed)).1 _ hnewest
  rw [hvalid] at hread
  -- The only version is behind the time stamp that the read asks for.
  cases hfound : (AsOfReads.late row.2).getVersionAt 1 (Reader.endOfMillis atMillis) with
  | none => simp [Reader.getAsOf, Store.objectAt, hfound] at hread
  | some found =>
    obtain ⟨hversion, hle⟩ := getObjectVersion_of_getVersionAt hfound
    exact hsmall (AsOfReads.getObjectVersion_late hversion ▸ hle)

namespace AsOfReads

open Samples

theorem read_at_commit : ∃ st row, committed = some st ∧ NewestAt st.store 1 1 row ∧
    plainReader.getAsOf st.store ann 1 1 = .ok (some row.2) := by
  obtain ⟨st, hst, row, hrow, hstamp, hvalid, hallowed, honly⟩ := committed_row
  have hat : ShiftsWell 1 := .inl (by decide)
  have hfits : st.store.StampsFit 1 := fun ts ko hko =>
    lt_of_eq_of_lt (honly (ts, ko) (Std.ExtTreeMap.mem_toList_iff_getElem?_eq_some.mpr hko)) hstamp
  have hnewest := newestAt_of_getVersionAt hfits hat hrow
  have hread := ((as_of_newest 1).mpr hat plainReader st.store ann 1 hfits fun row' hrow' =>
    hnewest.unique hrow' ▸ eq_ok_of_isOk hallowed).1 row hnewest
  rw [hvalid] at hread
  exact ⟨st, row, hst, hnewest, hread⟩

/-- It is valid and may be read, and it is gone at a later millisecond. -/
theorem as_of_wraps : ∃ st, committed = some st ∧
    ∃ row, st.store.getVersionAt 1 (Reader.endOfMillis 1) = some row ∧ row.1 / 2 ^ 16 = 1 ∧
      row.2.validTo = none ∧ (plainReader.auth.authorize ann.subject row.2 .read).isOk = true ∧
      ((plainReader.getAsOf st.store ann 1 1).toOption.map Option.isSome) = some true ∧
      ((plainReader.getAsOf st.store ann 1 (2 ^ 48)).toOption.map Option.isSome) = some false := by
  decide +kernel

end AsOfReads

end Aikoql.Kernel
