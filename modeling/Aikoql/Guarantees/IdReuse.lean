import Aikoql.Kernel.Ids

/-!
# Ids Are Not Issued Again

When no two ids of a store are the same.

The place of a generator is its millisecond and its counter, and every id is made at a
place beyond the one before. So ids are the same only if the generator goes back. Within
a process it goes back only when its counter wraps around or the clock leaves its
forty-eight bits.

A reopen puts the generator behind the newest commit, and the generator may be further
than that: it makes ids in the millisecond behind the newest commit, while the time
stamps of their commits stay in the millisecond before, as long as the clock is behind.
The next reopen then goes back to where the last one started.

## Main definitions

* `IdGen.HasRoom`: A generator can make an id beyond its place.
* `Onward`: A step that makes no id at a place of an earlier one.

## Main theorems

* `ids_distinct`: Ids differ in every run of such steps.
* `IdReuse.id_issued_twice`: An id that is issued again behind a reopen.
-/

namespace Aikoql.Kernel

open List
open Storage (Sha256)

/-! ## Ids -/

theorem beNat_lt (b : Bytes) : beNat b < 256 ^ b.length := by
  have h := leNat_lt b.reverse
  rwa [length_reverse] at h

theorem Koid.ofBytes_inj {b b' : Bytes} (hb : b.length = 16) (hb' : b'.length = 16)
    (h : Koid.ofBytes b = Koid.ofBytes b') : b = b' := by
  have hlt := beNat_lt b
  have hlt' := beNat_lt b'
  rw [hb] at hlt
  rw [hb'] at hlt'
  have hval : beNat b % 2 ^ 128 = beNat b' % 2 ^ 128 := congrArg Fin.val h
  rw [Nat.mod_eq_of_lt (by omega), Nat.mod_eq_of_lt (by omega)] at hval
  rw [← beBytes_beNat b, ← beBytes_beNat b', hb, hb', hval]

theorem beBytes_inj {w n n' : Nat} (hn : n < 256 ^ w) (hn' : n' < 256 ^ w)
    (h : beBytes w n = beBytes w n') : n = n' := by
  rw [← beNat_beBytes_of_lt w n hn, h, beNat_beBytes_of_lt w n' hn']

theorem Koid.mint_inj {idSeed ms ms' counter counter' : Nat} (hms : ms < 2 ^ 48)
    (hms' : ms' < 2 ^ 48) (hc : counter < 2 ^ 32) (hc' : counter' < 2 ^ 32)
    (h : Koid.mint idSeed ms counter = Koid.mint idSeed ms' counter') :
    ms = ms' ∧ counter = counter' := by
  have hbytes := Koid.ofBytes_inj (by simp) (by simp) h
  obtain ⟨hfront, -⟩ := append_inj' hbytes (by simp)
  obtain ⟨hfirst, hsecond⟩ := append_inj' hfront (by simp)
  exact ⟨beBytes_inj (by omega) (by omega) hfirst, beBytes_inj (by omega) (by omega) hsecond⟩

/-! ## Places -/

/-- A place, given by its millisecond and its counter, is not beyond that of a generator. -/
def IdGen.Passed (g : IdGen) (ms counter : Nat) : Prop :=
  ms < g.lastMs ∨ ms = g.lastMs ∧ counter ≤ g.counter
  deriving Decidable

/-- The generator has room for an id: the clock fits its bytes, and the counter does not
    wrap around. -/
def IdGen.HasRoom (g : IdGen) (nowMs : Nat) : Prop :=
  nowMs < 2 ^ 48 ∧ g.lastMs < 2 ^ 48 ∧ (nowMs ≤ g.lastMs → g.counter + 1 < 2 ^ 32)
  deriving Decidable

theorem IdGen.next_beyond {g : IdGen} {nowMs : Nat} (hroom : g.HasRoom nowMs) :
    ¬g.Passed (g.next nowMs).1.lastMs (g.next nowMs).1.counter ∧ nowMs ≤ (g.next nowMs).1.lastMs ∧
      (g.next nowMs).1.lastMs < 2 ^ 48 ∧ (g.next nowMs).1.counter < 2 ^ 32 := by
  obtain ⟨hnow, hlast, hcounter⟩ := hroom
  unfold IdGen.next IdGen.Passed
  by_cases hclock : g.lastMs < nowMs
  · simp only [if_pos hclock]
    refine ⟨?_, ?_, ?_, ?_⟩ <;> omega
  · -- The counter goes on in the same millisecond.
    have hbound := hcounter (by omega)
    have hnext : (g.counter + 1) % 2 ^ 32 = g.counter + 1 := Nat.mod_eq_of_lt hbound
    simp only [if_neg hclock, hnext]
    refine ⟨?_, ?_, ?_, ?_⟩ <;> omega

theorem IdGen.next_idSeed (g : IdGen) (nowMs : Nat) : (g.next nowMs).1.idSeed = g.idSeed := by
  unfold IdGen.next
  by_cases hclock : g.lastMs < nowMs
  · simp only [if_pos hclock]
  · simp only [if_neg hclock]

theorem IdGen.opened_idSeed (idSeed : Nat) (s : Store) :
    (IdGen.opened idSeed s).idSeed = idSeed := by
  unfold IdGen.opened
  by_cases h : 0 < hlcOpened s
  · rw [if_pos h]
    rfl
  · rw [if_neg h]
    rfl

/-! ## Runs -/

/-- A step that makes no id at a place of an earlier one: if the generator was put back
    behind an id, the clock is beyond the millisecond of that id. -/
def Onward (m : Minting) : MintEvent → Prop
  | .reopen => True
  | .mint nowMs => m.gen.HasRoom nowMs ∧
      ∀ p ∈ m.made, m.gen.Passed p.1.lastMs p.1.counter ∨ p.1.lastMs < nowMs
  | .call _ _ => True

instance (m : Minting) : (e : MintEvent) → Decidable (Onward m e)
  | .reopen => isTrue trivial
  | .mint _ => inferInstanceAs (Decidable (_ ∧ _))
  | .call _ _ => isTrue trivial

/-- The ids differ, and each tells the generator that made it. -/
structure Placed (idSeed : Nat) (m : Minting) : Prop where
  seed : m.gen.idSeed = idSeed
  nodup : m.minted.Nodup
  places : ∀ p ∈ m.made, p.2 = Koid.mint idSeed p.1.lastMs p.1.counter ∧
    p.1.lastMs < 2 ^ 48 ∧ p.1.counter < 2 ^ 32

theorem Placed.initial (idSeed : Nat) : Placed idSeed (Minting.initial idSeed) :=
  ⟨IdGen.opened_idSeed idSeed _, nodup_nil, fun _ h => nomatch h⟩

theorem Placed.step {C : Crypto} {idSeed : Nat} {m m' : Minting} {e : MintEvent}
    (h : Placed idSeed m) (honward : Onward m e) (hstep : m.step C idSeed e = some m') :
    Placed idSeed m' := by
  cases e with
  | reopen =>
    cases hstep
    exact ⟨IdGen.opened_idSeed idSeed _, h.nodup, h.places⟩
  | mint nowMs =>
    cases hstep
    obtain ⟨hroom, hback⟩ := honward
    obtain ⟨hbeyond, hclock, hms, hcounter⟩ := IdGen.next_beyond hroom
    have hseed : (m.gen.next nowMs).1.idSeed = idSeed :=
      (IdGen.next_idSeed m.gen nowMs).trans h.seed
    have hid : (m.gen.next nowMs).2
        = Koid.mint idSeed (m.gen.next nowMs).1.lastMs (m.gen.next nowMs).1.counter := by
      rw [← hseed]
      rfl
    refine ⟨hseed, nodup_cons.mpr ⟨?_, h.nodup⟩, ?_⟩
    · -- An equal id was made at the same place, which the generator has passed or
      -- which is before the clock.
      intro hmem
      obtain ⟨p, hp, hequal⟩ := mem_map.mp hmem
      obtain ⟨hmint, hms', hcounter'⟩ := h.places p hp
      rw [hid, hmint] at hequal
      obtain ⟨hsame, hsame'⟩ := Koid.mint_inj hms' hms hcounter' hcounter hequal
      rcases hback p hp with hpassed | hbefore
      · rw [hsame, hsame'] at hpassed
        exact hbeyond hpassed
      · omega
    · exact forall_mem_cons.mpr ⟨⟨hid, hms, hcounter⟩, h.places⟩
  | call checks turn =>
    cases hstep
    exact ⟨h.seed, h.nodup, h.places⟩

/-- In every run from a new store, with reopens, ids and calls in any order and with any
    readings of the clock, every id is issued once, if no id is made by a generator that
    was put back behind the millisecond the clock shows. -/
theorem ids_distinct (C : Crypto) (idSeed : Nat) (m : Minting)
    (h : Runs.Reaches (Minting.step C idSeed) Onward (Minting.initial idSeed) m) :
    m.minted.Nodup := by
  suffices hplaced : Placed idSeed m from hplaced.nodup
  exact h.invariant (Placed.initial idSeed) fun _ _ _ hm honward hstep => hm.step honward hstep

namespace IdReuse

/-- Create an object: make an id while the clock shows a time, and commit it. -/
def create (nowMs hlcMs : Nat) (koid : Koid) : List MintEvent :=
  [.mint nowMs, .call .unrestricted ⟨⟨nowMs, hlcMs, fun _ => koid⟩,
      .remember (.create ⟨⟨utf8 "ann", [], none⟩, none⟩ ⟨utf8 "note", none, 0, []⟩), true⟩]

def clockAhead : List MintEvent :=
  create 5 5 (Koid.mint 1 5 0) ++ [.reopen] ++ create 8 8 (Koid.mint 1 8 0) ++ [.reopen] ++
    create 20 20 (Koid.mint 1 20 0)

theorem clockAhead_distinct :
    ∃ m, Runs.run (Minting.step (.unsigned Sha256.fips180) 1) (Minting.initial 1) clockAhead
        = some m ∧ m.minted.length = 3 ∧ m.minted.Nodup := by
  exact Runs.exists_run (P := fun m => m.minted.length = 3) (by decide +kernel)
    (by decide +kernel) fun m hreach hlength =>
    ⟨hlength, ids_distinct (.unsigned Sha256.fips180) 1 m hreach⟩

def clockBehind : List MintEvent :=
  create 5 5 (Koid.mint 1 5 0) ++ [.reopen] ++ create 5 5 (Koid.mint 1 6 1) ++ [.reopen] ++
    [.mint 5]

/-- An id is issued twice: the second object was committed under it, and the next object
    is given it again. -/
theorem id_issued_twice :
    ∃ m, Runs.run (Minting.step (.unsigned Sha256.fips180) 1) (Minting.initial 1) clockBehind
        = some m ∧
      m.minted = [Koid.mint 1 6 1, Koid.mint 1 6 1, Koid.mint 1 5 0] ∧
      (m.st.store.headObject (Koid.mint 1 6 1)).isSome = true ∧ ¬m.minted.Nodup := by
  decide +kernel

end IdReuse

end Aikoql.Kernel
