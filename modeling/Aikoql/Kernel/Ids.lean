import Aikoql.Kernel.Guarded

/-!
# New Ids

Where the ids of new objects come from.

An id is made of a millisecond, a counter and a seed. The generator remembers the
millisecond of the newest id and how many ids it has made in it. If the clock is beyond
that millisecond the next id starts there, otherwise the counter goes on. The counter
has thirty-two bits and wraps around.

A kernel that is opened has a new generator. It is put behind the millisecond of the
newest commit, because a committed id was made before its commit. The time stamp of a
commit comes from the hybrid clock, which does not follow a clock that is behind.
-/

namespace Aikoql.Kernel

def Koid.ofBytes (b : Bytes) : Koid :=
  Fin.ofNat (2 ^ 128) (beNat b)

def Koid.mint (idSeed ms counter : Nat) : Koid :=
  Koid.ofBytes (beBytes 6 ms ++ beBytes 4 counter ++ beBytes 6 idSeed)

structure IdGen where
  idSeed : Nat
  lastMs : Nat
  counter : Nat
  deriving DecidableEq

def IdGen.new (idSeed : Nat) : IdGen := ⟨idSeed, 0, 0⟩

def IdGen.skipPast (g : IdGen) (ms : Nat) : IdGen :=
  { g with lastMs := ms + 1, counter := 0 }

def IdGen.next (g : IdGen) (nowMs : Nat) : IdGen × Koid :=
  let g := if g.lastMs < nowMs then { g with lastMs := nowMs, counter := 0 }
    else { g with counter := (g.counter + 1) % 2 ^ 32 }
  (g, Koid.mint g.idSeed g.lastMs g.counter)

/-- The generator of a kernel that is opened on rows. -/
def IdGen.opened (idSeed : Nat) (s : Store) : IdGen :=
  let lastTs := hlcOpened s
  if 0 < lastTs then (IdGen.new idSeed).skipPast (lastTs / 2 ^ 16) else IdGen.new idSeed

/-! ## A kernel with its generator -/

/-- A kernel with its generator, and the ids that were made so far, each with the
    generator behind it. -/
structure Minting where
  st : State
  gen : IdGen
  made : List (IdGen × Koid)

/-- The ids that were made so far, the newest first. -/
def Minting.minted (m : Minting) : List Koid := m.made.map Prod.snd

def Minting.initial (idSeed : Nat) : Minting :=
  ⟨State.initial, IdGen.opened idSeed Store.empty, []⟩

/-- Close the kernel and open it again, make an id, or make a call. An object is created
    by making an id and then a call that is given the id. -/
inductive MintEvent where
  | reopen
  | mint (nowMs : Nat)
  | call (checks : Admission) (turn : Turn)

def Minting.step (C : Crypto) (idSeed : Nat) (m : Minting) : MintEvent → Option Minting
  | .reopen =>
    let opened := openUsage m.st.store
    some { m with
      st := State.opened opened.1 opened.2
      gen := IdGen.opened idSeed opened.1 }
  | .mint nowMs =>
    let next := m.gen.next nowMs
    some { m with gen := next.1, made := next :: m.made }
  | .call checks turn =>
    some { m with st := (Kernel.step checks C m.st turn.io turn.call turn.taken).1 }

end Aikoql.Kernel
