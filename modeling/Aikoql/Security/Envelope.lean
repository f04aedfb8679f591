import Aikoql.Kernel.Object

/-!
# Tenant Keys

The keys that encrypt the fields of objects, one for each tenant, and the rows that keep
them.

The key of a tenant is stored wrapped by the master key. A wrap opens only under the key
that made it, so it is modelled as the two keys together. A roll gives every tenant a new
key and keeps the old one to read what it encrypted.

There are four rows: the current wraps, the wraps of the keys before a roll, and both once
more for a master key that is about to be installed. When the rows are loaded, the second
pair wins if it opens under the master key that is installed.
-/

namespace Aikoql.Security

open Kernel (Text)

abbrev Key := Bytes

structure WrappedDek where
  tenant : Text
  kek : Key
  dek : Key
  deriving DecidableEq

def WrappedDek.unwrap (w : WrappedDek) (kek : Key) : Option Key :=
  if w.kek = kek then some w.dek else none

/-! ## Memory -/

/-- The master key, the keys of the tenants, those before a roll, and the wraps. -/
structure Envelope where
  kek : Key
  deks : Std.ExtTreeMap Text Key
  prevDeks : Std.ExtTreeMap Text Key
  wrappedDeks : Std.ExtTreeMap Text WrappedDek

def Envelope.init (kek : Key) : Envelope := ⟨kek, ∅, ∅, ∅⟩

def Envelope.tenantKey (e : Envelope) (tenant : Text) (random : Key) : Envelope × Key :=
  match e.deks[tenant]? with
  | some dek => (e, dek)
  | none =>
    ({ e with
        deks := e.deks.insert tenant random
        wrappedDeks := e.wrappedDeks.insert tenant ⟨tenant, e.kek, random⟩ }, random)

def Envelope.unwrapsAll (e : Envelope) (set : List WrappedDek) : Bool :=
  set.all fun w => (w.unwrap e.kek).isSome

def Envelope.loadDek (e : Envelope) (w : WrappedDek) : Option Envelope :=
  (w.unwrap e.kek).map fun dek =>
    { e with
      deks := e.deks.insert w.tenant dek
      wrappedDeks := e.wrappedDeks.insert w.tenant w }

def Envelope.loadPrevDek (e : Envelope) (w : WrappedDek) : Option Envelope :=
  (w.unwrap e.kek).map fun dek => { e with prevDeks := e.prevDeks.insert w.tenant dek }

def wrapAll (deks : Std.ExtTreeMap Text Key) (kek : Key) : List WrappedDek :=
  deks.toList.map fun p => ⟨p.1, kek, p.2⟩

def Envelope.rewrapped (e : Envelope) (newKek : Key) : List WrappedDek :=
  wrapAll e.deks newKek

def Envelope.rewrappedPrev (e : Envelope) (newKek : Key) : List WrappedDek :=
  wrapAll e.prevDeks newKek

def Envelope.wraps (e : Envelope) : List WrappedDek :=
  e.wrappedDeks.toList.map Prod.snd

def Envelope.rollDeks (e : Envelope) (random : Text → Key) : Envelope × List WrappedDek :=
  let deks := e.deks.map fun tenant _ => random tenant
  ({ e with
      deks := deks
      prevDeks := e.deks.foldl (fun prev tenant dek => prev.insert tenant dek) e.prevDeks
      wrappedDeks := deks.map fun tenant dek => ⟨tenant, e.kek, dek⟩ },
    wrapAll deks e.kek)

def Envelope.adopt (e : Envelope) (newKek : Key) (wraps : List WrappedDek) : Envelope :=
  { e with
    kek := newKek
    wrappedDeks := wraps.foldl (fun m w => m.insert w.tenant w) ∅ }

/-! ## Rows -/

/-- The current wraps, those before a roll, and both for the next master key. -/
structure KeyRows where
  deks : Option (List WrappedDek)
  prev : Option (List WrappedDek)
  next : Option (List WrappedDek)
  prevNext : Option (List WrappedDek)

def KeyRows.empty : KeyRows := ⟨none, none, none, none⟩

def rowOf (wraps : List WrappedDek) : Option (List WrappedDek) :=
  if wraps.isEmpty then none else some wraps

def KeyRows.persistNextDeks (rows : KeyRows) (wraps prev : List WrappedDek) : KeyRows :=
  { rows with next := some wraps, prevNext := rowOf prev }

def KeyRows.promoteNextDeks (wraps prev : List WrappedDek) : KeyRows :=
  ⟨some wraps, rowOf prev, none, none⟩

def KeyRows.nextWins (rows : KeyRows) (kek : Key) : Bool :=
  match rows.next with
  | some wraps => (Envelope.init kek).unwrapsAll wraps
  | none => false

/-- Finish a rotation that was interrupted behind its commit, or drop one that was
    interrupted before. -/
def KeyRows.settle (rows : KeyRows) (kek : Key) : KeyRows :=
  if rows.nextWins kek then KeyRows.promoteNextDeks (rows.next.getD []) (rows.prevNext.getD [])
  else if rows.next.isSome then { rows with next := none, prevNext := none }
  else rows

def withFieldEncryption (rows : KeyRows) (kek : Key) : KeyRows × Option Envelope :=
  let rows := rows.settle kek
  (rows, do
    let e ← (rows.deks.getD []).foldlM Envelope.loadDek (Envelope.init kek)
    (rows.prev.getD []).foldlM Envelope.loadPrevDek e)

end Aikoql.Security
