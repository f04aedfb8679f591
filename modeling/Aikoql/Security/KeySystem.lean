import Aikoql.Security.Envelope
import Aikoql.Lib.Runs

/-!
# Key Rotation

The master key, the store key and the keys of the tenants, in a process that may stop
anywhere.

The store key is in a file, wrapped by the master key. A rotation makes a new master key
and goes through steps: it wraps the store key in a second file, wraps the keys of the
tenants in the rows for the next master key, has the new key installed, makes these rows
the current ones, and renames the second file over the first. Every step may fail, and
then the process goes on, or it may be the last one of the process. While a rotation runs
no tenant gets a key and no keys are persisted or rolled, because of a lock.

A field is written in steps too: it is encrypted under the key of its tenant, the keys
are persisted, and the version is committed. A roll gives the tenants new keys and then
commits versions that are encrypted under these.

Beside the state there is what was returned by opening the store key, and the keys that
the fields of committed versions are encrypted under.
-/

namespace Aikoql.Security

open Kernel (Text)

/-- The store key, wrapped. -/
structure Wrap where
  kek : Key
  key : Key
  deriving DecidableEq

def readWrapped (kek : Key) (file : Option Wrap) : Option Key :=
  file.bind fun w => if w.kek = kek then some w.key else none

/-- How far a rotation came. -/
inductive RotationStage where
  | begun
  | written
  | persisted
  | installed
  | promoted
  deriving DecidableEq

/-- A rotation that runs: the new master key, and the wraps for it. -/
structure Rotation where
  newKek : Key
  stage : RotationStage
  wraps : List WrappedDek
  prevWraps : List WrappedDek

/-- A field that is being written: its key, and whether the keys were persisted. -/
structure Writing where
  tenant : Text
  dek : Key
  persisted : Bool
  deriving DecidableEq

/-- The key the key manager has installed, the files, the rows; then the process, which
    has the store key and the keys of the tenants if they were opened. -/
structure KeySystem where
  installed : Key
  dekFile : Option Wrap
  nextFile : Option Wrap
  rows : KeyRows
  ring : Option Key
  env : Option Envelope
  rotation : Option Rotation
  writing : Option Writing
  opened : List (Option Key)
  used : List (Text × Key)

/-- A key manager with its first master key, and a store that has a store key or none. -/
def KeySystem.initial (kek : Key) (storeKey : Option Key) : KeySystem :=
  ⟨kek, storeKey.map fun key => ⟨kek, key⟩, none, .empty, none, none, none, none, [], []⟩

/-! ## Opening -/

def KeySystem.returns (s : KeySystem) (key : Key) : KeySystem :=
  { s with ring := some key, opened := some key :: s.opened }

/-- Open the store key. A second file that opens is renamed over the first, one that does
    not is removed. A store without files has the key that is derived from the master
    key. A removal may fail unnoticed; if another write fails then opening stops. -/
def KeySystem.openRing (deriveKey : Key → Key) (s : KeySystem) (removed taken : Bool) :
    KeySystem :=
  match readWrapped s.installed s.nextFile with
  | some key =>
    if taken then { s with dekFile := s.nextFile, nextFile := none }.returns key else s
  | none =>
    let s := { s with nextFile := if removed then none else s.nextFile }
    match readWrapped s.installed s.dekFile with
    | some key => s.returns key
    | none =>
      if s.dekFile.isSome then { s with opened := none :: s.opened }
      else if taken then
        { s with dekFile := some ⟨s.installed, deriveKey s.installed⟩ }.returns
          (deriveKey s.installed)
      else s

def KeySystem.openFields (s : KeySystem) (taken : Bool) : KeySystem :=
  if s.rows.next.isSome && !taken then s
  else
    let loaded := withFieldEncryption s.rows s.installed
    { s with rows := loaded.1, env := loaded.2 }

/-! ## Rotations -/

inductive RotationEvent where
  | writeNext
  | persistNext (taken : Bool)
  | install
  | promote (taken : Bool)
  | rename
  deriving DecidableEq

def KeySystem.rotationStep (s : KeySystem) (r : Rotation) (storeKey : Key) :
    RotationEvent → RotationStage → Option KeySystem
  | .writeNext, .begun =>
    some { s with
      nextFile := some ⟨r.newKek, storeKey⟩
      rotation := some { r with stage := .written } }
  | .persistNext taken, .written =>
    match s.env with
    | none => some { s with rotation := some { r with stage := .persisted } }
    | some e =>
      if taken then
        some { s with
          rows := s.rows.persistNextDeks (e.rewrapped r.newKek) (e.rewrappedPrev r.newKek)
          rotation := some ⟨r.newKek, .persisted, e.rewrapped r.newKek, e.rewrappedPrev r.newKek⟩ }
      else some { s with rotation := none }
  | .install, .persisted =>
    some { s with installed := r.newKek, rotation := some { r with stage := .installed } }
  | .promote taken, .installed =>
    match s.env with
    | none => some { s with rotation := some { r with stage := .promoted } }
    | some e =>
      if taken then
        some { s with
          rows := KeyRows.promoteNextDeks r.wraps r.prevWraps
          env := some (e.adopt r.newKek r.wraps)
          rotation := some { r with stage := .promoted } }
      else some { s with rotation := none }
  | .rename, .promoted =>
    match s.nextFile with
    | none => some { s with rotation := none }
    | some w => some { s with dekFile := some w, nextFile := none, rotation := none }
  | _, _ => none

/-! ## Steps -/

inductive KeyEvent where
  | crash
  | openRing (removed taken : Bool)
  | openFields (taken : Bool)
  | encrypt (tenant : Text) (random : Key)
  | persist (taken : Bool)
  | commit
  | giveUp
  | roll (random : Text → Key) (taken : Bool)
  | rewrite (tenant : Text)
  | rotate (newKek : Key)
  | rotation (e : RotationEvent)
  | stop

/-- Encrypt a field. A key is made only while no rotation runs. -/
def KeySystem.encrypt (s : KeySystem) (e : Envelope) (tenant : Text) (random : Key) :
    Option KeySystem :=
  if s.writing.isSome || (e.deks[tenant]?.isNone && s.rotation.isSome) then none
  else
    let next := e.tenantKey tenant random
    some { s with env := some next.1, writing := some ⟨tenant, next.2, false⟩ }

/-- Give the tenants new keys, unless that was done before. The rows are written behind
    that, and if this fails the new keys stay in memory. -/
def KeySystem.roll (s : KeySystem) (e : Envelope) (random : Text → Key) (taken : Bool) :
    KeySystem :=
  if e.wraps.isEmpty || s.rows.prev.isSome then s
  else
    let rolled := e.rollDeks random
    { s with
      env := some rolled.1
      rows := if taken then { s.rows with prev := some e.wraps, deks := some rolled.2 }
        else s.rows }

/-- Commit a version that is encrypted under the new key of a tenant, behind a roll. -/
def KeySystem.rewrite (s : KeySystem) (e : Envelope) (tenant : Text) : Option KeySystem :=
  if s.rows.prev.isSome && e.prevDeks[tenant]?.isSome then
    e.deks[tenant]?.map fun dek => { s with used := (tenant, dek) :: s.used }
  else none

def KeySystem.step (deriveKey : Key → Key) (s : KeySystem) : KeyEvent → Option KeySystem
  | .crash => some { s with ring := none, env := none, rotation := none, writing := none }
  | .openRing removed taken => some (s.openRing deriveKey removed taken)
  | .openFields taken =>
    if s.env.isNone && s.rotation.isNone then some (s.openFields taken) else none
  | .encrypt tenant random => s.env.bind fun e => s.encrypt e tenant random
  | .persist taken =>
    s.env.bind fun e => s.writing.bind fun w =>
      if w.persisted || s.rotation.isSome then none
      else if taken then
        some { s with
          rows := { s.rows with deks := some e.wraps }
          writing := some { w with persisted := true } }
      else some { s with writing := none }
  | .commit =>
    s.writing.bind fun w =>
      if w.persisted then
        some { s with used := (w.tenant, w.dek) :: s.used, writing := none }
      else none
  | .giveUp => some { s with writing := none }
  | .roll random taken =>
    if s.rotation.isSome then none else s.env.map fun e => s.roll e random taken
  | .rewrite tenant => s.env.bind fun e => s.rewrite e tenant
  | .rotate newKek =>
    if s.ring.isSome && s.rotation.isNone then
      some { s with rotation := some ⟨newKek, .begun, [], []⟩ }
    else none
  | .rotation e =>
    s.rotation.bind fun r => s.ring.bind fun storeKey => s.rotationStep r storeKey e r.stage
  | .stop => some { s with rotation := none }

end Aikoql.Security
