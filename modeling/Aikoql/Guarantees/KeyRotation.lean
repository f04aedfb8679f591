import Aikoql.Security.KeySystem

/-!
# Rotations Keep the Store Key

When every opening of the store key returns the first one.

All wraps are of the same key, so the question is whether one of the two files opens
under the master key that is installed. A rotation that finds the first file open writes
the second one, and then one of the two opens whether the new master key is installed or
not. But if a rotation ended between the installation and the rename, then it is the
second file that opens, and the next rotation overwrites this file before it installs its
own master key. If it ends in between then no file opens.

Opening removes the second file if it does not open, and a rotation that runs meanwhile
goes on to install a master key for which there is no wrap.

## Main definitions

* `OverwritesNothing`: No rotation overwrites the only file that opens.
* `StoreKeyHeld`: Every opening returns the first store key.

## Main theorems

* `store_key_kept`: The store key in every run of such steps.
* `KeyRotation.store_key_lost`: Rotations behind which nothing opens.
-/

namespace Aikoql.Security

open Option

def Opens (kek : Key) (file : Option Wrap) : Prop :=
  (readWrapped kek file).isSome = true
  deriving Decidable

/-- The first file opens when the second is written, and the second one opens under a
    master key that is installed. -/
def OverwritesNothing (s : KeySystem) : KeyEvent → Prop
  | .rotation .writeNext => Opens s.installed s.dekFile
  | .rotation .install =>
    match s.rotation with
    | some r => Opens r.newKek s.nextFile
    | none => True
  | _ => True

instance (s : KeySystem) (e : KeyEvent) : Decidable (OverwritesNothing s e) :=
  match e with
  | .rotation .writeNext => inferInstanceAs (Decidable (Opens _ _))
  | .rotation .install =>
    match hr : s.rotation with
    | some r => decidable_of_iff (Opens r.newKek s.nextFile)
        (by simp only [OverwritesNothing, hr])
    | none => isTrue (by simp only [OverwritesNothing, hr])
  | .rotation (.persistNext _) | .rotation (.promote _) | .rotation .rename
  | .crash | .openRing _ _ | .openFields _ | .encrypt _ _ | .persist _ | .commit | .giveUp
  | .roll _ _ | .rewrite _ | .rotate _ | .stop => isTrue trivial

theorem opens_iff {kek : Key} {file : Option Wrap} :
    Opens kek file ↔ ∃ w, file = some w ∧ w.kek = kek := by
  unfold Opens readWrapped
  cases file with
  | none => simp
  | some w => simp

theorem readWrapped_eq_some {kek key : Key} {file : Option Wrap}
    (h : readWrapped kek file = some key) : ∃ w, file = some w ∧ w.kek = kek ∧ w.key = key := by
  unfold readWrapped at h
  obtain ⟨w, hfile, hw⟩ := bind_eq_some_iff.mp h
  by_cases hkek : w.kek = kek
  · rw [if_pos hkek] at hw
    exact ⟨w, hfile, hkek, Option.some.inj hw⟩
  · rw [if_neg hkek] at hw
    cases hw

/-- All wraps are of one key, and so is what was returned. The store has no files yet and the key
    is the derived one, or one of the files opens. Behind the installation of a master key the
    second file, if it is there, opens under it. -/
structure StoreKeyHeld (deriveKey : Key → Key) (key : Key) (s : KeySystem) : Prop where
  dekFile : ∀ w, s.dekFile = some w → w.key = key
  nextFile : ∀ w, s.nextFile = some w → w.key = key
  ring : ∀ k, s.ring = some k → k = key
  opened : ∀ r ∈ s.opened, r = some key
  openable : (s.dekFile = none ∧ s.nextFile = none ∧ s.ring = none ∧ deriveKey s.installed = key) ∨
    Opens s.installed s.dekFile ∨ Opens s.installed s.nextFile
  committed : ∀ r, s.rotation = some r → r.stage = .installed ∨ r.stage = .promoted →
    ∀ w, s.nextFile = some w → w.kek = s.installed

section

variable {deriveKey : Key → Key} {key : Key} {s s' : KeySystem}

theorem StoreKeyHeld.initial (deriveKey : Key → Key) (kek : Key) (storeKey : Option Key) :
    StoreKeyHeld deriveKey (storeKey.getD (deriveKey kek)) (KeySystem.initial kek storeKey) := by
  have hopenable : (storeKey = none) ∨ ∃ k, storeKey = some k := by
    cases storeKey with
    | none => exact .inl rfl
    | some k => exact .inr ⟨k, rfl⟩
  refine ⟨?_, nofun, nofun, nofun, ?_, nofun⟩
  · intro w hw
    obtain ⟨k, rfl, rfl⟩ := map_eq_some_iff.mp hw
    rfl
  · rcases hopenable with rfl | ⟨k, rfl⟩
    · exact .inl ⟨rfl, rfl, rfl, rfl⟩
    · exact .inr (.inl (opens_iff.mpr ⟨_, rfl, rfl⟩))

section

variable (h : StoreKeyHeld deriveKey key s)
include h

theorem StoreKeyHeld.frame {rows : KeyRows} {env : Option Envelope} {rotation : Option Rotation}
    {writing : Option Writing} {used : List (Kernel.Text × Key)}
    (hrotation : ∀ r, rotation = some r → r.stage = .installed ∨ r.stage = .promoted →
      ∃ r₀, s.rotation = some r₀ ∧ (r₀.stage = .installed ∨ r₀.stage = .promoted)) :
    StoreKeyHeld deriveKey key { s with
      rows := rows
      env := env
      rotation := rotation
      writing := writing
      used := used } := by
  refine ⟨h.dekFile, h.nextFile, h.ring, h.opened, h.openable, fun r hr hstage => ?_⟩
  obtain ⟨r₀, hr₀, hstage₀⟩ := hrotation r hr hstage
  exact h.committed r₀ hr₀ hstage₀

theorem StoreKeyHeld.crash : StoreKeyHeld deriveKey key
      { s with ring := none, env := none, rotation := none, writing := none } := by
  refine ⟨h.dekFile, h.nextFile, nofun, h.opened, h.openable.imp_left ?_, nofun⟩
  rintro ⟨hdek, hnext, -, hderive⟩
  exact ⟨hdek, hnext, rfl, hderive⟩

theorem StoreKeyHeld.returns (hopens : Opens s.installed s.dekFile ∨ Opens s.installed s.nextFile) :
    StoreKeyHeld deriveKey key (s.returns key) where
  dekFile := h.dekFile
  nextFile := h.nextFile
  ring := fun _ hk => (Option.some.inj hk).symm
  opened := List.forall_mem_cons.mpr ⟨rfl, h.opened⟩
  openable := .inr hopens
  committed := h.committed

theorem StoreKeyHeld.removeNext (hclosed : ¬Opens s.installed s.nextFile) (removed : Bool) :
    StoreKeyHeld deriveKey key { s with nextFile := if removed then none else s.nextFile } := by
  cases removed with
  | false => exact h
  | true =>
    refine ⟨h.dekFile, nofun, h.ring, h.opened, ?_, nofun⟩
    rcases h.openable with ⟨hdek, -, hring, hderive⟩ | hdek | hnext
    · exact .inl ⟨hdek, rfl, hring, hderive⟩
    · exact .inr (.inl hdek)
    · exact absurd hnext hclosed

theorem StoreKeyHeld.openRing (removed taken : Bool) :
    StoreKeyHeld deriveKey key (s.openRing deriveKey removed taken) := by
  unfold KeySystem.openRing
  cases hnext : readWrapped s.installed s.nextFile with
  | some k =>
    obtain ⟨w, hfile, hkek, rfl⟩ := readWrapped_eq_some hnext
    obtain rfl := h.nextFile w hfile
    cases taken with
    | false => exact h
    | true =>
      -- The second file becomes the first one.
      have hopens : Opens s.installed s.nextFile := opens_iff.mpr ⟨w, hfile, hkek⟩
      have hrenamed : StoreKeyHeld deriveKey w.key
          { s with dekFile := s.nextFile, nextFile := none } :=
        ⟨h.nextFile, nofun, h.ring, h.opened, .inr (.inl hopens), nofun⟩
      exact hrenamed.returns (.inl hopens)
  | none =>
    have hclosed : ¬Opens s.installed s.nextFile := by
      unfold Opens
      rw [hnext]
      exact Bool.false_ne_true
    have h' := h.removeNext hclosed removed
    dsimp only
    cases hdek : readWrapped s.installed s.dekFile with
    | some k =>
      obtain ⟨w, hfile, hkek, rfl⟩ := readWrapped_eq_some hdek
      obtain rfl := h.dekFile w hfile
      exact h'.returns (.inl (opens_iff.mpr ⟨w, hfile, hkek⟩))
    | none =>
      -- No file opens, so the store has none.
      rcases h'.openable with ⟨hnone, hnone', hring, hderive⟩ | hopens | hopens
      · have hdekNone : s.dekFile = none := hnone
        have hderived : deriveKey s.installed = key := hderive
        simp only [hdekNone, isSome_none, Bool.false_eq_true, if_false]
        cases taken with
        | false => exact hdekNone ▸ h'
        | true =>
          simp only [if_true, hderived]
          have hopens : Opens s.installed (some ⟨s.installed, key⟩) :=
            opens_iff.mpr ⟨_, rfl, rfl⟩
          have hwritten : StoreKeyHeld deriveKey key { s with
                dekFile := some ⟨s.installed, key⟩
                nextFile := if removed then none else s.nextFile } :=
            ⟨fun w hw => Option.some.inj hw ▸ rfl, h'.nextFile, h.ring, h.opened,
              .inr (.inl hopens), h'.committed⟩
          exact hwritten.returns (.inl hopens)
      · unfold Opens at hopens
        rw [show readWrapped s.installed s.dekFile = none from hdek] at hopens
        cases hopens
      · cases removed with
        | false => exact absurd hopens hclosed
        | true => cases hopens

theorem StoreKeyHeld.rotationStep {r : Rotation} {e : RotationEvent} {storeKey : Key}
    (hr : s.rotation = some r) (hring : s.ring = some storeKey)
    (hkeeps : OverwritesNothing s (.rotation e))
    (hstep : s.rotationStep r storeKey e r.stage = some s') : StoreKeyHeld deriveKey key s' := by
  have hopenable : Opens s.installed s.dekFile ∨ Opens s.installed s.nextFile := by
    rcases h.openable with ⟨-, -, hnone, -⟩ | hopens
    · rw [hring] at hnone
      cases hnone
    · exact hopens
  unfold KeySystem.rotationStep at hstep
  split at hstep
  next => -- The second file is written while the first one opens.
    cases hstep
    have hopens : Opens s.installed s.dekFile := hkeeps
    obtain rfl := h.ring storeKey hring
    refine ⟨h.dekFile, ?_, h.ring, h.opened, .inr (.inl hopens), ?_⟩
    · rintro w ⟨⟩
      rfl
    · rintro r' ⟨⟩ (hstage | hstage) <;> cases hstage
  next =>
    split at hstep
    all_goals try split at hstep
    all_goals cases hstep
    all_goals refine h.frame ?_
    all_goals rintro r' ⟨⟩ hstage
    all_goals rcases hstage with hstage | hstage <;> cases hstage
  next => -- The master key is installed, under which the second file opens.
    cases hstep
    have hopens : Opens r.newKek s.nextFile := by
      simp only [OverwritesNothing, hr] at hkeeps
      exact hkeeps
    refine ⟨h.dekFile, h.nextFile, h.ring, h.opened, .inr (.inr hopens), ?_⟩
    rintro r' ⟨⟩ - w hw
    obtain ⟨w', hw', hkek⟩ := opens_iff.mp hopens
    cases hw.symm.trans hw'
    exact hkek
  next hstage =>
    split at hstep
    all_goals try split at hstep
    all_goals cases hstep
    all_goals exact h.frame fun _ _ _ => ⟨r, hr, .inl hstage⟩
  next hstage => -- The second file becomes the first one.
    split at hstep <;> cases hstep
    · exact h.frame nofun
    next w hfile =>
      have hopens : Opens s.installed (some w) :=
        opens_iff.mpr ⟨w, rfl, h.committed r hr (.inr hstage) w hfile⟩
      refine ⟨?_, nofun, h.ring, h.opened, .inr (.inl hopens), nofun⟩
      rintro w' ⟨⟩
      exact h.nextFile w hfile
  next => cases hstep

theorem StoreKeyHeld.step {e : KeyEvent} (hkeeps : OverwritesNothing s e)
    (hstep : s.step deriveKey e = some s') : StoreKeyHeld deriveKey key s' := by
  -- Most steps are about the keys of the tenants.
  have hsame : ∀ rows env writing used, StoreKeyHeld deriveKey key
      { s with rows := rows, env := env, writing := writing, used := used } :=
    fun _ _ _ _ => h.frame fun r hr hstage => ⟨r, hr, hstage⟩
  cases e with
  | crash =>
    cases hstep
    exact h.crash
  | openRing removed taken =>
    cases hstep
    exact h.openRing removed taken
  | openFields taken =>
    simp only [KeySystem.step, ite_none_right_eq_some, Option.some.injEq] at hstep
    obtain ⟨-, rfl⟩ := hstep
    unfold KeySystem.openFields
    split
    · exact h
    · exact hsame _ _ _ _
  | encrypt tenant random =>
    obtain ⟨env, -, hstep⟩ := bind_eq_some_iff.mp hstep
    simp only [KeySystem.encrypt, ite_none_left_eq_some, Option.some.injEq] at hstep
    obtain ⟨-, rfl⟩ := hstep
    exact hsame _ _ _ _
  | persist taken =>
    obtain ⟨env, -, hstep⟩ := bind_eq_some_iff.mp hstep
    obtain ⟨w, -, hstep⟩ := bind_eq_some_iff.mp hstep
    split at hstep
    · cases hstep
    · split at hstep <;> cases hstep <;> exact hsame _ _ _ _
  | commit =>
    obtain ⟨w, -, hstep⟩ := bind_eq_some_iff.mp hstep
    split at hstep <;> cases hstep
    exact hsame _ _ _ _
  | giveUp =>
    cases hstep
    exact hsame _ _ _ _
  | roll random taken =>
    simp only [KeySystem.step, ite_none_left_eq_some, map_eq_some_iff] at hstep
    obtain ⟨-, env, -, rfl⟩ := hstep
    unfold KeySystem.roll
    split
    · exact h
    · exact hsame _ _ _ _
  | rewrite tenant =>
    obtain ⟨env, -, hstep⟩ := bind_eq_some_iff.mp hstep
    simp only [KeySystem.rewrite, ite_none_right_eq_some, map_eq_some_iff] at hstep
    obtain ⟨-, dek, -, rfl⟩ := hstep
    exact hsame _ _ _ _
  | rotate newKek =>
    simp only [KeySystem.step, ite_none_right_eq_some, Option.some.injEq] at hstep
    obtain ⟨-, rfl⟩ := hstep
    refine h.frame ?_
    rintro r ⟨⟩ (hstage | hstage) <;> cases hstage
  | rotation e =>
    obtain ⟨r, hr, hstep⟩ := bind_eq_some_iff.mp hstep
    obtain ⟨storeKey, hring, hstep⟩ := bind_eq_some_iff.mp hstep
    exact h.rotationStep hr hring hkeeps hstep
  | stop =>
    cases hstep
    exact h.frame nofun

end

end

/-- In every run, with rotations that end after any of their steps, crashes and openings
    in between, every opening returns the first store key, if the first file opens when
    the second one is written and the second one opens under a key that is installed. -/
theorem store_key_kept (deriveKey : Key → Key) (kek : Key) (storeKey : Option Key)
    (s : KeySystem) (h : Runs.Reaches (KeySystem.step deriveKey) OverwritesNothing
      (KeySystem.initial kek storeKey) s) :
    ∀ r ∈ s.opened, r = some (storeKey.getD (deriveKey kek)) := by
  suffices hheld : StoreKeyHeld deriveKey (storeKey.getD (deriveKey kek)) s from hheld.opened
  exact h.invariant (StoreKeyHeld.initial deriveKey kek storeKey)
    fun _ _ _ hs hkeeps hstep => hs.step hkeeps hstep

namespace KeyRotation

def derived (kek : Key) : Key := 0 :: kek

def rotateAll (newKek : Key) : List KeyEvent :=
  [.rotate newKek, .rotation .writeNext, .rotation (.persistNext true), .rotation .install,
    .rotation (.promote true), .rotation .rename]

def interrupted : List KeyEvent :=
  [.openRing true true] ++ rotateAll [2] ++
    [.rotate [3], .rotation .writeNext, .crash, .openRing true true] ++
    [.rotate [4], .rotation .writeNext, .rotation (.persistNext true), .rotation .install,
      .crash, .openRing true true]

theorem interrupted_keeps_store_key :
    ∃ s, Runs.run (KeySystem.step derived) (KeySystem.initial [1] none) interrupted = some s ∧
      s.installed = [4] ∧ s.opened.length = 3 ∧ ∀ r ∈ s.opened, r = some (derived [1]) := by
  exact Runs.exists_run (P := fun s => s.installed = [4] ∧ s.opened.length = 3)
    (by decide +kernel) (by decide +kernel) fun s hreach hs =>
    ⟨hs.1, hs.2, store_key_kept derived [1] none s hreach⟩

def failedPromotion : List KeyEvent :=
  [.openRing true true, .openFields true, .rotate [2], .rotation .writeNext,
    .rotation (.persistNext true), .rotation .install, .rotation (.promote false),
    .rotate [3], .rotation .writeNext, .crash, .openRing true true]

def openedMeanwhile : List KeyEvent :=
  [.openRing true true, .rotate [2], .rotation .writeNext, .openRing true true,
    .rotation (.persistNext true), .rotation .install, .crash, .openRing true true]

/-- The last opening fails, and the store key is lost. -/
theorem store_key_lost :
    (∃ s, Runs.run (KeySystem.step derived) (KeySystem.initial [1] none) failedPromotion = some s ∧
      s.opened = [none, some (derived [1])] ∧ s.installed = [2] ∧
      s.dekFile = some ⟨[1], derived [1]⟩ ∧ s.nextFile = none) ∧
    ∃ s, Runs.run (KeySystem.step derived) (KeySystem.initial [1] none) openedMeanwhile = some s ∧
      s.opened = [none, some (derived [1]), some (derived [1])] ∧ s.installed = [2] ∧
      s.dekFile = some ⟨[1], derived [1]⟩ ∧ s.nextFile = none := by
  decide +kernel

end KeyRotation

end Aikoql.Security
