import Aikoql.Replication.TermFile
import Mathlib.Tactic.Common

/-!
# Remembering a Term

Whether a node ever forgets its term, or becomes a leader without a claim.

Replacing the directory by a snapshot moves it aside first and the snapshot into
its place second. After a crash in between there is no directory, and the node
is a leader at term 0 (`term_forgotten`). A renewer that fences its node stores
the term of its lease, also if a standby with a newer term has fenced the node
before. Apart from these, and from a recorded snapshot that is older than the
directory by the time it is moved in, the term never decreases and only a
claim makes a leader (`term_remembered`).

## Main definitions

* `Careful`: A procedure that keeps the term.
* `Remembers`: The term does not decrease, and only a claim makes a leader.

## Main theorems

* `term_remembered`: Terms in every run of careful procedures.
* `term_forgotten`: Both ways to forget a term.
-/

namespace Aikoql.Replication

/-- A node fences itself, and replaces its directory, at a term not below its
    own, and a crash does not leave it without a directory. -/
def Careful (s : TermDir) : Procedure × Nat → Prop
  | (.fence, _) => ∀ term ∈ s.lease, s.disk.loadTerm.1 ≤ term
  | (.rebootstrap, upto) => (∀ term ∈ s.pending, s.disk.loadTerm.1 ≤ term) ∧
      ((s.ops .rebootstrap).take upto).getLast? ≠ some (.rename .dir .old)
  | _ => True

instance (s : TermDir) : ∀ e, Decidable (Careful s e)
  | (.fence, _) => inferInstanceAs (Decidable (∀ _ ∈ s.lease, _))
  | (.rebootstrap, _) => inferInstanceAs (Decidable ((∀ _ ∈ s.pending, _) ∧ _))
  | (.begin _, _) | (.claimLeadership, _) | (.follow _ _, _) | (.serveStandby _, _) =>
    isTrue trivial

/-- The term is not smaller, and a leader has claimed a term or was one. -/
structure Remembers (s s' : TermDir) : Prop where
  term : s.disk.loadTerm.1 ≤ s'.disk.loadTerm.1
  claims : s.claims ≤ s'.claims
  leader : s'.disk.loadTerm.2 = .leader → s.disk.loadTerm.2 = .leader ∨ s.claims < s'.claims

section

variable {s s' s'' : TermDir}

theorem Remembers.trans (h : Remembers s s') (h' : Remembers s' s'') : Remembers s s'' where
  term := Nat.le_trans h.term h'.term
  claims := Nat.le_trans h.claims h'.claims
  leader := fun hleader => by
    rcases h'.leader hleader with hleader | hlt
    · exact (h.leader hleader).imp_right fun hlt => Nat.lt_of_lt_of_le hlt h'.claims
    · exact .inr (Nat.lt_of_le_of_lt h.claims hlt)

theorem Remembers.of_eq (hdir : s'.disk .dir = s.disk .dir) (hclaims : s.claims ≤ s'.claims) :
    Remembers s s' := by
  have hload : s'.disk.loadTerm = s.disk.loadTerm := by rw [Disk.loadTerm, hdir, Disk.loadTerm]
  exact ⟨Nat.le_of_eq (by rw [hload]), hclaims, fun hleader => .inl (hload ▸ hleader)⟩

theorem Remembers.of_stored {term : Nat} {role : Role}
    (hdir : s'.disk .dir = some (some (term, role))) (hterm : s.disk.loadTerm.1 ≤ term)
    (hclaims : s.claims ≤ s'.claims) (hrole : role = .leader → s.claims < s'.claims) :
    Remembers s s' := by
  have hload : s'.disk.loadTerm = (term, role) := by rw [Disk.loadTerm, hdir]; rfl
  refine ⟨by rw [hload]; exact hterm, hclaims, fun hleader => .inr (hrole ?_)⟩
  rwa [hload] at hleader

theorem Remembers.nop {proc : Procedure} {upto : Nat} (hstep : s.step (proc, upto) = some s')
    (hops : s.ops proc = []) : Remembers s s' := by
  cases hstep
  exact .of_eq (by simp only [hops, List.take_nil, List.foldl_nil]) (Nat.le_add_right _ _)

theorem Remembers.store {proc : Procedure} {term upto : Nat} {role : Role}
    (hstep : s.step (proc, upto) = some s') (hops : s.ops proc = [.storeTerm .dir term role])
    (hterm : s.disk.loadTerm.1 ≤ term)
    (hrole : role = .leader → ∃ t, proc = .begin t ∨ proc = .claimLeadership) :
    Remembers s s' := by
  cases hstep
  cases upto with
  | zero => exact .of_eq (by simp only [List.take_zero, List.foldl_nil]) (Nat.le_add_right _ _)
  | succ upto =>
    refine .of_stored (show _ = some (some (term, role)) by simp [hops, Op.run]) hterm
      (Nat.le_add_right _ _) fun hleader => ?_
    obtain ⟨t, rfl | rfl⟩ := hrole hleader <;> simp [hops]

theorem rebootstrap_dir (d : Disk) (term upto : Nat)
    (hcrash : ((rebootstrap d term).take upto).getLast? ≠ some (.rename .dir .old)) :
    ((rebootstrap d term).take upto).foldl Op.run d .dir = d .dir ∨
      ((rebootstrap d term).take upto).foldl Op.run d .dir = some (some (term, .standby)) := by
  unfold rebootstrap at hcrash ⊢
  split_ifs at hcrash ⊢
  all_goals
    rcases upto with _ | _ | _ | _ | _ | _ | _ | upto <;> simp [Op.run] at hcrash ⊢

theorem Remembers.step {e : Procedure × Nat} (hcareful : Careful s e)
    (hstep : s.step e = some s') : Remembers s s' := by
  obtain ⟨proc, upto⟩ := e
  cases proc with
  | begin term =>
    by_cases hclaim : s.disk.loadTerm.1 < term ∨
        s.disk.loadTerm.1 = term ∧ s.disk.loadTerm.2 ≠ .leader
    · exact .store hstep (if_pos hclaim) (by omega) fun _ => ⟨term, .inl rfl⟩
    · exact .nop hstep (if_neg hclaim)
  | claimLeadership =>
    by_cases hstandby : s.disk.loadTerm.2 = .standby
    · exact .store hstep (if_pos hstandby) (Nat.le_succ _) fun _ => ⟨0, .inr rfl⟩
    · exact .nop hstep (if_neg hstandby)
  | follow term shipped =>
    by_cases hkeeps : term < s.disk.loadTerm.1 ∨ shipped ∨ s.disk.loadTerm = (term, .standby)
    · exact .nop hstep (if_pos hkeeps)
    · exact .store hstep (if_neg hkeeps) (by omega) fun hrole => by cases hrole
  | serveStandby theirTerm =>
    by_cases hdeposed : s.disk.loadTerm.2 ≠ .fenced ∧ s.disk.loadTerm.1 < theirTerm
    · exact .store hstep (if_pos hdeposed) (Nat.le_of_lt hdeposed.2) fun hrole => by cases hrole
    · exact .nop hstep (if_neg hdeposed)
  | fence =>
    cases hlease : s.lease with
    | none => exact .nop hstep (by simp [TermDir.ops, hlease])
    | some term =>
      exact .store hstep (by simp only [TermDir.ops, hlease]; rfl) (hcareful term hlease)
        fun hrole => by cases hrole
  | rebootstrap =>
    obtain ⟨hterm, hcrash⟩ := hcareful
    cases hpending : s.pending with
    | none => exact .nop hstep (by simp [TermDir.ops, hpending])
    | some term =>
      cases hstep
      have hops : s.ops .rebootstrap = Replication.rebootstrap s.disk term := by
        simp [TermDir.ops, hpending]
      rw [hops] at hcrash
      -- before the renames the old directory is there, behind them the new one
      rcases rebootstrap_dir s.disk term upto hcrash with hdir | hdir
      · exact .of_eq (by simpa only [hops] using hdir) (Nat.le_refl _)
      · exact .of_stored (by simpa only [hops] using hdir) (hterm term hpending) (Nat.le_refl _)
          fun hrole => by cases hrole

end

/-- In every run of careful procedures, with crashes, from any state of a
    directory: the term that is read does not decrease, and a node that was a
    standby or fenced is a leader only if a claim has taken effect. -/
theorem term_remembered (s s' : TermDir) (h : Runs.Reaches TermDir.step Careful s s') :
    s.disk.loadTerm.1 ≤ s'.disk.loadTerm.1 ∧
      (s.disk.loadTerm.2 ≠ .leader → s'.disk.loadTerm.2 = .leader → s.claims < s'.claims) := by
  have hs : Remembers s s' := h.invariant (P := Remembers s) (.of_eq rfl (Nat.le_refl _))
    fun _ _ _ hs hcareful hstep => hs.trans (.step hcareful hstep)
  exact ⟨hs.term, fun hrole hleader => (hs.leader hleader).resolve_left hrole⟩

/-- A new node. -/
def TermDir.initial : TermDir := ⟨fun p => if p = .dir then some none else none, none, none, 0⟩

/-- A standby is sent a snapshot, crashes before the renames, tries again, and is
    promoted. -/
def replaced : List (Procedure × Nat) :=
  [(.follow 1 false, 1), (.follow 2 true, 0), (.rebootstrap, 4), (.rebootstrap, 7),
    (.claimLeadership, 1)]

theorem replaced_remembered :
    ∃ s, Runs.run TermDir.step TermDir.initial replaced = some s ∧ s.disk.loadTerm = (3, .leader) ∧
      TermDir.initial.disk.loadTerm.1 ≤ s.disk.loadTerm.1 := by
  exact Runs.exists_run (P := fun s => s.disk.loadTerm = (3, .leader)) (by decide +kernel)
    (by decide +kernel) fun s hreach hload => ⟨hload, (term_remembered _ s hreach).1⟩

/-- A standby crashes between the two renames. -/
def crashed : List (Procedure × Nat) :=
  [(.follow 1 false, 1), (.follow 1 true, 0), (.rebootstrap, 5)]

/-- A leader at term 1 is deposed by term 2, and fences itself when it finds that
    its lease was taken. -/
def deposed : List (Procedure × Nat) :=
  [(.begin 1, 1), (.serveStandby 2, 1), (.fence, 1)]

def readings (events : List (Procedure × Nat)) :
    Option (Nat × Role) × Option (Nat × Role) × Option Nat :=
  let before := Runs.run TermDir.step TermDir.initial events.dropLast
  let after := Runs.run TermDir.step TermDir.initial events
  (before.map fun s => s.disk.loadTerm, after.map fun s => s.disk.loadTerm,
    after.map TermDir.claims)

theorem term_forgotten : readings crashed = (some (1, .standby), some (0, .leader), some 0) ∧
      readings deposed = (some (2, .fenced), some (1, .fenced), some 1) := by
  decide +kernel

end Aikoql.Replication
