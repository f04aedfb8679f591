import Aikoql.Kernel.Guarded
import Aikoql.Kernel.Traces

/-!
# Erasure

What is left of an object once it is erased.

Erasing deletes the head of an object, its versions and the row of its type. Rows that
name it elsewhere are not looked for: those of a type it had before, those of its edges,
those of other objects' relationships to it, and the outcomes of writes under an
idempotency key and of transactions with an id (`traces_left`). The last of these hold a
hash of the properties, so what is left tells two histories apart that differ in nothing
else.

If no call leaves such a trace then nothing names the object behind its erasure. Two
histories of that kind which differ in its properties alone leave the same rows, apart
from the journal and the hash in the tombstone.

## Main definitions

* `Traceless`: A call leaves no trace of an object.
* `SameRows`: Two stores that differ in the journal and a tombstone only.
* `GoOnAlike`: Two histories that differ in the properties of an object.

## Main theorems

* `erasure_complete`: What is left behind an erasure in traceless histories.
* `Erasure.traces_left`: What is left in others.
-/

namespace Aikoql.Kernel

open List Option
open Storage (Sha256)

instance (k : Koid) (st : State) (io : Ambient) (call : Call) :
    Decidable (LeavesNoTrace k st io call) :=
  decidable_of_iff' _ (leavesNoTrace_iff k st io call)

/-- The tables of two stores are the same, apart from the journal and the hash in the
    tombstone of an object. -/
structure SameRows (k : Koid) (s s' : Store) : Prop where
  objects : s.objects = s'.objects
  heads : s.heads = s'.heads
  idem : s.idem = s'.idem
  relOut : s.relOut = s'.relOut
  relIn : s.relIn = s'.relIn
  types : s.types = s'.types
  usageHead : s.usageHead = s'.usageHead
  usage : s.usage = s'.usage
  txns : s.txns = s'.txns
  schemas : s.schemas = s'.schemas
  tombs : ∀ koid, koid ≠ k → s.tombs[koid]? = s'.tombs[koid]?
  tomb : s.tombs[k]?.map Prod.snd = s'.tombs[k]?.map Prod.snd

theorem SameRows.of_twins {k : Koid} {st st' : State} (h : st.Twins k st')
    (hnone : st.store.objects k = ∅) (hnone' : st'.store.objects k = ∅) :
    SameRows k st.store st'.store where
  objects := by
    funext koid
    by_cases hk : koid = k
    · rw [hk, hnone, hnone']
    · refine h.seen (fun st => st.store.objects koid) fun st => ?_
      refine Std.ExtTreeMap.ext_getElem? fun ts => ?_
      change ((st.store.objects koid).map _)[ts]? = _
      rw [Std.ExtTreeMap.getElem?_map]
      unfold veilVersion
      simp only [if_neg hk, Option.map_id_fun', id]
  heads := h.seen (fun st => st.store.heads) fun _ => rfl
  idem := h.seen (fun st => st.store.idem) fun _ => rfl
  relOut := h.seen (fun st => st.store.relOut) fun _ => rfl
  relIn := h.seen (fun st => st.store.relIn) fun _ => rfl
  types := h.seen (fun st => st.store.types) fun _ => rfl
  usageHead := h.seen (fun st => st.store.usageHead) fun _ => rfl
  usage := h.seen (fun st => st.store.usage) fun _ => rfl
  txns := h.seen (fun st => st.store.txns) fun _ => rfl
  schemas := h.seen (fun st => st.store.schemas) fun _ => rfl
  tombs := by
    intro koid hk
    refine h.seen (fun st => st.store.tombs[koid]?) fun st => ?_
    change (st.store.tombs.map _)[koid]? = _
    rw [Std.ExtTreeMap.getElem?_map]
    simp only [if_neg hk, Prod.mk.eta, Option.map_id_fun', id]
  tomb := by
    refine h.seen (fun st => st.store.tombs[k]?.map Prod.snd) fun st => ?_
    change (st.store.tombs.map _)[k]?.map Prod.snd = _
    rw [Std.ExtTreeMap.getElem?_map, Option.map_map]
    rfl

/-! ## Steps -/

section

variable (S : Settings) (C : Crypto) (k : Koid)

def Traceless (g : Guarded) (t : Turn) : Prop :=
  g.writes S C t = true → LeavesNoTrace k g.st t.io t.call
  deriving Decidable

/-- A call in two histories. -/
structure TwinTurn where
  io : Ambient
  call : Call
  call' : Call
  taken : Bool

def TwinTurn.left (t : TwinTurn) : Turn := ⟨t.io, t.call, t.taken⟩

def TwinTurn.right (t : TwinTurn) : Turn := ⟨t.io, t.call', t.taken⟩

/-- A call of two kernels. -/
def twinTurn (pair : Guarded × Guarded) (t : TwinTurn) : Option (Guarded × Guarded) :=
  some ((pair.1.step S C t.left).1, (pair.2.step S C t.right).1)

/-- Two calls end in the same way and leave no trace of an object. -/
def BothTraceless (pair : Guarded × Guarded) (t : TwinTurn) : Prop :=
  SameEnd (stage (S.admission pair.1.auth) C pair.1.st t.io t.call)
      (stage (S.admission pair.2.auth) C pair.2.st t.io t.call') ∧
    Traceless S C k pair.1 t.left ∧ Traceless S C k pair.2 t.right
  deriving Decidable

/-- Two histories go on in the same way, apart from properties of an object, and leave no
    trace of it. -/
def GoOnAlike (pair : Guarded × Guarded) (t : TwinTurn) : Prop :=
  t.call.Twins k t.io t.call' ∧ BothTraceless S C k pair t

end

section

variable {S : Settings} {C : Crypto} {k : Koid} {g : Guarded} {t : Turn}

theorem Traced.step (hst : g.st.store.Coherent) (htraced : Traced k g.st.store)
    (hno : Traceless S C k g t) : Traced k (g.step S C t).1.st.store := by
  by_cases hwrites : g.writes S C t = true
  · obtain ⟨hlc, batch, pipe, tenants, reply, ts, change, o, hstage, hstep, hc⟩ :=
      Guarded.step_written hst.keyed hwrites
    rw [hstep]
    exact htraced.commits hc hstage hst (hno hwrites)
  · rcases Guarded.step_outcome S C hst.keyed t with ⟨-, hlc, hstep⟩ |
      ⟨_, _, _, _, _, _, _, _, hwrites', -⟩
    · rw [hstep]
      exact htraced
    · exact absurd hwrites' hwrites

theorem Traced.erased (hst : g.st.store.Coherent) (htraced : Traced k g.st.store)
    (hno : Traceless S C k g t) (hwrites : g.writes S C t = true)
    (herases : t.call.erases = some k) : Unmentioned k (g.step S C t).1.st.store := by
  obtain ⟨hlc, batch, pipe, tenants, reply, ts, change, o, hstage, hstep, hc⟩ :=
    Guarded.step_written hst.keyed hwrites
  rw [hstep]
  exact (htraced.commits hc hstage hst (hno hwrites)).unmentioned hc herases

theorem Call.eq_forget_of_erases {call : Call} (h : call.erases = some k) :
    ∃ ctx expected note, call = .forget ctx k .erase expected note := by
  cases call with
  | forget ctx koid mode expected note =>
    cases mode with
    | tombstone => cases h
    | erase =>
      cases h
      exact ⟨ctx, expected, note, rfl⟩
  | _ => cases h

theorem forget_erase_done {A : Admission} {st : State} {io : Ambient} {ctx : KnowledgeContext}
    {koid : Koid} {expected : Option Nat} {note : Option Text} {reply : Except KError Reply}
    (h : (forget A C st io ctx koid .erase expected note).2 = .done reply) :
    reply.isOk = false := by
  simp only [forget] at h
  split at h
  · simp only [refused, Staged.done.injEq] at h
    rw [← h]
    rfl
  · simp only [erase] at h
    split at h
    · simp only [Staged.done.injEq] at h
      rw [← h]
      rfl
    · cases h

theorem writes_of_erased (herases : t.call.erases = some k)
    (hok : (g.step S C t).2.isOk = true) : g.writes S C t = true := by
  by_contra hwrites
  have hreply : (g.step S C t).2
      = (Kernel.step (S.admission g.auth) C g.st t.io t.call t.taken).2 := by
    unfold Guarded.step
    dsimp only
    rw [if_neg fun h => hwrites h.1]
  rw [hreply] at hok
  unfold Guarded.writes at hwrites
  unfold Kernel.step at hok
  dsimp only at hok
  cases hstaged : (stage (S.admission g.auth) C g.st t.io t.call).2 with
  | done reply =>
    rw [hstaged] at hok
    obtain ⟨ctx, expected, note, hcall⟩ := Call.eq_forget_of_erases herases
    rw [hcall] at hstaged
    rw [show (finish _ (.done reply) t.taken).2 = reply from rfl, forget_erase_done hstaged] at hok
    cases hok
  | write batch pipe tenants reply =>
    have htaken : t.taken = false := by simpa [hstaged, Staged.isWrite] using hwrites
    rw [hstaged, htaken] at hok
    cases hok

theorem twins_of_goOnAlike {pair pair' : Guarded × Guarded} {t : TwinTurn}
    (hst : pair.1.st.store.Coherent) (hst' : pair.2.st.store.Coherent)
    (htwins : pair.1.st.Twins k pair.2.st) (halike : GoOnAlike S C k pair t)
    (hstep : twinTurn S C pair t = some pair') : pair'.1.st.Twins k pair'.2.st := by
  obtain ⟨hcalls, hsame, hno, -⟩ := halike
  cases hstep
  rw [Guarded.step_st, Guarded.step_st]
  refine step_twins t.taken htwins hst.keyed hst'.keyed hcalls ?_ hsame
  intro htaken hwrite
  exact (hno (by rw [Guarded.writes, Bool.and_eq_true]; exact ⟨htaken, hwrite⟩)).unnamed

end

/-! ## Histories -/

section

variable (S : Settings) (C : Crypto) (k : Koid)

/-- Behind the erasure of an object no row names it, if no call of its history leaves a
    trace of it. Two such histories that differ in its properties only leave the same rows,
    apart from the journal and the hash in its tombstone. -/
theorem erasure_complete :
    (∀ g t, Runs.Reaches (Guarded.turn S C) (Traceless S C k) Guarded.initial g →
        Traceless S C k g t → t.call.erases = some k → (g.step S C t).2.isOk = true →
        Unmentioned k (g.step S C t).1.st.store) ∧
      ∀ pair t, Runs.Reaches (twinTurn S C) (GoOnAlike S C k)
          (Guarded.initial, Guarded.initial) pair →
        GoOnAlike S C k pair t → t.call.erases = some k →
        (pair.1.step S C t.left).2.isOk = true → (pair.2.step S C t.right).2.isOk = true →
        SameRows k (pair.1.step S C t.left).1.st.store (pair.2.step S C t.right).1.st.store := by
  -- What holds in every single history holds in both of two.
  let P : Guarded → Prop := fun g => g.st.store.Coherent ∧ Traced k g.st.store
  have hstep : ∀ {g : Guarded} {t : Turn}, P g → Traceless S C k g t → P (g.step S C t).1 :=
    fun hg hno => ⟨Guarded.coherent hg.1 _, hg.2.step hg.1 hno⟩
  have hinitial : P Guarded.initial := ⟨Store.coherent_empty, Traced.empty k⟩
  constructor
  · intro g t hreach hno herases hok
    have hg : P g := by
      refine hreach.invariant hinitial ?_
      intro g t g' hg hno hturn
      cases hturn
      exact hstep hg hno
    exact hg.2.erased hg.1 hno (writes_of_erased herases hok) herases
  · intro pair t hreach halike herases hok hok'
    have hpair : P pair.1 ∧ P pair.2 ∧ pair.1.st.Twins k pair.2.st := by
      refine hreach.invariant (P := fun pair : Guarded × Guarded =>
        P pair.1 ∧ P pair.2 ∧ pair.1.st.Twins k pair.2.st) ⟨hinitial, hinitial, rfl⟩ ?_
      intro pair t pair' hpair halike hturn
      have htwins := twins_of_goOnAlike hpair.1.1 hpair.2.1.1 hpair.2.2 halike hturn
      cases hturn
      exact ⟨hstep hpair.1 halike.2.2.1, hstep hpair.2.1 halike.2.2.2, htwins⟩
    obtain ⟨hleft, hright, htwins⟩ := hpair
    have hcalls : t.call' = t.call := by
      obtain ⟨ctx, expected, note, hcall⟩ := Call.eq_forget_of_erases herases
      have hcalls := halike.1
      rw [hcall] at hcalls ⊢
      cases hcall' : t.call' <;> exact (hcall' ▸ hcalls).symm
    have herases' : t.right.call.erases = some k := by
      change t.call'.erases = some k
      rw [hcalls, herases]
    have hgone := hleft.2.erased hleft.1 halike.2.2.1 (writes_of_erased herases hok) herases
    have hgone' := hright.2.erased hright.1 halike.2.2.2 (writes_of_erased herases' hok') herases'
    exact .of_twins (twins_of_goOnAlike hleft.1 hright.1 htwins halike rfl) hgone.versions
      hgone'.versions

end

/-! ## Histories of a note -/

namespace Erasure

open Samples

def context : KnowledgeContext := ⟨⟨utf8 "ann", [], none⟩, none⟩

def typed (typeName : String) : Metadata := ⟨utf8 typeName, none, 0, []⟩

def properties (value : String) : PropertyMap :=
  (∅ : PropertyMap).insert (utf8 "body") (.text (utf8 value))

def mentioning (target : Koid) : RelationshipRef := ⟨utf8 "mentions", target, .outbound⟩

def creating (koid : Koid) (value : String) : RememberRequest :=
  { RememberRequest.create context (typed "note") with
    koid := some koid
    properties := properties value }

def updating (koid : Koid) (value : String) : RememberRequest :=
  { RememberRequest.update context koid (typed "note") with properties := properties value }

def erasing : Call := .forget context 1 .erase none none

def last : Turn := ⟨⟨9, 9, fun _ => 0⟩, erasing, true⟩

def rewritten (value : String) : List Call :=
  [.remember (creating 1 value), .remember (creating 2 "other"),
    .remember { updating 1 value with relationships := [mentioning 2] },
    .remember (updating 1 value), .transact [⟨context, updating 1 value⟩] none none]

def both (value value' : String) : List TwinTurn :=
  (List.zip (spaced (rewritten value)) (rewritten value')).map fun row =>
    ⟨row.1.io, row.1.call, row.2, row.1.taken⟩

def lastOfBoth : TwinTurn := ⟨⟨9, 9, fun _ => 0⟩, erasing, erasing, true⟩

theorem both_twins (value value' : String) :
    ∀ t ∈ both value value', t.call.Twins 1 t.io t.call' := by
  simp only [both, spaced, rewritten, mapIdx_cons, mapIdx_nil, zip_cons_cons,
    zip_nil_left, map_cons, map_nil, forall_mem_cons]
  refine ⟨⟨properties value', rfl, fun h => absurd rfl h⟩, ⟨properties "other", rfl, fun _ => rfl⟩,
    ⟨properties value', rfl, fun h => absurd rfl h⟩,
    ⟨properties value', rfl, fun h => absurd rfl h⟩, ⟨rfl, rfl, ?_⟩, by simp⟩
  exact .cons ⟨rfl, rfl, properties value', rfl, fun h => absurd rfl h⟩ .nil

theorem rewritten_erased :
    (∃ g, Runs.run (Guarded.turn plain crypto) Guarded.initial (spaced (rewritten "x")) = some g ∧
        (g.step plain crypto last).2.isOk = true ∧
        Unmentioned 1 (g.step plain crypto last).1.st.store) ∧
      ∃ pair, Runs.run (twinTurn plain crypto) (Guarded.initial, Guarded.initial) (both "x" "y")
          = some pair ∧
        SameRows 1 (pair.1.step plain crypto lastOfBoth.left).1.st.store
          (pair.2.step plain crypto lastOfBoth.right).1.st.store := by
  constructor
  · refine Runs.exists_run (C := Traceless plain crypto 1) (P := fun g =>
      (g.step plain crypto last).2.isOk = true ∧ Traceless plain crypto 1 g last)
      (by decide +kernel) (by decide +kernel) fun g hreach hg => ⟨hg.1, ?_⟩
    exact (erasure_complete plain crypto 1).1 g last hreach hg.2 rfl hg.1
  · refine Runs.exists_run (C := GoOnAlike plain crypto 1) (P := fun pair =>
      (pair.1.step plain crypto lastOfBoth.left).2.isOk = true ∧
        (pair.2.step plain crypto lastOfBoth.right).2.isOk = true ∧
        BothTraceless plain crypto 1 pair lastOfBoth) (by decide +kernel) ?_ ?_
    · refine (Runs.meets_of_forall (C := fun _ t => t.call.Twins 1 t.io t.call') _
        (fun t ht _ => both_twins "x" "y" t ht) _).and ?_
      decide +kernel
    · rintro pair hreach ⟨hok, hok', hno⟩
      exact (erasure_complete plain crypto 1).2 pair lastOfBoth hreach ⟨rfl, hno⟩ rfl hok hok'

def retyped : List Call :=
  [.remember (creating 1 "x"), .remember { updating 1 "x" with metadata := typed "memo" }]

def linked : List Call :=
  [.remember (creating 2 "x"), .remember { creating 1 "x" with relationships := [mentioning 2] }]

def pointedAt : List Call :=
  [.remember (creating 1 "x"), .remember { creating 2 "x" with relationships := [mentioning 1] }]

def keyed : List Call :=
  [.remember { creating 1 "x" with idempotencyKey := some (utf8 "key") }]

def recorded (value : String) : List Call :=
  [.transact [⟨context, creating 1 value⟩] none (some (utf8 "id"))]

def erasedBehind (calls : List Call) : Option Store :=
  (Runs.run (Guarded.turn plain crypto) Guarded.initial (spaced calls)).bind fun g =>
    if (g.step plain crypto last).2.isOk then some (g.step plain crypto last).1.st.store else none

/-- Behind some calls and a successful erasure there are rows that name the note. -/
def LeavesTraces (calls : List Call) : Prop :=
  ∃ s, erasedBehind calls = some s ∧ ¬Unmentioned 1 s

theorem leavesTraces_of {calls : List Call} (names : Store → Bool)
    (hnames : ∀ s, names s = true → ¬Unmentioned 1 s)
    (h : (erasedBehind calls).map names = some true) : LeavesTraces calls := by
  obtain ⟨s, hs, hnamed⟩ := map_eq_some_iff.mp h
  exact ⟨s, hs, hnames s hnamed⟩

/-- Each of these leaves rows that name the note, and those of a transaction with an id
    tell what was in it. -/
theorem traces_left :
    LeavesTraces retyped ∧ LeavesTraces linked ∧ LeavesTraces pointedAt ∧ LeavesTraces keyed ∧
      LeavesTraces (recorded "x") ∧
      ∃ s s', erasedBehind (recorded "x") = some s ∧ erasedBehind (recorded "y") = some s' ∧
        ¬SameRows 1 s s' := by
  refine ⟨?_, ?_, ?_, ?_, ?_, ?_⟩
  · refine leavesTraces_of (fun s => decide ((utf8 "note", 1) ∈ s.types)) ?_ (by decide +kernel)
    exact fun s hs h => h.types _ (of_decide_eq_true hs)
  · refine leavesTraces_of (fun s => decide (⟨1, utf8 "mentions", 2⟩ ∈ s.relOut)) ?_
      (by decide +kernel)
    exact fun s hs h => (h.relOut _ (of_decide_eq_true hs)).1 rfl
  · refine leavesTraces_of (fun s => decide (⟨2, utf8 "mentions", 1⟩ ∈ s.relIn)) ?_
      (by decide +kernel)
    exact fun s hs h => (h.relIn _ (of_decide_eq_true hs)).2 rfl
  · refine leavesTraces_of (fun s => decide (s.idem[utf8 "key"]?.map IdemRow.koid = some 1)) ?_
      (by decide +kernel)
    intro s hs h
    obtain ⟨row, hrow, hkoid⟩ := map_eq_some_iff.mp (of_decide_eq_true hs)
    exact h.idem _ row hrow hkoid
  · refine leavesTraces_of (fun s => decide (s.txns[utf8 "id"]?.map (fun record =>
      record.results.map Remembered.koid) = some [1])) ?_ (by decide +kernel)
    intro s hs h
    obtain ⟨record, hrecord, hresults⟩ := map_eq_some_iff.mp (of_decide_eq_true hs)
    obtain ⟨r, hr, hkoid⟩ := List.mem_map.mp (hresults ▸ mem_singleton_self 1)
    exact h.txns _ record hrecord r hr hkoid
  · have hdiffer : ((erasedBehind (recorded "x")).bind fun s =>
        (erasedBehind (recorded "y")).map fun s' =>
          decide (s.txns[utf8 "id"]? = s'.txns[utf8 "id"]?)) = some false := by
      decide +kernel
    obtain ⟨s, hs, hdiffer⟩ := bind_eq_some_iff.mp hdiffer
    obtain ⟨s', hs', hdiffer⟩ := map_eq_some_iff.mp hdiffer
    exact ⟨s, s', hs, hs', fun hsame => of_decide_eq_false hdiffer (by rw [hsame.txns])⟩

end Erasure

end Aikoql.Kernel
