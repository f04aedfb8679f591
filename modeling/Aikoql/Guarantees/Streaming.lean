import Aikoql.Guarantees.QueryRows
import Aikoql.Guarantees.VersionHistory
import Aikoql.Lib.Pull

/-!
# Streamed Queries

A query whose rows are delivered in batches, against the same query run at once.

A stream pins the ids of its type and a time stamp when it is opened, and reads a slice of
the ids when a batch is pulled. The kernel writes on in between: every id is read in some
state behind the one in which the stream was opened, and no two of them need be the same.
The version read is the one that was current when the stream was opened, since whatever is
committed later has a later time stamp, so the batches together are the rows the query had
then. It takes that no object is erased before it is read, that the roles and policies stay,
and that no object begins or ceases to be valid.

## Main definitions

* `executePhysical`: The rows of a plan that is run at once.
* `executeStreaming`: The batches of a stream, each row read in a state of its own.

## Main theorems

* `streaming_rows`: The batches together are the rows at the opening.
-/

namespace Aikoql.Runtime

open List
open Kernel

variable (asF64 : Int → Nat)

/-! ## Rows -/

inductive PredOp where
  | eq
  | neq
  | gt
  | lt
  | gte
  | lte

inductive Predicate where
  | cmp (property : Text) (op : PredOp) (value : Value)
  | and (l r : Predicate)
  | or (l r : Predicate)

def rowMatchesOne (ko : KnowledgeObject) : Predicate → Bool
  | .cmp property op value =>
    let val := ko.properties[property]?
    let order := compareValues asF64 val (some value)
    match op with
    | .eq => valuesEqual asF64 val (some value)
    | .neq => !valuesEqual asF64 val (some value)
    | .gt => order = some .gt
    | .lt => order = some .lt
    | .gte => order = some .gt || order = some .eq
    | .lte => order = some .lt || order = some .eq
  | .and l r => rowMatchesOne ko l && rowMatchesOne ko r
  | .or l r => rowMatchesOne ko l || rowMatchesOne ko r

def rowMatches (predicates : List Predicate) (ko : KnowledgeObject) : Bool :=
  predicates.all (rowMatchesOne asF64 ko)

/-- An object with the properties of some names only. -/
def stripped (fields : List Text) (ko : KnowledgeObject) : KnowledgeObject :=
  { ko with
    properties := fields.foldl (fun filtered f =>
      match ko.properties[f]? with
      | some v => filtered.insert f v
      | none => filtered) ∅ }

def projectRows (fields : List Text) (kos : List KnowledgeObject) : List KnowledgeObject :=
  if utf8 "*" ∈ fields then kos else kos.map (stripped fields)

def validAt (atMillis : Nat) (ko : KnowledgeObject) : Bool :=
  ((ko.extensions[extValidFrom]?.bind instantOf).all fun t => t ≤ atMillis) &&
    ko.validTo.all fun t => atMillis < t

/-! ## Plans -/

/-- The operators that work on one batch after the other. -/
inductive IrOp where
  | filter (predicates : List Predicate)
  | project (fields : List Text)
  | limit (limit offset : Nat)

/-- A scan of a type and what is done to its rows. -/
structure Plan where
  subject : Subject
  typeName : Text
  ops : List IrOp

/-- A kernel with the reading of its clock. -/
structure Moment where
  kernel : Guarded
  millis : Nat

/-- Scans decrypt nothing. -/
def Moment.reader (m : Moment) : Reader :=
  ⟨m.kernel.auth, fun _ _ properties => .ok properties⟩

def execOp (rows : List KnowledgeObject) : IrOp → List KnowledgeObject
  | .filter predicates => rows.filter (rowMatches asF64 predicates)
  | .project fields => projectRows fields rows
  | .limit limit offset => (rows.drop offset).take limit

/-- The rows of a plan that is run at once. -/
def executePhysical (m : Moment) (plan : Plan) : List KnowledgeObject :=
  plan.ops.foldl (execOp asF64)
    ((m.reader.scanByType m.kernel.st.store plan.subject plan.typeName).filter (validAt m.millis))

/-! ## Streams -/

/-- What a scan finds of an object at the time stamp it was opened with. -/
def readAt (plan : Plan) (snapshotTs : Nat) (m : Moment) (koid : Koid) : Option KnowledgeObject :=
  (m.reader.readableObjectAt m.kernel.st.store plan.subject plan.typeName snapshotTs koid).filter
    (validAt m.millis)

def operator (inner : Pull KnowledgeObject) : IrOp → Pull KnowledgeObject
  | .filter predicates => inner.onBatches (filter (rowMatches asF64 predicates))
  | .project fields => inner.onBatches (projectRows fields)
  | .limit limit offset => inner.limit offset limit

/-- A stream over pinned ids, each of which is read in a state of its own. -/
def executeStreaming (plan : Plan) (batchSize : Nat) (koids : List Koid) (snapshotTs : Nat)
    (later : Koid → Moment) : Pull KnowledgeObject :=
  plan.ops.foldl (operator asF64)
    (.scan batchSize koids fun koid => readAt plan snapshotTs (later koid) koid)

/-- The kernel once a time stamp was drawn from its clock. -/
def snapshotNow (g : Guarded) (hlcMillis : Nat) : Guarded :=
  { g with st := { g.st with hlc := hlcNow g.st.hlc hlcMillis } }

/-! ## Operators -/

variable {asF64}

theorem projectRows_append (fields : List Text) (xs ys : List KnowledgeObject) :
    projectRows fields (xs ++ ys) = projectRows fields xs ++ projectRows fields ys := by
  unfold projectRows
  split
  · rfl
  · exact map_append

theorem rows_operator (inner : Pull KnowledgeObject) (op : IrOp) :
    (operator asF64 inner op).rows = execOp asF64 inner.rows op := by
  cases op with
  | filter predicates => exact inner.rows_onBatches rfl fun _ _ => filter_append ..
  | project fields =>
    exact inner.rows_onBatches (by simp [projectRows]) (projectRows_append fields)
  | limit limit offset => exact inner.rows_limit offset limit

theorem bounded_operator {inner : Pull KnowledgeObject} {n : Nat} (h : inner.Bounded n)
    (op : IrOp) : (operator asF64 inner op).Bounded n := by
  cases op with
  | filter predicates => exact h.onBatches fun _ => length_filter_le ..
  | project fields =>
    refine h.onBatches fun batch => ?_
    unfold projectRows
    split
    · exact le_rfl
    · exact (length_map _).le
  | limit limit offset => exact h.limit offset limit

theorem rows_operators (ops : List IrOp) (inner : Pull KnowledgeObject) :
    (ops.foldl (operator asF64) inner).rows = ops.foldl (execOp asF64) inner.rows := by
  induction ops generalizing inner with
  | nil => rfl
  | cons op ops ih => rw [foldl_cons, foldl_cons, ih, rows_operator]

theorem bounded_operators (ops : List IrOp) {inner : Pull KnowledgeObject} {n : Nat}
    (h : inner.Bounded n) : (ops.foldl (operator asF64) inner).Bounded n := by
  induction ops generalizing inner with
  | nil => exact h
  | cons op ops ih => exact ih (bounded_operator h op)

theorem timed_snapshotNow {g : Guarded} (h : g.st.Timed) {hlcMillis : Nat}
    (hmillis : hlcMillis < 2 ^ 48) (hroom : g.st.hlc + 1 < 2 ^ 64) :
    (snapshotNow g hlcMillis).st.Timed where
  coherent := h.coherent
  indexed := h.indexed
  numbered := h.numbered
  past := fun koid ts ko hko => (h.past koid ts ko hko).trans (lt_hlcNow hmillis hroom).le
  pin := h.pin

/-- The batches of a stream hold no more rows than was asked for, and together they are the
    rows of the query at the moment the stream was opened. -/
theorem streaming_rows (S : Settings) (C : Crypto) (plan : Plan) (batchSize hlcMillis : Nat)
    (opened : Moment) (later : Koid → Moment)
    (hreach : Runs.Reaches (Guarded.turn S C) (fun g turn => turn.InTime g) Guarded.initial
      opened.kernel)
    (hclock : hlcMillis < 2 ^ 48 ∧ opened.kernel.st.hlc + 1 < 2 ^ 64)
    (hlater : ∀ koid, Runs.Reaches (Guarded.turn S C) (Keeps koid)
      (snapshotNow opened.kernel hlcMillis) (later koid).kernel)
    (hauth : ∀ koid, (later koid).kernel.auth = opened.kernel.auth)
    (hvalid : ∀ koid ko, opened.kernel.st.store.headObject koid = some ko →
      validAt (later koid).millis ko = validAt opened.millis ko) :
    let stream := executeStreaming asF64 plan batchSize
      (opened.kernel.st.store.scanType plan.typeName) (hlcNow opened.kernel.st.hlc hlcMillis) later
    (∀ batch ∈ stream.batches, batch.length ≤ max batchSize 1) ∧
      stream.rows = executePhysical asF64 opened plan := by
  have hdrawn := timed_snapshotNow (timed_of_reaches S C hreach) hclock.1 hclock.2
  refine ⟨(bounded_operators plan.ops (Pull.bounded_scan batchSize _ _)).batches, ?_⟩
  have hread : ∀ koid, readAt plan (hlcNow opened.kernel.st.hlc hlcMillis) (later koid) koid
      = (opened.reader.readableObject opened.kernel.st.store plan.subject plan.typeName koid).filter
        (validAt opened.millis) := by
    intro koid
    have hobject : (later koid).kernel.st.store.objectAt koid (hlcNow opened.kernel.st.hlc hlcMillis)
        = opened.kernel.st.store.headObject koid :=
      (objectAt_of_reaches hdrawn le_rfl (hlater koid)).trans (objectAt_hlc hdrawn)
    have hreader : (later koid).reader = opened.reader := by
      rw [Moment.reader, hauth]
      rfl
    rw [readAt, Reader.readableObjectAt, hobject, hreader, Reader.readableObject]
    cases hhead : opened.kernel.st.store.headObject koid with
    | none => rfl
    | some ko =>
      rw [Option.filter_some]
      split
      · rw [Option.filter_some, Option.filter_some, hvalid koid ko hhead]
      · rfl
  rw [executeStreaming, rows_operators, Pull.rows_scan, executePhysical, Reader.scanByType,
    Reader.scanByTypeFiltered, filter_filterMap]
  -- Both scans walk over the same ids, and no status is asked for.
  simp only [hread]
  simp

namespace Streaming

open Samples

def plan : Plan := ⟨ann.subject, utf8 "note", [.filter [], .limit 1 0]⟩

def forgetting : Turn :=
  ⟨⟨3, 3, fun _ => 0⟩, .forget ann 1 .tombstone none none, true⟩

/-- A note that is forgotten behind the opening of a stream is delivered all the same. -/
theorem forgotten_streamed :
    ∃ g, Runs.run (Guarded.turn plain crypto) Guarded.initial (VersionHistory.turns.take 1)
        = some g ∧
      let g' := ((snapshotNow g 2).step plain crypto forgetting).1
      (g'.st.store.headObject 1).map (fun ko => ko.lifecycle.state) = some .deleted ∧
      (executeStreaming (fun _ => 0) plan 0 (g.st.store.scanType plan.typeName)
        (hlcNow g.st.hlc 2) fun _ => ⟨g', 2⟩).rows.map KnowledgeObject.koid = [1] := by
  refine Runs.exists_run (C := fun g turn => turn.InTime g) (P := fun g =>
    (((snapshotNow g 2).step plain crypto forgetting).1.st.store.headObject 1).map
        (fun ko => ko.lifecycle.state) = some .deleted ∧
      (executePhysical (fun _ => 0) ⟨g, 2⟩ plan).map KnowledgeObject.koid = [1] ∧
      g.st.hlc + 1 < 2 ^ 64 ∧ forgetting.InTime (snapshotNow g 2))
    (by decide +kernel) (by decide +kernel) ?_
  rintro g hreach ⟨hdeleted, hrows, hroom, htime⟩
  refine ⟨hdeleted, ?_⟩
  rw [(streaming_rows plain crypto plan 0 2 ⟨g, 2⟩ (fun _ => ⟨_, 2⟩) hreach ⟨by decide, hroom⟩
    (fun koid => .tail .refl ⟨htime, by simp [forgetting, Call.erases]⟩ rfl) ?_ fun _ _ _ => rfl).2]
  · exact hrows
  · intro koid
    simp [Guarded.step, refreshes, forgetting, snapshotNow]

end Streaming

end Aikoql.Runtime
