import Aikoql.Kernel.Cache

/-!
# Cache Coherence

Whether a read of a `KnowledgeRepository` through its cache can be out of date.

A writer takes the rows of its batch out of the cache while it builds the batch, which is
before the batch is written. A reader that has missed may fetch an old row until then, and
it may put it into the cache at any time afterwards. If it does, the next reader finds the
old row although the commit has returned, and so does every reader until the row is written
or dropped again (`stale_head`).

If a batch is only written when no reader holds one of its rows and none has put one back
into the cache, then the cache has the rows of the store at all times. Every read then
answers what the store had at some time since the last commit that returned before the
read started. What a refused batch asked for is in no store and so never read.

## Main definitions

* `Undisturbed`: No reader is in the way of a batch that is written.
* `Current`: The cache has the rows of the store, and reads are fresh.

## Main theorems

* `reads_fresh`: Reads are current in every undisturbed run.
* `CacheCoherence.stale_head`: A reader that puts back an old head.
-/

namespace Aikoql.Kernel

def Read.holds (read : Read) (key : CacheKey) : Bool :=
  match read.phase with
  | .fetched _ => decide (read.key = key)
  | _ => false

def Cached.writes (sys : Cached) (e : CacheEvent) : List CacheKey :=
  match e, sys.writer with
  | .write true, .building batch => batch.keys
  | _, _ => []

/-- When a batch is written, no row of it is in the cache and no reader is about to put one
    there. -/
def Undisturbed (sys : Cached) (e : CacheEvent) : Prop :=
  ∀ key ∈ sys.writes e,
    sys.cache.hasKey key = false ∧ ∀ r ∈ sys.readers.toList, r.2.holds key = false
  deriving Decidable

/-! ## Reads -/

/-- A read that has fetched has what the store has, and one that is done has what the store had
    since it started. -/
structure Read.Fresh (start : Store) (published : List WriteBatch) (s : Store) (read : Read) :
    Prop where
  floor : read.floor ≤ published.length
  fetched : ∀ row, read.phase = .fetched row → s.row read.key = some row
  done : ∀ result, read.phase = .done result → ∃ n, read.floor ≤ n ∧ n ≤ published.length ∧
    result = (storeAt start published n).row read.key

/-- What is cached or fetched is what the store has. -/
structure Current (start : Store) (sys : Cached) : Prop where
  store : sys.store = sys.published.foldl Store.writeBatch start
  returned : sys.returned ≤ sys.published.length
  cached : ∀ key row, sys.cache.Holds key row → sys.store.row key = some row
  reads : ∀ (id : Nat) (read : Read), sys.readers[id]? = some read →
    read.Fresh start sys.published sys.store

section

variable {start : Store} {sys sys' : Cached} {id : Nat} {read : Read} {e : CacheEvent}

theorem Current.initial (capacity : Nat) (start : Store) :
    Current start (Cached.initial capacity start) where
  store := rfl
  returned := Nat.le_refl 0
  cached := by
    intro key row h
    cases key <;> cases row <;> cases h
  reads := by simp [Cached.initial]

theorem Current.now (h : Current start sys) (key : CacheKey) :
    sys.store.row key = (storeAt start sys.published sys.published.length).row key := by
  rw [storeAt, List.take_length, ← h.store]

theorem storeAt_append {published : List WriteBatch} {n : Nat} (hn : n ≤ published.length)
    (batch : WriteBatch) : storeAt start (published ++ [batch]) n = storeAt start published n := by
  rw [storeAt, storeAt, List.take_append_of_le_length hn]

section

variable (h : Current start sys)
include h

theorem Current.setRead {cache : KnowledgeCache} {next : Read}
    (hcache : ∀ key row, cache.Holds key row → sys.store.row key = some row)
    (hnext : next.Fresh start sys.published sys.store) :
    Current start { sys with cache := cache, readers := sys.readers.insert id next } where
  store := h.store
  returned := h.returned
  cached := hcache
  reads := by
    intro id' read' hread
    rcases getElem?_insert_cases hread with ⟨-, rfl⟩ | ⟨-, hread⟩
    · exact hnext
    · exact h.reads id' read' hread

theorem Current.fresh_done (hfloor : read.floor ≤ sys.published.length) {result : Option Row}
    (hresult : sys.store.row read.key = result) :
    Read.Fresh start sys.published sys.store { read with phase := .done result } where
  floor := hfloor
  fetched := fun _ hphase => by cases hphase
  done := by
    intro result' hphase
    cases hphase
    exact ⟨_, hfloor, Nat.le_refl _, hresult.symm.trans (h.now read.key)⟩

theorem Current.readStep (hread : sys.readers[id]? = some read)
    (hstep : sys.readStep id read e = some sys') : Current start sys' := by
  have hfresh := h.reads id read hread
  cases e with
  | look _ =>
    simp only [Cached.readStep] at hstep
    split at hstep
    · have hcache : ∀ key row, (sys.cache.get read.key).1.Holds key row →
          sys.store.row key = some row :=
        fun key row hrow => h.cached key row (KnowledgeCache.mem_get hrow)
      split at hstep
      · next row hhit =>
          cases hstep
          refine h.setRead hcache (h.fresh_done hfresh.floor ?_)
          exact h.cached _ _ (KnowledgeCache.get_holds hhit)
      · cases hstep
        exact h.setRead hcache
          ⟨hfresh.floor, fun _ hphase => (by cases hphase), fun _ hphase => by cases hphase⟩
    · cases hstep
  | fetch _ =>
    simp only [Cached.readStep] at hstep
    split at hstep
    · split at hstep
      · next row hrow =>
          cases hstep
          refine h.setRead h.cached ⟨hfresh.floor, ?_, fun _ hphase => by cases hphase⟩
          intro row' hphase
          cases hphase
          exact hrow
      · next hnone =>
          cases hstep
          exact h.setRead h.cached (h.fresh_done hfresh.floor hnone)
    · cases hstep
  | fill _ =>
    simp only [Cached.readStep] at hstep
    split at hstep
    · next row hphase =>
        cases hstep
        have hrow := hfresh.fetched row hphase
        refine h.setRead ?_ (h.fresh_done hfresh.floor hrow)
        -- The row that comes into the cache is still the one of the store.
        intro key row' hholds
        rcases KnowledgeCache.mem_put hholds with ⟨rfl, rfl⟩ | hold
        · exact hrow
        · exact h.cached key row' hold
    · cases hstep
  | follow _ =>
    simp only [Cached.readStep] at hstep
    split at hstep
    · cases hstep
      exact h.setRead h.cached
        ⟨hfresh.floor, fun _ hphase => (by cases hphase), fun _ hphase => by cases hphase⟩
    · cases hstep
  | _ => cases hstep

theorem Current.invalidate (key : Option CacheKey) (writer : Writer) :
    Current start { sys.invalidate key with writer := writer } where
  store := h.store
  returned := h.returned
  cached := by
    intro key' row hholds
    cases key with
    | none => exact h.cached key' row hholds
    | some key => exact h.cached key' row (KnowledgeCache.mem_delete hholds)
  reads := h.reads

theorem Current.write {batch : WriteBatch} {writer : Writer} (hfree : ∀ key ∈ batch.keys,
      sys.cache.hasKey key = false ∧ ∀ r ∈ sys.readers.toList, r.2.holds key = false) :
    Current start { sys with
      store := sys.store.writeBatch batch
      writer := writer
      published := sys.published ++ [batch] } where
  store := by
    rw [List.foldl_append, ← h.store]
    rfl
  returned := by
    have hreturned := h.returned
    simp only [List.length_append, List.length_singleton]
    omega
  cached := by
    intro key row hholds
    by_cases hkey : key ∈ batch.keys
    · have hnone := (hfree key hkey).1
      rw [KnowledgeCache.hasKey_of_holds hholds] at hnone
      cases hnone
    · exact (row_writeBatch hkey).trans (h.cached key row hholds)
  reads := by
    intro id read hread
    have hfresh := h.reads id read hread
    have hlength : (sys.published ++ [batch]).length = sys.published.length + 1 := by simp
    refine ⟨?_, ?_, ?_⟩
    · have hfloor := hfresh.floor
      rw [hlength]
      omega
    · intro row hphase
      by_cases hkey : read.key ∈ batch.keys
      · -- The reader would hold a row of the batch.
        have hholds := (hfree read.key hkey).2 (id, read)
          (Std.ExtTreeMap.mem_toList_iff_getElem?_eq_some.mpr hread)
        rw [Read.holds, hphase] at hholds
        exact absurd rfl (of_decide_eq_false hholds)
      · exact (row_writeBatch hkey).trans (hfresh.fetched row hphase)
    · intro result hphase
      obtain ⟨n, hfloor, hn, hresult⟩ := hfresh.done result hphase
      refine ⟨n, hfloor, ?_, ?_⟩
      · change n ≤ (sys.published ++ [batch]).length
        omega
      · rw [storeAt_append hn]
        exact hresult

theorem Current.writeStep (hfree : Undisturbed sys e) (hstep : sys.writeStep e = some sys') :
    Current start sys' := by
  cases e with
  | lock =>
    simp only [Cached.writeStep] at hstep
    split at hstep
    · cases hstep
      exact ⟨h.store, h.returned, h.cached, h.reads⟩
    · cases hstep
  | put p =>
    simp only [Cached.writeStep] at hstep
    split at hstep
    · cases hstep
      exact h.invalidate p.key _
    · cases hstep
  | del d =>
    simp only [Cached.writeStep] at hstep
    split at hstep
    · cases hstep
      exact h.invalidate d.key _
    · cases hstep
  | write taken =>
    simp only [Cached.writeStep] at hstep
    split at hstep
    · next batch hwriter =>
        cases taken with
        | true =>
          cases hstep
          unfold Undisturbed Cached.writes at hfree
          rw [hwriter] at hfree
          exact h.write hfree
        | false =>
          cases hstep
          exact ⟨h.store, h.returned, h.cached, h.reads⟩
    · cases hstep
  | unlock =>
    simp only [Cached.writeStep] at hstep
    split at hstep
    · cases hstep
      exact ⟨h.store, Nat.le_refl _, h.cached, h.reads⟩
    · cases hstep
  | _ => cases hstep

theorem Current.step (hfree : Undisturbed sys e) (hstep : sys.step e = some sys') :
    Current start sys' := by
  have hreader : ∀ {id}, (sys.readers[id]?.bind fun read => sys.readStep id read e) = some sys' →
      Current start sys' := by
    intro id hstep
    obtain ⟨read, hread, hstep⟩ := Option.bind_eq_some_iff.mp hstep
    exact h.readStep hread hstep
  cases e with
  | start id key =>
    simp only [Cached.step, Option.ite_none_right_eq_some, Option.some.injEq] at hstep
    obtain ⟨-, rfl⟩ := hstep
    exact h.setRead h.cached
      ⟨h.returned, fun _ hphase => (by cases hphase), fun _ hphase => by cases hphase⟩
  | look | fetch | fill | follow => exact hreader hstep
  | _ => exact h.writeStep hfree hstep

end

/-! ## Runs -/

/-- If no reader is in the way of a batch that is written, then every read answers what the
    store had behind some of the batches that were written, and among them are all whose
    commits had returned when the read started. -/
theorem reads_fresh {capacity : Nat}
    (h : Runs.Reaches Cached.step Undisturbed (Cached.initial capacity start) sys)
    (hread : sys.readers[id]? = some read) {result : Option Row}
    (hdone : read.phase = .done result) :
    ∃ n, read.floor ≤ n ∧ n ≤ sys.published.length ∧
      result = (storeAt start sys.published n).row read.key := by
  have hcurrent : Current start sys := by
    refine h.invariant (Current.initial capacity start) ?_
    intro sys e sys' hsys hfree hstep
    exact hsys.step hfree hstep
  exact (hcurrent.reads id read hread).done result hdone

end

/-! ## Runs of a few readers -/

namespace CacheCoherence

def headAt (n : Nat) : Head := ⟨n, n, .draft⟩

/-- A store with the first version of an object. -/
def start : Store := Store.empty.put (.head 1 (headAt 1))

def committing (n : Nat) : List CacheEvent :=
  [.lock, .put (.head 1 (headAt n)), .write true, .unlock]

def fetching (id : Nat) : List CacheEvent :=
  [.start id (.head 1), .look id, .fetch id, .fill id]

/-- The row of a key is read, written, refused once more and read again. -/
def inTurn : List CacheEvent :=
  fetching 0 ++ committing 2 ++ [.lock, .put (.head 1 (headAt 3)), .write false] ++ fetching 1 ++
    [.start 2 (.head 1), .look 2]

def answer (sys : Cached) (id : Nat) : Option (Nat × Head) :=
  sys.readers[id]?.bind fun read =>
    match read.phase with
    | .done (some (.head head)) => some (read.floor, head)
    | _ => none

theorem done_of_answer {sys : Cached} {id floor : Nat} {head : Head}
    (h : answer sys id = some (floor, head)) :
    ∃ read, sys.readers[id]? = some read ∧ read.floor = floor ∧
      read.phase = .done (some (.head head)) := by
  obtain ⟨read, hread, hphase⟩ := Option.bind_eq_some_iff.mp h
  split at hphase
  · next hdone =>
      cases hphase
      exact ⟨read, hread, rfl, hdone⟩
  · cases hphase

theorem inTurn_fresh : ∃ sys read, Runs.run Cached.step (Cached.initial 4 start) inTurn = some sys ∧
      sys.readers[2]? = some read ∧ read.floor = 1 ∧
      read.phase = .done (some (.head (headAt 2))) ∧
      ∃ n, read.floor ≤ n ∧ n ≤ sys.published.length ∧
        some (.head (headAt 2)) = (storeAt start sys.published n).row read.key := by
  have hend : ∃ sys, Runs.run Cached.step (Cached.initial 4 start) inTurn = some sys ∧
      answer sys 2 = some (1, headAt 2) := by
    decide +kernel
  obtain ⟨sys, hrun, hanswer⟩ := hend
  obtain ⟨read, hread, hfloor, hdone⟩ := done_of_answer hanswer
  have hreach : Runs.Reaches Cached.step Undisturbed (Cached.initial 4 start) sys :=
    Runs.reaches_of_run inTurn (by decide +kernel) hrun
  exact ⟨sys, read, hrun, hread, hfloor, hdone, reads_fresh hreach hread hdone⟩

def filledLate : List CacheEvent :=
  [.start 0 (.head 1), .look 0, .fetch 0] ++ committing 2 ++ [.fill 0, .start 1 (.head 1), .look 1]

def filledBetween : List CacheEvent :=
  [.lock, .put (.head 1 (headAt 2))] ++ fetching 0 ++
    [.write true, .unlock, .start 1 (.head 1), .look 1]

/-- At the end of a run a reader has answered a head that was replaced by a commit that had
    returned when the reader started. -/
def AnswersStale (events : List CacheEvent) : Prop :=
  ∃ sys read result, Runs.run Cached.step (Cached.initial 4 start) events = some sys ∧
    sys.readers[1]? = some read ∧ read.phase = .done result ∧
    ¬∃ n, read.floor ≤ n ∧ n ≤ sys.published.length ∧
      result = (storeAt start sys.published n).row read.key

/-- Readers of a `KnowledgeRepository` with a cache answer a head that was replaced. -/
theorem stale_head : AnswersStale filledLate ∧ AnswersStale filledBetween := by
  have hstale : ∀ events, (∃ sys, Runs.run Cached.step (Cached.initial 4 start) events = some sys ∧
      answer sys 1 = some (1, headAt 1) ∧ sys.readers[1]?.map Read.key = some (.head 1) ∧
      sys.published.length = 1 ∧
      (storeAt start sys.published 1).heads[(1 : Koid)]? = some (headAt 2)) →
      AnswersStale events := by
    rintro events ⟨sys, hrun, hanswer, hkey, hlength, hhead⟩
    obtain ⟨read, hread, hfloor, hdone⟩ := done_of_answer hanswer
    rw [hread] at hkey
    have hkey : read.key = .head 1 := Option.some.inj hkey
    refine ⟨sys, read, _, hrun, hread, hdone, ?_⟩
    -- The only rows the reader may answer are those behind the one batch.
    rintro ⟨n, hn, hn', hrow⟩
    obtain rfl : n = 1 := by omega
    rw [hkey, Store.row, hhead] at hrow
    simp [headAt] at hrow
  exact ⟨hstale _ (by decide +kernel), hstale _ (by decide +kernel)⟩

end CacheCoherence

end Aikoql.Kernel
