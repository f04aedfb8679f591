import Aikoql.Kernel.Batches
import Aikoql.Lib.MergeMaps
import Aikoql.Lib.Runs

/-!
# The Cache of the Repository

Heads and versions that were read before.

A reader asks the cache, then the engine, and puts what it found into the cache. These are
three steps, and any number of readers take them at any time. A writer holds the lock of the
pipe. While it builds its batch it takes the rows of the batch out of the cache one by one.
The batch is written afterwards, and then the commit returns.

The machine keeps the batches that were written, to say later which rows there were when.
Every read remembers how many of them belong to commits that had returned when it
started. Reading several keys is reading each of them; the current version of an object
is found by reading its head and going on to the version the head names.

## Theorems

* `Lru.mem_put`, `KnowledgeCache.mem_get`: What is in a cache was put there.
-/

namespace Aikoql.Kernel

open List

/-! ## Caches -/

/-- A cache that drops what was not used for the longest time. The entries are in the order
    of use, the last one last. A capacity of zero is no limit. -/
structure Lru (κ ν : Type) where
  capacity : Nat
  entries : List (κ × ν)

namespace Lru

variable {κ ν : Type} [DecidableEq κ]

def withCapacity (capacity : Nat) : Lru κ ν := ⟨capacity, []⟩

def find (l : Lru κ ν) (key : κ) : Option ν :=
  (l.entries.find? fun e => e.1 = key).map Prod.snd

def without (l : Lru κ ν) (key : κ) : List (κ × ν) :=
  l.entries.filter fun e => e.1 ≠ key

def get (l : Lru κ ν) (key : κ) : Lru κ ν × Option ν :=
  match l.find key with
  | none => (l, none)
  | some value => (⟨l.capacity, l.without key ++ [(key, value)]⟩, some value)

def put (l : Lru κ ν) (key : κ) (value : ν) : Lru κ ν :=
  match l.find key with
  | some _ => ⟨l.capacity, l.without key ++ [(key, value)]⟩
  | none =>
    if 0 < l.capacity ∧ l.capacity ≤ l.entries.length then
      ⟨l.capacity, l.entries.tail ++ [(key, value)]⟩
    else ⟨l.capacity, l.entries ++ [(key, value)]⟩

def remove (l : Lru κ ν) (key : κ) : Lru κ ν :=
  ⟨l.capacity, l.without key⟩

variable {l : Lru κ ν} {key : κ} {value : ν}

theorem mem_of_find (h : l.find key = some value) : (key, value) ∈ l.entries := by
  obtain ⟨e, he, rfl⟩ := Option.map_eq_some_iff.mp h
  have hkey := find?_some he
  rw [decide_eq_true_eq] at hkey
  exact hkey ▸ mem_of_find?_eq_some he

theorem mem_get {e : κ × ν} (h : e ∈ (l.get key).1.entries) : e ∈ l.entries := by
  unfold get at h
  split at h
  · exact h
  · next hfind =>
      rcases mem_append.mp h with h | h
      · exact mem_of_mem_filter h
      · rw [mem_singleton.mp h]
        exact mem_of_find hfind

theorem get_mem (h : (l.get key).2 = some value) : (key, value) ∈ l.entries := by
  unfold get at h
  split at h
  · cases h
  · next hfind =>
      cases h
      exact mem_of_find hfind

theorem mem_put {e : κ × ν} (h : e ∈ (l.put key value).entries) :
    e = (key, value) ∨ e ∈ l.entries := by
  have hnew : ∀ {es : List (κ × ν)}, (∀ e ∈ es, e ∈ l.entries) → e ∈ es ++ [(key, value)] →
      e = (key, value) ∨ e ∈ l.entries := by
    intro es hes h
    rcases mem_append.mp h with h | h
    · exact .inr (hes e h)
    · exact .inl (mem_singleton.mp h)
  unfold put at h
  split at h
  · exact hnew (fun _ => mem_of_mem_filter) h
  · split at h
    · exact hnew (fun _ => mem_of_mem_tail) h
    · exact hnew (fun _ he => he) h

theorem mem_remove {e : κ × ν} : e ∈ (l.remove key).entries ↔ e ∈ l.entries ∧ e.1 ≠ key := by
  simp [remove, without]

end Lru

/-! ## Rows that are cached -/

/-- The name of a row that is cached. -/
inductive CacheKey where
  | head (koid : Koid)
  | object (koid : Koid) (commitTs : Nat)
  deriving DecidableEq

inductive Row where
  | head (head : Head)
  | object (ko : KnowledgeObject)

def Store.row (s : Store) : CacheKey → Option Row
  | .head koid => s.heads[koid]?.map .head
  | .object koid ts => (s.getObjectVersion koid ts).map .object

structure KnowledgeCache where
  heads : Lru Koid Head
  objects : Lru (Koid × Nat) KnowledgeObject

namespace KnowledgeCache

def withCapacity (capacity : Nat) : KnowledgeCache :=
  ⟨.withCapacity capacity, .withCapacity capacity⟩

/-- The entry of a key, which becomes the one that was used last. -/
def get (c : KnowledgeCache) : CacheKey → KnowledgeCache × Option Row
  | .head koid => ({ c with heads := (c.heads.get koid).1 }, (c.heads.get koid).2.map .head)
  | .object koid ts =>
    ({ c with objects := (c.objects.get (koid, ts)).1 }, (c.objects.get (koid, ts)).2.map .object)

def put (c : KnowledgeCache) : CacheKey → Row → KnowledgeCache
  | .head koid, .head head => { c with heads := c.heads.put koid head }
  | .object koid ts, .object ko => { c with objects := c.objects.put (koid, ts) ko }
  | _, _ => c

def delete (c : KnowledgeCache) : CacheKey → KnowledgeCache
  | .head koid => { c with heads := c.heads.remove koid }
  | .object koid ts => { c with objects := c.objects.remove (koid, ts) }

def Holds (c : KnowledgeCache) : CacheKey → Row → Prop
  | .head koid, .head head => (koid, head) ∈ c.heads.entries
  | .object koid ts, .object ko => ((koid, ts), ko) ∈ c.objects.entries
  | _, _ => False

def hasKey (c : KnowledgeCache) : CacheKey → Bool
  | .head koid => c.heads.entries.any fun e => e.1 = koid
  | .object koid ts => c.objects.entries.any fun e => e.1 = (koid, ts)

variable {c : KnowledgeCache} {key key' : CacheKey} {row row' : Row}

theorem hasKey_of_holds (h : c.Holds key row) : c.hasKey key = true := by
  cases key <;> cases row <;> first | exact h.elim | skip
  all_goals
    rw [hasKey, any_eq_true]
    exact ⟨_, h, decide_eq_true rfl⟩

theorem mem_get (h : (c.get key).1.Holds key' row) : c.Holds key' row := by
  cases key <;> cases key' <;> cases row <;> first | exact h | exact Lru.mem_get h

theorem get_holds (h : (c.get key).2 = some row) : c.Holds key row := by
  cases key
  all_goals
    obtain ⟨value, hvalue, rfl⟩ := Option.map_eq_some_iff.mp h
    exact Lru.get_mem hvalue

theorem mem_put (h : (c.put key row).Holds key' row') :
    (key' = key ∧ row' = row) ∨ c.Holds key' row' := by
  cases key <;> cases row <;> cases key' <;> cases row' <;> first | exact .inr h | skip
  all_goals
    rcases Lru.mem_put h with heq | hmem
    · simp only [Prod.mk.injEq] at heq
      refine .inl ⟨?_, ?_⟩ <;> simp_all
    · exact .inr hmem

theorem mem_delete (h : (c.delete key).Holds key' row) : c.Holds key' row := by
  cases key <;> cases key' <;> cases row <;> first | exact h | exact (Lru.mem_remove.mp h).1

end KnowledgeCache

/-! ## The keys of a batch -/

def Put.key : Put → Option CacheKey
  | .object koid ts _ => some (.object koid ts)
  | .head koid _ => some (.head koid)
  | _ => none

def Del.key : Del → Option CacheKey
  | .object koid ts => some (.object koid ts)
  | .head koid => some (.head koid)
  | _ => none

def WriteBatch.keys (batch : WriteBatch) : List CacheKey :=
  batch.puts.filterMap Put.key ++ batch.dels.filterMap Del.key

theorem row_put {s : Store} {p : Put} {key : CacheKey} (h : p.key ≠ some key) :
    (s.put p).row key = s.row key := by
  cases p with
  | object koid ts ko =>
    cases key with
    | head koid' => rfl
    | object koid' ts' =>
      simp only [Store.row, Store.getObjectVersion, Store.put]
      by_cases hkoid : koid' = koid
      · subst hkoid
        have hts : ts ≠ ts' := fun heq => h (by rw [heq]; rfl)
        rw [if_pos rfl, getElem?_insert_eq, if_neg hts]
      · rw [if_neg hkoid]
  | head koid head =>
    cases key with
    | head koid' =>
      have hkoid : koid ≠ koid' := fun heq => h (by rw [heq]; rfl)
      simp only [Store.row, Store.put]
      rw [getElem?_insert_eq, if_neg hkoid]
    | object koid' ts' => rfl
  | _ => cases key <;> rfl

theorem row_del {s : Store} {d : Del} {key : CacheKey} (h : d.key ≠ some key) :
    (s.del d).row key = s.row key := by
  cases d with
  | object koid ts =>
    cases key with
    | head koid' => rfl
    | object koid' ts' =>
      simp only [Store.row, Store.getObjectVersion, Store.del]
      by_cases hkoid : koid' = koid
      · subst hkoid
        have hts : ts ≠ ts' := fun heq => h (by rw [heq]; rfl)
        rw [if_pos rfl, getElem?_erase_eq, if_neg hts]
      · rw [if_neg hkoid]
  | head koid =>
    cases key with
    | head koid' =>
      have hkoid : koid ≠ koid' := fun heq => h (by rw [heq]; rfl)
      simp only [Store.row, Store.del]
      rw [getElem?_erase_eq, if_neg hkoid]
    | object koid' ts' => rfl
  | _ => cases key <;> rfl

theorem row_writeBatch {s : Store} {batch : WriteBatch} {key : CacheKey} (h : key ∉ batch.keys) :
    (s.writeBatch batch).row key = s.row key := by
  -- An operation about other keys can be left out of a fold.
  have hfold : ∀ {ω : Type} {apply : Store → ω → Store} {name : ω → Option CacheKey},
      (∀ s o, name o ≠ some key → (apply s o).row key = s.row key) →
      ∀ (ops : List ω) (s : Store), key ∉ ops.filterMap name →
        (ops.foldl apply s).row key = s.row key := by
    intro ω apply name happly ops
    induction ops with
    | nil => exact fun _ _ => rfl
    | cons o ops ih =>
      intro s hops
      rw [mem_filterMap] at hops
      push Not at hops
      rw [foldl_cons, ih, happly]
      · exact hops o mem_cons_self
      · rw [mem_filterMap]
        push Not
        exact fun o' ho' => hops o' (mem_cons_of_mem _ ho')
  rw [WriteBatch.keys, mem_append, not_or] at h
  rw [Store.writeBatch, hfold (fun _ _ => row_del) _ _ h.2, hfold (fun _ _ => row_put) _ _ h.1]

/-! ## Readers and a writer -/

/-- How far a read has come. -/
inductive Phase where
  | looking
  | missed
  | fetched (row : Row)
  | done (result : Option Row)

/-- A read of a row. `floor` is the number of batches whose commits had returned when it
    started. -/
structure Read where
  key : CacheKey
  floor : Nat
  phase : Phase

inductive Writer where
  | idle
  | building (batch : WriteBatch)
  | written

/-- Readers and a writer that share a store and its cache. The batches that were written
    and the number of those whose commits have returned are kept beside them. -/
structure Cached where
  store : Store
  cache : KnowledgeCache
  readers : Std.ExtTreeMap Nat Read
  writer : Writer
  published : List WriteBatch
  returned : Nat

def Cached.initial (capacity : Nat) (start : Store) : Cached :=
  ⟨start, .withCapacity capacity, ∅, .idle, [], 0⟩

/-- The rows behind the first batches. -/
def storeAt (start : Store) (published : List WriteBatch) (n : Nat) : Store :=
  (published.take n).foldl Store.writeBatch start

inductive CacheEvent where
  | start (id : Nat) (key : CacheKey)
  | look (id : Nat)
  | fetch (id : Nat)
  | fill (id : Nat)
  | follow (id : Nat)
  | lock
  | put (p : Put)
  | del (d : Del)
  | write (taken : Bool)
  | unlock

def Cached.free (sys : Cached) (id : Nat) : Bool :=
  match sys.readers[id]?.map Read.phase with
  | none => true
  | some (.done _) => true
  | _ => false

def Cached.setPhase (sys : Cached) (id : Nat) (read : Read) (phase : Phase) : Cached :=
  { sys with readers := sys.readers.insert id { read with phase := phase } }

def Cached.invalidate (sys : Cached) (key : Option CacheKey) : Cached :=
  { sys with cache := key.elim sys.cache sys.cache.delete }

def Cached.readStep (sys : Cached) (id : Nat) (read : Read) : CacheEvent → Option Cached
  | .look _ =>
    match read.phase with
    | .looking =>
      let sys' := { sys with cache := (sys.cache.get read.key).1 }
      match (sys.cache.get read.key).2 with
      | some row => some (sys'.setPhase id read (.done (some row)))
      | none => some (sys'.setPhase id read .missed)
    | _ => none
  | .fetch _ =>
    match read.phase with
    | .missed =>
      match sys.store.row read.key with
      | some row => some (sys.setPhase id read (.fetched row))
      | none => some (sys.setPhase id read (.done none))
    | _ => none
  | .fill _ =>
    match read.phase with
    | .fetched row =>
      some ({ sys with cache := sys.cache.put read.key row }.setPhase id read (.done (some row)))
    | _ => none
  | .follow _ =>
    match read.key, read.phase with
    | .head koid, .done (some (.head head)) =>
      some (sys.setPhase id { read with key := .object koid head.commitTs } .looking)
    | _, _ => none
  | _ => none

def Cached.writeStep (sys : Cached) : CacheEvent → Option Cached
  | .lock =>
    match sys.writer with
    | .idle => some { sys with writer := .building .empty }
    | _ => none
  | .put p =>
    match sys.writer with
    | .building batch =>
      some { sys.invalidate p.key with writer := .building ⟨batch.puts ++ [p], batch.dels⟩ }
    | _ => none
  | .del d =>
    match sys.writer with
    | .building batch =>
      some { sys.invalidate d.key with writer := .building ⟨batch.puts, batch.dels ++ [d]⟩ }
    | _ => none
  | .write taken =>
    match sys.writer with
    | .building batch =>
      -- A batch the engine refuses changes nothing, and the lock is given back.
      if taken then
        some { sys with
          store := sys.store.writeBatch batch
          writer := .written
          published := sys.published ++ [batch] }
      else some { sys with writer := .idle }
    | _ => none
  | .unlock =>
    match sys.writer with
    | .written => some { sys with writer := .idle, returned := sys.published.length }
    | _ => none
  | _ => none

def Cached.step (sys : Cached) (e : CacheEvent) : Option Cached :=
  match e with
  | .start id key =>
    if sys.free id then
      some { sys with readers := sys.readers.insert id ⟨key, sys.returned, .looking⟩ }
    else none
  | .look id | .fetch id | .fill id | .follow id =>
    sys.readers[id]?.bind fun read => sys.readStep id read e
  | _ => sys.writeStep e

end Aikoql.Kernel
