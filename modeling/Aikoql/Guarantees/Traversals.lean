import Aikoql.Kernel.Object

/-!
# Traversals

Which objects a query finds along relationships from the objects it starts at.

The starts are expanded one after the other, and then what was found, one level after the
other. Every object is met once, as a start or as a target. A start that was met as the
target of an earlier one is taken for expanded, so its own targets are found farther away
than they are, or not at all. What a traversal finds is what the starts that it does expand
reach, so it is right exactly when these reach all that the others reach, and as early.

## Definitions

* `Graph.Reaches`, `Graph.Distance`: Reachability by a number of edges.
* `Graph.expanded`: The starts that are expanded, in the order of the list.
* `Graph.Exact`: What a traversal is to return.
* `Graph.Covered`: The expanded starts reach what all of them reach.

## Theorems

* `Graph.foldl_start_met`: What the loop over the starts leaves.
* `Graph.Level.next`: One level of the queue after the other.
* `Graph.exists_returns`: A traversal ends with what the expanded starts reach.
* `Graph.traverse_exact`: The exact condition, for one order of the starts and for all.
-/

namespace Aikoql.Runtime

open List
open Kernel (Text Koid utf8)

/-- What a traversal asks the kernel: the edges of an object that it follows, none if they
    cannot be read, and whether an object is there and may be read. -/
structure Graph where
  outboundEdges : Koid → List (Text × Koid)
  endpointLive : Koid → Bool

structure Walk where
  visited : List Koid
  results : List (Koid × Text × Nat)
  queue : List (Koid × Nat)

namespace Graph

variable (g : Graph) {s s' s'' : Walk} {d k depth : Nat} {push : Bool} {koid : Koid}
  {starts : List Koid}

/-- Look at an edge: a target that is new and there is a result, and is queued. -/
def meet (push : Bool) (d : Nat) (s : Walk) (e : Text × Koid) : Walk :=
  if e.2 ∈ s.visited then s
  else if g.endpointLive e.2 then
    { visited := e.2 :: s.visited
      results := s.results ++ [(e.2, e.1, d)]
      queue := if push then s.queue ++ [(e.2, d)] else s.queue }
  else { s with visited := e.2 :: s.visited }

/-- The loop over the starts. -/
def start (depth : Nat) (s : Walk) (koid : Koid) : Walk :=
  if koid ∈ s.visited then s
  else (g.outboundEdges koid).foldl (g.meet (decide (1 < depth)) 1)
    { s with visited := koid :: s.visited }

/-- The loop over the queue, for a number of rounds. -/
def drain (depth : Nat) : Nat → Walk → Walk
  | 0, s => s
  | rounds + 1, s =>
    match s.queue with
    | [] => s
    | (cur, d) :: queue =>
      if depth ≤ d then drain depth rounds { s with queue := queue }
      else drain depth rounds
        ((g.outboundEdges cur).foldl (g.meet true (d + 1)) { s with queue := queue })

def traverse (depth rounds : Nat) (starts : List Koid) : Walk :=
  g.drain depth rounds (starts.foldl (g.start depth) ⟨[], [], []⟩)

def Linked (koid other : Koid) : Prop :=
  other ∈ (g.outboundEdges koid).map Prod.snd
  deriving Decidable

/-- The starts that are expanded: those that no expanded one before them is or is linked to. -/
def expandedFrom : List Koid → List Koid → List Koid
  | done, [] => done
  | done, koid :: rest =>
    if koid ∈ done ∨ ∃ a ∈ done, g.Linked a koid then expandedFrom done rest
    else expandedFrom (koid :: done) rest

def expanded (starts : List Koid) : List Koid :=
  g.expandedFrom [] starts

/-- An object is reached from a start by a number of edges, through objects that are there. -/
inductive Reaches (starts : List Koid) : Nat → Koid → Prop
  | edge {koid other : Koid} (hstart : koid ∈ starts) (h : g.Linked koid other) :
      Reaches starts 1 other
  | step {n : Nat} {koid other : Koid} (hreach : Reaches starts n koid)
      (hlive : g.endpointLive koid) (h : g.Linked koid other) : Reaches starts (n + 1) other

/-- An object is reached by fewer edges. -/
def Near (starts : List Koid) (n : Nat) (koid : Koid) : Prop :=
  ∃ m < n, g.Reaches starts m koid

/-- The least number of edges to an object that is there and no start. -/
def Distance (starts : List Koid) (n : Nat) (koid : Koid) : Prop :=
  g.endpointLive koid ∧ koid ∉ starts ∧ g.Reaches starts n koid ∧ ¬g.Near starts n koid

/-! ## Edges that are looked at -/

/-- Some targets were met at a distance. -/
structure Met (push : Bool) (d : Nat) (targets : Koid → Prop) (s s' : Walk) : Prop where
  visited : ∀ koid, koid ∈ s'.visited ↔ koid ∈ s.visited ∨ targets koid
  found : ∃ new : List (Koid × Text),
    s'.results = s.results ++ new.map (fun r => (r.1, r.2, d)) ∧
    s'.queue = s.queue ++ (if push then new.map (fun r => (r.1, d)) else []) ∧
    (new.map Prod.fst).Nodup ∧ ∀ koid, koid ∈ new.map Prod.fst ↔
      targets koid ∧ koid ∉ s.visited ∧ g.endpointLive koid

variable {g} {ts ts' : Koid → Prop}

theorem Met.refl (s : Walk) : g.Met push d (fun _ => False) s s where
  visited := by simp
  found := ⟨[], by simp⟩

theorem Met.trans (h : g.Met push d ts s s') (h' : g.Met push d ts' s' s'') :
    g.Met push d (fun koid => ts koid ∨ ts' koid) s s'' where
  visited koid := by rw [h'.visited, h.visited, or_assoc]
  found := by
    obtain ⟨new, hresults, hqueue, hnodup, hmem⟩ := h.found
    obtain ⟨new', hresults', hqueue', hnodup', hmem'⟩ := h'.found
    refine ⟨new ++ new', ?_, ?_, ?_, fun koid => ?_⟩
    · rw [hresults', hresults, map_append, append_assoc]
    · rw [hqueue', hqueue, append_assoc]
      cases push <;> simp
    · rw [map_append, nodup_append']
      refine ⟨hnodup, hnodup', fun koid hnew hnew' => ?_⟩
      -- What the first edges found is visited behind them.
      exact ((hmem' koid).mp hnew').2.1 ((h.visited koid).mpr (.inr ((hmem koid).mp hnew).1))
    · rw [map_append, mem_append, hmem, hmem', h.visited]
      tauto

theorem Met.congr (h : g.Met push d ts s s') (hts : ∀ koid, ts koid ↔ ts' koid) :
    g.Met push d ts' s s' := by
  rwa [← funext fun koid => propext (hts koid)]

theorem meet_met (e : Text × Koid) :
    g.Met push d (fun koid => koid = e.2) s (g.meet push d s e) := by
  unfold meet
  split
  · next hvisited =>
      refine ⟨fun koid => ⟨.inl, fun h => h.elim id (· ▸ hvisited)⟩, [], by simp, by simp, by simp,
        fun koid => ?_⟩
      simp only [map_nil, not_mem_nil, false_iff]
      rintro ⟨rfl, hnot, -⟩
      exact hnot hvisited
  split
  · next hvisited hlive =>
      refine ⟨by simp [or_comm], [(e.2, e.1)], by simp, by cases push <;> simp, by simp, ?_⟩
      simp only [map_cons, map_nil, mem_singleton, iff_self_and]
      rintro koid rfl
      exact ⟨hvisited, hlive⟩
  · next hlive =>
      refine ⟨by simp [or_comm], [], by simp, by simp, by simp, fun koid => ?_⟩
      simp only [map_nil, not_mem_nil, false_iff]
      rintro ⟨rfl, -, h⟩
      exact hlive h

theorem foldl_meet_met (koid : Koid) (s : Walk) :
    g.Met push d (g.Linked koid) s ((g.outboundEdges koid).foldl (g.meet push d) s) := by
  unfold Linked
  induction g.outboundEdges koid generalizing s with
  | nil => exact (Met.refl s).congr (by simp)
  | cons e es ih => exact ((meet_met e).trans (ih _)).congr (by simp)

/-! ## The starts -/

theorem Met.visit (h : g.Met push d ts s s') (hnew : koid ∉ s'.visited) :
    g.Met push d ts { s with visited := koid :: s.visited }
      { s' with visited := koid :: s'.visited } where
  visited other := by simp only [mem_cons, h.visited, or_assoc]
  found := by
    obtain ⟨new, hresults, hqueue, hnodup, hmem⟩ := h.found
    refine ⟨new, hresults, hqueue, hnodup, fun other => (hmem other).trans ?_⟩
    have hother : ts other → other ≠ koid := by
      rintro hts rfl
      exact hnew ((h.visited _).mpr (.inr hts))
    simp only [mem_cons, not_or]
    tauto

theorem foldl_start_met {done : List Koid} (rest : List Koid)
    (h : g.Met (decide (1 < depth)) 1 (fun b => ∃ a ∈ done, g.Linked a b) ⟨done, [], []⟩ s) :
    g.Met (decide (1 < depth)) 1 (fun b => ∃ a ∈ g.expandedFrom done rest, g.Linked a b)
      ⟨g.expandedFrom done rest, [], []⟩ (rest.foldl (g.start depth) s) := by
  induction rest generalizing done s with
  | nil => exact h
  | cons koid rest ih =>
    rw [foldl_cons, start, expandedFrom]
    by_cases hvisited : koid ∈ s.visited
    · rw [if_pos hvisited, if_pos ((h.visited koid).mp hvisited)]
      exact ih h
    · rw [if_neg hvisited, if_neg (mt (h.visited koid).mpr hvisited)]
      exact ih (((h.visit hvisited).trans (foldl_meet_met koid _)).congr (by simp [or_comm]))

theorem mem_expandedFrom {done rest : List Koid} :
    (koid ∈ g.expandedFrom done rest → koid ∈ done ∨ koid ∈ rest) ∧
      (koid ∈ done → koid ∈ g.expandedFrom done rest) := by
  induction rest generalizing done with
  | nil => simp [expandedFrom]
  | cons next rest ih =>
    rw [expandedFrom]
    split
    · exact ⟨fun h => (ih.1 h).imp_right (mem_cons_of_mem _), ih.2⟩
    · refine ⟨fun h => ?_, fun h => ih.2 (mem_cons_of_mem _ h)⟩
      rcases ih.1 h with h | h
      · rcases mem_cons.mp h with rfl | h
        · exact .inr mem_cons_self
        · exact .inl h
      · exact .inr (mem_cons_of_mem _ h)

theorem expanded_subset (h : koid ∈ g.expanded starts) : koid ∈ starts :=
  (mem_expandedFrom.1 h).resolve_left not_mem_nil

/-- A start that is not expanded is a target of one that is. -/
theorem mem_expandedFrom_or_linked {done rest : List Koid} (h : koid ∈ rest) :
    koid ∈ g.expandedFrom done rest ∨ ∃ a ∈ g.expandedFrom done rest, g.Linked a koid := by
  induction rest generalizing done with
  | nil => cases h
  | cons next rest ih =>
    rw [expandedFrom]
    rcases mem_cons.mp h with rfl | h
    · split
      · next hmet =>
          refine hmet.imp mem_expandedFrom.2 ?_
          rintro ⟨a, ha, hlinked⟩
          exact ⟨a, mem_expandedFrom.2 ha, hlinked⟩
      · exact .inl (mem_expandedFrom.2 mem_cons_self)
    · split <;> exact ih h

theorem not_mem_expandedFrom {done rest : List Koid} (hnot : koid ∉ done)
    (hlinked : ∃ a ∈ done, g.Linked a koid) : koid ∉ g.expandedFrom done rest := by
  induction rest generalizing done with
  | nil => exact hnot
  | cons next rest ih =>
    rw [expandedFrom]
    split
    · exact ih hnot hlinked
    · next hmet =>
        obtain ⟨a, ha, hlinked⟩ := hlinked
        refine ih (fun h => ?_) ⟨a, mem_cons_of_mem _ ha, hlinked⟩
        rcases mem_cons.mp h with rfl | h
        · exact hmet (.inr ⟨a, ha, hlinked⟩)
        · exact hnot h

/-! ## The levels -/

/-- All objects up to a distance were met, and those at the distance are queued. -/
structure Level (g : Graph) (starts : List Koid) (depth k : Nat) (s : Walk) : Prop where
  visited : ∀ koid, koid ∈ s.visited ↔ koid ∈ starts ∨ g.Near starts (k + 1) koid
  queue : ∀ p, p ∈ s.queue ↔ 1 < depth ∧ p.2 = k ∧ g.Distance starts k p.1
  results : ∀ koid n, (∃ relType, (koid, relType, n) ∈ s.results)
    ↔ n < k + 1 ∧ g.Distance starts n koid
  nodup : (s.results.map Prod.fst).Nodup

theorem reaches_pos {n : Nat} (h : g.Reaches starts n koid) : 1 ≤ n := by
  cases h <;> omega

theorem linked_of_reaches_one (h : g.Reaches starts 1 koid) : ∃ a ∈ starts, g.Linked a koid := by
  generalize hn : 1 = n at h
  cases h with
  | edge hstart h => exact ⟨_, hstart, h⟩
  | step hreach => have := reaches_pos hreach; omega

theorem Level.met (h : g.Level starts depth k s)
    (hmet : g.Met (decide (1 < depth)) (k + 1) ts { s with queue := [] } s')
    (hreach : ∀ koid, ts koid → g.Reaches starts (k + 1) koid)
    (hlinked : ∀ koid, g.Reaches starts (k + 1) koid → koid ∈ s.visited ∨ ts koid) :
    g.Level starts depth (k + 1) s' := by
  obtain ⟨new, hresults, hqueue, hnodup, hmem⟩ := hmet.found
  simp only [h.visited] at hlinked
  have hnew : ∀ koid, koid ∈ new.map Prod.fst ↔ g.Distance starts (k + 1) koid := by
    intro koid
    have := hreach koid
    have := hlinked koid
    rw [hmem, h.visited, Distance]
    tauto
  refine ⟨fun koid => ?_, fun p => ?_, fun koid n => ?_, ?_⟩
  · have := hreach koid
    have := hlinked koid
    have hnear : g.Near starts (k + 2) koid ↔ g.Near starts (k + 1) koid ∨
      g.Reaches starts (k + 1) koid := Nat.exists_lt_succ_right
    rw [hmet.visited, h.visited, hnear]
    tauto
  · rw [hqueue, nil_append, ← hnew]
    by_cases hdepth : 1 < depth
    · simp only [hdepth, decide_true, if_true, true_and, mem_map]
      constructor
      · rintro ⟨r, hr, rfl⟩
        exact ⟨rfl, r, hr, rfl⟩
      · rintro ⟨hp, r, hr, hfst⟩
        exact ⟨r, hr, Prod.ext hfst hp.symm⟩
    · simp [hdepth]
  · have hlast : (∃ relType, (koid, relType, n) ∈ new.map fun r => (r.1, r.2, k + 1))
        ↔ n = k + 1 ∧ g.Distance starts n koid := by
      constructor
      · rintro ⟨relType, hr⟩
        obtain ⟨r, hin, heq⟩ := mem_map.mp hr
        cases heq
        exact ⟨rfl, (hnew _).mp (mem_map_of_mem hin)⟩
      · rintro ⟨rfl, hdist⟩
        obtain ⟨r, hr, rfl⟩ := mem_map.mp ((hnew koid).mpr hdist)
        exact ⟨r.2, mem_map.mpr ⟨r, hr, rfl⟩⟩
    simp only [hresults, mem_append, exists_or, h.results, hlast, ← or_and_right,
      ← Nat.lt_succ_iff_lt_or_eq]
  · rw [hresults, map_append, map_map, nodup_append']
    refine ⟨h.nodup, hnodup, fun koid hold hlater => ?_⟩
    obtain ⟨⟨_, relType, n⟩, hr, rfl⟩ := mem_map.mp hold
    obtain ⟨hn, hdist⟩ := (h.results _ n).mp ⟨relType, hr⟩
    exact ((hnew _).mp hlater).2.2.2 ⟨n, hn, hdist.2.2.1⟩

theorem Level.next (h : g.Level starts depth k s) (hk : 1 ≤ k) (hdepth : 1 < depth)
    (hmet : g.Met true (k + 1) (fun b => ∃ p ∈ s.queue, g.Linked p.1 b)
      { s with queue := [] } s') : g.Level starts depth (k + 1) s' := by
  refine h.met (decide_eq_true hdepth ▸ hmet) ?_ fun koid hreach => ?_
  · rintro koid ⟨p, hp, hlinked⟩
    have hdist := ((h.queue p).mp hp).2.2
    exact .step hdist.2.2.1 hdist.1 hlinked
  · refine or_iff_not_imp_left.mpr fun hvisited => ?_
    have hnot := fun n hn hreach => hvisited ((h.visited koid).mpr (.inr ⟨n, hn, hreach⟩))
    generalize hn : k + 1 = n at hreach
    cases hreach with
    | edge => omega
    | @step n a _ hreach hlive hlinked =>
      obtain rfl : k = n := by omega
      -- A shorter way to the object before it would be a shorter way to the object.
      refine ⟨(a, k), (h.queue _).mpr ⟨hdepth, rfl, hlive, fun hstart => ?_, hreach, ?_⟩, hlinked⟩
      · exact hnot 1 (by omega) (.edge hstart hlinked)
      · rintro ⟨m, hm, hless⟩
        exact hnot (m + 1) (by omega) (.step hless hlive hlinked)

theorem level_one (starts : List Koid) (depth : Nat) :
    g.Level (g.expanded starts) depth 1 (starts.foldl (g.start depth) ⟨[], [], []⟩) := by
  have hmet := @foldl_start_met g ⟨[], [], []⟩ depth [] starts
    ((Met.refl _).congr (by simp))
  have hnone : ∀ n < 0 + 1, ∀ koid, ¬g.Reaches (g.expanded starts) n koid := by
    intro n hn koid h
    have := reaches_pos h
    omega
  refine Level.met (s := ⟨g.expanded starts, [], []⟩) (k := 0)
    ⟨fun koid => ?_, fun p => ?_, fun koid n => ?_, nodup_nil⟩ hmet ?_ fun koid h => ?_
  · simp [Near, hnone 0 (by omega) koid]
  · simp only [not_mem_nil, false_iff]
    exact fun h => hnone 0 (by omega) _ h.2.2.2.2.1
  · simp only [not_mem_nil, exists_false, false_iff]
    exact fun h => hnone n h.1 _ h.2.2.2.1
  · rintro koid ⟨a, ha, hlinked⟩
    exact .edge ha hlinked
  · exact .inr (linked_of_reaches_one h)

/-! ## The queue -/

/-- What is queued stands behind what was queued before. -/
theorem Met.behind {front rest : List (Koid × Nat)}
    (h : g.Met push d ts { s with queue := front ++ rest } s') :
    ∃ queue, s'.queue = front ++ queue ∧
      g.Met push d ts { s with queue := rest } { s' with queue := queue } := by
  obtain ⟨new, hresults, hqueue, hnodup, hmem⟩ := h.found
  exact ⟨_, hqueue.trans (append_assoc _ _ _), h.visited, new, hresults, rfl, hnodup, hmem⟩

theorem drain_level {level rest : List (Koid × Nat)} (hqueue : s.queue = level ++ rest)
    (hlevel : ∀ p ∈ level, p.2 = k) (hk : k < depth) :
    ∃ s', g.Met true (k + 1) (fun b => ∃ p ∈ level, g.Linked p.1 b) { s with queue := rest } s' ∧
      ∀ rounds, g.drain depth (rounds + level.length) s = g.drain depth rounds s' := by
  induction level generalizing s rest with
  | nil =>
    obtain rfl : s.queue = rest := hqueue
    exact ⟨s, (Met.refl s).congr fun _ => by simp, fun rounds => rfl⟩
  | cons p level ih =>
    obtain ⟨hp, hlevel⟩ := forall_mem_cons.mp hlevel
    obtain ⟨queue, hqueue', hfirst⟩ := (foldl_meet_met p.1 { s with queue := level ++ rest }).behind
    obtain ⟨s', hmet, hdrain⟩ := ih hqueue' hlevel
    refine ⟨s', (hfirst.trans hmet).congr fun _ => by simp, fun rounds => ?_⟩
    rw [← hdrain, length_cons, ← Nat.add_assoc, drain]
    simp only [hqueue, cons_append, hp, if_neg (not_le.mpr hk)]

theorem drain_done (h : ∀ p ∈ s.queue, depth ≤ p.2) (more : Nat) :
    g.drain depth (more + s.queue.length) s = { s with queue := [] } := by
  generalize hqueue : s.queue = queue at h
  induction queue generalizing s with
  | nil =>
    obtain ⟨visited, results, queue⟩ := s
    obtain rfl : queue = [] := hqueue
    cases more <;> rfl
  | cons p queue ih =>
    obtain ⟨hp, hrest⟩ := forall_mem_cons.mp h
    rw [length_cons, ← Nat.add_assoc, drain]
    simp only [hqueue, if_pos hp]
    exact ih rfl hrest

/-- Each object is found once, at its distance. -/
def Found (g : Graph) (starts : List Koid) (depth : Nat) (s : Walk) : Prop :=
  (s.results.map Prod.fst).Nodup ∧ ∀ koid n, (∃ relType, (koid, relType, n) ∈ s.results)
    ↔ n < depth + 1 ∧ g.Distance starts n koid

/-- The loop ends, and what it ends with. -/
def Returns (g : Graph) (starts : List Koid) (depth : Nat) (s : Walk) : Prop :=
  s.queue = [] ∧ ∃ rounds, ∀ more, g.traverse depth (more + rounds) starts = s

theorem Returns.unique (h : g.Returns starts depth s) (h' : g.Returns starts depth s') :
    s = s' := by
  obtain ⟨-, rounds, hs⟩ := h
  obtain ⟨-, rounds', hs'⟩ := h'
  rw [← hs rounds', ← hs' rounds, Nat.add_comm]

theorem Level.drained (h : g.Level starts depth k s) (hk : 1 ≤ k) (hle : k ≤ depth) :
    ∃ s', s'.queue = [] ∧ g.Found starts depth s' ∧
      ∃ rounds, ∀ more, g.drain depth (more + rounds) s = s' := by
  induction hj : depth - k generalizing k s with
  | zero =>
    obtain rfl : k = depth := by omega
    exact ⟨{ s with queue := [] }, rfl, ⟨h.nodup, h.results⟩, s.queue.length,
      drain_done fun p hp => ((h.queue p).mp hp).2.1.ge⟩
  | succ j ih =>
    obtain ⟨s₁, hmet, hdrain⟩ := drain_level (g := g) (append_nil s.queue).symm
      (fun p hp => ((h.queue p).mp hp).2.1) (show k < depth by omega)
    obtain ⟨s', hqueue, hfound, rounds, hrounds⟩ :=
      ih (h.next hk (by omega) hmet) (by omega) (by omega) (by omega)
    refine ⟨s', hqueue, hfound, rounds + s.queue.length, fun more => ?_⟩
    rw [← Nat.add_assoc, hdrain]
    exact hrounds more

/-- A traversal ends, and finds what the expanded starts reach. -/
theorem exists_returns (g : Graph) (starts : List Koid) (hdepth : 1 ≤ depth) :
    ∃ s, g.Returns starts depth s ∧ g.Found (g.expanded starts) depth s := by
  obtain ⟨s, hqueue, hfound, hrounds⟩ := (level_one starts depth).drained le_rfl hdepth
  exact ⟨s, ⟨hqueue, hrounds⟩, hfound⟩

/-! ## What is returned -/

/-- What a traversal is to return: what the starts reach by up to as many edges as it may
    follow, once and with the least number of edges; the starts themselves may be left out. -/
def Exact (g : Graph) (starts : List Koid) (depth : Nat) (s : Walk) : Prop :=
  (s.results.map Prod.fst).Nodup ∧
  (∀ koid relType n, (koid, relType, n) ∈ s.results → n ≤ depth ∧ g.endpointLive koid ∧
    g.Reaches starts n koid ∧ ¬g.Near starts n koid) ∧
  ∀ koid ∉ starts, g.endpointLive koid → ∀ n ≤ depth, g.Reaches starts n koid →
    koid ∈ s.results.map Prod.fst

/-- The expanded starts reach what all starts reach, by as few edges. -/
def Covered (g : Graph) (starts : List Koid) (depth : Nat) : Prop :=
  ∀ koid ∉ starts, g.endpointLive koid → ∀ n ≤ depth, g.Reaches starts n koid →
    ∃ m ≤ n, g.Reaches (g.expanded starts) m koid

theorem Reaches.mono {starts' : List Koid} (hsub : ∀ a ∈ starts, a ∈ starts') {n : Nat}
    (h : g.Reaches starts n koid) : g.Reaches starts' n koid := by
  induction h with
  | edge hstart h => exact .edge (hsub _ hstart) h
  | step _ hlive h ih => exact .step ih hlive h

theorem Found.mem_results (h : g.Found starts depth s) :
    koid ∈ s.results.map Prod.fst ↔ g.endpointLive koid ∧ koid ∉ starts ∧
      ∃ n ≤ depth, g.Reaches starts n koid := by
  constructor
  · rintro hmem
    obtain ⟨⟨_, relType, n⟩, hr, rfl⟩ := mem_map.mp hmem
    obtain ⟨hn, hlive, hstart, hreach, -⟩ := (h.2 _ n).mp ⟨relType, hr⟩
    exact ⟨hlive, hstart, n, by omega, hreach⟩
  · rintro ⟨hlive, hstart, n, hn, hreach⟩
    -- The least number of edges is the distance.
    induction n using Nat.strong_induction_on with
    | _ n ih =>
      by_cases hnear : g.Near starts n koid
      · obtain ⟨m, hm, hless⟩ := hnear
        exact ih m hm (by omega) hless
      · obtain ⟨relType, hr⟩ := (h.2 koid n).mpr ⟨by omega, hlive, hstart, hreach, hnear⟩
        exact mem_map_of_mem hr

theorem Found.exact_iff (h : g.Found (g.expanded starts) depth s) :
    g.Exact starts depth s ↔ g.Covered starts depth := by
  constructor
  · rintro ⟨-, hsound, hall⟩ koid hstart hlive n hn hreach
    obtain ⟨⟨_, relType, m⟩, hr, rfl⟩ := mem_map.mp (hall koid hstart hlive n hn hreach)
    refine ⟨m, ?_, ((h.2 _ m).mp ⟨relType, hr⟩).2.2.2.1⟩
    by_contra hlt
    exact (hsound _ relType m hr).2.2.2 ⟨n, by omega, hreach⟩
  · intro hcov
    refine ⟨h.1, fun koid relType n hr => ?_, fun koid hstart hlive n hn hreach => ?_⟩
    · obtain ⟨hn, hlive, hnot, hreach, hnear⟩ := (h.2 koid n).mp ⟨relType, hr⟩
      refine ⟨by omega, hlive, hreach.mono fun a => expanded_subset, ?_⟩
      rintro ⟨m, hm, hless⟩
      by_cases hstart : koid ∈ starts
      · -- A start that was skipped is found by one edge.
        obtain ⟨a, ha, hlinked⟩ := (mem_expandedFrom_or_linked hstart).resolve_left hnot
        have hpos := reaches_pos hless
        exact hnear ⟨1, by omega, .edge ha hlinked⟩
      · obtain ⟨m', hm', hless⟩ := hcov koid hstart hlive m (by omega) hless
        exact hnear ⟨m', by omega, hless⟩
    · obtain ⟨m, hm, hreach⟩ := hcov koid hstart hlive n hn hreach
      exact h.mem_results.mpr ⟨hlive, fun hexp => hstart (expanded_subset hexp), m, by omega, hreach⟩

/-- No start that is there is a target of another one. -/
def Unlinked (g : Graph) (starts : List Koid) : Prop :=
  ∀ a ∈ starts, ∀ b ∈ starts, g.Linked a b → g.endpointLive b → a = b

theorem not_found_of_unlinked (hunlinked : g.Unlinked starts)
    (h : g.Found (g.expanded starts) depth s) (hstart : koid ∈ starts) :
    koid ∉ s.results.map Prod.fst := by
  intro hmem
  obtain ⟨hlive, hnot, -⟩ := h.mem_results.mp hmem
  obtain ⟨a, ha, hlinked⟩ := (mem_expandedFrom_or_linked hstart).resolve_left hnot
  exact hnot (hunlinked a (expanded_subset ha) koid hstart hlinked hlive ▸ ha)

/-- What a traversal is to return whatever the order of the starts. -/
def ExactInAnyOrder (g : Graph) (starts : List Koid) (depth : Nat) : Prop :=
  ∀ starts', starts'.Perm starts → ∀ s', g.Returns starts' depth s' → g.Exact starts' depth s' ∧
    ∀ s, g.Returns starts depth s →
      ∀ koid, koid ∈ s'.results.map Prod.fst ↔ koid ∈ s.results.map Prod.fst

theorem ExactInAnyOrder.unlinked (hdepth : 1 ≤ depth) (h : g.ExactInAnyOrder starts depth) :
    g.Unlinked starts := by
  intro a ha b hb hlinked hlive
  by_contra hne
  -- Behind the first of the two the second is found, and in front of it it is not.
  obtain ⟨s, hs, -⟩ := exists_returns g starts hdepth
  obtain ⟨s₁, hs₁, hfound₁⟩ := exists_returns g (a :: starts.erase a) hdepth
  obtain ⟨s₂, hs₂, hfound₂⟩ := exists_returns g (b :: starts.erase b) hdepth
  have hexp : ∀ c rest, c ∈ g.expanded (c :: rest) := by
    intro c rest
    rw [expanded, expandedFrom, if_neg (by simp)]
    exact mem_expandedFrom.2 mem_cons_self
  have hmem₁ : b ∈ s₁.results.map Prod.fst := by
    refine hfound₁.mem_results.mpr ⟨hlive, ?_, 1, hdepth, .edge (hexp a _) hlinked⟩
    rw [expanded, expandedFrom, if_neg (by simp)]
    exact not_mem_expandedFrom (by simpa using Ne.symm hne) ⟨a, mem_cons_self, hlinked⟩
  have hmem := ((h _ (perm_cons_erase ha).symm s₁ hs₁).2 s hs b).mp hmem₁
  exact (hfound₂.mem_results.mp (((h _ (perm_cons_erase hb).symm s₂ hs₂).2 s hs b).mpr hmem)).2.1
    (hexp b _)

/-- A traversal ends. It is exact for the starts in their order exactly if the starts that are
    expanded cover them, and it is exact and finds the same in any order exactly if they do so
    in any order and no start that is there is a target of another one. -/
theorem traverse_exact (g : Graph) (starts : List Koid) (depth : Nat) (hdepth : 1 ≤ depth) :
    ∃ s, g.Returns starts depth s ∧ (g.Exact starts depth s ↔ g.Covered starts depth) ∧
      (g.ExactInAnyOrder starts depth ↔ g.Unlinked starts ∧
        ∀ starts', starts'.Perm starts → g.Covered starts' depth) := by
  obtain ⟨s, hs, hfound⟩ := exists_returns g starts hdepth
  refine ⟨s, hs, hfound.exact_iff, fun h => ⟨h.unlinked hdepth, fun starts' hperm => ?_⟩,
    fun ⟨hunlinked, hcov⟩ starts' hperm s' hs' => ?_⟩
  · obtain ⟨s', hs', hfound'⟩ := exists_returns g starts' hdepth
    exact hfound'.exact_iff.mp (h starts' hperm s' hs').1
  · obtain ⟨s'', hs'', hfound'⟩ := exists_returns g starts' hdepth
    obtain rfl := hs'.unique hs''
    have hexact' := hfound'.exact_iff.mpr (hcov starts' hperm)
    have hexact := hfound.exact_iff.mpr (hcov starts (.refl _))
    refine ⟨hexact', fun w hw koid => ?_⟩
    obtain rfl := hw.unique hs
    have hsame : ∀ {n}, g.Reaches starts' n koid ↔ g.Reaches starts n koid := fun {n} =>
      ⟨.mono fun a => hperm.mem_iff.mp, .mono fun a => hperm.mem_iff.mpr⟩
    by_cases hstart : koid ∈ starts
    · refine iff_of_false (not_found_of_unlinked ?_ hfound' (hperm.mem_iff.mpr hstart))
        (not_found_of_unlinked hunlinked hfound hstart)
      exact fun a ha b hb => hunlinked a (hperm.mem_iff.mp ha) b (hperm.mem_iff.mp hb)
    · constructor
      · rintro hmem
        obtain ⟨⟨_, relType, n⟩, hr, rfl⟩ := mem_map.mp hmem
        obtain ⟨hn, hlive, hreach, -⟩ := hexact'.2.1 _ relType n hr
        exact hexact.2.2 _ hstart hlive n hn (hsame.mp hreach)
      · rintro hmem
        obtain ⟨⟨_, relType, n⟩, hr, rfl⟩ := mem_map.mp hmem
        obtain ⟨hn, hlive, hreach, -⟩ := hexact.2.1 _ relType n hr
        exact hexact'.2.2 _ (hperm.mem_iff.not.mpr hstart) hlive n hn (hsame.mpr hreach)

def row : Graph where
  outboundEdges koid := if koid = 1 then [(utf8 "knows", 2)] else
    if koid = 2 then [(utf8 "knows", 3)] else []
  endpointLive _ := true

/-- One start is always expanded. -/
theorem row_exact : ∃ s, row.Returns [1] 2 s ∧ row.Exact [1] 2 s := by
  obtain ⟨s, hs, hiff, -⟩ := traverse_exact row [1] 2 (by decide)
  refine ⟨s, hs, hiff.mpr fun koid _ _ n _ hreach => ⟨n, le_rfl, ?_⟩⟩
  exact hreach.mono fun a ha => by simpa [expanded, expandedFrom] using ha

/-- The second start is not expanded behind the first, so its target is missing or too far
    away, and in the other order it is not. -/
theorem start_skipped : ¬row.Exact [1, 2] 1 (row.traverse 1 9 [1, 2]) ∧
    (row.traverse 1 9 [1, 2]).results = [(2, utf8 "knows", 1)] ∧
    (row.traverse 2 9 [1, 2]).results = [(2, utf8 "knows", 1), (3, utf8 "knows", 2)] ∧
    (row.traverse 1 9 [2, 1]).results = [(3, utf8 "knows", 1)] := by
  have hresults : (row.traverse 1 9 [1, 2]).results = [(2, utf8 "knows", 1)] := by decide +kernel
  refine ⟨fun h => ?_, hresults, by decide +kernel, by decide +kernel⟩
  have hmem := h.2.2 3 (by decide) rfl 1 le_rfl
    (.edge (show 2 ∈ _ by decide) (by simp [Linked, row]))
  rw [hresults] at hmem
  simp at hmem

end Graph

end Aikoql.Runtime
