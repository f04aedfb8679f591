import Aikoql.Guarantees.RelationshipIndex
import Aikoql.Kernel.Twins

/-!
# What an Object Leaves Behind

The rows that mention an object.

An object is named by its own head and versions, by the index of types, by the edges of
both relationship indexes, by the versions of objects with relationships to it, and by the
outcomes of writes under an idempotency key and of transactions with an id. Erasing
deletes its head, its versions and the row of its current type. Everything else has to be
out of the way before: no former type, no edges, no outcome that names it.

`Traced` says this of a store in which the object may still be there: what names it can be
told from its head. It is kept by calls that leave no trace, and behind an erasure nothing
names the object.
-/

namespace Aikoql.Kernel

open List
open Storage (Sha256)

variable {c : Commit} {puts : List Put} {koid : Koid} {e : Edge}

/-! ## Outcomes that are written down -/

theorem Put.mem_asIdem {key : Text} {row : IdemRow} :
    (key, row) ∈ puts.filterMap Put.asIdem ↔ Put.idem key row ∈ puts := by
  rw [mem_filterMap]
  constructor
  · rintro ⟨p, hp, hpart⟩
    cases p <;> cases hpart
    exact hp
  · exact fun h => ⟨_, h, rfl⟩

theorem Put.mem_asTxn {id : Text} {record : TxnRecord} :
    (id, record) ∈ puts.filterMap Put.asTxn ↔ Put.txn id record ∈ puts := by
  rw [mem_filterMap]
  constructor
  · rintro ⟨p, hp, hpart⟩
    cases p <;> cases hpart
    exact hp
  · exact fun h => ⟨_, h, rfl⟩

theorem mem_writeTypeIndex {typeName : Text} {p : Put} : p ∈ writeTypeIndex typeName koid ↔
      isCatalogType typeName = false ∧ p = .typeRow typeName koid := by
  unfold writeTypeIndex
  split <;> simp_all

theorem mem_relationPuts {rels : List RelationshipRef} {p : Put} : p ∈ relationPuts koid rels ↔
      ∃ rel ∈ rels, p = .relOut (rel.edge koid) ∨ p = .relIn (rel.edge koid) := by
  simp [relationPuts, writeRelIndex]

section

variable {A : Admission} {C : Crypto} {st : State} {io : Ambient} {hlc : Nat}
  {batch : WriteBatch} {pipe : Pipeline} {after : Std.ExtTreeMap Text Nat} {reply : Reply}

theorem commitVersion_outcomes {millis : Nat} {ko : KnowledgeObject} {kind : EventKind}
    {origin : Origin} {actor : Text} {note idem : Option Text}
    {prevRels : Option (List RelationshipRef)} {usage : Option (Text × Nat)} {ready : Ready}
    (h : commitVersion C st millis ko kind origin actor note idem prevRels usage
      = (hlc, .ok ready)) :
    (∀ key row, Put.idem key row ∈ ready.batch.puts → idem = some key ∧ row.koid = ko.koid) ∧
      ∀ id record, Put.txn id record ∉ ready.batch.puts := by
  have hvalid := validate_of_commitVersion h
  simp only [commitVersion, hvalid, Prod.mk.injEq, bind_eq_ok, pure_eq_ok] at h
  obtain ⟨-, ke, -, rfl⟩ := h
  constructor
  · intro key row hmem
    cases usage <;> cases idem <;> simp [mem_writeTypeIndex, mem_relationPuts] at hmem
    all_goals
      obtain ⟨rfl, rfl⟩ := hmem
      exact ⟨rfl, rfl⟩
  · intro id record hmem
    cases usage <;> cases idem <;> simp [mem_writeTypeIndex, mem_relationPuts] at hmem

theorem chainOps_outcomes {ts : Nat} {pending : List Pending} {pipe : Pipeline} {chain : Chain}
    (h : chainOps C ts pipe pending = .ok chain) :
    (∀ key row, Put.idem key row ∉ chain.batch.puts) ∧
      (∀ id record, Put.txn id record ∉ chain.batch.puts) ∧
      chain.results.map Remembered.koid = pending.map fun p => p.ko.koid := by
  induction pending generalizing pipe chain with
  | nil =>
    cases h
    simp [WriteBatch.empty]
  | cons p ps ih =>
    simp only [chainOps, bind_eq_ok, pure_eq_ok] at h
    obtain ⟨_, -, ke, hke, rest, hrest, rfl⟩ := h
    obtain ⟨hidem, htxn, hresults⟩ := ih hrest
    refine ⟨?_, ?_, ?_⟩
    · intro key row hmem
      simp [WriteBatch.append, mem_writeTypeIndex, mem_relationPuts, hidem] at hmem
    · intro id record hmem
      simp [WriteBatch.append, mem_writeTypeIndex, mem_relationPuts, htxn] at hmem
    · rw [map_cons, map_cons, hresults]
      rfl

theorem not_mem_createdRows (tenants : Std.ExtTreeMap Text Nat) (created : List (Option Text)) :
    (∀ key row, Put.idem key row ∉ createdRows tenants created) ∧
      ∀ id record, Put.txn id record ∉ createdRows tenants created := by
  simp [createdRows]

theorem transactFresh_outcomes {ops : List TransactionOp} {schema : Option (Text × Bytes)}
    {txnId : Option Text}
    (h : transactFresh A C st io ops schema txnId = (hlc, .write batch pipe after reply)) :
    (∀ key row, Put.idem key row ∉ batch.puts) ∧
      ∀ id record, Put.txn id record ∈ batch.puts → txnId = some id ∧
        ∀ r ∈ record.results, ∃ target ∈ opTargets io 0 ops, target.1 = r.koid := by
  obtain ⟨resolved, pending, chain, hprepared, hchain⟩ := transactFresh_prepared h
  simp only [transactFresh, hprepared, hchain, Prod.mk.injEq, Staged.write.injEq] at h
  obtain ⟨rfl, rfl, rfl, rfl, -⟩ := h
  obtain ⟨hidem, htxn, hresults⟩ := chainOps_outcomes hchain
  constructor
  · intro key row hmem
    cases schema <;> cases txnId <;>
      simp [WriteBatch.append, hidem, (not_mem_createdRows _ _).1] at hmem
  · intro id record hmem
    have hrecord : txnId = some id ∧ record.results = chain.results := by
      cases schema <;> cases txnId <;>
        simp [WriteBatch.append, htxn, (not_mem_createdRows _ _).2] at hmem
      all_goals
      obtain ⟨rfl, rfl⟩ := hmem
      exact ⟨rfl, rfl⟩
    refine ⟨hrecord.1, ?_⟩
    intro r hr
    -- The results are those of the versions, one for each operation.
    have hkoid : r.koid ∈ pending.map fun p => p.ko.koid := by
      rw [← hresults, ← hrecord.2]
      exact mem_map_of_mem hr
    obtain ⟨p, hp, hkoid⟩ := mem_map.mp hkoid
    obtain ⟨target, htarget, r', -, rfl, -, security, -, rfl⟩ :=
      exists_of_forall₂ (prepareOps_targets hprepared) hp
    exact ⟨_, htarget, hkoid⟩

theorem stage_outcomes {call : Call}
    (h : stage A C st io call = (hlc, .write batch pipe after reply)) :
    (∀ key row, Put.idem key row ∈ batch.puts → ∃ target ∈ call.targets io,
        target.1 = row.koid ∧ target.2.idempotencyKey.isSome) ∧
      ∀ id record, Put.txn id record ∈ batch.puts → call.txnId = some id ∧
        ∀ r ∈ record.results, ∃ target ∈ call.targets io, target.1 = r.koid := by
  -- All calls but transactions commit at most one version.
  have hversion : ∀ {tenants rep ko kind origin actor note idem prevRels usage},
      stagedOf tenants rep (commitVersion C st io.hlcMillis ko kind origin actor note idem
        prevRels usage) = (hlc, .write batch pipe after reply) →
      (∀ key row, Put.idem key row ∈ batch.puts → idem = some key ∧ row.koid = ko.koid) ∧
        ∀ id record, Put.txn id record ∉ batch.puts := by
    intro tenants rep ko kind origin actor note idem prevRels usage h
    obtain ⟨ready, hready, rfl, -⟩ := stagedOf_write h
    exact commitVersion_outcomes hready
  cases stage_batched h with
  | remember _ _ _ _ _ _ hstaged =>
    obtain ⟨hidem, htxn⟩ := hversion hstaged
    refine ⟨?_, fun id record hmem => absurd hmem (htxn id record)⟩
    intro key row hmem
    obtain ⟨hkey, hkoid⟩ := hidem key row hmem
    obtain ⟨key', hkey', -⟩ := Option.map_eq_some_iff.mp hkey
    exact ⟨_, mem_singleton_self _, hkoid.symm, by rw [hkey']; rfl⟩
  | transact _ hfresh =>
    obtain ⟨hidem, htxn⟩ := transactFresh_outcomes hfresh
    refine ⟨fun key row hmem => absurd hmem (hidem key row), ?_⟩
    intro id record hmem
    obtain ⟨hid, hresults⟩ := htxn id record hmem
    refine ⟨hid, fun r hr => ?_⟩
    obtain ⟨target, htarget, hkoid⟩ := hresults r hr
    exact ⟨_, mem_map_of_mem htarget, hkoid⟩
  | evolve _ _ _ hstaged | tombstone _ _ hstaged =>
    obtain ⟨hidem, htxn⟩ := hversion hstaged
    exact ⟨fun key row hmem => (by cases (hidem key row hmem).1),
      fun id record hmem => absurd hmem (htxn id record)⟩
  | schema | erase | recordAudit => simp [eraseBatch, auditBatch]

end

/-! ## Traces -/

structure Unmentioned (k : Koid) (s : Store) : Prop where
  head : s.heads[k]? = none
  versions : s.objects k = ∅
  types : ∀ typeName, (typeName, k) ∉ s.types
  relOut : ∀ e ∈ s.relOut, e.src ≠ k ∧ e.dst ≠ k
  relIn : ∀ e ∈ s.relIn, e.src ≠ k ∧ e.dst ≠ k
  others : ∀ (koid : Koid) (ts : Nat) (ko : KnowledgeObject), (s.objects koid)[ts]? = some ko →
    ko.koid ≠ k ∧ ∀ rel ∈ ko.relationships, rel.target ≠ k
  idem : ∀ (key : Text) (row : IdemRow), s.idem[key]? = some row → row.koid ≠ k
  txns : ∀ (id : Text) (record : TxnRecord), s.txns[id]? = some record →
    ∀ r ∈ record.results, r.koid ≠ k

/-- A call leaves nothing of an object where it will not be erased: no key and no id under
    which its outcome is written down, no type it does not keep, no relationship of another
    object to it, and no relationship of its own when it is erased. -/
@[mk_iff] structure LeavesNoTrace (k : Koid) (st : State) (io : Ambient) (call : Call) : Prop where
  keyless : ∀ target ∈ call.targets io, target.1 = k → target.2.idempotencyKey = none
  typed : ∀ target ∈ call.targets io, target.1 = k → ∀ head ∈ st.store.headObject k,
    isCatalogType head.metadata.typeName = true ∨
      target.2.metadata.typeName = head.metadata.typeName
  apart : ∀ l ∈ call.lists st io, l.1 ≠ k → ∀ rel ∈ l.2, rel.target ≠ k
  unnamed : call.txnId ≠ none → ∀ target ∈ call.targets io, target.1 ≠ k
  bare : call.erases = some k → st.store.headRels k = []

structure Traced (k : Koid) (s : Store) : Prop where
  types : ∀ typeName, (typeName, k) ∈ s.types → isCatalogType typeName = false ∧
    ∃ head, s.headObject k = some head ∧ head.metadata.typeName = typeName
  relOut : ∀ e ∈ s.relOut, e.src = k ∨ e.dst = k → ∃ rel ∈ s.headRels k, rel.edge k = e
  relIn : ∀ e ∈ s.relIn, e.src = k ∨ e.dst = k → ∃ rel ∈ s.headRels k, rel.edge k = e
  others : ∀ (koid : Koid) (ts : Nat) (ko : KnowledgeObject), koid ≠ k →
    (s.objects koid)[ts]? = some ko →
    ko.koid ≠ k ∧ ∀ rel ∈ ko.relationships, rel.target ≠ k
  idem : ∀ (key : Text) (row : IdemRow), s.idem[key]? = some row → row.koid ≠ k
  txns : ∀ (id : Text) (record : TxnRecord), s.txns[id]? = some record →
    ∀ r ∈ record.results, r.koid ≠ k

theorem Traced.empty (k : Koid) : Traced k Store.empty where
  types := by simp [Store.empty]
  relOut := by simp [Store.empty]
  relIn := by simp [Store.empty]
  others := by simp [Store.empty]
  idem := by simp [Store.empty]
  txns := by simp [Store.empty]

section

variable {A : Admission} {C : Crypto} {k : Koid} {st : State} {io : Ambient} {call : Call}
  {hlc : Nat} {batch : WriteBatch} {pipe : Pipeline} {tenants : Std.ExtTreeMap Text Nat}
  {reply : Reply} {ts : Nat} {change : Change} {o : Outcome}

section

variable (h : Commits A C st io call hlc batch pipe tenants reply ts change o)
include h

theorem Commits.mem_lists (hst : st.store.Coherent) (hc : c ∈ change.commits) :
    (c.ko.koid, c.ko.relationships) ∈ call.lists st io := by
  rw [← h.staging.lists hst.keyed, ← h.made.lists]
  exact mem_map_of_mem hc

theorem Commits.typeName_of_leavesNoTrace (hst : st.store.Coherent)
    (hno : LeavesNoTrace k st io call) (hc : c ∈ change.commits) (hkoid : c.ko.koid = k)
    {head : KnowledgeObject} (hhead : st.store.headObject k = some head)
    (hindexed : isCatalogType head.metadata.typeName = false) :
    c.ko.metadata.typeName = head.metadata.typeName := by
  obtain ⟨asked, hasked, seq, kind, hmade⟩ := h.made.exists_object hc
  have hname : asked.koid = k := by
    rw [← hkoid, hmade]
    rfl
  rw [hmade]
  change asked.metadata.typeName = _
  rcases h.staging.asked_cases hst hasked with ⟨-, target, htarget, hreq⟩ | ⟨old, hacts⟩
  · rw [hreq.metadata]
    have htyped := hno.typed target htarget (hreq.koid.symm.trans hname) head hhead
    rw [hindexed] at htyped
    exact htyped.resolve_left Bool.false_ne_true
  · have hold := hacts.head
    rw [hname, hhead] at hold
    cases hold
    rw [hacts.metadata]

theorem Commits.edge_own (hst : st.store.Coherent) (hno : LeavesNoTrace k st io call)
    (hc : c ∈ change.commits) (he : e ∈ c.edges) (hat : e.src = k ∨ e.dst = k) : c.ko.koid = k := by
  by_contra hne
  obtain ⟨rel, hrel, rfl⟩ := mem_map.mp he
  have htarget := hno.apart _ (h.mem_lists hst hc) hne rel hrel
  unfold RelationshipRef.edge at hat
  cases hdir : rel.direction <;> simp_all

end

theorem Describes.headRels_commit {H : Sha256} (h : Describes H st ts batch pipe change)
    (hc : c ∈ change.commits) :
    (st.store.writeBatch batch).headRels c.ko.koid = c.ko.relationships := by
  rw [Store.headRels, h.headObject_commit hc]
  rfl

theorem Commits.edges_traced (h : Commits A C st io call hlc batch pipe tenants reply ts change o)
    (hst : st.store.Coherent) (hno : LeavesNoTrace k st io call) (hat : e.src = k ∨ e.dst = k)
    (hold : (∃ rel ∈ st.store.headRels k, rel.edge k = e) ∨ ∃ c ∈ change.commits, e ∈ c.edges)
    (hkept : ∀ c ∈ change.commits, e ∉ c.removed st.store) :
    ∃ rel ∈ (st.store.writeBatch batch).headRels k, rel.edge k = e := by
  have hd := h.described.1
  rcases hold with ⟨rel, hrel, hedge⟩ | ⟨c, hc, he⟩
  · by_cases hcommits : ∀ c ∈ change.commits, c.ko.koid ≠ k
    · -- The object is left alone: if it were erased it would have no relationships.
      have herased : change.erased ≠ some k := by
        intro herased
        rw [hno.bare (h.erased ▸ herased)] at hrel
        cases hrel
      refine ⟨rel, ?_, hedge⟩
      rw [Store.headRels, hd.headObject_other hcommits herased]
      exact hrel
    · push Not at hcommits
      obtain ⟨c, hc, rfl⟩ := hcommits
      refine ⟨rel, ?_, hedge⟩
      rw [hd.headRels_commit hc]
      -- A relationship that is not removed is still there as often as before.
      have hcount : ¬c.ko.relationships.count rel < (st.store.headRels c.ko.koid).count rel := by
        intro hlt
        exact hkept c hc (mem_removed.mpr ⟨rel, hrel, hlt, hedge⟩)
      have hpos := count_pos_iff.mpr hrel
      exact count_pos_iff.mp (by omega)
  · obtain rfl := h.edge_own hst hno hc he hat
    rw [hd.headRels_commit hc]
    exact mem_map.mp he

theorem Traced.commits (htraced : Traced k st.store)
    (h : Commits A C st io call hlc batch pipe tenants reply ts change o)
    (hstage : stage A C st io call = (hlc, .write batch pipe tenants reply))
    (hst : st.store.Coherent) (hno : LeavesNoTrace k st io call) :
    Traced k (st.store.writeBatch batch) := by
  have hd := h.described.1
  obtain ⟨hidem, htxn⟩ := stage_outcomes hstage
  constructor
  case types =>
    intro typeName hmem
    obtain ⟨hwas, hkept⟩ := (hd.mem_types _).mp hmem
    rcases hwas with hwas | ⟨c, hc, hrow⟩
    · obtain ⟨hindexed, head, hhead, rfl⟩ := htraced.types typeName hwas
      refine ⟨hindexed, ?_⟩
      by_cases hcommits : ∀ c ∈ change.commits, c.ko.koid ≠ k
      · have herased : change.erased ≠ some k := fun herased =>
          hkept ⟨head, herased, hhead, rfl⟩
        exact ⟨head, (hd.headObject_other hcommits herased).trans hhead, rfl⟩
      · push Not at hcommits
        obtain ⟨c, hc, hkoid⟩ := hcommits
        refine ⟨c.ko, hkoid ▸ hd.headObject_commit hc, ?_⟩
        exact h.typeName_of_leavesNoTrace hst hno hc hkoid hhead hindexed
    · -- The row is that of a commit, which is current afterwards.
      unfold Commit.typeRows at hrow
      split at hrow
      · cases hrow
      · next hcatalog =>
          obtain ⟨rfl, rfl⟩ := Prod.mk.inj (mem_singleton.mp hrow)
          exact ⟨Bool.not_eq_true _ ▸ hcatalog, c.ko, hd.headObject_commit hc, rfl⟩
  case relOut =>
    intro e he hat
    obtain ⟨hwas, hkept⟩ := (hd.mem_relOut e).mp he
    exact h.edges_traced hst hno hat (hwas.imp_left fun hwas => htraced.relOut e hwas hat) hkept
  case relIn =>
    intro e he hat
    obtain ⟨hwas, hkept⟩ := (hd.mem_relIn e).mp he
    exact h.edges_traced hst hno hat (hwas.imp_left fun hwas => htraced.relIn e hwas hat) hkept
  case others =>
    intro koid ts' ko hne hko
    rcases hd.version_cases hko with ⟨c, hc, rfl, rfl, -⟩ | hold
    · exact ⟨hne, hno.apart _ (h.mem_lists hst hc) hne⟩
    · exact htraced.others koid ts' ko hne hold
  case idem =>
    intro key row hrow
    rw [idem_writeBatch] at hrow
    rcases mem_or_of_foldl_insert hrow with hnew | hold
    · rintro rfl
      obtain ⟨target, htarget, hkoid, hkey⟩ := hidem key row (Put.mem_asIdem.mp hnew)
      rw [hno.keyless target htarget hkoid] at hkey
      cases hkey
    · exact htraced.idem key row hold
  case txns =>
    intro id record hrecord r hr
    rw [txns_writeBatch] at hrecord
    rcases mem_or_of_foldl_insert hrecord with hnew | hold
    · obtain ⟨hid, hresults⟩ := htxn id record (Put.mem_asTxn.mp hnew)
      obtain ⟨target, htarget, hkoid⟩ := hresults r hr
      rw [← hkoid]
      exact hno.unnamed (by rw [hid]; exact Option.some_ne_none id) target htarget
    · exact htraced.txns id record hold r hr

theorem Traced.unmentioned (htraced : Traced k (st.store.writeBatch batch))
    (h : Commits A C st io call hlc batch pipe tenants reply ts change o)
    (herases : call.erases = some k) : Unmentioned k (st.store.writeBatch batch) := by
  have hd := h.described.1
  have herased : change.erased = some k := h.erased.trans herases
  have hhead := hd.headObject_erased herased
  have hrels : (st.store.writeBatch batch).headRels k = [] := by
    rw [Store.headRels, hhead]
    rfl
  have hedges : ∀ {e : Edge}, (e.src = k ∨ e.dst = k →
      ∃ rel ∈ (st.store.writeBatch batch).headRels k, rel.edge k = e) →
      e.src ≠ k ∧ e.dst ≠ k := by
    intro e he
    rw [hrels] at he
    rw [← not_or]
    intro hat
    obtain ⟨rel, hrel, -⟩ := he hat
    cases hrel
  constructor
  case head => exact hd.heads_erased herased
  case versions => exact hd.objects_erased herased
  case types =>
    intro typeName hmem
    obtain ⟨-, head, hhead', -⟩ := htraced.types typeName hmem
    rw [hhead] at hhead'
    cases hhead'
  case relOut => exact fun e he => hedges (htraced.relOut e he)
  case relIn => exact fun e he => hedges (htraced.relIn e he)
  case others =>
    intro koid ts' ko hko
    refine htraced.others koid ts' ko ?_ hko
    rintro rfl
    rw [hd.objects_erased herased] at hko
    simp at hko
  case idem => exact htraced.idem
  case txns => exact htraced.txns

end

end Aikoql.Kernel
