import Aikoql.Kernel.Checks
import Aikoql.Kernel.Heads
import Aikoql.Lib.MergeMaps

/-!
# Twin Runs

Two runs that differ in the properties of one object.

A veil over an object hides its properties in all its versions, and what the journal says
about payloads: the events apart from their numbers, the hashes and the hash in the
tombstone of the object. Two states are twins if they are the same behind the veil.
Batches are veiled too, and writing a batch and drawing the veil can be exchanged.

Calls are twins if they ask for the same apart from the properties of the object. The
checks of the kernel read properties, so of two twin calls one may be refused. If both
are committed then the states behind them are twins again. For this it does not matter
who is allowed what, and the roles and policies may differ.
-/

namespace Aikoql.Kernel

open List

variable {req req' : RememberRequest} {ops ops' : List TransactionOp} {idem note : Option Text}
  {resolved resolved' : List Resolved} {ko : KnowledgeObject} {ke : KnowledgeEvent}
  {pipe' : Pipeline} {actor : Text} {koid : Koid} {origin : Origin} {i : Nat}
variable {ts : Nat} {ke' : KnowledgeEvent} {security security' : SecurityDescriptor}
  {r r' : Resolved} {call call' : Call}

/-! ## The veil -/

def KnowledgeObject.bare (ko : KnowledgeObject) : KnowledgeObject :=
  { ko with properties := ∅ }

def veilVersion (k koid : Koid) (ko : KnowledgeObject) : KnowledgeObject :=
  if koid = k then ko.bare else ko

def hiddenEvent : KnowledgeEvent where
  seq := 0
  koid := Koid.zero
  version := 0
  kind := .audit
  origin := .system
  actor := []
  commitTs := 0
  payloadHash := []
  prevAuditHash := []
  auditHash := []
  signature := none
  auditSignature := none
  note := none

def Put.veil (k : Koid) : Put → Put
  | .object koid ts ko => .object koid ts (veilVersion k koid ko)
  | .event seq _ => .event seq hiddenEvent
  | .journal h => .journal { h with audit := [] }
  | .tomb koid payloadHash seq => .tomb koid (if koid = k then [] else payloadHash) seq
  | p => p

def WriteBatch.veil (k : Koid) (batch : WriteBatch) : WriteBatch :=
  ⟨batch.puts.map (Put.veil k), batch.dels⟩

def Store.veil (k : Koid) (s : Store) : Store :=
  { s with
    objects := fun koid => (s.objects koid).map fun _ ko => veilVersion k koid ko
    events := s.events.map fun _ _ => hiddenEvent
    journal := s.journal.map fun head => { head with audit := [] }
    tombs := s.tombs.map fun koid tomb => (if koid = k then [] else tomb.1, tomb.2) }

def Pipeline.veil (pipe : Pipeline) : Pipeline :=
  { pipe with audit := [], prevSig := [] }

def State.veil (k : Koid) (st : State) : State :=
  ⟨st.store.veil k, st.pipe.veil, st.hlc, st.tenants⟩

/-- Two states are the same apart from the properties of `k` and the journal. -/
def State.Twins (k : Koid) (st st' : State) : Prop :=
  st.veil k = st'.veil k

section

variable {κ β γ : Type} [Ord κ] [Std.TransOrd κ] [Std.LawfulEqOrd κ] [DecidableEq κ]

theorem map_insert (f : κ → β → γ) (m : Std.ExtTreeMap κ β) (a : κ) (v : β) :
    (m.insert a v).map f = (m.map f).insert a (f a v) := by
  refine Std.ExtTreeMap.ext_getElem? fun b => ?_
  rw [Std.ExtTreeMap.getElem?_map, getElem?_insert_eq, getElem?_insert_eq,
    Std.ExtTreeMap.getElem?_map]
  by_cases hab : a = b
  · subst hab
    rw [if_pos rfl, if_pos rfl]
    rfl
  · rw [if_neg hab, if_neg hab]

theorem map_erase (f : κ → β → γ) (m : Std.ExtTreeMap κ β) (a : κ) :
    (m.erase a).map f = (m.map f).erase a := by
  refine Std.ExtTreeMap.ext_getElem? fun b => ?_
  rw [Std.ExtTreeMap.getElem?_map, getElem?_erase_eq, getElem?_erase_eq,
    Std.ExtTreeMap.getElem?_map]
  by_cases hab : a = b
  · rw [if_pos hab, if_pos hab]
    rfl
  · rw [if_neg hab, if_neg hab]

end

theorem veil_put (k : Koid) (s : Store) (p : Put) :
    (s.put p).veil k = (s.veil k).put (p.veil k) := by
  cases p with
  | object koid ts ko =>
    refine congrArg (fun objects => ({ s.veil k with objects := objects } : Store)) ?_
    funext j
    by_cases hj : j = koid
    · subst hj
      simp only [Store.put, Store.veil, if_true, map_insert]
    · simp only [Store.put, Store.veil, if_neg hj]
  | event seq ke =>
    exact congrArg (fun events => ({ s.veil k with events := events } : Store)) (map_insert _ _ _ _)
  | tomb koid payloadHash seq =>
    exact congrArg (fun tombs => ({ s.veil k with tombs := tombs } : Store)) (map_insert _ _ _ _)
  | _ => rfl

theorem veil_del (k : Koid) (s : Store) (d : Del) : (s.del d).veil k = (s.veil k).del d := by
  cases d with
  | object koid ts =>
    refine congrArg (fun objects => ({ s.veil k with objects := objects } : Store)) ?_
    funext j
    by_cases hj : j = koid
    · simp only [Store.del, Store.veil, if_pos hj, map_erase]
    · simp only [Store.del, Store.veil, if_neg hj]
  | _ => rfl

theorem veil_writeBatch (k : Koid) (s : Store) (batch : WriteBatch) :
    (s.writeBatch batch).veil k = (s.veil k).writeBatch (batch.veil k) := by
  have hputs : ∀ (puts : List Put) (s : Store),
      (puts.foldl Store.put s).veil k = (puts.map (Put.veil k)).foldl Store.put (s.veil k) := by
    intro puts
    induction puts with
    | nil => exact fun _ => rfl
    | cons p puts ih =>
      intro s
      rw [foldl_cons, ih, veil_put, map_cons, foldl_cons]
  have hdels : ∀ (dels : List Del) (s : Store),
      (dels.foldl Store.del s).veil k = dels.foldl Store.del (s.veil k) := by
    intro dels
    induction dels with
    | nil => exact fun _ => rfl
    | cons d dels ih =>
      intro s
      rw [foldl_cons, ih, veil_del, foldl_cons]
  unfold Store.writeBatch WriteBatch.veil
  rw [hdels, hputs]

/-! ## Objects -/

def KnowledgeObject.Like (k : Koid) (ko ko' : KnowledgeObject) : Prop :=
  ∃ p, ko' = { ko with properties := p } ∧ (ko.koid ≠ k → p = ko.properties)

section

variable {k : Koid} {ko ko' : KnowledgeObject}

theorem KnowledgeObject.Like.of_bare (hbare : ko.bare = ko'.bare)
    (hother : ko.koid ≠ k → ko = ko') : ko.Like k ko' := by
  refine ⟨ko'.properties, ?_, fun hne => by rw [hother hne]⟩
  cases ko
  cases ko'
  simp only [KnowledgeObject.bare, KnowledgeObject.mk.injEq] at hbare ⊢
  tauto

theorem KnowledgeObject.Like.veil (h : ko.Like k ko') :
    veilVersion k ko.koid ko = veilVersion k ko.koid ko' := by
  obtain ⟨p, rfl, hp⟩ := h
  unfold veilVersion
  by_cases hk : ko.koid = k
  · rw [if_pos hk, if_pos hk]
    rfl
  · rw [if_neg hk, if_neg hk, hp hk]

theorem KnowledgeObject.Like.committed (h : ko.Like k ko') (seq : Nat) (kind : EventKind)
    (ts : Nat) : (ko.committed seq kind ts).Like k (ko'.committed seq kind ts) := by
  obtain ⟨p, rfl, hp⟩ := h
  exact ⟨p, rfl, hp⟩

end

/-- Two optional objects are missing both, or there both and alike. -/
def LikeHeads (k : Koid) (head head' : Option KnowledgeObject) : Prop :=
  (head = none ∧ head' = none) ∨ ∃ ko ko', head = some ko ∧ head' = some ko' ∧ ko.Like k ko'

theorem headObject_veil (k : Koid) (s : Store) (koid : Koid) :
    (s.veil k).headObject koid = (s.headObject koid).map (veilVersion k koid) := by
  unfold Store.headObject Store.getObjectVersion Store.veil
  dsimp only
  cases s.heads[koid]? with
  | none => rfl
  | some head =>
    simp only [Option.bind_some]
    exact Std.ExtTreeMap.getElem?_map

section

variable {k : Koid} {st st' : State}

section

variable (h : st.Twins k st')
include h

theorem State.Twins.heads (hkeyed : st.store.Keyed) (hkeyed' : st'.store.Keyed) (koid : Koid) :
    LikeHeads k (st.store.headObject koid) (st'.store.headObject koid) := by
  have hheads := congrArg (fun st : State => st.store.headObject koid) h
  simp only [State.veil, headObject_veil] at hheads
  cases hhead : st.store.headObject koid with
  | none =>
    rw [hhead] at hheads
    exact .inl ⟨rfl, Option.map_eq_none_iff.mp hheads.symm⟩
  | some ko =>
    rw [hhead] at hheads
    obtain ⟨ko', hhead', heq⟩ := Option.map_eq_some_iff.mp hheads.symm
    have hkoid := hkeyed koid ko hhead
    have hkoid' := hkeyed' koid ko' hhead'
    refine .inr ⟨ko, ko', rfl, hhead', .of_bare ?_ ?_⟩
    · unfold veilVersion at heq
      by_cases hk : koid = k
      · rw [if_pos hk, if_pos hk] at heq
        exact heq.symm
      · rw [if_neg hk, if_neg hk] at heq
        rw [heq]
    · intro hne
      unfold veilVersion at heq
      rw [hkoid] at hne
      rw [if_neg hne, if_neg hne] at heq
      exact heq.symm

theorem State.Twins.seen {γ : Type} (f : State → γ) (hf : ∀ st : State, f (st.veil k) = f st) :
    f st = f st' := by
  rw [← hf st, ← hf st', show st.veil k = st'.veil k from h]

theorem State.Twins.hlc : st.hlc = st'.hlc :=
  h.seen State.hlc fun _ => rfl

theorem State.Twins.tenants : st.tenants = st'.tenants :=
  h.seen State.tenants fun _ => rfl

theorem State.Twins.pipe : st.pipe.veil = st'.pipe.veil :=
  h.seen (fun st => st.pipe.veil) fun _ => rfl

end

theorem Pipeline.veil_eq_iff {pipe : Pipeline} :
    pipe.veil = pipe'.veil ↔ pipe.seq = pipe'.seq ∧ pipe.pairPin = pipe'.pairPin := by
  simp [Pipeline.veil]

end

/-! ## Versions -/

@[simp]
theorem veil_relationPuts (k koid : Koid) (rels : List RelationshipRef) :
    (relationPuts koid rels).map (Put.veil k) = relationPuts koid rels := by
  induction rels with
  | nil => rfl
  | cons rel rels ih =>
    simp only [relationPuts, flatMap_cons, map_append] at ih ⊢
    rw [ih]
    rfl

@[simp]
theorem veil_writeTypeIndex (k : Koid) (typeName : Text) (koid : Koid) :
    (writeTypeIndex typeName koid).map (Put.veil k) = writeTypeIndex typeName koid := by
  unfold writeTypeIndex
  split <;> rfl

theorem Pipeline.veil_past {pipe : Pipeline} (h : pipe.veil = pipe'.veil)
    (hseq : ke.seq = ke'.seq) : (pipe.past ke).veil = (pipe'.past ke').veil := by
  rw [Pipeline.veil_eq_iff] at h ⊢
  exact ⟨hseq, h.2⟩

theorem versionEvent_seq {C : Crypto} {prevAudit prevSig : Bytes} {seq : Nat} {kind : EventKind}
    (h : versionEvent C prevAudit prevSig seq ko kind origin actor note = .ok ke) :
    ke.seq = seq := by
  simp only [versionEvent, bind_eq_ok, pure_eq_ok] at h
  obtain ⟨_, -, rfl⟩ := h
  rfl

/-- Two batches and the pipes behind them are the same as far as they are seen. -/
def SeenAlike (k : Koid) (batch batch' : WriteBatch) (pipe pipe' : Pipeline) : Prop :=
  batch.veil k = batch'.veil k ∧ pipe.veil = pipe'.veil

section

variable {k : Koid} {C : Crypto} {st st' : State} {millis : Nat} {ko ko' : KnowledgeObject}
  {kind : EventKind} {origin : Origin} {actor : Text} {note idem : Option Text}
  {prevRels : Option (List RelationshipRef)} {usage : Option (Text × Nat)}

theorem commitVersion_twins {hlc hlc' : Nat} {ready ready' : Ready} (htwins : st.Twins k st')
    (hko : ko.Like k ko')
    (h : commitVersion C st millis ko kind origin actor note idem prevRels usage = (hlc, .ok ready))
    (h' : commitVersion C st' millis ko' kind origin actor note idem prevRels usage
      = (hlc', .ok ready')) :
    hlc = hlc' ∧ SeenAlike k ready.batch ready'.batch ready.pipe ready'.pipe := by
  obtain ⟨hseq, hpin⟩ := Pipeline.veil_eq_iff.mp htwins.pipe
  have hvalid := validate_of_commitVersion h
  have hvalid' := validate_of_commitVersion h'
  simp only [commitVersion, hvalid, Prod.mk.injEq, bind_eq_ok, pure_eq_ok] at h
  simp only [commitVersion, hvalid', Prod.mk.injEq, bind_eq_ok, pure_eq_ok, ← hpin,
    ← hseq, ← htwins.hlc] at h'
  obtain ⟨rfl, ke, hke, rfl⟩ := h
  obtain ⟨rfl, ke', hke', rfl⟩ := h'
  have hkeSeq : ke.seq = ke'.seq :=
    (versionEvent_seq hke).trans (versionEvent_seq hke').symm
  refine ⟨rfl, ?_, Pipeline.veil_past htwins.pipe hkeSeq⟩
  -- Apart from the object itself, a batch holds what the two versions share.
  obtain ⟨p, hp, hsame⟩ := hko.committed (st.pipe.seq + 1) kind
    (st.pipe.pairPin.getD (hlcNow st.hlc millis))
  rw [hp]
  have hveil := KnowledgeObject.Like.veil ⟨p, rfl, hsame⟩
  cases usage <;> cases idem <;> simpa [WriteBatch.veil, Put.veil] using hveil

/-- Two versions that are going to be committed are alike. -/
def Pending.Like (k : Koid) (p p' : Pending) : Prop :=
  p.ko.Like k p'.ko ∧ p' = { p with ko := p'.ko }

theorem chainOps_twins {pipe : Pipeline} {pending pending' : List Pending} {chain chain' : Chain}
    (hpending : Forall₂ (Pending.Like k) pending pending') (hpipe : pipe.veil = pipe'.veil)
    (h : chainOps C ts pipe pending = .ok chain) (h' : chainOps C ts pipe' pending' = .ok chain') :
    SeenAlike k chain.batch chain'.batch chain.pipe chain'.pipe ∧
      chain.results = chain'.results := by
  induction hpending generalizing pipe pipe' chain chain' with
  | nil =>
    cases h
    cases h'
    exact ⟨⟨rfl, hpipe⟩, rfl⟩
  | @cons p p' ps ps' hp hps ih =>
    obtain ⟨hseq, -⟩ := Pipeline.veil_eq_iff.mp hpipe
    simp only [chainOps, bind_eq_ok, pure_eq_ok] at h h'
    obtain ⟨_, -, ke, hke, rest, hrest, rfl⟩ := h
    obtain ⟨_, -, ke', hke', rest', hrest', rfl⟩ := h'
    have hkeSeq : ke.seq = ke'.seq := by
      rw [versionEvent_seq hke, versionEvent_seq hke', hseq]
    obtain ⟨⟨hbatch, hpipes⟩, hresults⟩ := ih (Pipeline.veil_past hpipe hkeSeq) hrest hrest'
    obtain ⟨hlike, hshared⟩ := hp
    obtain ⟨properties, hproperties, hsame⟩ := hlike.committed (pipe.seq + 1) p.kind ts
    have hveil := KnowledgeObject.Like.veil ⟨properties, rfl, hsame⟩
    rw [hshared, ← hseq]
    dsimp only
    rw [hproperties]
    simp only [WriteBatch.veil, WriteBatch.mk.injEq] at hbatch
    refine ⟨⟨?_, hpipes⟩, by rw [hresults]⟩
    simpa [WriteBatch.veil, WriteBatch.append, Put.veil, hbatch] using hveil

end

/-! ## Requests -/

def RememberRequest.Like (k koid : Koid) (req req' : RememberRequest) : Prop :=
  ∃ p, req' = { req with properties := p } ∧ (koid ≠ k → p = req.properties)

def TransactionOp.Like (k : Koid) (target target' : Koid × TransactionOp) : Prop :=
  target.1 = target'.1 ∧ target.2.context = target'.2.context ∧
    target.2.request.Like k target.1 target'.2.request

/-- Two calls ask for the same, apart from properties of `k`. -/
def Call.Twins (k : Koid) (io : Ambient) : Call → Call → Prop
  | .remember req, .remember req' => req.Like k (req.target io) req'
  | .transact ops schema txnId, .transact ops' schema' txnId' =>
    schema = schema' ∧ txnId = txnId' ∧
      Forall₂ (TransactionOp.Like k) (opTargets io 0 ops) (opTargets io 0 ops')
  | call, call' => call = call'

def Call.txnId : Call → Option Text
  | .transact _ _ txnId => txnId
  | _ => none

section

variable {k : Koid} {S : Settings} {auth auth' : AuthManager} {C : Crypto} {st st' : State}
  {io : Ambient} {koid : Koid} {head head' : Option KnowledgeObject}

theorem LikeHeads.map {γ : Type} (h : LikeHeads k head head') (f : KnowledgeObject → γ)
    (hf : ∀ (ko : KnowledgeObject) (p : PropertyMap), f { ko with properties := p } = f ko) :
    head.map f = head'.map f := by
  rcases h with ⟨rfl, rfl⟩ | ⟨ko, ko', rfl, rfl, p, rfl, -⟩
  · rfl
  · exact congrArg some (hf ko p).symm

theorem LikeHeads.isNone (h : LikeHeads k head head') : head.isNone = head'.isNone := by
  rcases h with ⟨rfl, rfl⟩ | ⟨ko, ko', rfl, rfl, -⟩ <;> rfl

section

variable (hheads : LikeHeads k head head')
include hheads

theorem settleSecurity_like {subject : Subject} {asked : Option SecurityDescriptor}
    (h : settleSecurity auth subject koid head asked = .ok security)
    (h' : settleSecurity auth' subject koid head' asked = .ok security') :
    security = security' := by
  rcases hheads with ⟨rfl, rfl⟩ | ⟨ko, ko', rfl, rfl, p, rfl, -⟩
  · rw [((settleSecurity_eq_ok h).1 rfl).1, ((settleSecurity_eq_ok h').1 rfl).1]
  · rw [((settleSecurity_eq_ok h).2 ko rfl).2, ((settleSecurity_eq_ok h').2 _ rfl).2]

theorem nextRels_like (rels : List RelationshipRef) : nextRels head rels = nextRels head' rels := by
  rcases hheads with ⟨rfl, rfl⟩ | ⟨ko, ko', rfl, rfl, p, rfl, -⟩ <;> rfl

theorem settleExtensions_like (p : PropertyMap) :
    settleExtensions { req with properties := p } head' = settleExtensions req head := by
  rcases hheads with ⟨rfl, rfl⟩ | ⟨ko, ko', rfl, rfl, q, rfl, -⟩ <;> rfl

theorem rememberedObject_like {draft draft' : Draft} (hreq : req.Like k koid req')
    (h : S.rememberDraft auth st req koid head = .ok draft)
    (h' : S.rememberDraft auth' st' req' koid head' = .ok draft') :
    (rememberedObject req koid head draft).Like k (rememberedObject req' koid head' draft') := by
  have hr := rememberDraft_eq_ok h
  have hr' := rememberDraft_eq_ok h'
  obtain ⟨p, rfl, hp⟩ := hreq
  have hsecurity := settleSecurity_like hheads hr.security hr'.security
  obtain ⟨settled, hsettled, hextensions⟩ := hr.extensions
  obtain ⟨settled', hsettled', hextensions'⟩ := hr'.extensions
  rw [settleExtensions_like hheads, hsettled] at hsettled'
  cases hsettled'
  refine ⟨draft'.properties, ?_, ?_⟩
  · unfold rememberedObject
    rw [hextensions, hextensions', hsecurity, nextRels_like hheads,
      hheads.map KnowledgeObject.version fun _ _ => rfl,
      hheads.map KnowledgeObject.eventRefs fun _ _ => rfl,
      hheads.map KnowledgeObject.lifecycle fun _ _ => rfl]
  · -- The same properties are encrypted in the same way.
    intro hne
    have hproperties := hr.properties
    have hproperties' := hr'.properties
    rw [hp hne, hproperties] at hproperties'
    exact (Except.ok.inj hproperties').symm

end

/-- Two operations were resolved to objects that are alike. -/
structure Resolved.Like (k : Koid) (r r' : Resolved) : Prop where
  op : TransactionOp.Like k (r.koid, r.op) (r'.koid, r'.op)
  head : LikeHeads k r.head r'.head
  curV : r.curV = r'.curV

theorem forall₂_corners {α α' β β' : Type} {P : α → α' → Prop} {R : α → β → Prop}
    {R' : α' → β' → Prop} {Q : β → β' → Prop} {xs : List α} {xs' : List α'} {ys : List β}
    {ys' : List β'} (hxs : Forall₂ P xs xs') (hys : Forall₂ R xs ys)
    (hys' : Forall₂ R' xs' ys')
    (h : ∀ x x' y y', P x x' → R x y → R' x' y' → Q y y') : Forall₂ Q ys ys' := by
  induction hxs generalizing ys ys' with
  | nil =>
    cases hys
    cases hys'
    exact .nil
  | cons hx _ ih =>
    cases hys with
    | cons hy hys =>
      cases hys' with
      | cons hy' hys' => exact .cons (h _ _ _ _ hx hy hy') (ih hys hys')

theorem resolveOps_forall₂ (h : resolveOps st io i ops = .ok resolved) :
    Forall₂ (fun target r => (r.koid, r.op) = target ∧ r.Against st.store)
      (opTargets io i ops) resolved := by
  rw [← resolveOps_targets h, forall₂_map_left_iff, forall₂_same]
  exact fun r hr => ⟨rfl, (resolveOps_against h).2.1 r hr⟩

theorem resolveOps_like
    (hheads : ∀ koid, LikeHeads k (st.store.headObject koid) (st'.store.headObject koid))
    (hops : Forall₂ (TransactionOp.Like k) (opTargets io i ops) (opTargets io i ops'))
    (h : resolveOps st io i ops = .ok resolved) (h' : resolveOps st' io i ops' = .ok resolved') :
    Forall₂ (Resolved.Like k) resolved resolved' := by
  refine forall₂_corners hops (resolveOps_forall₂ h) (resolveOps_forall₂ h') ?_
  rintro _ _ r r' hop ⟨rfl, hagainst⟩ ⟨rfl, hagainst'⟩
  have hkoid : r.koid = r'.koid := hop.1
  refine ⟨hop, ?_, ?_⟩
  · rw [hagainst.head, hagainst'.head, hkoid]
    exact hheads r'.koid
  · rw [hagainst.curV, hagainst'.curV, hkoid]
    exact congrArg (fun version => Option.getD version 0)
      ((hheads r'.koid).map KnowledgeObject.version fun _ _ => rfl)

theorem Resolved.Like.base (h : r.Like k r') : LikeHeads k r.base r'.base := by
  unfold Resolved.base Resolved.creating
  rw [← h.curV]
  split
  · exact .inl ⟨rfl, rfl⟩
  · exact h.head

theorem Resolved.Like.pending (h : r.Like k r')
    (hsecurity : S.opSecurity auth st resolved r = .ok security)
    (hsecurity' : S.opSecurity auth' st' resolved' r' = .ok security') :
    Pending.Like k (r.pending security) (r'.pending security') := by
  have hsettled := (opSecurity_eq_ok hsecurity).security
  have hsettled' := (opSecurity_eq_ok hsecurity').security
  obtain ⟨⟨hkoid, hcontext, p, hreq, hp⟩, hhead, hcurV⟩ := h
  have hbase := Resolved.Like.base ⟨⟨hkoid, hcontext, p, hreq, hp⟩, hhead, hcurV⟩
  dsimp only at hkoid hcontext hreq hp
  rw [← hkoid, ← hcontext, hreq] at hsettled'
  obtain rfl := settleSecurity_like hbase hsettled hsettled'
  have hko : (r'.pending security).ko = { (r.pending security).ko with properties := p } := by
    unfold Resolved.pending
    rw [hreq, ← hkoid, ← hcurV, hhead.map KnowledgeObject.eventRefs fun _ _ => rfl,
      hhead.map KnowledgeObject.lifecycle fun _ _ => rfl]
  refine ⟨⟨p, hko, hp⟩, ?_⟩
  rw [hko]
  unfold Resolved.pending Resolved.creating
  rw [hreq, ← hkoid, ← hcurV, hcontext, hhead.map KnowledgeObject.eventRefs fun _ _ => rfl,
    hhead.map KnowledgeObject.lifecycle fun _ _ => rfl,
    hhead.map KnowledgeObject.relationships fun _ _ => rfl]

theorem createdTenants_like (h : Forall₂ (Resolved.Like k) resolved resolved') :
    createdTenants resolved = createdTenants resolved' := by
  unfold createdTenants
  induction h with
  | nil => rfl
  | @cons r r' rs rs' hr _ ih =>
    obtain ⟨⟨-, -, p, hreq, -⟩, -, hcurV⟩ := hr
    have hcreating : r.creating = r'.creating := congrArg (· == 0) hcurV
    dsimp only at hreq
    rw [filter_cons, filter_cons, hcreating]
    split
    · rw [map_cons, map_cons, ih, hreq]
    · exact ih

theorem map_snd_opTargets (io : Ambient) (ops : List TransactionOp) (i : Nat) :
    (opTargets io i ops).map Prod.snd = ops := by
  induction ops generalizing i with
  | nil => rfl
  | cons op ops ih => rw [opTargets, map_cons, ih]

theorem ops_eq_of_like
    (h : Forall₂ (TransactionOp.Like k) (opTargets io i ops) (opTargets io i ops'))
    (hother : ∀ target ∈ opTargets io i ops, target.1 ≠ k) : ops = ops' := by
  have hmap : ∀ {targets targets' : List (Koid × TransactionOp)},
      Forall₂ (TransactionOp.Like k) targets targets' → (∀ t ∈ targets, t.1 ≠ k) →
      targets.map Prod.snd = targets'.map Prod.snd := by
    intro targets targets' h
    induction h with
    | nil => exact fun _ => rfl
    | @cons t t' ts ts' ht _ ih =>
      intro hother
      obtain ⟨hne, hrest⟩ := forall_mem_cons.mp hother
      obtain ⟨-, hcontext, p, hreq, hp⟩ := ht
      rw [hp hne] at hreq
      rw [map_cons, map_cons, ih hrest]
      refine congrArg (· :: _) ?_
      cases htarget : t.2
      cases htarget' : t'.2
      rw [htarget, htarget'] at hcontext hreq
      exact TransactionOp.mk.injEq .. ▸ ⟨hcontext, hreq.symm⟩
  rw [← map_snd_opTargets io ops i, ← map_snd_opTargets io ops' i]
  exact hmap h hother

end

/-! ## Calls -/

section

variable {k : Koid} {S : Settings} {auth auth' : AuthManager} {C : Crypto} {st st' : State}
  {io : Ambient} {hlc hlc' : Nat} {batch batch' : WriteBatch} {pipe pipe' : Pipeline}
  {after after' : Std.ExtTreeMap Text Nat} {reply reply' : Reply}

/-- Two batches with the pipe, the clock and the counts behind them are the same as far as
    they are seen. -/
structure StagedAlike (k : Koid) (hlc hlc' : Nat) (batch batch' : WriteBatch)
    (pipe pipe' : Pipeline) (after after' : Std.ExtTreeMap Text Nat) : Prop where
  hlc : hlc = hlc'
  seen : SeenAlike k batch batch' pipe pipe'
  tenants : after = after'

theorem stagedOf_twins {tenants : Std.ExtTreeMap Text Nat} {rep rep' : Ready → Reply}
    {ko ko' : KnowledgeObject} {kind : EventKind} {origin : Origin} {actor : Text}
    {note idem : Option Text} {prevRels : Option (List RelationshipRef)}
    {usage : Option (Text × Nat)} (htwins : st.Twins k st') (hko : ko.Like k ko')
    (h : stagedOf tenants rep (commitVersion C st io.hlcMillis ko kind origin actor note idem
      prevRels usage) = (hlc, .write batch pipe after reply))
    (h' : stagedOf tenants rep' (commitVersion C st' io.hlcMillis ko' kind origin actor note idem
      prevRels usage) = (hlc', .write batch' pipe' after' reply')) :
    StagedAlike k hlc hlc' batch batch' pipe pipe' after after' := by
  obtain ⟨ready, hready, rfl, rfl, rfl, -⟩ := stagedOf_write h
  obtain ⟨ready', hready', rfl, rfl, rfl, -⟩ := stagedOf_write h'
  obtain ⟨hhlc, hseen⟩ := commitVersion_twins htwins hko hready hready'
  exact ⟨hhlc, hseen, rfl⟩

@[simp]
theorem veil_createdRows (k : Koid) (tenants : Std.ExtTreeMap Text Nat)
    (created : List (Option Text)) :
    (createdRows tenants created).map (Put.veil k) = createdRows tenants created := by
  unfold createdRows
  rw [map_map]
  rfl

theorem transactFresh_twins {ops ops' : List TransactionOp} {schema : Option (Text × Bytes)}
    {txnId : Option Text} (htwins : st.Twins k st') (hkeyed : st.store.Keyed)
    (hkeyed' : st'.store.Keyed)
    (hops : Forall₂ (TransactionOp.Like k) (opTargets io 0 ops) (opTargets io 0 ops'))
    (hid : txnId.isSome → ∀ target ∈ opTargets io 0 ops, target.1 ≠ k)
    (h : transactFresh (S.admission auth) C st io ops schema txnId
      = (hlc, .write batch pipe after reply))
    (h' : transactFresh (S.admission auth') C st' io ops' schema txnId
      = (hlc', .write batch' pipe' after' reply')) :
    StagedAlike k hlc hlc' batch batch' pipe pipe' after after' := by
  obtain ⟨resolved, pending, chain, hprepared, hchain⟩ := transactFresh_prepared h
  obtain ⟨resolved', pending', chain', hprepared', hchain'⟩ := transactFresh_prepared h'
  simp only [transactFresh, hprepared, hchain, Prod.mk.injEq, Staged.write.injEq] at h
  simp only [transactFresh, hprepared', hchain', Prod.mk.injEq, Staged.write.injEq] at h'
  rw [← htwins.hlc] at h' hchain'
  rw [← htwins.tenants] at h'
  obtain ⟨rfl, rfl, rfl, rfl, -⟩ := h
  obtain ⟨rfl, rfl, rfl, rfl, -⟩ := h'
  obtain ⟨hresolved, hpending, -, -⟩ := prepareOps_eq_ok hprepared
  obtain ⟨hresolved', hpending', -, -⟩ := prepareOps_eq_ok hprepared'
  have hlike := resolveOps_like (fun koid => htwins.heads hkeyed hkeyed' koid) hops hresolved
    hresolved'
  have hversions : Forall₂ (Pending.Like k) pending pending' := by
    refine forall₂_corners hlike hpending hpending' ?_
    rintro r r' _ _ hr ⟨security, hsecurity, rfl⟩ ⟨security', hsecurity', rfl⟩
    exact hr.pending hsecurity hsecurity'
  obtain ⟨⟨hbatch, hpipe⟩, hresults⟩ := chainOps_twins hversions htwins.pipe hchain hchain'
  have hseq := (Pipeline.veil_eq_iff.mp hpipe).1
  have hcreated := createdTenants_like hlike
  unfold createdTenants at hcreated
  rw [← hcreated]
  refine ⟨rfl, ⟨?_, hpipe⟩, rfl⟩
  simp only [WriteBatch.veil, WriteBatch.mk.injEq] at hbatch
  -- The row of a transaction holds a hash of its operations, which are then the same.
  have hbody : txnId.isSome → txnBodyFingerprint C ops = txnBodyFingerprint C ops' :=
    fun hsome => by rw [ops_eq_of_like hops (hid hsome)]
  cases txnId with
  | none => cases schema <;> simp [WriteBatch.veil, WriteBatch.append, Put.veil, hbatch, hseq]
  | some id =>
    have hbody := hbody rfl
    cases schema <;>
      simp [WriteBatch.veil, WriteBatch.append, Put.veil, hbatch, hseq, hbody, hresults]

theorem State.Twins.keys (h : st.Twins k st') (koid : Koid) :
    (st.store.objects koid).keys = (st'.store.objects koid).keys := by
  refine h.seen (fun st => (st.store.objects koid).keys) fun st => ?_
  exact Std.ExtTreeMap.keys_map

theorem eraseEvent_payloadHash {head : KnowledgeObject}
    (h : eraseEvent C st head koid ts actor note = .ok ke) :
    ke.payloadHash = C.sha256.digest (encodeKo head) := by
  simp only [eraseEvent, bind_eq_ok, pure_eq_ok] at h
  obtain ⟨_, -, rfl⟩ := h
  rfl

theorem eraseBatch_twins {head head' : KnowledgeObject} (htwins : st.Twins k st')
    (hhead : head.Like k head') (hkoid : head.koid = koid) (hseq : ke.seq = ke'.seq)
    (h : eraseEvent C st head koid ts actor note = .ok ke)
    (h' : eraseEvent C st' head' koid ts actor note = .ok ke') :
    (eraseBatch st head koid ke ts).veil k = (eraseBatch st' head' koid ke' ts).veil k := by
  -- The hash in the tombstone of another object is that of the same version.
  have hhidden : (if koid = k then [] else ke.payloadHash)
      = if koid = k then [] else ke'.payloadHash := by
    split
    · rfl
    · next hne =>
        obtain ⟨p, rfl, hp⟩ := hhead
        rw [eraseEvent_payloadHash h, eraseEvent_payloadHash h', hp (hkoid ▸ hne)]
  obtain ⟨p, rfl, -⟩ := hhead
  simp [eraseBatch, WriteBatch.veil, Put.veil, hseq, hhidden, htwins.tenants, htwins.keys]

theorem stage_twins (htwins : st.Twins k st') (hkeyed : st.store.Keyed)
    (hkeyed' : st'.store.Keyed) (hcalls : call.Twins k io call')
    (hid : call.txnId ≠ none → ∀ target ∈ call.targets io, target.1 ≠ k)
    (h : stage (S.admission auth) C st io call = (hlc, .write batch pipe after reply))
    (h' : stage (S.admission auth') C st' io call' = (hlc', .write batch' pipe' after' reply')) :
    StagedAlike k hlc hlc' batch batch' pipe pipe' after after' := by
  have hheads := htwins.heads hkeyed hkeyed'
  have hlike : ∀ {koid head head'}, st.store.headObject koid = some head →
      st'.store.headObject koid = some head' → head.Like k head' := by
    intro koid head head' hhead hhead'
    simpa [LikeHeads, hhead, hhead'] using hheads koid
  have hseq := (Pipeline.veil_eq_iff.mp htwins.pipe).1
  have hb := stage_batched h
  have hb' := stage_batched h'
  clear h h'
  cases hb with
  | @remember req head _ _ _ _ _ _ _ _ _ hhead _ _ hdraft hstaged =>
    cases hb' with
    | @remember req' head' _ _ _ _ _ _ _ _ _ hhead' _ _ hdraft' hstaged' =>
      have htarget : req'.target io = req.target io := by
        obtain ⟨p, rfl, -⟩ := hcalls
        rfl
      rw [htarget] at hhead' hdraft' hstaged'
      have hheads := hheads (req.target io)
      rw [hhead, hhead'] at hheads
      have hko := rememberedObject_like hheads hcalls hdraft hdraft'
      -- What is read from the two heads besides the version is the same.
      obtain ⟨p, rfl, -⟩ := hcalls
      rw [← hheads.isNone, ← htwins.tenants,
        ← hheads.map KnowledgeObject.relationships fun _ _ => rfl] at hstaged'
      exact stagedOf_twins htwins hko hstaged hstaged'
    | _ => cases hcalls
  | schema row =>
    cases hb' with
    | schema row' =>
      obtain ⟨hrow, -, -⟩ := hcalls
      cases hrow
      exact ⟨htwins.hlc, ⟨rfl, htwins.pipe⟩, htwins.tenants⟩
    | @transact ops' _ _ _ _ _ _ _ hbody =>
      obtain ⟨-, rfl, hops⟩ := hcalls
      refine absurd ⟨?_, rfl⟩ hbody
      rw [← map_snd_opTargets io ops' 0, forall₂_nil_left_iff.mp hops]
      rfl
    | _ => cases hcalls
  | @transact ops _ _ _ _ _ _ _ hbody hfresh =>
    cases hb' with
    | transact hbody' hfresh' =>
      obtain ⟨rfl, rfl, hops⟩ := hcalls
      refine transactFresh_twins htwins hkeyed hkeyed' hops ?_ hfresh hfresh'
      intro hsome target htarget
      exact hid (Option.isSome_iff_ne_none.mp hsome) _ (mem_map_of_mem htarget)
    | schema row' =>
      obtain ⟨-, rfl, hops⟩ := hcalls
      refine absurd ⟨?_, rfl⟩ hbody
      rw [← map_snd_opTargets io ops 0, forall₂_nil_right_iff.mp hops]
      rfl
    | _ => cases hcalls
  | evolve hhead _ _ hstaged =>
    obtain rfl : _ = call' := by cases call' <;> exact hcalls
    cases hb' with
    | evolve hhead' _ _ hstaged' =>
      obtain ⟨p, rfl, hp⟩ := hlike hhead hhead'
      rw [← htwins.tenants] at hstaged'
      refine stagedOf_twins htwins ?_ hstaged hstaged'
      exact ⟨p, rfl, hp⟩
  | tombstone hhead _ hstaged =>
    obtain rfl : _ = call' := by cases call' <;> exact hcalls
    cases hb' with
    | tombstone hhead' _ hstaged' =>
      obtain ⟨p, rfl, hp⟩ := hlike hhead hhead'
      rw [← htwins.tenants] at hstaged'
      refine stagedOf_twins htwins ?_ hstaged hstaged'
      exact ⟨p, rfl, hp⟩
  | @erase _ koid _ _ head ke _ hhead _ hke =>
    obtain rfl : _ = call' := by cases call' <;> exact hcalls
    cases hb' with
    | @erase _ _ _ _ head' ke' _ hhead' _ hke' =>
      have hhead' := hlike hhead hhead'
      have hkeSeq : ke.seq = ke'.seq := by
        rw [(eraseEvent_follows hke).1.seq, (eraseEvent_follows hke').1.seq, hseq]
      rw [← htwins.hlc] at hke' ⊢
      refine ⟨rfl, ⟨?_, Pipeline.veil_past htwins.pipe hkeSeq⟩, ?_⟩
      · exact eraseBatch_twins htwins hhead' (hkeyed koid head hhead) hkeSeq hke hke'
      · obtain ⟨p, rfl, -⟩ := hhead'
        rw [htwins.tenants]
  | @recordAudit _ ke _ hke =>
    obtain rfl : _ = call' := by cases call' <;> exact hcalls
    cases hb' with
    | @recordAudit _ ke' _ hke' =>
      have hkeSeq : ke.seq = ke'.seq := by
        rw [(auditEvent_follows hke).1.seq, (auditEvent_follows hke').1.seq, hseq]
      rw [← htwins.hlc, ← htwins.tenants]
      refine ⟨rfl, ⟨?_, Pipeline.veil_past htwins.pipe hkeSeq⟩, rfl⟩
      simp [auditBatch, WriteBatch.veil, Put.veil, hkeSeq]

/-- Two calls end in the same way: both with a batch or both without, and with the same
    time on the clock. -/
def SameEnd (staged staged' : Nat × Staged) : Prop :=
  staged.1 = staged'.1 ∧ staged.2.isWrite = staged'.2.isWrite
  deriving Decidable

theorem State.twins_iff :
    st.Twins k st' ↔ st.store.veil k = st'.store.veil k ∧ st.pipe.veil = st'.pipe.veil ∧
      st.hlc = st'.hlc ∧ st.tenants = st'.tenants := by
  unfold State.Twins State.veil
  rw [State.mk.injEq]

theorem step_twins (taken : Bool) (htwins : st.Twins k st') (hkeyed : st.store.Keyed)
    (hkeyed' : st'.store.Keyed) (hcalls : call.Twins k io call')
    (hid : taken = true → (stage (S.admission auth) C st io call).2.isWrite = true →
      call.txnId ≠ none → ∀ target ∈ call.targets io, target.1 ≠ k)
    (hsame : SameEnd (stage (S.admission auth) C st io call)
      (stage (S.admission auth') C st' io call')) :
    (step (S.admission auth) C st io call taken).1.Twins k
      (step (S.admission auth') C st' io call' taken).1 := by
  obtain ⟨hstore, hpipe, -, htenants⟩ := State.twins_iff.mp htwins
  rcases hstage : stage (S.admission auth) C st io call with ⟨hlc, staged⟩
  rcases hstage' : stage (S.admission auth') C st' io call' with ⟨hlc', staged'⟩
  rw [hstage, hstage'] at hsame
  obtain ⟨rfl, hwrite⟩ := hsame
  unfold step
  rw [hstage, hstage']
  dsimp only
  cases staged with
  | done reply =>
    cases staged' with
    | done reply' => exact State.twins_iff.mpr ⟨hstore, hpipe, rfl, htenants⟩
    | write => cases hwrite
  | write batch pipe after reply =>
    cases staged' with
    | done reply' => cases hwrite
    | write batch' pipe' after' reply' =>
      cases taken with
      | false => exact State.twins_iff.mpr ⟨hstore, hpipe, rfl, htenants⟩
      | true =>
        have halike := stage_twins htwins hkeyed hkeyed' hcalls
          (hid rfl (by rw [hstage]; rfl)) hstage hstage'
        refine State.twins_iff.mpr ⟨?_, halike.seen.2, rfl, halike.tenants⟩
        change (st.store.writeBatch batch).veil k = (st'.store.writeBatch batch').veil k
        rw [veil_writeBatch, veil_writeBatch, hstore, halike.seen.1]

end

end Aikoql.Kernel
