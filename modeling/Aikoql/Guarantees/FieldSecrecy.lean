import Aikoql.Kernel.FieldEncryption
import Aikoql.Security.Loading
import Aikoql.Security.SealedFields

/-!
# Encrypted Fields Stay Encrypted

No stored version has the plain value of a field of a policy, and a read returns the value
that was written.

This does not hold for every run. `transact` stores what it is given. A value that is
bytes and starts with the marker of a ciphertext is stored as it is, and a read tries to
decrypt it. The key is that of the tenant in the context of the request, while a read and
a roll go by the tenant of the object. A list of too many or too long items is cut. A
provider of the second algorithm makes ciphertexts that are not recognised. A roll whose
key rows were refused leaves new keys in memory, and the next roll forgets the ones before.

Without these the keys of a tenant are its current one and the one before, every stored
version is sealed under them, and every head seals what was last written to its object.

## Main definitions

* `Kept`: Every stored version is sealed under the keys of its tenant.
* `Proper`: The steps that keep it so.

## Main theorems

* `Kept.call`: A call that is admitted keeps everything sealed.
* `fields_sealed`: Stored and read fields in every run of such steps.
* `FieldSecrecy.fields_exposed`: Plain values in stored versions, and values misread.
* `FieldSecrecy.value_framed`: Which values are read back from their frame.
* `FieldSecrecy.item_lost`: A list that is too long for its count.
-/

namespace Aikoql

open List Option Std.ExtTreeMap

variable {batch : WriteBatch} {pipe : Pipeline} {targets : List (Koid × RememberRequest)}
  {algorithm : Algorithm} {steps : List VaultEvent}

namespace Security

/-! ## Keys -/

def Envelope.Holds (e : Envelope) (tenant : Kernel.Text) (dek : Key) : Prop :=
  e.deks[tenant]? = some dek ∨ e.prevDeks[tenant]? = some dek

/-- Every key that was held is held. -/
def Envelope.Within (e e' : Envelope) : Prop :=
  ∀ tenant dek, e.Holds tenant dek → e'.Holds tenant dek

variable {e : Envelope}

theorem Envelope.Within.refl (e : Envelope) : e.Within e := fun _ _ h => h

theorem Envelope.deks_tenantKey (e : Envelope) (tenant : Kernel.Text) (random : Key) :
    (e.tenantKey tenant random).1.deks[tenant]? = some (e.tenantKey tenant random).2 := by
  unfold Envelope.tenantKey
  cases hdek : e.deks[tenant]? with
  | none => simp
  | some dek => exact hdek

theorem Envelope.prevDeks_tenantKey (e : Envelope) (tenant : Kernel.Text) (random : Key) :
    (e.tenantKey tenant random).1.prevDeks = e.prevDeks := by
  unfold Envelope.tenantKey
  cases e.deks[tenant]? <;> rfl

theorem Envelope.within_tenantKey (e : Envelope) (tenant : Kernel.Text) (random : Key) :
    e.Within (e.tenantKey tenant random).1 := by
  rintro t dek (hdek | hprev)
  · left
    unfold Envelope.tenantKey
    cases hold : e.deks[tenant]? with
    | some _ => exact hdek
    | none =>
      have hne : tenant ≠ t := by
        rintro rfl
        rw [hold] at hdek
        cases hdek
      rw [getElem?_insert_eq, if_neg hne]
      exact hdek
  · right
    rw [Envelope.prevDeks_tenantKey]
    exact hprev

theorem Envelope.within_rollDeks (hroom : e.prevDeks.isEmpty = true)
    (random : Kernel.Text → Key) : e.Within (e.rollDeks random).1 := by
  have hempty : e.prevDeks = ∅ := Std.ExtTreeMap.isEmpty_iff.mp hroom
  rintro t dek (hdek | hprev)
  · right
    rw [Envelope.rollDeks_prevDeks hempty]
    exact hdek
  · simp [hempty] at hprev

/-! ## Fields under the keys of a tenant -/

section

variable {F : FieldCrypto} {policy : EncryptionPolicy} {random : Key} {nonces : Kernel.Text → Nonce}
  {tenant : Kernel.Text} {props : Kernel.PropertyMap}

theorem encryptFields_holds (e : Envelope) (random : Key) (nonces : Kernel.Text → Nonce)
    (tenant : Kernel.Text)
    (hplain : ∀ field ∈ policy.fields, ∀ value, props[field]? = some value →
      isEncrypted value = false ∧ fits F.utf8 value = true) :
    let done := F.encryptFields e random nonces tenant props policy
    e.Within done.1 ∧ Seals F (done.1.Holds tenant) policy.fields props done.2.1 := by
  unfold FieldCrypto.encryptFields
  by_cases hempty : policy.fields.isEmpty = true
  · rw [if_pos hempty, List.isEmpty_iff.mp hempty]
    exact ⟨.refl e, .nil props⟩
  · rw [if_neg hempty]
    exact ⟨e.within_tenantKey tenant random,
      encryptFields_seals policy.nodup (.inl (e.deks_tenantKey tenant random)) hplain⟩

theorem reencryptFields_holds (random : Key) (nonces : Kernel.Text → Nonce)
    (hideal : F.provider.aead.Ideal) {written : Kernel.PropertyMap}
    (hseals : Seals F (e.Holds tenant) policy.fields written props) :
    let done := F.reencryptFields e random nonces tenant props policy
    e.Within done.1 ∧ ∀ stored, done.2 = .ok stored →
      Seals F (done.1.Holds tenant) policy.fields written stored.1 := by
  unfold FieldCrypto.reencryptFields
  by_cases hempty : policy.fields.isEmpty = true
  · rw [if_pos hempty]
    refine ⟨.refl e, ?_⟩
    rintro stored ⟨⟩
    exact hseals
  · rw [if_neg hempty]
    cases hprev : e.prevDeks[tenant]? with
    | none =>
      refine ⟨.refl e, ?_⟩
      rintro stored ⟨⟩
      exact hseals
    | some prev =>
      have hwithin := e.within_tenantKey tenant random
      refine ⟨hwithin, fun stored hstored => ?_⟩
      exact reencryptFields_seals hideal (.inl (e.deks_tenantKey tenant random))
        (hseals.mono fun _ _ _ _ dek => hwithin tenant dek) hstored

theorem decryptFields_holds (random : Key) (hideal : F.provider.aead.Ideal)
    (halgorithm : F.provider.algorithm = .aes256Gcm) {written : Kernel.PropertyMap}
    (hseals : Seals F (e.Holds tenant) policy.fields written props) :
    ∃ n, (F.decryptFields e random tenant props policy).2 = .ok (written, n) := by
  unfold FieldCrypto.decryptFields
  by_cases hempty : policy.fields.isEmpty = true
  · rw [List.isEmpty_iff.mp hempty] at hseals
    have hsame : props = written := Std.ExtTreeMap.ext_getElem? fun field =>
      (hseals field).2 (by simp)
    rw [if_pos hempty, hsame]
    exact ⟨0, rfl⟩
  · rw [if_neg hempty]
    refine decryptFields_seals hideal halgorithm ?_ policy.nodup
      (hseals.mono fun _ _ _ _ dek => e.within_tenantKey tenant random tenant dek) 0
    -- A key of the tenant is the one that is asked for first, or the one before.
    rintro old (hdek | hprev)
    · rw [e.deks_tenantKey tenant random] at hdek
      exact .inl (Option.some.inj hdek).symm
    · exact .inr hprev

theorem within_decryptFields (F : FieldCrypto) (e : Envelope) (random : Key) (tenant : Kernel.Text)
    (props : Kernel.PropertyMap) (policy : EncryptionPolicy) :
    e.Within (F.decryptFields e random tenant props policy).1 := by
  unfold FieldCrypto.decryptFields
  split
  · exact .refl e
  · exact e.within_tenantKey tenant random

end

end Security

namespace Kernel

open Security

variable {written : Std.ExtTreeMap Koid PropertyMap} {ko : KnowledgeObject} {v : Vault}
  {w : PropertyMap} {koid : Koid} {t : Turn}

/-! ## Versions -/

def Fields.fieldsOf (fs : Fields) (typeName : Text) : List Text :=
  ((fs.policies[typeName]?).map EncryptionPolicy.fields).getD []

/-- A version seals properties under the keys of its tenant. -/
def Fields.Hides (fs : Fields) (e : Envelope) (written : PropertyMap) (ko : KnowledgeObject) :
    Prop :=
  Seals fs.crypto (e.Holds (tenantName ko.metadata.tenant)) (fs.fieldsOf ko.metadata.typeName)
    written ko.properties

/-- All versions seal properties, and the head of an object those that were last written. -/
structure Kept (fs : Fields) (e : Envelope) (written : Std.ExtTreeMap Koid PropertyMap)
    (s : Store) : Prop where
  coherent : s.Coherent
  versions : ∀ (koid : Koid) (ts : Nat) (ko : KnowledgeObject),
    (s.objects koid)[ts]? = some ko → ∃ w, fs.Hides e w ko
  heads : ∀ (koid : Koid) (ko : KnowledgeObject), s.headObject koid = some ko →
    ∃ w, written[koid]? = some w ∧ fs.Hides e w ko

section

variable {fs : Fields} {e e' : Envelope} {written written' : Std.ExtTreeMap Koid PropertyMap}
  {s : Store}

theorem Fields.Hides.mono (h : fs.Hides e w ko) (hwithin : e.Within e') : fs.Hides e' w ko :=
  Seals.mono h fun _ _ _ _ dek => hwithin _ dek

theorem Kept.mono (h : Kept fs e written s) (hwithin : e.Within e') : Kept fs e' written s where
  coherent := h.coherent
  versions koid ts ko hko := by
    obtain ⟨w, hw⟩ := h.versions koid ts ko hko
    exact ⟨w, hw.mono hwithin⟩
  heads koid ko hko := by
    obtain ⟨w, hwritten, hw⟩ := h.heads koid ko hko
    exact ⟨w, hwritten, hw.mono hwithin⟩

theorem Kept.described {H : Storage.Sha256} {st : State} {ts : Nat} {change : Change}
    (h : Kept fs e written st.store) (hd : Describes H st ts batch pipe change)
    (hwithin : e.Within e')
    (hcommits : ∀ c ∈ change.commits, ∃ w, written'[c.ko.koid]? = some w ∧ fs.Hides e' w c.ko)
    (hothers : ∀ koid, (∀ c ∈ change.commits, c.ko.koid ≠ koid) →
      written'[koid]? = written[koid]?) :
    Kept fs e' written' (st.store.writeBatch batch) := by
  have h' := h.mono hwithin
  refine ⟨hd.coherent h.coherent, ?_, ?_⟩
  · intro koid ts' ko hko
    rcases hd.version_cases hko with ⟨c, hc, rfl, rfl, -⟩ | hold
    · obtain ⟨w, -, hw⟩ := hcommits c hc
      exact ⟨w, hw⟩
    · exact h'.versions koid ts' ko hold
  · intro koid ko hko
    rcases hd.headObject_cases hko with ⟨c, hc, rfl, rfl⟩ | ⟨hcommitted, -, hhead⟩
    · exact hcommits c hc
    · rw [hothers koid hcommitted]
      exact h'.heads koid ko hhead

end

/-! ## Calls -/

/-- The fields of a request that are encrypted can be: they are not taken to be encrypted already,
    they fit, and the tenant of the context is that of the object. -/
def Fields.Admits (fs : Fields) (req : RememberRequest) : Prop :=
  ∀ field ∈ fs.fieldsOf req.metadata.typeName, ∀ value ∈ req.properties[field]?,
    (isEncrypted value = false ∧ fits fs.crypto.utf8 value = true) ∧
      tenantName req.context.tenant = tenantName req.metadata.tenant

/-- A request has no field that would have to be encrypted. -/
def Fields.Spares (fs : Fields) (req : RememberRequest) : Prop :=
  ∀ field ∈ fs.fieldsOf req.metadata.typeName, req.properties[field]?.isNone = true

def Fields.AdmitsCall (fs : Fields) : Call → Prop
  | .remember req => fs.Admits req
  | .transact ops _ _ => ∀ op ∈ ops, fs.Spares op.request
  | _ => True

instance (fs : Fields) (req : RememberRequest) : Decidable (fs.Admits req) :=
  inferInstanceAs (Decidable (∀ _ ∈ _, _))

instance (fs : Fields) (call : Call) : Decidable (fs.AdmitsCall call) :=
  match call with
  | .remember req => inferInstanceAs (Decidable (fs.Admits req))
  | .transact ops _ _ =>
    inferInstanceAs (Decidable (∀ op ∈ ops, ∀ _ ∈ _, _))
  | .evolve _ _ _ _ _ _ => inferInstanceAs (Decidable True)
  | .forget _ _ _ _ _ => inferInstanceAs (Decidable True)
  | .recordAudit _ => inferInstanceAs (Decidable True)

section

variable {fs : Fields} {S : Settings} {C : Crypto} {e : Envelope} {d : Draws} {auth : AuthManager}
  {st : State} {io : Ambient} {req : RememberRequest}

theorem rememberDraft_plain {head : Option KnowledgeObject} {draft : Draft}
    (h : (fs.settings S e d).rememberDraft auth st req koid head = .ok draft) :
    (({ S with encrypt := fun _ _ props => .ok props } : Settings).rememberDraft auth st req koid
      head).isOk = true := by
  simp only [Settings.rememberDraft, Fields.settings, bind_eq_ok, pure_eq_ok] at h
  obtain ⟨settled, hsettled, security, hsecurity, _, htargets, _, hvalid, _, hunique, _, hontology,
    _, hquota, -⟩ := h
  simp only [Settings.rememberDraft, hsettled, hsecurity, htargets, hvalid, hunique, hontology,
    hquota, ok_bind]
  rfl

theorem remember_reaches {hlc : Nat} {after : Std.ExtTreeMap Text Nat} {reply : Reply}
    (h : remember ((fs.settings S e d).admission auth) C st io req
      = (hlc, .write batch pipe after reply)) :
    S.reachesEncryption auth st io req = true := by
  have hbatched := @stage_batched _ _ _ _ (.remember req) _ _ _ _ _ h
  cases hbatched with
  | remember hkeys hidem hhead hfound hversion hdraft =>
    subst hhead
    simp only [Settings.reachesEncryption, Bool.and_eq_true]
    refine ⟨⟨⟨⟨?_, ?_⟩, ?_⟩, ?_⟩, rememberDraft_plain hdraft⟩
    · exact isNone_iff_eq_none.mpr hkeys
    · exact isNone_iff_eq_none.mpr hidem
    · rw [Bool.not_eq_true', Bool.eq_false_iff]
      intro hno
      simp only [Bool.and_eq_true] at hno
      exact hfound ⟨hno.1.1, hno.1.2, hno.2⟩
    · exact congrArg Except.isOk hversion

theorem Vault.within_keysBehind (fs : Fields) (S : Settings) (v : Vault) (t : Turn) (d : Draws) :
    v.env.Within (v.keysBehind fs S t d).1 := by
  unfold Vault.keysBehind
  split
  · split
    · split
      · exact .refl _
      · unfold FieldCrypto.encryptFields
        split
        · exact .refl _
        · exact Envelope.within_tenantKey _ _ _
    · exact .refl _
  · exact .refl _

theorem Fields.Admits.hides (hadmits : fs.Admits req) (hcall : t.call = .remember req)
    (hreaches : S.reachesEncryption v.kernel.auth v.kernel.st t.io req = true)
    {stored : PropertyMap}
    (h : fs.encrypt v.env d req.context.tenant req.metadata.typeName req.properties = .ok stored) :
    Seals fs.crypto ((v.keysBehind fs S t d).1.Holds (tenantName req.metadata.tenant))
      (fs.fieldsOf req.metadata.typeName) req.properties stored := by
  unfold Fields.Admits at hadmits
  unfold Fields.encrypt at h
  simp only [Vault.keysBehind, hcall, hreaches, if_true]
  cases hpolicy : fs.policies[req.metadata.typeName]? with
  | none =>
    simp only [hpolicy, Except.ok.injEq] at h
    simp only [Fields.fieldsOf, hpolicy, map_none, getD_none, ← h]
    exact .nil _
  | some policy =>
    simp only [Fields.fieldsOf, hpolicy, map_some, getD_some] at hadmits h ⊢
    split at h
    · cases h
    · cases h
      have hseals := (encryptFields_holds v.env d.random d.nonces (tenantName req.context.tenant)
        fun field hfield value hvalue => (hadmits field hfield value hvalue).1).2
      -- If there is a field at all then its tenant is that of the object.
      refine hseals.mono fun field hfield value hvalue dek hdek => ?_
      rw [← (hadmits field hfield value hvalue).2]
      exact hdek

theorem getElem?_recordWritten {target : Koid × RememberRequest}
    (hnodup : (targets.map Prod.fst).Nodup) (htarget : target ∈ targets) :
    (recordWritten written targets)[target.1]? = some target.2.properties := by
  unfold recordWritten
  rw [getElem?_foldl_insert_agree Prod.fst (fun target => target.2.properties) targets written
    target.1 target.2.properties, if_pos ⟨target, htarget, rfl⟩]
  intro other hother heq
  rw [inj_on_of_nodup_map hnodup hother htarget heq]

theorem getElem?_recordWritten_other (hkoid : ∀ target ∈ targets, target.1 ≠ koid) :
    (recordWritten written targets)[koid]? = written[koid]? := by
  unfold recordWritten
  rw [getElem?_foldl_insert_agree Prod.fst (fun target => target.2.properties) targets written
    koid ∅ fun target htarget heq => absurd heq (hkoid target htarget), if_neg]
  rintro ⟨target, htarget, heq⟩
  exact hkoid target htarget heq

theorem Fields.Spares.seals {keys : Key → Prop} (h : fs.Spares req) :
    Seals fs.crypto keys (fs.fieldsOf req.metadata.typeName) req.properties req.properties := by
  intro field
  refine ⟨fun hfield => .inl ?_, fun _ => rfl⟩
  have hnone := isNone_iff_eq_none.mp (h field hfield)
  exact ⟨hnone, hnone⟩

theorem prepareOps_nodup {A : Admission} {ops : List TransactionOp} {resolved : List Resolved}
    {pending : List Pending} (h : prepareOps A st io ops = .ok (resolved, pending))
    (schema : Option (Text × Bytes)) (txnId : Option Text) :
    (((Call.transact ops schema txnId).targets io).map Prod.fst).Nodup := by
  obtain ⟨hresolved, -, hnodup, -⟩ := prepareOps_eq_ok h
  rw [Call.targets, ← resolveOps_targets hresolved]
  simpa only [List.map_map, Function.comp_def] using hnodup

theorem Staging.hides {v : Vault} {t : Turn} {o : Outcome}
    (hkept : Kept fs v.env v.written v.kernel.st.store) (hadmits : fs.AdmitsCall t.call)
    (h : Staging ((fs.settings S v.env d).admission v.kernel.auth) v.kernel.st t.io t.call o)
    (hreaches : ∀ req, t.call = .remember req →
      S.reachesEncryption v.kernel.auth v.kernel.st t.io req = true)
    {ko : KnowledgeObject} (hko : ko ∈ o.kos) :
    ∃ w, (recordWritten v.written (t.call.targets t.io))[ko.koid]? = some w ∧
      fs.Hides (v.keysBehind fs S t d).1 w ko := by
  have hwithin := v.within_keysBehind fs S t d
  by_cases hcall : t.call.isRequest = true
  · obtain ⟨io, call, taken⟩ := t
    cases h with
    | @remember req draft hkeys hversion hdraft =>
      obtain rfl := mem_singleton.mp hko
      refine ⟨req.properties, ?_, ?_⟩
      · exact getElem?_recordWritten (by simp) (mem_singleton_self (req.target io, req))
      · exact Fields.Admits.hides hadmits rfl (hreaches req rfl)
          (rememberDraft_eq_ok hdraft).properties
    | @transact ops schema txnId resolved pending hprepared =>
      obtain ⟨p, hp, rfl⟩ := List.mem_map.mp hko
      obtain ⟨target, htarget, r, -, rfl, hagainst, security, -, rfl⟩ :=
        exists_of_forall₂ (prepareOps_targets hprepared) hp
      refine ⟨r.op.request.properties, ?_, ?_⟩
      · exact getElem?_recordWritten (prepareOps_nodup hprepared schema txnId)
          (List.mem_map_of_mem htarget)
      · exact (hadmits r.op (mem_opTargets htarget)).seals
    | schema row => cases hko
    | _ => cases hcall
  · -- The call acts on a head, whose fields are as they were written.
    rcases h.asked_cases hkept.coherent hko with ⟨hrequest, -⟩ | ⟨head, hacts⟩
    · exact absurd hrequest hcall
    · obtain ⟨w, hwritten, hw⟩ := hkept.heads ko.koid head hacts.head
      have hnone : t.call.targets t.io = [] := by
        cases hcase : t.call <;> simp_all [Call.isRequest, Call.targets]
      refine ⟨w, by rw [hnone]; exact hwritten, ?_⟩
      unfold Fields.Hides
      rw [hacts.metadata, hacts.properties]
      exact hw.mono hwithin

theorem Staging.targets_other {A : Admission} {call : Call} {o : Outcome}
    (h : Staging A st io call o) (hkoid : ∀ ko ∈ o.kos, ko.koid ≠ koid) :
    ∀ target ∈ call.targets io, target.1 ≠ koid := by
  intro target htarget heq
  by_cases hcall : call.isRequest = true
  · obtain ⟨ko, hko, hrequested⟩ := exists_right_of_forall₂ (h.requested hcall) htarget
    exact hkoid ko hko (hrequested.koid.trans heq)
  · cases call <;> simp_all [Call.isRequest, Call.targets]

/-- A call that is admitted keeps everything sealed. -/
theorem Kept.call (hkept : Kept fs v.env v.written v.kernel.st.store)
    (hadmits : fs.AdmitsCall t.call) : Kept fs (v.call fs S C t d).env (v.call fs S C t d).written
      (v.call fs S C t d).kernel.st.store := by
  have hwithin := v.within_keysBehind fs S t d
  by_cases hwrites : v.kernel.writes (fs.settings S v.env d) C t = true
  · obtain ⟨hlc, batch, pipe, tenants, reply, ts, change, o, hstage, hstep, hc⟩ :=
      Guarded.step_written hkept.coherent.keyed hwrites
    have hreaches : ∀ req, t.call = .remember req →
        S.reachesEncryption v.kernel.auth v.kernel.st t.io req = true := by
      intro req hreq
      rw [hreq] at hstage
      exact remember_reaches hstage
    simp only [Vault.call, hwrites, if_true, hstep]
    refine hkept.described hc.described.1 hwithin ?_ ?_
    · intro c hcommit
      obtain ⟨ko, hko, seq, kind, hmade⟩ := hc.made.exists_object hcommit
      obtain ⟨w, hwritten, hw⟩ := hc.staging.hides hkept hadmits hreaches hko
      rw [hmade]
      exact ⟨w, hwritten, hw⟩
    · intro koid hothers
      refine getElem?_recordWritten_other (hc.staging.targets_other fun ko hko heq => ?_)
      obtain ⟨c, hcommit, seq, kind, hmade⟩ := hc.made.exists_commit hko
      exact hothers c hcommit (by rw [hmade]; exact heq)
  · rcases Guarded.step_outcome (fs.settings S v.env d) C hkept.coherent.keyed t with
      ⟨-, hlc, hstep⟩ | ⟨_, _, _, _, _, _, _, _, hwrites', -⟩
    · simp only [Vault.call, hwrites, hstep]
      exact hkept.mono hwithin
    · exact absurd hwrites' hwrites

/-! ## Rolls -/

/-- Nothing but one object changes. -/
def SameApart (koid : Koid) (s s' : Store) : Prop :=
  ∀ other, other ≠ koid → s'.heads[other]? = s.heads[other]?

theorem Kept.reencrypted {props : PropertyMap} (hkept : Kept fs e written st.store)
    (hhead : st.store.headObject koid = some ko) (hwritten : written[koid]? = some w)
    (hw : fs.Hides e w (reencryptedObject ko props)) (c : Chance) :
    let staged := stageReencrypted C st c.millis ko props
    let finished := finish { st with hlc := staged.1 } staged.2 c.taken
    Kept fs e written finished.1.store ∧ SameApart koid st.store finished.1.store := by
  intro staged finished
  rcases hstaged : stageReencrypted C st c.millis ko props with ⟨hlc, outcome⟩
  have hunchanged : finished.1.store = st.store → Kept fs e written finished.1.store ∧
      SameApart koid st.store finished.1.store := by
    intro hsame
    rw [hsame]
    exact ⟨hkept, fun _ _ => rfl⟩
  cases outcome with
  | done reply => exact hunchanged (by simp [finished, staged, hstaged, finish])
  | write batch pipe tenants reply =>
    cases htaken : c.taken with
    | false => exact hunchanged (by simp [finished, staged, hstaged, finish, htaken])
    | true =>
      have hstore : finished.1.store = st.store.writeBatch batch := by
        simp [finished, staged, hstaged, finish, htaken]
      let io : Ambient := ⟨0, c.millis, fun _ => 0⟩
      have hstage : stagedOf st.tenants _ (commitVersion C st io.hlcMillis _ _ _ _ _ _ _ _) = _ :=
        hstaged
      obtain ⟨ts, commit, -, hd, hmade, -⟩ := stagedOf_head_commits hstage (by decide)
        hkept.coherent.keyed hhead ⟨rfl, rfl, rfl⟩
      obtain rfl := hkept.coherent.keyed koid ko hhead
      obtain ⟨_, hko, seq, kind, hcommit⟩ := hmade.exists_object mem_cons_self
      obtain rfl := mem_singleton.mp hko
      have hkoid : commit.ko.koid = ko.koid := by rw [hcommit]; rfl
      rw [hstore]
      constructor
      · refine hkept.described hd.1 (.refl e) ?_ fun _ _ => rfl
        intro c' hc'
        obtain rfl := mem_singleton.mp hc'
        rw [hcommit]
        exact ⟨w, hwritten, hw⟩
      · intro other hother
        refine hd.1.heads_other ?_ (by simp)
        intro c' hc'
        obtain rfl := mem_singleton.mp hc'
        exact hkoid ▸ hother.symm

section

variable (hideal : fs.crypto.provider.aead.Ideal)
include hideal

theorem Kept.walkObject {policy : EncryptionPolicy}
    (hkept : Kept fs v.env v.written v.kernel.st.store)
    (hhead : v.kernel.st.store.headObject koid = some ko)
    (hpolicy : fs.policies[ko.metadata.typeName]? = some policy) (c : Chance) :
    let v' := (v.walkObject fs C c ko policy).1
    Kept fs v'.env v'.written v'.kernel.st.store ∧
      SameApart koid v.kernel.st.store v'.kernel.st.store := by
  obtain ⟨w, hwritten, hw⟩ := hkept.heads koid ko hhead
  have hfields : fs.fieldsOf ko.metadata.typeName = policy.fields := by
    simp [Fields.fieldsOf, hpolicy]
  unfold Fields.Hides at hw
  rw [hfields] at hw
  obtain ⟨hwithin, hmoved⟩ := reencryptFields_holds c.random c.nonces hideal hw
  have hkept' := hkept.mono hwithin
  unfold Vault.walkObject
  dsimp only
  split
  · exact ⟨hkept', fun _ _ => rfl⟩
  · next props changed hdone =>
      split
      · exact ⟨hkept', fun _ _ => rfl⟩
      · refine hkept'.reencrypted hhead hwritten ?_ c
        have hprops := hmoved _ hdone
        rw [← hfields] at hprops
        exact hprops

theorem Kept.walk (chances : Koid → Chance) (rows : List (Koid × Head)) (v : Vault)
    (hkept : Kept fs v.env v.written v.kernel.st.store) (hnodup : (rows.map Prod.fst).Nodup)
    (hrows : ∀ row ∈ rows, v.kernel.st.store.heads[row.1]? = some row.2) :
    let v' := (v.walk fs C chances rows).1
    Kept fs v'.env v'.written v'.kernel.st.store := by
  -- The objects that are still to come have the heads they had at the start.
  induction rows generalizing v with
  | nil => exact hkept
  | cons row rows ih =>
    obtain ⟨koid, head⟩ := row
    obtain ⟨hfresh, hnodup⟩ := nodup_cons.mp hnodup
    obtain ⟨hrow, hrest⟩ := forall_mem_cons.mp hrows
    unfold Vault.walk
    split
    · exact ih v hkept hnodup hrest
    · next ko hko =>
        have hhead : v.kernel.st.store.headObject koid = some ko := by
          simp only [Store.headObject, hrow, bind_some, hko]
        split
        · exact ih v hkept hnodup hrest
        · next policy hpolicy =>
            obtain ⟨hkept', hsame⟩ := hkept.walkObject (C := C) hideal hhead hpolicy (chances koid)
            split
            · next v' e hwalk =>
                rw [hwalk] at hkept'
                exact hkept'
            · next v' n hwalk =>
                rw [hwalk] at hkept' hsame
                refine ih v' hkept' hnodup fun row hr => ?_
                rw [hsame row.1 fun heq => hfresh (List.mem_map.mpr ⟨row, hr, heq⟩)]
                exact hrest row hr

theorem Kept.roll (hkept : Kept fs v.env v.written v.kernel.st.store)
    (hroom : v.rows.prev.isSome = true ∨ v.env.prevDeks.isEmpty = true) (random : Text → Key)
    (taken : Bool) (chances : Koid → Chance) : let v' := (v.roll fs C random taken chances).1
    Kept fs v'.env v'.written v'.kernel.st.store := by
  have hnodup : (v.kernel.st.store.heads.toList.map Prod.fst).Nodup := by
    rw [map_fst_toList_eq_keys]
    exact nodup_keys
  have hrows : ∀ row ∈ v.kernel.st.store.heads.toList,
      v.kernel.st.store.heads[row.1]? = some row.2 := fun row hrow =>
    mem_toList_iff_getElem?_eq_some.mp hrow
  unfold Vault.roll
  split
  · exact hkept
  · split
    · exact Kept.walk hideal chances _ v hkept hnodup hrows
    · next hprev =>
        have hwithin := Envelope.within_rollDeks (hroom.resolve_left hprev) random
        split
        · exact Kept.walk hideal chances _ _ (hkept.mono hwithin) hnodup hrows
        · exact hkept.mono hwithin

end

end

/-! ## Runs -/

/-- The steps that keep fields encrypted: no request has a field that cannot be encrypted,
    and new keys are made only if none are kept from before, or none are made. -/
def Proper (fs : Fields) (v : Vault) : VaultEvent → Prop
  | .call t _ => fs.AdmitsCall t.call
  | .get _ _ _ => True
  | .roll _ _ _ => v.rows.prev.isSome = true ∨ v.env.prevDeks.isEmpty = true

instance (fs : Fields) (v : Vault) (event : VaultEvent) : Decidable (Proper fs v event) :=
  match event with
  | .call t _ => inferInstanceAs (Decidable (fs.AdmitsCall t.call))
  | .get _ _ _ => inferInstanceAs (Decidable True)
  | .roll _ _ _ => inferInstanceAs (Decidable (_ ∨ _))

section

variable {fs : Fields} {S : Settings} {C : Crypto}

theorem kept_initial (kek : Key) : Kept fs (Vault.initial kek).env (Vault.initial kek).written
      (Vault.initial kek).kernel.st.store where
  coherent := Store.coherent_empty
  versions koid ts ko hko := by
    change ((∅ : Std.ExtTreeMap Nat KnowledgeObject))[ts]? = some ko at hko
    simp at hko
  heads koid ko hko := by
    change ((∅ : Std.ExtTreeMap Koid Head)[koid]?.bind _) = some ko at hko
    simp at hko

theorem Kept.step (hideal : fs.crypto.provider.aead.Ideal) {v' : Vault} {event : VaultEvent}
    (hkept : Kept fs v.env v.written v.kernel.st.store) (hproper : Proper fs v event)
    (h : v.step fs S C event = some v') : Kept fs v'.env v'.written v'.kernel.st.store := by
  cases event with
  | call t d =>
    cases h
    exact hkept.call hproper
  | get ctx koid random =>
    cases h
    refine hkept.mono ?_
    unfold Vault.keysRead
    split
    · exact .refl _
    · split
      · split
        · exact .refl _
        · exact within_decryptFields _ _ _ _ _ _
      · exact .refl _
  | roll random taken chances =>
    cases h
    exact hkept.roll hideal hproper random taken chances

theorem Fields.Hides.get (hideal : fs.crypto.provider.aead.Ideal)
    (halgorithm : fs.crypto.provider.algorithm = .aes256Gcm) (hw : fs.Hides v.env w ko)
    (hhead : v.kernel.st.store.headObject koid = some ko) {ctx : KnowledgeContext}
    (hauth : v.kernel.auth.authorize ctx.subject ko .read = .ok ())
    (htenant : ctx.tenant = ko.metadata.tenant) (random : Key) :
    v.get fs ctx koid random = .ok { ko with properties := w } := by
  unfold Vault.get Reader.get
  rw [hhead]
  simp only [orNotFound, ok_bind, Vault.reader, hauth, Reader.decrypted, htenant]
  unfold Fields.Hides Fields.fieldsOf at hw
  cases hpolicy : fs.policies[ko.metadata.typeName]? with
  | none =>
    have hsame : ko.properties = w := Std.ExtTreeMap.ext_getElem? fun field =>
      (hw field).2 (by simp [hpolicy])
    simp only [ok_bind, hsame]
    rfl
  | some policy =>
    rw [hpolicy] at hw
    obtain ⟨n, hread⟩ := decryptFields_holds random hideal halgorithm hw
    simp only [hread, ok_bind]
    rfl

/-- Whatever is called, read and rolled: a stored field of a policy is a ciphertext under a
    key of the object's tenant, and a subject that may read an object and does so for its
    tenant gets what was last written to it. -/
theorem fields_sealed (fs : Fields) (S : Settings) (C : Crypto) (kek : Key) {v : Vault}
    (hideal : fs.crypto.provider.aead.Ideal)
    (halgorithm : fs.crypto.provider.algorithm = .aes256Gcm)
    (h : Runs.Reaches (Vault.step fs S C) (Proper fs) (Vault.initial kek) v) :
    (∀ (koid : Koid) (ts : Nat) (ko : KnowledgeObject),
        (v.kernel.st.store.objects koid)[ts]? = some ko →
        ∀ field ∈ fs.fieldsOf ko.metadata.typeName, ∀ stored, ko.properties[field]? = some stored →
          ∃ value, stored ≠ value ∧
            Sealed fs.crypto (v.env.Holds (tenantName ko.metadata.tenant)) field value stored) ∧
      ∀ (koid : Koid) (ko : KnowledgeObject), v.kernel.st.store.headObject koid = some ko →
        ∀ ctx : KnowledgeContext, v.kernel.auth.authorize ctx.subject ko .read = .ok () →
          ctx.tenant = ko.metadata.tenant → ∀ random, ∃ written, v.written[koid]? = some written ∧
            v.get fs ctx koid random = .ok { ko with properties := written } := by
  have hkept : Kept fs v.env v.written v.kernel.st.store :=
    h.invariant (P := fun v => Kept fs v.env v.written v.kernel.st.store) (kept_initial kek)
      fun _ _ _ hs hc hstep => hs.step hideal hc hstep
  refine ⟨fun koid ts ko hko field hfield stored hstored => ?_,
    fun koid ko hhead ctx hauth htenant random => ?_⟩
  · obtain ⟨w, hw⟩ := hkept.versions koid ts ko hko
    rcases (hw field).1 hfield with ⟨-, hnone⟩ | ⟨value, v', -, hv, hsealed⟩
    · rw [hnone] at hstored
      cases hstored
    · obtain rfl := Option.some.inj (hv.symm.trans hstored)
      refine ⟨value, ?_, hsealed⟩
      -- One of the two is taken to be encrypted and the other is not.
      obtain ⟨⟨hplain, -⟩, dek, nonce, -, rfl⟩ := hsealed
      intro heq
      have henc := isEncrypted_sealValue halgorithm dek nonce field value
      rw [heq, hplain] at henc
      cases henc
  · obtain ⟨w, hwritten, hw⟩ := hkept.heads koid ko hhead
    exact ⟨w, hwritten, hw.get hideal halgorithm hhead hauth htenant random⟩

end

namespace FieldSecrecy

/-! ### A cipher -/

/-- Bytes that say where they end. -/
def delimited (b : Bytes) : Bytes :=
  List.replicate b.length 1 ++ 0 :: b

theorem replicate_append_inj {m n : Nat} {a b : Bytes}
    (h : List.replicate m (1 : Byte) ++ 0 :: a = List.replicate n 1 ++ 0 :: b) :
    m = n ∧ a = b := by
  induction m generalizing n with
  | zero =>
    cases n with
    | zero => simpa using h
    | succ n => simp [replicate_succ] at h
  | succ m ih =>
    cases n with
    | zero => simp [replicate_succ] at h
    | succ n =>
      rw [replicate_succ, replicate_succ, cons_append, cons_append] at h
      obtain ⟨hlen, hrest⟩ := ih (List.cons.inj h).2
      exact ⟨congrArg (· + 1) hlen, hrest⟩

theorem delimited_append_inj {a b rest rest' : Bytes}
    (h : delimited a ++ rest = delimited b ++ rest') : a = b ∧ rest = rest' := by
  unfold delimited at h
  rw [append_assoc, append_assoc, cons_append, cons_append] at h
  obtain ⟨hlen, hrest⟩ := replicate_append_inj h
  exact append_inj hrest hlen

def labelled : Aead where
  encrypt key _ plain aad :=
    delimited key ++ (delimited aad ++ (plain ++ List.replicate 16 0))
  decrypt key _ data aad :=
    if (delimited key ++ delimited aad).isPrefixOf data then
      some (((data.drop (delimited key ++ delimited aad).length)).rdrop 16)
    else none

theorem labelled_ideal : labelled.Ideal where
  opens key nonce plain aad := by
    simp only [labelled, ← append_assoc (delimited key)]
    rw [if_pos ( isPrefixOf_iff_prefix.mpr (prefix_append _ _)), drop_left, List.rdrop]
    simp
  rejects key key' nonce plain aad aad' hne := by
    refine if_neg fun hprefix => ?_
    obtain ⟨rest, hrest⟩ := isPrefixOf_iff_prefix.mp hprefix
    rw [append_assoc] at hrest
    obtain ⟨hkey, hrest⟩ := delimited_append_inj hrest
    obtain ⟨haad, -⟩ := delimited_append_inj hrest
    exact hne.elim (fun h => h hkey.symm) fun h => h haad.symm
  tagged key nonce plain aad := by
    simp only [labelled, length_append, length_replicate]
    omega

/-! ### Runs -/

def person : Text := utf8 "person"

def ssn : Text := utf8 "ssn"

def oneField (algorithm : Algorithm) : Fields where
  crypto := ⟨⟨algorithm, labelled⟩, fun dek => dek, ⟨fun _ => true, fun b => b, fun _ _ => rfl, fun _ => rfl⟩⟩
  policies := Std.ExtTreeMap.ofList [(person, ⟨[ssn], nodup_singleton _⟩)] compare

def subject : Subject := ⟨utf8 "ann", [], some (utf8 "a")⟩

def workingFor (tenant : Text) : KnowledgeContext := ⟨subject, some tenant⟩

def creating (context tenant : Text) (value : Value) : RememberRequest :=
  { RememberRequest.create (workingFor context) ⟨person, some tenant, 0, []⟩ with
    koid := some 1
    properties := Std.ExtTreeMap.ofList [(ssn, value), (utf8 "name", .text (utf8 "bo"))] compare }

def calling (time : Nat) (call : Call) : VaultEvent :=
  .call ⟨⟨time, time, fun _ => 0⟩, call, true⟩ ⟨[7, 7], fun _ => 5, true⟩

def rolling (keys : Bool) : VaultEvent :=
  .roll (fun tenant => 9 :: tenant) keys fun _ => ⟨50, [8], fun _ => 6, true⟩

def after (algorithm : Algorithm) (steps : List VaultEvent) : Option Vault :=
  Runs.run (Vault.step (oneField algorithm) (.basic ∅ ∅) (.unsigned Storage.Sha256.fips180))
    (Vault.initial [1]) steps

def readField (algorithm : Algorithm) (v : Vault) (tenant : Text) : Option Value :=
  (v.get (oneField algorithm) (workingFor tenant) 1 [3]).toOption.bind fun ko => ko.properties[ssn]?

def storedField (v : Vault) : Option Value :=
  (v.kernel.st.store.headObject 1).bind fun ko => ko.properties[ssn]?

def writtenField (v : Vault) : Option Value :=
  v.written[(1 : Koid)]?.bind fun props => props[ssn]?

def inTurn : List VaultEvent :=
  [calling 1 (.remember (creating (utf8 "a") (utf8 "a") (.list [.int (-3), .text (utf8 "x")]))),
    .get (workingFor (utf8 "a")) 1 [4], rolling true,
    calling 60 (.evolve (workingFor (utf8 "a")) 1 .active .human none none), rolling true]

theorem inTurn_sealed :
    ∃ v ko, after .aes256Gcm inTurn = some v ∧ v.kernel.st.store.headObject 1 = some ko ∧
      ko.version = 3 ∧
      (∃ stored value, ko.properties[ssn]? = some stored ∧ stored ≠ value ∧
        Sealed (oneField .aes256Gcm).crypto (v.env.Holds (utf8 "a")) ssn value stored) ∧
      ∃ written, v.written[(1 : Koid)]? = some written ∧
        v.get (oneField .aes256Gcm) (workingFor (utf8 "a")) 1 [3]
          = .ok { ko with properties := written } := by
  obtain ⟨v, hrun, ko, hhead, hversion, htype, htenant, ⟨stored, hstored, -⟩, hauth⟩ :
      ∃ v, after .aes256Gcm inTurn = some v ∧ ∃ ko, v.kernel.st.store.headObject 1 = some ko ∧
        ko.version = 3 ∧ ko.metadata.typeName = person ∧ ko.metadata.tenant = some (utf8 "a") ∧
        (∃ stored, ko.properties[ssn]? = some stored ∧ True) ∧
        (v.kernel.auth.authorize subject ko .read).isOk = true := by
    decide +kernel
  obtain ⟨hsealed, hread⟩ := fields_sealed (oneField .aes256Gcm) (.basic ∅ ∅)
    (.unsigned Storage.Sha256.fips180) [1] labelled_ideal rfl
    (Runs.reaches_of_run inTurn (by decide +kernel) hrun)
  refine ⟨v, ko, hrun, hhead, hversion, ?_, ?_⟩
  · obtain ⟨head, -, hrow⟩ := bind_eq_some_iff.mp hhead
    have hssn : ssn ∈ (oneField .aes256Gcm).fieldsOf ko.metadata.typeName := by
      rw [htype]
      decide +kernel
    obtain ⟨value, hvalue⟩ := hsealed 1 head.commitTs ko hrow ssn hssn stored hstored
    rw [htenant] at hvalue
    exact ⟨stored, value, hstored, hvalue⟩
  · exact hread 1 ko hhead (workingFor (utf8 "a")) (eq_ok_of_isOk hauth) htenant.symm [3]

/-- The newest version has the field as it was written. -/
def Exposed (algorithm : Algorithm) (steps : List VaultEvent) : Prop :=
  ∃ v value, after algorithm steps = some v ∧ storedField v = some value ∧
    writtenField v = some value

/-- A subject that may read the object does so for its tenant, and does not get what was written.
    -/
def Misread (algorithm : Algorithm) (steps : List VaultEvent) (tenant : Text) : Prop :=
  ∃ v ko, after algorithm steps = some v ∧ v.kernel.st.store.headObject 1 = some ko ∧
    v.kernel.auth.authorize subject ko .read = .ok () ∧ ko.metadata.tenant = some tenant ∧
    readField algorithm v tenant ≠ writtenField v

def plain : Value := .text (utf8 "123")

def transacted : List VaultEvent :=
  [calling 1 (.transact [⟨workingFor (utf8 "a"), creating (utf8 "a") (utf8 "a") plain⟩] none none)]

def imitated : List VaultEvent :=
  [calling 1 (.remember (creating (utf8 "a") (utf8 "a") (.bytes [1, 2, 3])))]

def crossed : List VaultEvent :=
  [calling 1 (.remember (creating (utf8 "b") (utf8 "a") plain))]

def created : List VaultEvent :=
  [calling 1 (.remember (creating (utf8 "a") (utf8 "a") plain))]

def rolledTwice : List VaultEvent :=
  created ++ [rolling false, rolling true]

theorem exposed_of_run
    (h : ∃ v, after algorithm steps = some v ∧ ∃ value, storedField v = some value ∧
      writtenField v = some value) : Exposed algorithm steps := by
  obtain ⟨v, hrun, value, hvalue⟩ := h
  exact ⟨v, value, hrun, hvalue⟩

theorem misread_of_run {tenant : Text}
    (h : ∃ v, after algorithm steps = some v ∧ ∃ ko, v.kernel.st.store.headObject 1 = some ko ∧
      (v.kernel.auth.authorize subject ko .read).isOk = true ∧
      ko.metadata.tenant = some tenant ∧ readField algorithm v tenant ≠ writtenField v) :
    Misread algorithm steps tenant := by
  obtain ⟨v, hrun, ko, hhead, hauth, hread⟩ := h
  exact ⟨v, ko, hrun, hhead, eq_ok_of_isOk hauth, hread⟩

theorem readValue_empty_item (u : Utf8) (rest : Bytes) :
    bytesToValue u (0x07 :: 1 :: 0 :: 0 :: 0 :: rest) = some (.list []) := by
  have hsized : readSized (0 :: 0 :: rest) = some ([], rest) := by
    simp [readSized, leNat]
  have hlong : ¬(1 :: 0 :: 0 :: 0 :: rest : Bytes).length < 2 := by simp
  have hcount : leNat ((1 :: 0 :: 0 :: 0 :: rest : Bytes).take 2) = 1 := rfl
  rw [bytesToValue, length_cons, readValue]
  change (if (1 :: 0 :: 0 :: 0 :: rest : Bytes).length < 2 then none else _) = _
  rw [if_neg hlong, hcount]
  simp only [drop_succ_cons, drop_zero, readItems, hsized, length_cons, readValue]
  rfl

theorem bytesToValue_cut (u : Utf8) :
    bytesToValue u (valueToBytes (.list [.bytes (List.replicate 65535 0)])) = some (.list []) := by
  have hsized : sized (valueToBytes (.bytes (List.replicate 65535 0)))
      = 0 :: 0 :: 0x04 :: List.replicate 65535 0 := by
    rw [valueToBytes, sized, length_cons, length_replicate]
    rfl
  have hitems : itemsToBytes [.bytes (List.replicate 65535 0)] (65534 + 1)
      = 0 :: 0 :: 0x04 :: List.replicate 65535 0 := by
    rw [itemsToBytes, hsized, itemsToBytes, append_nil]
  rw [valueToBytes]
  exact (congrArg (fun items => bytesToValue u (0x07 :: (leBytes 2 1 ++ items))) hitems).trans
    (readValue_empty_item u _)

theorem fields_exposed : Exposed .aes256Gcm transacted ∧ Exposed .aes256Gcm imitated ∧
      Misread .aes256Gcm imitated (utf8 "a") ∧ Misread .aes256Gcm crossed (utf8 "a") ∧
      Misread .aes256Gcm rolledTwice (utf8 "a") ∧
      Misread .chaCha20Poly1305 created (utf8 "a") ∧
      bytesToValue (oneField .aes256Gcm).crypto.utf8
        (valueToBytes (.list [.bytes (List.replicate 65535 0)])) = some (.list []) :=
  ⟨exposed_of_run (by decide +kernel), exposed_of_run (by decide +kernel),
    misread_of_run (by decide +kernel), misread_of_run (by decide +kernel),
    misread_of_run (by decide +kernel), misread_of_run (by decide +kernel), bytesToValue_cut _⟩

/-- A value whose items fit their counts is read back, and no other is, as long as no key of a
    map is one that the repair of bytes can make. -/
theorem value_framed (u : Utf8) (v : Value) :
    (fits u v = true → bytesToValue u (valueToBytes v) = some v) ∧
      (keysExact u v → (bytesToValue u (valueToBytes v) = some v ↔ fits u v = true)) :=
  ⟨bytesToValue_valueToBytes, bytesToValue_valueToBytes_iff⟩

def nested : Value := .list [.map [(utf8 "a", .int 1), (utf8 "b", .list [])], .text (utf8 "c")]

theorem nested_framed : bytesToValue (oneField .aes256Gcm).crypto.utf8 (valueToBytes nested)
    = some nested ∧ ¬fits (oneField .aes256Gcm).crypto.utf8
      (.list [.bytes (List.replicate 65535 0)]) = true := by
  refine ⟨(value_framed _ nested).1 (by decide +kernel), fun h => ?_⟩
  have hread := ((value_framed _ _).2 (by simp [keysExact, itemsExact])).mpr h
  rw [bytesToValue_cut] at hread
  cases hread

theorem item_lost : ∃ v, bytesToValue (oneField .aes256Gcm).crypto.utf8 (valueToBytes (.list [v]))
    ≠ some (.list [v]) := by
  refine ⟨.bytes (List.replicate 65535 0), ?_⟩
  rw [bytesToValue_cut]
  exact fun h => List.cons_ne_nil _ _ (Value.list.inj (Option.some.inj h)).symm

end FieldSecrecy

end Kernel

end Aikoql
