import Aikoql.Lib.Fallible
import Aikoql.Storage.Format

/-!
# Write-Ahead Log Frames

The log's frame format, its encoder and its decoder.

A frame is one batch under one sequence number. It is laid out as a header of
nineteen bytes (magic, version, type, sequence number, payload length), the
payload (an operation count and the operations), and the checksum of all that.
`encodeFrame` refuses an empty batch and a payload whose length does not fit
its field; everything it accepts is `frameBytes`.

`decodeFrame` reads one frame from the front of a byte string and says how long
it was. Decoding inverts encoding in both directions: an encoded frame is read
back whatever follows it, and whatever decodes as a frame is that frame's
bytes. The second is what lets a byte offset be said to hold a frame without
naming a decoder.
-/

namespace Aikoql.Storage

open List

variable (ops : List Op)

/-- The external identity of an object: sixteen bytes, read most significant
    first so that the numeric order is the byte order. -/
abbrev ObjectId := Fin 340282366920938463463374607431768211456

instance ObjectId.neZero : NeZero 340282366920938463463374607431768211456 := inferInstance

instance ObjectId.transOrd : Std.TransOrd ObjectId := inferInstance

/-- The internal logical identity of an object. -/
abbrev LogicalId := U64

/-- The identity of a local materialization of an object. -/
abbrev ReplicaId := U64

def ObjectId.toBytes (oid : ObjectId) : Bytes :=
  beBytes 16 oid.val

def ObjectId.fromBytes (bytes : Bytes) : ObjectId :=
  Fin.ofNat _ (beNat bytes)

@[simp] theorem ObjectId.length_toBytes (oid : ObjectId) : (ObjectId.toBytes oid).length = 16 :=
  length_beBytes 16 oid.val

@[simp] theorem ObjectId.fromBytes_toBytes (oid : ObjectId) :
    ObjectId.fromBytes (ObjectId.toBytes oid) = oid := by
  have h : beNat (ObjectId.toBytes oid) = oid.val :=
    beNat_beBytes_of_lt 16 oid.val (lt_of_lt_of_le oid.isLt (by norm_num))
  rw [ObjectId.fromBytes, h]
  exact Fin.ofNat_val_eq_self oid

/-- One logged operation. The object operations carry the replica they write
    under, and a creation carries its whole identity triple with the placement
    generation, so that replay consults no directory. -/
inductive Op where
  | put (key value : Bytes)
  | delete (key : Bytes)
  | createObject (oid : ObjectId) (lid : LogicalId) (rid : ReplicaId) (pgen : U64)
  | putObject (rid : ReplicaId) (key value : Bytes)
  | deleteObject (rid : ReplicaId) (key : Bytes)
  deriving DecidableEq

/-- The key an operation names; a creation names none. -/
def Op.key : Op → Bytes
  | .put k _ => k
  | .delete k => k
  | .createObject _ _ _ _ => []
  | .putObject _ k _ => k
  | .deleteObject _ k => k

/-- One batch under one sequence number. -/
structure WalFrame where
  seq : U64
  ops : List Op
  deriving DecidableEq

/-- The lowercase hex form of an object identity. -/
def ObjectId.display (oid : ObjectId) : String :=
  String.ofList ((ObjectId.toBytes oid).flatMap fun b =>
    [Nat.digitChar (b.val / 16), Nat.digitChar (b.val % 16)])

/-- The debug form of an operation, as error messages print it. -/
def Op.debug : Op → String
  | .put k v => s!"Put({k}, {v})"
  | .delete k => s!"Delete({k})"
  | .createObject oid lid rid pgen =>
    let oid := ObjectId.display oid
    s!"CreateObject \x7b oid: ObjectId({oid}), lid: LogicalId({lid}), rid: ReplicaId({rid}), "
      ++ s!"pgen: {pgen} \x7d"
  | .putObject rid k v => s!"PutObject(ReplicaId({rid}), {k}, {v})"
  | .deleteObject rid k => s!"DeleteObject(ReplicaId({rid}), {k})"

def WalFrame.debug (frame : WalFrame) : String :=
  let seq := frame.seq
  let ops := frame.ops.map Op.debug
  s!"WalFrame \x7b seq: {seq}, ops: {ops} \x7d"

def walFormatVersion : Nat := 1
def frameBatch : Byte := 1
def opPut : Byte := 1
def opDelete : Byte := 2
def opCreateObject : Byte := 3
def opPutObject : Byte := 4
def opDeleteObject : Byte := 5

def walMagic : Bytes := [65, 75, 87, 70]

/-- The header: magic 4, version 2, type 1, sequence 8, payload length 4. -/
def frameHeaderLen : Nat := 19

/-! ## Encoding -/

def checkedLen (parts : List Nat) : Except FormatError Nat := do
  ensure (parts.sum < 2 ^ 64) (.invalid "WAL op length overflows")
  return parts.sum

def opParts : Op → List Nat
  | .put k v => [1, 4, k.length, 4, v.length]
  | .delete k => [1, 4, k.length]
  | .createObject _ _ _ _ => [1, 16, 8, 8, 8]
  | .putObject _ k v => [1, 8, 4, k.length, 4, v.length]
  | .deleteObject _ k => [1, 8, 4, k.length]

def opEncodedLen (op : Op) : Except FormatError Nat :=
  checkedLen (opParts op)

def encodeOp : Op → Bytes
  | .put k v =>
    opPut :: (leBytes 4 k.length ++ (k ++ (leBytes 4 v.length ++ v)))
  | .delete k =>
    opDelete :: (leBytes 4 k.length ++ k)
  | .createObject oid lid rid pgen =>
    opCreateObject :: (ObjectId.toBytes oid ++ (u64Bytes lid ++ (u64Bytes rid ++ u64Bytes pgen)))
  | .putObject rid k v =>
    opPutObject :: (u64Bytes rid ++ (leBytes 4 k.length ++ (k ++ (leBytes 4 v.length ++ v))))
  | .deleteObject rid k =>
    opDeleteObject :: (u64Bytes rid ++ (leBytes 4 k.length ++ k))

def encodePayload (ops : List Op) : Bytes :=
  leBytes 4 ops.length ++ ops.flatMap encodeOp

def frameHeader (seq : U64) (payloadLen : Nat) : Bytes :=
  walMagic ++ (leBytes 2 walFormatVersion ++ (frameBatch :: (u64Bytes seq ++ leBytes 4 payloadLen)))

def frameBody (frame : WalFrame) : Bytes :=
  frameHeader frame.seq (encodePayload frame.ops).length ++ encodePayload frame.ops

def frameBytes (H : Sha256) (frame : WalFrame) : Bytes :=
  frameBody frame ++ checksum8 H (frameBody frame)

def addOpLen (acc : Nat) (op : Op) : Except FormatError Nat := do
  let len ← opEncodedLen op
  ensure (acc + len < 2 ^ 64) (.invalid "WAL frame payload overflows")
  return acc + len

def payloadLen (ops : List Op) : Except FormatError Nat :=
  ops.foldlM addOpLen 4

def encodeFrame (H : Sha256) (seq : U64) (ops : List Op) : Except FormatError Bytes := do
  ensure (ops ≠ []) (.invalid "WAL frame with no ops")
  let len ← payloadLen ops
  ensure (len < 2 ^ 32) (.invalid "WAL frame payload exceeds the format's u32 field")
  ensure (ops.length < 2 ^ 32) (.invalid "WAL frame op count exceeds the format's u32 field")
  return frameBytes H ⟨seq, ops⟩

/-! ## Decoding one frame -/

/-- Read one operation of a payload. -/
def decodeOp : Parse Op := do
  let op ← takeU8
  if op = opPut then
    let key ← takeVec
    let value ← takeVec
    return .put key value
  else if op = opDelete then
    let key ← takeVec
    return .delete key
  else if op = opCreateObject then
    let oid ← take 16
    let lid ← takeU64
    let rid ← takeU64
    let pgen ← takeU64
    return .createObject (ObjectId.fromBytes oid) lid rid pgen
  else if op = opPutObject then
    let rid ← takeU64
    let key ← takeVec
    let value ← takeVec
    return .putObject rid key value
  else if op = opDeleteObject then
    let rid ← takeU64
    let key ← takeVec
    return .deleteObject rid key
  else
    throw (.unsupported s!"WAL op byte {op}")

def walkOps {σ : Type} (sink : σ → Op → Except FormatError σ) :
    Nat → Cursor → σ → Except FormatError (Cursor × σ)
  | 0, cur, s => .ok (cur, s)
  | n + 1, cur, s => do
      let (op, cur) ← decodeOp cur
      let s ← sink s op
      walkOps sink n cur s

def walkPayload {σ : Type} (payload : Bytes) (sink : σ → Op → Except FormatError σ) (s : σ) :
    Except FormatError σ := do
  let (count, cur) ← takeU32 (Cursor.new payload)
  ensure (count ≠ 0) (.corrupt "WAL frame with zero entries")
  let (cur, s) ← walkOps sink count cur s
  ensure (cur.rest = []) (.corrupt "WAL payload trailing bytes")
  return s

def decodePayload (payload : Bytes) : Except FormatError (List Op) :=
  walkPayload payload (fun ops op => .ok (ops ++ [op])) []

def decodeFrame (H : Sha256) (bytes : Bytes) : Except FormatError (WalFrame × Nat) := do
  let (magic, cur) ← take 4 (Cursor.new bytes)
  ensure (magic = walMagic) (.corrupt "WAL frame bad magic")
  let (version, cur) ← takeU16 cur
  ensure (version = walFormatVersion)
    (.unsupported s!"WAL frame format version {version} (this build: {walFormatVersion})")
  let (frameType, cur) ← takeU8 cur
  ensure (frameType = frameBatch)
    (.unsupported s!"WAL frame type {frameType} (this build: {frameBatch})")
  let (seq, cur) ← takeU64 cur
  let (payloadLen, cur) ← takeU32 cur
  let (payload, cur) ← take payloadLen cur
  let (stored, _) ← take 8 cur
  let total := frameHeaderLen + payloadLen + 8
  ensure (checksum8 H (bytes.take (total - 8)) = stored) (.corrupt "WAL frame checksum mismatch")
  let ops ← decodePayload payload
  return (⟨seq, ops⟩, total)

/-! ## The encoder -/

/-- What the format can hold: a batch with something in it and a payload whose
    length fits its field. -/
def Encodable (ops : List Op) : Prop :=
  ops ≠ [] ∧ (encodePayload ops).length < 2 ^ 32

theorem length_encodeOp (op : Op) : (encodeOp op).length = (opParts op).sum := by
  cases op <;> simp [encodeOp, opParts] <;> omega

theorem addOpLen_eq_ok (acc n : Nat) (op : Op) :
    addOpLen acc op = .ok n ↔ acc + (encodeOp op).length = n ∧ n < 2 ^ 64 := by
  rw [length_encodeOp]
  simp only [addOpLen, opEncodedLen, checkedLen, bind_eq_ok, ensure_eq_ok, pure_eq_ok, exists_const]
  constructor
  · rintro ⟨len, ⟨_, rfl⟩, h, rfl⟩
    exact ⟨rfl, h⟩
  · rintro ⟨rfl, h⟩
    exact ⟨_, ⟨by omega, rfl⟩, h, rfl⟩

theorem foldlM_addOpLen_eq_ok (acc n : Nat) (hacc : acc < 2 ^ 64) :
    ops.foldlM addOpLen acc = .ok n ↔ acc + (ops.flatMap encodeOp).length = n ∧ n < 2 ^ 64 := by
  induction ops generalizing acc with
  | nil => simp; omega
  | cons op ops ih =>
    rw [foldlM_cons, bind_eq_ok, flatMap_cons, length_append]
    constructor
    · rintro ⟨m, hm, hrest⟩
      rcases (addOpLen_eq_ok acc m op).mp hm with ⟨rfl, hlt⟩
      rcases (ih _ hlt).mp hrest with ⟨rfl, h⟩
      exact ⟨by omega, h⟩
    · rintro ⟨rfl, h⟩
      have hlt : acc + (encodeOp op).length < 2 ^ 64 := by omega
      exact ⟨_, (addOpLen_eq_ok acc _ op).mpr ⟨rfl, hlt⟩, (ih _ hlt).mpr ⟨by omega, h⟩⟩

theorem length_encodePayload : (encodePayload ops).length = 4 + (ops.flatMap encodeOp).length := by
  simp [encodePayload]

theorem payloadLen_eq_ok (n : Nat) :
    payloadLen ops = .ok n ↔ (encodePayload ops).length = n ∧ n < 2 ^ 64 := by
  rw [payloadLen, foldlM_addOpLen_eq_ok ops 4 n (by norm_num), length_encodePayload]

theorem length_le_flatMap_encodeOp : ops.length ≤ (ops.flatMap encodeOp).length := by
  induction ops with
  | nil => simp
  | cons op ops ih =>
    have h : 1 ≤ (encodeOp op).length := by cases op <;> simp [encodeOp]
    rw [flatMap_cons, length_append, length_cons]
    omega

theorem Encodable.length_lt {ops : List Op} (h : Encodable ops) : ops.length < 2 ^ 32 := by
  have hle := length_le_flatMap_encodeOp ops
  have hlt := h.2
  rw [length_encodePayload] at hlt
  omega

theorem encodeFrame_eq_ok (H : Sha256) (seq : U64) (ops : List Op) (bytes : Bytes) :
    encodeFrame H seq ops = .ok bytes ↔ Encodable ops ∧ frameBytes H ⟨seq, ops⟩ = bytes := by
  simp only [encodeFrame, bind_eq_ok, ensure_eq_ok, pure_eq_ok, exists_const, payloadLen_eq_ok]
  constructor
  · rintro ⟨hne, len, ⟨rfl, _⟩, hlt, _, rfl⟩
    exact ⟨⟨hne, hlt⟩, rfl⟩
  · rintro ⟨h, rfl⟩
    exact ⟨h.1, _, ⟨rfl, by have := h.2; omega⟩, h.2, h.length_lt, rfl⟩

/-! ## Round trips -/

theorem decodeOp_append (op : Op) (rest : Bytes) (pos : Nat) (h : (encodeOp op).length < 2 ^ 32) :
    decodeOp ⟨encodeOp op ++ rest, pos⟩ = .ok (op, ⟨rest, pos + (encodeOp op).length⟩) := by
  rw [length_encodeOp] at h ⊢
  unfold opParts at h ⊢
  unfold encodeOp
  cases op <;> simp only [sum_cons, sum_nil, cons_append, append_assoc] at h ⊢
  case put k v =>
    rw [decodeOp, Parse.bind_ok (takeU8_cons _ _ _), if_pos rfl,
      Parse.bind_ok (takeVec_append k _ _ (by omega)),
      Parse.bind_ok (takeVec_append v _ _ (by omega)), Parse.pure_apply]
    congr 3
    omega
  case delete k =>
    rw [decodeOp, Parse.bind_ok (takeU8_cons _ _ _), if_neg (by decide), if_pos rfl,
      Parse.bind_ok (takeVec_append k _ _ (by omega)), Parse.pure_apply]
    congr 3
    omega
  case createObject oid lid rid pgen =>
    rw [decodeOp, Parse.bind_ok (takeU8_cons _ _ _), if_neg (by decide), if_neg (by decide),
      if_pos rfl, Parse.bind_ok (take_append _ _ _ 16 (ObjectId.length_toBytes oid)),
      Parse.bind_ok (takeU64_append lid _ _), Parse.bind_ok (takeU64_append rid _ _),
      Parse.bind_ok (takeU64_append pgen _ _), Parse.pure_apply, ObjectId.fromBytes_toBytes]
    rfl
  case putObject rid k v =>
    rw [decodeOp, Parse.bind_ok (takeU8_cons _ _ _), if_neg (by decide), if_neg (by decide),
      if_neg (by decide), if_pos rfl, Parse.bind_ok (takeU64_append rid _ _),
      Parse.bind_ok (takeVec_append k _ _ (by omega)),
      Parse.bind_ok (takeVec_append v _ _ (by omega)), Parse.pure_apply]
    congr 3
    omega
  case deleteObject rid k =>
    rw [decodeOp, Parse.bind_ok (takeU8_cons _ _ _), if_neg (by decide), if_neg (by decide),
      if_neg (by decide), if_neg (by decide), if_pos rfl, Parse.bind_ok (takeU64_append rid _ _),
      Parse.bind_ok (takeVec_append k _ _ (by omega)), Parse.pure_apply]
    congr 3
    omega

theorem walkOps_append {σ : Type} (sink : σ → Op → Except FormatError σ) (ops : List Op)
    (rest : Bytes) (pos : Nat) (s : σ) (h : (ops.flatMap encodeOp).length < 2 ^ 32) :
    walkOps sink ops.length ⟨ops.flatMap encodeOp ++ rest, pos⟩ s
      = (fun s' => (⟨rest, pos + (ops.flatMap encodeOp).length⟩, s')) <$> ops.foldlM sink s := by
  induction ops generalizing pos s with
  | nil => rfl
  | cons op ops ih =>
    rw [flatMap_cons, length_append] at h ⊢
    simp only [length_cons, append_assoc, walkOps,
      decodeOp_append op _ pos (by omega), ok_bind, foldlM_cons]
    cases sink s op with
    | error e => rfl
    | ok s' =>
      simp only [ok_bind]
      rw [ih _ s' (by omega), Nat.add_assoc]

theorem walkPayload_encodePayload {σ : Type} (sink : σ → Op → Except FormatError σ)
    (ops : List Op) (s : σ) (h : Encodable ops) :
    walkPayload (encodePayload ops) sink s = ops.foldlM sink s := by
  have hlen := h.2
  rw [length_encodePayload] at hlen
  have hcount : ops.length ≠ 0 := fun h0 => h.1 (length_eq_zero_iff.mp h0)
  have hwalk := walkOps_append sink ops [] 4 s (by omega)
  rw [append_nil] at hwalk
  simp only [walkPayload, Cursor.new, encodePayload, takeU32_append _ _ _ h.length_lt, ok_bind,
    ensure_pos hcount, Nat.zero_add, hwalk]
  cases ops.foldlM sink s <;> rfl

theorem foldlM_collect (acc : List Op) :
    ops.foldlM (fun ops op => (.ok (ops ++ [op]) : Except FormatError (List Op))) acc
      = .ok (acc ++ ops) := by
  induction ops generalizing acc with
  | nil => simp [pure, Except.pure]
  | cons op ops ih => rw [foldlM_cons, ok_bind, ih, append_assoc]; rfl

theorem decodePayload_encodePayload (h : Encodable ops) :
    decodePayload (encodePayload ops) = .ok ops := by
  rw [decodePayload, walkPayload_encodePayload _ ops [] h, foldlM_collect, nil_append]

@[simp] theorem length_frameHeader (seq : U64) (n : Nat) :
    (frameHeader seq n).length = frameHeaderLen := by
  simp [frameHeader, walMagic, frameHeaderLen]

theorem length_frameBody (frame : WalFrame) :
    (frameBody frame).length = frameHeaderLen + (encodePayload frame.ops).length := by
  simp [frameBody]

theorem length_frameBytes (H : Sha256) (frame : WalFrame) :
    (frameBytes H frame).length = frameHeaderLen + (encodePayload frame.ops).length + 8 := by
  simp [frameBytes, length_frameBody]

theorem decodeFrame_append (H : Sha256) (frame : WalFrame) (rest : Bytes)
    (h : Encodable frame.ops) :
    decodeFrame H (frameBytes H frame ++ rest) = .ok (frame, (frameBytes H frame).length) := by
  generalize hb : frameBytes H frame ++ rest = bytes
  have hbytes : bytes = walMagic ++ (leBytes 2 walFormatVersion ++ (frameBatch ::
      (u64Bytes frame.seq ++ (leBytes 4 (encodePayload frame.ops).length ++
        (encodePayload frame.ops ++ (checksum8 H (frameBody frame) ++ rest)))))) := by
    simp [← hb, frameBytes, frameBody, frameHeader, append_assoc]
  have htake : bytes.take (frameHeaderLen + (encodePayload frame.ops).length + 8 - 8)
      = frameBody frame := by
    rw [← hb, Nat.add_sub_cancel, frameBytes, append_assoc, ← length_frameBody, take_left']
    rfl
  have hmagic := take_append walMagic (leBytes 2 walFormatVersion ++ (frameBatch ::
      (u64Bytes frame.seq ++ (leBytes 4 (encodePayload frame.ops).length ++
        (encodePayload frame.ops ++ (checksum8 H (frameBody frame) ++ rest)))))) 0 4 rfl
  rw [← hbytes] at hmagic
  simp only [decodeFrame, Cursor.new, hmagic, ok_bind, ensure_pos,
    takeU16_append walFormatVersion _ _ (by decide),
    takeU8_cons, takeU64_append, takeU32_append _ _ _ h.2, take_append _ _ _ _ rfl,
    take_append _ _ _ 8 (length_checksum8 H (frameBody frame)), htake,
    decodePayload_encodePayload frame.ops h, length_frameBytes]
  rfl

/-! ## Canonical forms -/

theorem ObjectId.toBytes_fromBytes (bytes : Bytes) (h : bytes.length = 16) :
    ObjectId.toBytes (ObjectId.fromBytes bytes) = bytes := by
  have hlt := leNat_lt bytes.reverse
  rw [length_reverse, h] at hlt
  have hval : (ObjectId.fromBytes bytes).val = beNat bytes := by
    rw [ObjectId.fromBytes, Fin.val_ofNat,
      Nat.mod_eq_of_lt (lt_of_lt_of_le (show beNat bytes < _ from hlt) (by norm_num))]
  rw [ObjectId.toBytes, hval, ← h, beBytes_beNat]

theorem decodeOp_ok {c c' : Cursor} {op : Op} (h : decodeOp c = .ok (op, c')) :
    c.rest = encodeOp op ++ c'.rest := by
  rcases Parse.bind_eq_ok.mp h with ⟨tag, d, htag, hd⟩
  rw [takeU8_ok htag]
  split at hd
  · rcases Parse.bind_eq_ok.mp hd with ⟨k, e, hk, he⟩
    rcases Parse.bind_eq_ok.mp he with ⟨v, g, hv, hg⟩
    rcases Parse.pure_eq_ok.mp hg with ⟨rfl, rfl⟩
    simp [encodeOp, takeVec_ok hk, takeVec_ok hv, *]
  split at hd
  · rcases Parse.bind_eq_ok.mp hd with ⟨k, e, hk, he⟩
    rcases Parse.pure_eq_ok.mp he with ⟨rfl, rfl⟩
    simp [encodeOp, takeVec_ok hk, *]
  split at hd
  · rcases Parse.bind_eq_ok.mp hd with ⟨oid, e, hoid, he⟩
    rcases Parse.bind_eq_ok.mp he with ⟨lid, g, hlid, hg⟩
    rcases Parse.bind_eq_ok.mp hg with ⟨rid, i, hrid, hi⟩
    rcases Parse.bind_eq_ok.mp hi with ⟨pgen, j, hpgen, hj⟩
    rcases Parse.pure_eq_ok.mp hj with ⟨rfl, rfl⟩
    rcases take_ok hoid with ⟨hrest, hlen⟩
    simp [encodeOp, ObjectId.toBytes_fromBytes oid hlen, takeU64_ok hlid, takeU64_ok hrid,
      takeU64_ok hpgen, *]
  split at hd
  · rcases Parse.bind_eq_ok.mp hd with ⟨rid, e, hrid, he⟩
    rcases Parse.bind_eq_ok.mp he with ⟨k, g, hk, hg⟩
    rcases Parse.bind_eq_ok.mp hg with ⟨v, i, hv, hi⟩
    rcases Parse.pure_eq_ok.mp hi with ⟨rfl, rfl⟩
    simp [encodeOp, takeU64_ok hrid, takeVec_ok hk, takeVec_ok hv, *]
  split at hd
  · rcases Parse.bind_eq_ok.mp hd with ⟨rid, e, hrid, he⟩
    rcases Parse.bind_eq_ok.mp he with ⟨k, g, hk, hg⟩
    rcases Parse.pure_eq_ok.mp hg with ⟨rfl, rfl⟩
    simp [encodeOp, takeU64_ok hrid, takeVec_ok hk, *]
  · cases hd

theorem walkOps_collect_ok {n : Nat} {c c' : Cursor} {acc ops : List Op}
    (h : walkOps (fun ops op => .ok (ops ++ [op])) n c acc = .ok (c', ops)) :
    ∃ read, ops = acc ++ read ∧ read.length = n ∧ c.rest = read.flatMap encodeOp ++ c'.rest := by
  induction n generalizing c acc with
  | zero =>
    cases h
    exact ⟨[], by simp⟩
  | succ n ih =>
    rw [walkOps, bind_eq_ok] at h
    rcases h with ⟨⟨op, d⟩, hop, hd⟩
    rcases ih hd with ⟨read, rfl, rfl, hrest⟩
    exact ⟨op :: read, by simp, by simp, by simp [decodeOp_ok hop, hrest]⟩

theorem decodePayload_ok {payload : Bytes} {ops : List Op}
    (h : decodePayload payload = .ok ops) : ops ≠ [] ∧ payload = encodePayload ops := by
  rw [decodePayload, walkPayload, bind_eq_ok] at h
  rcases h with ⟨⟨count, c⟩, hcount, h⟩
  simp only [bind_eq_ok, ensure_eq_ok, pure_eq_ok, exists_const] at h
  rcases h with ⟨hne, ⟨d, read⟩, hwalk, hd, rfl⟩
  rcases walkOps_collect_ok hwalk with ⟨ops, hops, hlen, hrest⟩
  rcases takeU32_ok hcount with ⟨hpayload, _⟩
  simp only at hops hrest hd
  rw [nil_append] at hops
  subst hops
  rw [hd, append_nil] at hrest
  refine ⟨fun h0 => hne (by rw [← hlen]; exact length_eq_zero_iff.mpr h0), ?_⟩
  rw [encodePayload, hlen, ← hrest]
  exact hpayload

theorem decodeFrame_ok {H : Sha256} {bytes : Bytes} {frame : WalFrame} {n : Nat}
    (h : decodeFrame H bytes = .ok (frame, n)) :
    Encodable frame.ops ∧ n = (frameBytes H frame).length ∧
      ∃ rest, bytes = frameBytes H frame ++ rest := by
  rw [decodeFrame, bind_eq_ok] at h
  rcases h with ⟨⟨magic, c₁⟩, h₁, h⟩
  simp only [bind_eq_ok, ensure_eq_ok, pure_eq_ok, exists_const, Prod.exists] at h
  rcases h with ⟨rfl, _, c₂, h₂, rfl, _, c₃, h₃, rfl, seq, c₄, h₄, len, c₅, h₅, payload, c₆, h₆,
    stored, c₇, h₇, hsum, ops, hops, hframe⟩
  obtain ⟨rfl, rfl⟩ := Prod.mk.inj hframe
  rcases decodePayload_ok hops with ⟨hne, rfl⟩
  rcases takeU32_ok h₅ with ⟨hc₄, hlt⟩
  rcases take_ok h₆ with ⟨hc₅, rfl⟩
  rcases take_ok h₇ with ⟨hc₆, hstored⟩
  have hbody : bytes = frameBody ⟨seq, ops⟩ ++ (stored ++ c₇.rest) := by
    rw [frameBody, frameHeader, show bytes = _ from (take_ok h₁).1, takeU16_ok h₂, takeU8_ok h₃,
      takeU64_ok h₄, hc₄, hc₅, hc₆]
    simp only [append_assoc, cons_append]
  have hisPre : bytes.take (frameHeaderLen + (encodePayload ops).length + 8 - 8)
      = frameBody ⟨seq, ops⟩ := by
    rw [Nat.add_sub_cancel, hbody, take_left' (length_frameBody ⟨seq, ops⟩)]
  refine ⟨⟨hne, hlt⟩, (length_frameBytes H ⟨seq, ops⟩).symm, c₇.rest, ?_⟩
  rw [frameBytes, append_assoc, ← hisPre, hsum, hisPre]
  exact hbody

end Aikoql.Storage
