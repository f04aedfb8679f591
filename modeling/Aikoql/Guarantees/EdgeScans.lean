import Aikoql.Kernel.Ids

/-!
# Scans of the Relationship Indexes

The keys of the relationship and type indexes, and what a scan of them finds.

The key of an edge has the id it is found by, the type and the id at the other end, with a
slash before and behind the type. A scan asks for the keys that begin in one way, and reads
a key from both its ends, so it returns the type as it was. But a type that goes on behind a
slash begins like another one, and is found in its place.

## Definitions

* `HoldsRows`: The rows of an index in the keys of an engine.
* `Clashes`: A key that begins like those of another type.

## Theorems

* `decodeRelKey_relKey`: A key is read back whole, with slashes in its type.
* `scanEdges_exact_iff`: A scan is exact if and only if no key clashes with its type.
* `scans_exact`: The same for the outbound, the inbound and the type index.
-/

namespace Aikoql.Kernel

open List

variable {keys : List Bytes} {tag short start : Bytes} {koid other : Koid} {relType : Text}
  {relTypes : Option Text}

/-! ## Keys -/

def slash : Byte := 47

def pRelOut : Bytes := utf8 "relo/"

def pRelIn : Bytes := utf8 "reli/"

def pType : Bytes := utf8 "type/"

/-- Where the keys of an id begin, or those of an id and a type. -/
def relKeyStart (tag : Bytes) (koid : Koid) (relType : Option Text) : Bytes :=
  tag ++ (koid.bytes ++ slash :: (relType.map (· ++ [slash])).getD [])

def relKey (tag : Bytes) (koid : Koid) (relType : Text) (other : Koid) : Bytes :=
  relKeyStart tag koid (some relType) ++ other.bytes

def relOutKey (e : Edge) : Bytes := relKey pRelOut e.src e.relType e.dst

def relOutPrefixSrc (src : Koid) : Bytes := relKeyStart pRelOut src none

def relOutPrefixSrcType (src : Koid) (relType : Text) : Bytes :=
  relKeyStart pRelOut src (some relType)

def relInKey (e : Edge) : Bytes := relKey pRelIn e.dst e.relType e.src

def relInPrefixDst (dst : Koid) : Bytes := relKeyStart pRelIn dst none

def relInPrefixDstType (dst : Koid) (relType : Text) : Bytes :=
  relKeyStart pRelIn dst (some relType)

def typePrefix (typeName : Text) : Bytes := pType ++ (typeName ++ [slash])

def typeKey (row : Text × Koid) : Bytes := typePrefix row.1 ++ row.2.bytes

/-- The id, the type and the other id of a key. What is written as a type is a string, so it is
    one when it is read. -/
def decodeRelKey (short : Text) (key : Bytes) : Except KError (Koid × Text × Koid) :=
  if key.length < 5 + 16 + 1 + 1 + 16 then .error (.codec short)
  else
    let tail := key.drop (5 + 16 + 1)
    -- The type ends at the slash before the last sixteen bytes, not at the first one.
    let split := tail.length - 16 - 1
    .ok (Koid.ofBytes ((key.drop 5).take 16), tail.take split, Koid.ofBytes (tail.drop (split + 1)))

def decodeRelOutKey : Bytes → Except KError (Koid × Text × Koid) :=
  decodeRelKey (utf8 "rel out key too short")

def decodeRelInKey : Bytes → Except KError (Koid × Text × Koid) :=
  decodeRelKey (utf8 "rel in key too short")

/-! ## Scans -/

/-- The keys of an engine that begin with given bytes, in their order. -/
def scanKeys (keys : List Bytes) (start : Bytes) : List Bytes := keys.filter (start.isPrefixOf ·)

/-- The types and other ids of the keys that are found. -/
def scanEdges (decode : Bytes → Except KError (Koid × Text × Koid)) (keys : List Bytes)
    (start : Bytes) : Except KError (List (Text × Koid)) :=
  (scanKeys keys start).mapM fun key => do return (← decode key).2

def scanOutbound (keys : List Bytes) (src : Koid) (relType : Option Text) :
    Except KError (List (Text × Koid)) :=
  scanEdges decodeRelOutKey keys (relType.elim (relOutPrefixSrc src) (relOutPrefixSrcType src))

def scanInbound (keys : List Bytes) (dst : Koid) (relType : Option Text) :
    Except KError (List (Text × Koid)) :=
  scanEdges decodeRelInKey keys (relType.elim (relInPrefixDst dst) (relInPrefixDstType dst))

def scanType (keys : List Bytes) (typeName : Text) : List Koid :=
  let start := typePrefix typeName
  ((scanKeys keys start).filter fun key => key.length = start.length + 16).map fun key =>
    Koid.ofBytes (key.drop start.length)

/-- The keys of an engine that begin with a tag are those of the rows of an index. -/
def HoldsRows {α : Type} (keys : List Bytes) (tag : Bytes) (rows : List α) (keyOf : α → Bytes) :
    Prop :=
  scanKeys keys tag = rows.map keyOf
  deriving Decidable

/-- The key of an edge of one type begins, behind the id it is found by, like the keys of
    another type. -/
def Clashes (r t : Text) (other : Koid) : Prop :=
  t ≠ r ∧ r ++ [slash] <+: t ++ slash :: other.bytes
  deriving Decidable

/-! ## What is found -/

@[simp] theorem Koid.length_bytes (k : Koid) : k.bytes.length = 16 := length_beBytes _ _

@[simp] theorem Koid.ofBytes_bytes (k : Koid) : Koid.ofBytes k.bytes = k := by
  have hk : k.val < 256 ^ 16 := k.isLt
  rw [Koid.ofBytes, Koid.bytes, beNat_beBytes_of_lt 16 _ hk, Fin.ofNat_val_eq_self]

theorem relKey_eq : relKey tag koid relType other
    = tag ++ (koid.bytes ++ slash :: (relType ++ slash :: other.bytes)) := by
  simp [relKey, relKeyStart]

theorem decodeRelKey_relKey (htag : tag.length = 5) :
    decodeRelKey short (relKey tag koid relType other) = .ok (koid, relType, other) := by
  have hstart : (relKey tag koid relType other).drop 5
      = koid.bytes ++ slash :: (relType ++ slash :: other.bytes) := by
    rw [relKey_eq, drop_left' htag]
  have htail : (relKey tag koid relType other).drop (5 + 16 + 1)
      = relType ++ slash :: other.bytes := by
    rw [Nat.add_assoc, ← drop_drop, hstart, ← drop_drop, drop_left' (by simp)]
    rfl
  simp only [decodeRelKey, htail, hstart]
  rw [if_neg (by simp [relKey_eq, htag]; omega), take_left' (by simp)]
  simp

theorem isPrefixOf_relKey {k : Koid} :
    (relKeyStart tag koid relTypes).isPrefixOf (relKey tag k relType other)
      = (decide (k = koid) &&
        relTypes.all fun r => (r ++ [slash]).isPrefixOf (relType ++ slash :: other.bytes)) := by
  rw [Bool.eq_iff_iff, isPrefixOf_iff_prefix, Bool.and_eq_true, decide_eq_true_iff,
    relKey_eq, relKeyStart, prefix_append_right_inj]
  constructor
  · rintro ⟨rest, hrest⟩
    rw [append_assoc] at hrest
    obtain ⟨hkoid, htail⟩ := append_inj hrest (by simp)
    refine ⟨by rw [← k.ofBytes_bytes, ← hkoid, koid.ofBytes_bytes], ?_⟩
    cases relTypes with
    | none => rfl
    | some r => exact isPrefixOf_iff_prefix.mpr ⟨rest, by simpa using htail⟩
  · rintro ⟨rfl, hall⟩
    rw [prefix_append_right_inj, prefix_cons_inj]
    cases relTypes with
    | none => exact nil_prefix
    | some r => exact isPrefixOf_iff_prefix.mp hall

theorem scanKeys_rows {α : Type} {rows : List α} {keyOf : α → Bytes} {p : α → Bool}
    (hrows : HoldsRows keys tag rows keyOf) (htag : tag <+: start)
    (hp : ∀ row ∈ rows, start.isPrefixOf (keyOf row) = p row) :
    scanKeys keys start = (rows.filter p).map keyOf := by
  have hscan : scanKeys keys start = (scanKeys keys tag).filter (start.isPrefixOf ·) := by
    rw [scanKeys, scanKeys, filter_filter]
    refine filter_congr fun key _ => ?_
    by_cases hkey : start.isPrefixOf key
    · simp [hkey, htag.trans ( isPrefixOf_iff_prefix.mp hkey)]
    · simp [hkey]
  rw [hscan, hrows, filter_map]
  exact congrArg (List.map keyOf) (filter_congr hp)

theorem scanEdges_eq {rows : List Edge} (near far : Edge → Koid) (htag : tag.length = 5)
    (hrows : HoldsRows keys tag rows fun e => relKey tag (near e) e.relType (far e)) :
    scanEdges (decodeRelKey short) keys (relKeyStart tag koid relTypes) = .ok ((rows.filter fun e =>
      decide (near e = koid) && relTypes.all fun r =>
        (r ++ [slash]).isPrefixOf (e.relType ++ slash :: (far e).bytes)).map
          fun e => (e.relType, far e)) := by
  have hstart : tag <+: relKeyStart tag koid relTypes := prefix_append _ _
  rw [scanEdges, scanKeys_rows hrows hstart fun e _ => isPrefixOf_relKey]
  generalize rows.filter _ = found
  induction found with
  | nil => rfl
  | cons e found ih =>
    rw [map_cons, mapM_cons, decodeRelKey_relKey htag, ih]
    rfl

/-- Two filters of which one is stricter keep equally many rows only if they agree. -/
theorem map_filter_inj {α β : Type} {rows : List α} {p q : α → Bool} {f : α → β}
    (hpq : ∀ row ∈ rows, p row = true → q row = true) :
    (rows.filter q).map f = (rows.filter p).map f ↔ ∀ row ∈ rows, q row = true → p row = true := by
  constructor
  · intro heq row hrow hq
    have hlen : (rows.filter p).length = (rows.filter q).length := by
      simpa using (congrArg List.length heq).symm
    have hsub : rows.filter p <+ rows.filter q := by
      have hboth : rows.filter p = (rows.filter q).filter p := by
        rw [filter_filter]
        refine filter_congr fun row hrow => ?_
        cases hp : p row with
        | false => rfl
        | true => simp [hpq row hrow hp]
      rw [hboth]
      exact filter_sublist
    have hmem : row ∈ rows.filter p := by
      rw [hsub.eq_of_length hlen]
      exact mem_filter.mpr ⟨hrow, hq⟩
    exact (mem_filter.mp hmem).2
  · intro hqp
    exact congrArg (List.map f) (filter_congr fun row hrow =>
      Bool.eq_iff_iff.mpr ⟨hqp row hrow, hpq row hrow⟩)

theorem scanEdges_exact_iff (short : Bytes) (koid : Koid) (relTypes : Option Text)
    {rows : List Edge} (near far : Edge → Koid) (htag : tag.length = 5)
    (hrows : HoldsRows keys tag rows fun e => relKey tag (near e) e.relType (far e)) :
    scanEdges (decodeRelKey short) keys (relKeyStart tag koid relTypes) = .ok ((rows.filter fun e =>
      decide (near e = koid) && relTypes.all (e.relType = ·)).map fun e => (e.relType, far e)) ↔
    ∀ r ∈ relTypes, ∀ e ∈ rows, near e = koid → ¬Clashes r e.relType (far e) := by
  rw [scanEdges_eq near far htag hrows, Except.ok.injEq, map_filter_inj]
  · simp only [Bool.and_eq_true, decide_eq_true_eq, Option.all_eq_true, isPrefixOf_iff_prefix]
    constructor
    · intro h r hr e he hnear hclash
      refine hclash.1 ((h e he ⟨hnear, fun r' hr' => ?_⟩).2 r hr)
      exact Option.mem_unique hr' hr ▸ hclash.2
    · intro h e he hfound
      refine ⟨hfound.1, fun r hr => ?_⟩
      by_contra hne
      exact h r hr e he hfound.1 ⟨hne, hfound.2 r hr⟩
  · intro e _ hexact
    simp only [Bool.and_eq_true, decide_eq_true_eq, Option.all_eq_true,
      isPrefixOf_iff_prefix] at hexact ⊢
    refine ⟨hexact.1, fun r hr => ?_⟩
    rw [← hexact.2 r hr]
    exact ⟨(far e).bytes, by simp⟩

theorem scanType_eq {rows : List (Text × Koid)} (hrows : HoldsRows keys pType rows typeKey)
    (typeName : Text) :
    scanType keys typeName = (rows.filter (·.1 = typeName)).map Prod.snd := by
  have hstart : pType <+: typePrefix typeName := prefix_append _ _
  rw [scanType, scanKeys_rows hrows hstart fun _ _ => rfl, filter_map, filter_filter, map_map]
  have hsame : ∀ row ∈ rows, (((fun key : Bytes => decide
      (key.length = (typePrefix typeName).length + 16)) ∘ typeKey) row &&
      (typePrefix typeName).isPrefixOf (typeKey row)) = decide (row.1 = typeName) := by
    intro row _
    -- A key of the right length that begins with the type has no other one.
    rw [Bool.eq_iff_iff, Bool.and_eq_true, isPrefixOf_iff_prefix, decide_eq_true_iff]
    constructor
    · rintro ⟨hlen, rest, hrest⟩
      have hlen : (typePrefix typeName).length = (typePrefix row.1).length := by
        simpa [typeKey, eq_comm] using hlen
      obtain ⟨heq, -⟩ := append_inj hrest hlen
      exact (append_cancel_right (append_cancel_left heq)).symm
    · rintro rfl
      exact ⟨by simp [typeKey], prefix_append _ _⟩
  rw [filter_congr hsame]
  refine map_congr_left fun row hrow => ?_
  obtain rfl : row.1 = typeName := by simpa using (mem_filter.mp hrow).2
  simp [typeKey]

/-- The scans return exactly the edges of an id, in key order and with their types, and with a
    type those of the type, exactly if no key of the id clashes with the type. A scan of the
    type index is always exact. -/
theorem scans_exact {out inn : List Edge} {types : List (Text × Koid)}
    (hout : HoldsRows keys pRelOut out relOutKey) (hin : HoldsRows keys pRelIn inn relInKey)
    (htypes : HoldsRows keys pType types typeKey) (koid : Koid) (relType : Option Text)
    (typeName : Text) :
    (scanOutbound keys koid relType = .ok ((out.filter fun e =>
        e.src = koid && relType.all (e.relType = ·)).map fun e => (e.relType, e.dst)) ∧
      scanInbound keys koid relType = .ok ((inn.filter fun e =>
        e.dst = koid && relType.all (e.relType = ·)).map fun e => (e.relType, e.src)) ∧
      scanType keys typeName = (types.filter (·.1 = typeName)).map Prod.snd) ↔
    ∀ r ∈ relType, (∀ e ∈ out, e.src = koid → ¬Clashes r e.relType e.dst) ∧
      ∀ e ∈ inn, e.dst = koid → ¬Clashes r e.relType e.src := by
  -- Where the keys begin is one function of the tag, with or without a type.
  have hstart : ∀ tag, relType.elim (relKeyStart tag koid none)
      (fun r => relKeyStart tag koid (some r)) = relKeyStart tag koid relType := by
    intro tag
    cases relType <;> rfl
  have ho := scanEdges_exact_iff (utf8 "rel out key too short") koid relType Edge.src Edge.dst rfl
    hout
  have hi := scanEdges_exact_iff (utf8 "rel in key too short") koid relType Edge.dst Edge.src rfl
    hin
  rw [← hstart] at ho hi
  refine ⟨fun h r hr => ⟨ho.mp h.1 r hr, hi.mp h.2.1 r hr⟩, fun h => ?_⟩
  exact ⟨ho.mpr fun r hr => (h r hr).1, hi.mpr fun r hr => (h r hr).2, scanType_eq htypes typeName⟩

namespace EdgeScans

def edge : Edge := ⟨1, utf8 "a/b", 2⟩

theorem edge_scanned :
    scanOutbound [relOutKey edge] 1 (some (utf8 "a/b")) = .ok [(utf8 "a/b", 2)] := by
  have hout : HoldsRows [relOutKey edge] pRelOut [edge] relOutKey := by decide +kernel
  have hin : HoldsRows [relOutKey edge] pRelIn [] relInKey := by decide +kernel
  have htypes : HoldsRows [relOutKey edge] pType [] typeKey := by decide +kernel
  exact ((scans_exact hout hin htypes 1 _ []).mpr (by decide +kernel)).1

/-- A scan for the type `a` finds an edge of type `a/b`. -/
theorem scan_overlaps : HoldsRows [relOutKey edge] pRelOut [edge] relOutKey ∧
    scanOutbound [relOutKey edge] 1 (some (utf8 "a")) = .ok [(utf8 "a/b", 2)] :=
  ⟨by decide +kernel, rfl⟩

end EdgeScans

end Aikoql.Kernel
