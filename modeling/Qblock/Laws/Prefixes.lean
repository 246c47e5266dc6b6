import Qblock.Laws.Sizes
import Qblock.Wire.Layout

/-!
# Lengths and counts

Every length and every count is written as the size of a container cast to
8, 16 or 32 bits, and behind it all the bytes or elements there are. Nothing
bounds the sizes, so a prefix is true exactly if the cast loses nothing.

`layout` tells the prefixes of a serialized object from the rest, class by
class in the order of `serialize`. What is behind a null pointer is laid out
as nothing, and is never written. Addresses, native tokens, token schemes,
unlock conditions, inputs, signatures and unlocks write no prefix.

The sets of features and of unlock conditions are not among the sizes that
`SizesFit` bounds: there are only so many types.

- `…_serialize_flatten` — what is written is the layout;
- `…_truthful_iff` — its prefixes are true exactly if the sizes fit;
- `prefixes_true_iff` — both, for every class that writes a prefix.
-/

namespace Qblock

open Wire Qt

/-! ## Containers -/

section Containers

variable (σ : Type) {T : Type} [Scalar σ]

/-- The layout of what a pointer points to. -/
def layoutAt (layout : T → Layout) (p : Option T) : Layout := p.elim (.raw []) layout

/-- The layout of a container: its count, and what it points to. -/
def layoutCounted (layout : T → Layout) (ps : List (Option T)) : Layout :=
  .countedAs σ (ps.map (layoutAt layout))

/-- The layout of an `fl_array`. -/
def layoutFlArray (obj : Bytes) : Layout := .sizedAs σ (.raw obj)

/-- The layout of an object that writes no prefix. -/
def layoutPlain (serialized : Except Fault Bytes) : Layout :=
  match serialized with
  | .ok b => .raw b
  | .error _ => .raw []

variable {σ} {serialize : T → Except Fault Bytes} {layout : T → Layout}

/-- A layout without prefixes is the bytes. -/
theorem layoutPlain_flatten {serialized : Except Fault Bytes} {b : Bytes}
    (h : serialized = .ok b) : b = (layoutPlain serialized).flatten := by
  rw [h, layoutPlain, Layout.flatten_raw]

/-- A layout without prefixes has none to be wrong. -/
@[simp] theorem layoutPlain_truthful (serialized : Except Fault Bytes) :
    (layoutPlain serialized).Truthful ↔ True := by
  cases serialized with
  | ok _ | error _ => rw [layoutPlain, Layout.truthful_raw]

@[simp] theorem layoutFlArray_flatten (obj : Bytes) :
    (layoutFlArray σ obj).flatten = writeFlArray σ obj := by
  rw [layoutFlArray, Layout.flatten_sizedAs, Layout.flatten_raw, writeFlArray]

/-- The prefix of a byte array is true exactly if its length fits it. -/
@[simp] theorem layoutFlArray_truthful {obj : Bytes} :
    (layoutFlArray σ obj).Truthful ↔ obj.length < 256 ^ Scalar.width σ := by
  rw [layoutFlArray, Layout.truthful_sizedAs, Layout.flatten_raw, Layout.truthful_raw, and_true]

/-- A container is laid out as a count and the layouts of its elements. -/
theorem serializeCounted_flatten (h : ∀ x b, serialize x = .ok b → b = (layout x).flatten)
    {ps : List (Option T)} {b : Bytes} (hb : serializeCounted σ serialize ps = .ok b) :
    b = (layoutCounted σ layout ps).flatten := by
  obtain ⟨c, hc, rfl⟩ := serializeCounted_eq_ok.mp hb
  obtain ⟨bs, hbs, rfl⟩ := serializeAll_eq_ok.mp hc
  rw [layoutCounted, Layout.flatten_countedAs, List.length_map]
  congr 1
  clear hb hc
  induction hbs with
  | nil => rfl
  | cons head _ ih =>
    obtain ⟨x, rfl, hx⟩ := head
    rw [List.flatten_cons, List.map_cons, List.flatMap_cons, ih, h x _ hx]
    rfl

/-- A container that is written: its prefixes are true exactly if its count
fits and those of its elements are true. -/
theorem layoutCounted_truthful {fit : T → Prop}
    (h : ∀ x b, serialize x = .ok b → ((layout x).Truthful ↔ fit x))
    {ps : List (Option T)} {b : Bytes} (hb : serializeCounted σ serialize ps = .ok b) :
    (layoutCounted σ layout ps).Truthful ↔
      ps.length < 256 ^ Scalar.width σ ∧ AllFit fit ps := by
  obtain ⟨c, hc, -⟩ := serializeCounted_eq_ok.mp hb
  obtain ⟨bs, hbs, -⟩ := serializeAll_eq_ok.mp hc
  rw [layoutCounted, Layout.truthful_countedAs, List.length_map]
  apply and_congr Iff.rfl
  clear hb hc
  induction hbs with
  | nil => exact iff_of_true nofun nofun
  | cons head _ ih =>
    obtain ⟨x, rfl, hx⟩ := head
    rw [List.map_cons, List.forall_mem_cons, ih]
    simp [AllFit, layoutAt, h x _ hx]

end Containers

/-! ## Features -/

def Feature.layout (f : Feature) : Layout :=
  match f with
  | sender a | issuer a =>
    .seq [.raw (Scalar.put f.type.toUInt8), layoutAt (fun a => .raw a.serialize) a]
  | metadata data => .seq [.raw (Scalar.put f.type.toUInt8), layoutFlArray UInt16 data]
  | tag data => .seq [.raw (Scalar.put f.type.toUInt8), layoutFlArray UInt8 data]

def Feature.SizesFit : Feature → Prop
  | sender _ | issuer _ => True
  | metadata data => data.length < 256 ^ 2
  | tag data => data.length < 256

/-- The features with data have a prefix, those with an address none. -/
theorem Feature.serialize_flatten {f : Feature} {b : Bytes} (h : f.serialize = .ok b) :
    b = f.layout.flatten := by
  cases f with
  | sender a | issuer a =>
    cases a with
    | none => cases h
    | some a =>
      cases h
      simp [layout, layoutAt]
  | metadata _ | tag _ =>
    cases h
    simp [layout]

/-- The data of a feature fit their prefix. -/
theorem Feature.truthful_iff (f : Feature) : f.layout.Truthful ↔ f.SizesFit := by
  cases f with
  | sender a | issuer a => cases a <;> simp [layout, layoutAt, SizesFit]
  | metadata _ | tag _ =>
    simp only [layout, Layout.truthful_seq_cons, Layout.truthful_seq_nil, Layout.truthful_raw,
      layoutFlArray_truthful, true_and, and_true]
    rfl

/-! ## Outputs -/

namespace Output

section Definitions

variable [Platform]

def Kind.layout (kind : Kind) : Layout :=
  match kind with
  | .basic | .nft _ | .foundry _ _ => layoutPlain kind.serialize
  | .alias aliasId stateIndex foundryCounter stateMetadata =>
    .seq [.raw aliasId, .raw (Scalar.put stateIndex), layoutFlArray UInt16 stateMetadata,
      .raw (Scalar.put foundryCounter)]

/-- The layout of the immutable features, which a basic output does not write. -/
def lastLayout (o : Output) : Layout :=
  match o.kind with
  | .basic => .raw []
  | .nft _ | .foundry _ _ | .alias _ _ _ _ =>
    layoutCounted UInt8 Feature.layout o.immutableFeatures.elems

def layout (o : Output) : Layout :=
  .seq [.raw (Scalar.put o.type.toUInt8), .raw (Scalar.put o.amount),
    layoutCounted UInt8 (fun t => .raw t.serialize) o.nativeTokens.elems, o.kind.layout,
    layoutCounted UInt8 (fun c => layoutPlain c.serialize) o.unlockConditions.elems,
    layoutCounted UInt8 Feature.layout o.features.elems, o.lastLayout]

def Kind.SizesFit : Kind → Prop
  | .basic | .nft _ | .foundry _ _ => True
  | .alias _ _ _ stateMetadata => stateMetadata.length < 256 ^ 2

structure SizesFit (o : Output) : Prop where
  kind : o.kind.SizesFit
  nativeTokens : o.nativeTokens.elems.length < 256
  features : AllFit Feature.SizesFit o.features.elems
  immutableFeatures : o.kind ≠ .basic → AllFit Feature.SizesFit o.immutableFeatures.elems

end Definitions

theorem serializeFeatures_flatten {s : PSet Feature} {b : Bytes}
    (h : serializeFeatures s = .ok b) : b = (layoutCounted UInt8 Feature.layout s.elems).flatten :=
  serializeCounted_flatten (fun _ _ => Feature.serialize_flatten) h

/-- The count of a set of features always fits. -/
theorem layoutFeatures_truthful {s : PSet Feature} {b : Bytes}
    (h : serializeFeatures s = .ok b) :
    (layoutCounted UInt8 Feature.layout s.elems).Truthful ↔ AllFit Feature.SizesFit s.elems := by
  have few : s.elems.length < 256 ^ Scalar.width UInt8 :=
    Nat.lt_of_le_of_lt (features_length_le s) (by decide)
  rw [layoutCounted_truthful (fun f _ _ => f.truthful_iff) h, and_iff_right few]

/-- The count of a set of unlock conditions always fits. -/
theorem layoutUnlockConditions_truthful {s : PSet UnlockCondition} {b : Bytes}
    (h : serializeUnlockConditions s = .ok b) :
    (layoutCounted UInt8 (fun c => layoutPlain c.serialize) s.elems).Truthful := by
  have few : s.elems.length < 256 ^ Scalar.width UInt8 :=
    Nat.lt_of_le_of_lt (unlockConditions_length_le s) (by decide)
  rw [layoutCounted_truthful (fun c _ _ => layoutPlain_truthful c.serialize) h]
  exact ⟨few, fun _ _ _ _ => trivial⟩

/-- All kinds but the basic one close with their immutable features. -/
theorem lastLayout_eq {o : Output} (h : o.kind ≠ .basic) :
    o.lastLayout = layoutCounted UInt8 Feature.layout o.immutableFeatures.elems := by
  unfold lastLayout
  split
  · next heq => exact absurd heq h
  all_goals rfl

theorem serializeLast_flatten {o : Output} {b : Bytes} (h : o.serializeLast = .ok b) :
    b = o.lastLayout.flatten := by
  by_cases basic : o.kind = .basic
  · rw [serializeLast, basic] at h
    cases h
    rw [lastLayout, basic, Layout.flatten_raw]
  · rw [serializeLast_eq, if_neg basic] at h
    rw [lastLayout_eq basic, ← serializeFeatures_flatten h]

theorem lastLayout_truthful {o : Output} {b : Bytes} (h : o.serializeLast = .ok b) :
    o.lastLayout.Truthful ↔
      (o.kind ≠ .basic → AllFit Feature.SizesFit o.immutableFeatures.elems) := by
  by_cases basic : o.kind = .basic
  · rw [lastLayout, basic, Layout.truthful_raw]
    exact iff_of_true trivial fun hne => absurd rfl hne
  · rw [serializeLast_eq, if_neg basic] at h
    rw [lastLayout_eq basic, layoutFeatures_truthful h]
    exact (imp_iff_right basic).symm

section Writing

variable [Platform]

theorem Kind.serialize_flatten {kind : Kind} {b : Bytes} (h : kind.serialize = .ok b) :
    b = kind.layout.flatten := by
  cases kind with
  | basic | nft _ | foundry _ _ => exact layoutPlain_flatten h
  | «alias» _ _ _ _ =>
    cases h
    simp [layout]

/-- Only an alias has a field with a prefix of its own. -/
theorem Kind.truthful_iff (kind : Kind) : kind.layout.Truthful ↔ kind.SizesFit := by
  cases kind with
  | basic | nft _ | foundry _ _ => rw [layout, layoutPlain_truthful, SizesFit]
  | «alias» _ _ _ _ =>
    simp only [layout, Layout.truthful_seq_cons, Layout.truthful_seq_nil, Layout.truthful_raw,
      layoutFlArray_truthful, true_and, and_true]
    rfl

/-- The bytes of an output are those of its layout. -/
theorem serialize_flatten {o : Output} {b : Bytes} (h : o.serialize = .ok b) :
    b = o.layout.flatten := by
  obtain ⟨nativeTokens, kind, unlockConditions, features, last, hnt, hkind, huc, hf, hlast, rfl⟩ :=
    serialize_eq_ok.mp h
  have tokens : nativeTokens =
      (layoutCounted UInt8 (fun t : NativeToken => .raw t.serialize)
        o.nativeTokens.elems).flatten :=
    serializeCounted_flatten (fun t b ht => by rw [Layout.flatten_raw, Except.ok.inj ht]) hnt
  have conditions : unlockConditions =
      (layoutCounted UInt8 (fun c : UnlockCondition => layoutPlain c.serialize)
        o.unlockConditions.elems).flatten :=
    serializeCounted_flatten (fun _ _ => layoutPlain_flatten) huc
  rw [tokens, Kind.serialize_flatten hkind, conditions, serializeFeatures_flatten hf,
    serializeLast_flatten hlast]
  simp [layout]

/-- The prefixes of an output are true exactly if the sizes of its parts fit. -/
theorem truthful_iff {o : Output} {b : Bytes} (h : o.serialize = .ok b) :
    o.layout.Truthful ↔ o.SizesFit := by
  obtain ⟨_, _, _, _, _, hnt, -, huc, hf, hlast, -⟩ := serialize_eq_ok.mp h
  have tokens : (layoutCounted UInt8 (fun t : NativeToken => .raw t.serialize)
      o.nativeTokens.elems).Truthful ↔ o.nativeTokens.elems.length < 256 := by
    rw [layoutCounted_truthful (fun t _ _ => Layout.truthful_raw t.serialize) hnt]
    exact and_iff_left fun _ _ _ _ => trivial
  simp only [layout, Layout.truthful_seq_cons, Layout.truthful_seq_nil, Layout.truthful_raw,
    tokens, Kind.truthful_iff, layoutUnlockConditions_truthful huc, layoutFeatures_truthful hf,
    lastLayout_truthful hlast, true_and, and_true]
  constructor
  · intro h
    obtain ⟨hn, hk, hfs, him⟩ := h
    exact ⟨hk, hn, hfs, him⟩
  · intro fits
    exact ⟨fits.nativeTokens, fits.kind, fits.features, fits.immutableFeatures⟩

end Writing

end Output

/-! ## Essences and payloads -/

section Payloads

variable [Platform]

mutual

def Essence.layout : Essence → Layout
  | .transaction networkId inputs inputsCommitment outputs payload =>
    .seq [.raw (Scalar.put Essence.transactionType), .raw (Scalar.put networkId),
      layoutCounted UInt16 (fun i => .raw i.serialize) inputs, .raw inputsCommitment,
      layoutCounted UInt16 Output.layout outputs,
      match payload with
        | some p => .sizedAs UInt32 p.layout
        | none => .raw [],
      .sizedAs UInt32 (.raw [])]

def Payload.layout : Payload → Layout
  | .taggedData tag data =>
    .seq [.raw (Scalar.put Payload.taggedDataType), layoutFlArray UInt8 tag,
      layoutFlArray UInt32 data]
  | .transaction essence unlocks =>
    .seq [.raw (Scalar.put Payload.transactionType),
      match essence with
        | some e => e.layout
        | none => .raw [],
      layoutCounted UInt16 (fun u => layoutPlain u.serialize) unlocks]

end

mutual

def Essence.SizesFit : Essence → Prop
  | .transaction _ inputs _ outputs payload =>
    inputs.length < 256 ^ 2 ∧ outputs.length < 256 ^ 2 ∧ AllFit Output.SizesFit outputs ∧
      match payload with
      | some p => p.byteSize < 256 ^ 4 ∧ p.SizesFit
      | none => True

def Payload.SizesFit : Payload → Prop
  | .taggedData tag data => tag.length < 256 ∧ data.length < 256 ^ 4
  | .transaction essence unlocks =>
    unlocks.length < 256 ^ 2 ∧
      match essence with
      | some e => e.SizesFit
      | none => True

end

section Equations

variable {networkId : UInt64} {inputs : List (Option Input)} {inputsCommitment : Bytes}
  {outputs : List (Option Output)} {payload : Option Payload} {essence : Option Essence}
  {unlocks : List (Option Unlock)}

theorem Essence.layout_transaction :
    (Essence.transaction networkId inputs inputsCommitment outputs payload).layout =
      .seq [.raw (Scalar.put transactionType), .raw (Scalar.put networkId),
        layoutCounted UInt16 (fun i => .raw i.serialize) inputs, .raw inputsCommitment,
        layoutCounted UInt16 Output.layout outputs,
        layoutAt (fun p => .sizedAs UInt32 p.layout) payload, .sizedAs UInt32 (.raw [])] := by
  cases payload with
  | none | some _ => rw [Essence.layout]; rfl

theorem Payload.layout_transaction :
    (Payload.transaction essence unlocks).layout =
      .seq [.raw (Scalar.put transactionType), layoutAt Essence.layout essence,
        layoutCounted UInt16 (fun u => layoutPlain u.serialize) unlocks] := by
  cases essence with
  | none | some _ => rw [Payload.layout]; rfl

omit [Platform] in
theorem Essence.sizesFit_transaction :
    (Essence.transaction networkId inputs inputsCommitment outputs payload).SizesFit ↔
      inputs.length < 256 ^ 2 ∧ outputs.length < 256 ^ 2 ∧ AllFit Output.SizesFit outputs ∧
        ∀ p ∈ payload, p.byteSize < 256 ^ 4 ∧ p.SizesFit := by
  cases payload with
  | none | some _ => simp [Essence.SizesFit]

omit [Platform] in
theorem Payload.sizesFit_transaction :
    (Payload.transaction essence unlocks).SizesFit ↔
      unlocks.length < 256 ^ 2 ∧ ∀ e ∈ essence, e.SizesFit := by
  cases essence with
  | none | some _ => simp [Payload.SizesFit]

end Equations

omit [Platform] in
theorem lengthPrefixed_flatten {serialized : Bytes} {layout : Layout}
    (h : serialized = layout.flatten) :
    lengthPrefixed serialized = (Layout.sizedAs UInt32 layout).flatten := by
  rw [Layout.flatten_sizedAs, ← h, lengthPrefixed]

mutual

/-- The bytes of an essence are those of its layout. -/
theorem Essence.serialize_flatten : ∀ {e : Essence} {b : Bytes}, e.serialize = .ok b →
    b = e.layout.flatten
  | .transaction _ inputs _ outputs payload, b, h => by
    obtain ⟨inputs', outputs', embedded, hi, ho, hp, rfl⟩ := Essence.serialize_eq_ok.mp h
    have inputs_flatten : inputs' =
        (layoutCounted UInt16 (fun i : Input => .raw i.serialize) inputs).flatten :=
      serializeCounted_flatten (fun i b hi => by rw [Layout.flatten_raw, Except.ok.inj hi]) hi
    have outputs_flatten : outputs' = (layoutCounted UInt16 Output.layout outputs).flatten :=
      serializeCounted_flatten (fun _ _ => Output.serialize_flatten) ho
    have embedded_flatten : embedded =
        (layoutAt (fun p : Payload => .sizedAs UInt32 p.layout) payload).flatten := by
      cases payload with
      | none =>
        cases hp
        exact (Layout.flatten_raw []).symm
      | some p =>
        obtain ⟨serialized, hs, heq⟩ := bind_eq_ok.mp hp
        cases heq
        exact lengthPrefixed_flatten (Payload.serialize_flatten hs)
    rw [Essence.layout_transaction, inputs_flatten, outputs_flatten, embedded_flatten]
    simp only [Layout.flatten_seq_cons, Layout.flatten_seq_nil, Layout.flatten_raw,
      Layout.flatten_sizedAs, List.append_nil]
    rfl

theorem Payload.serialize_flatten : ∀ {p : Payload} {b : Bytes}, p.serialize = .ok b →
    b = p.layout.flatten
  | .taggedData tag data, b, h => by
    rw [Payload.serialize] at h
    cases h
    simp [Payload.layout]
  | .transaction none _, b, h => by
    obtain ⟨_, _, _, ⟨⟩, -⟩ := Payload.serialize_eq_ok.mp h
  | .transaction (some e) unlocks, b, h => by
    obtain ⟨_, essence', unlocks', ⟨⟩, he, hu, rfl⟩ := Payload.serialize_eq_ok.mp h
    have unlocks_flatten : unlocks' =
        (layoutCounted UInt16 (fun u : Unlock => layoutPlain u.serialize) unlocks).flatten :=
      serializeCounted_flatten (fun _ _ => layoutPlain_flatten) hu
    rw [Payload.layout_transaction, Essence.serialize_flatten he, unlocks_flatten]
    simp [layoutAt]

end

mutual

/-- The prefixes of an essence, the length of its payload among them. -/
theorem Essence.truthful_iff [LawfulPlatform] : ∀ {e : Essence} {b : Bytes},
    e.serialize = .ok b → (e.layout.Truthful ↔ e.SizesFit)
  | .transaction _ inputs _ outputs payload, b, h => by
    obtain ⟨_, _, _, hi, ho, hp, -⟩ := Essence.serialize_eq_ok.mp h
    have inputs_truthful :
        (layoutCounted UInt16 (fun i : Input => .raw i.serialize) inputs).Truthful ↔
          inputs.length < 256 ^ 2 := by
      rw [layoutCounted_truthful (fun i _ _ => Layout.truthful_raw i.serialize) hi]
      exact and_iff_left fun _ _ _ _ => trivial
    have outputs_truthful : (layoutCounted UInt16 Output.layout outputs).Truthful ↔
        outputs.length < 256 ^ 2 ∧ AllFit Output.SizesFit outputs :=
      layoutCounted_truthful (fun _ _ => Output.truthful_iff) ho
    have embedded_truthful :
        (layoutAt (fun p : Payload => .sizedAs UInt32 p.layout) payload).Truthful ↔
          ∀ p ∈ payload, p.byteSize < 256 ^ 4 ∧ p.SizesFit := by
      cases payload with
      | none => exact iff_of_true ((Layout.truthful_raw []).mpr trivial) nofun
      | some p =>
        obtain ⟨serialized, hs, -⟩ := bind_eq_ok.mp hp
        show (Layout.sizedAs UInt32 p.layout).Truthful ↔ _
        rw [Layout.truthful_sizedAs, ← Payload.serialize_flatten hs, Payload.serialize_length hs,
          Payload.truthful_iff hs]
        simp only [Option.mem_def, Option.some.injEq, forall_eq']
        rfl
    have closing : (Layout.sizedAs UInt32 (.raw [])).Truthful := by
      rw [Layout.truthful_sizedAs, Layout.truthful_raw, Layout.flatten_raw]
      exact ⟨by decide, trivial⟩
    rw [Essence.layout_transaction, Essence.sizesFit_transaction]
    simp only [Layout.truthful_seq_cons, Layout.truthful_seq_nil, Layout.truthful_raw,
      inputs_truthful, outputs_truthful, embedded_truthful, closing, true_and, and_true, and_assoc]

/-- The prefixes of a payload, those of embedded ones among them. -/
theorem Payload.truthful_iff [LawfulPlatform] : ∀ {p : Payload} {b : Bytes},
    p.serialize = .ok b → (p.layout.Truthful ↔ p.SizesFit)
  | .taggedData tag data, b, h => by
    rw [Payload.layout, Payload.SizesFit]
    simp only [Layout.truthful_seq_cons, Layout.truthful_seq_nil, Layout.truthful_raw,
      layoutFlArray_truthful, true_and, and_true]
    rfl
  | .transaction none _, b, h => by
    obtain ⟨_, _, _, ⟨⟩, -⟩ := Payload.serialize_eq_ok.mp h
  | .transaction (some e) unlocks, b, h => by
    obtain ⟨_, _, _, ⟨⟩, he, hu, -⟩ := Payload.serialize_eq_ok.mp h
    have unlocks_truthful :
        (layoutCounted UInt16 (fun u : Unlock => layoutPlain u.serialize) unlocks).Truthful ↔
          unlocks.length < 256 ^ 2 := by
      rw [layoutCounted_truthful (fun u _ _ => layoutPlain_truthful u.serialize) hu]
      exact and_iff_left fun _ _ _ _ => trivial
    have essence_truthful : (layoutAt Essence.layout (some e)).Truthful ↔ e.SizesFit :=
      Essence.truthful_iff he
    rw [Payload.layout_transaction, Payload.sizesFit_transaction]
    simp only [Layout.truthful_seq_cons, Layout.truthful_seq_nil, Layout.truthful_raw,
      unlocks_truthful, essence_truthful, Option.mem_def, Option.some.injEq, forall_eq', true_and,
      and_true]
    exact and_comm

end

/-! ## Blocks -/

namespace Block

/-- The layout of the slot of the payload. -/
def slotLayout (payload : Option Payload) : Layout :=
  .sizedAs UInt32 (layoutAt Payload.layout payload)

def layout (b : Block) : Layout :=
  .seq [.raw (Scalar.put b.protocolVersion), .countedAs UInt8 (b.parents.map .raw),
    slotLayout b.payload, .raw (Scalar.put b.nonce)]

structure SizesFit (b : Block) : Prop where
  parents : b.parents.length < 256
  payload_length : ∀ p ∈ b.payload, p.byteSize < 256 ^ 4
  payload : ∀ p ∈ b.payload, p.SizesFit

theorem serialize_flatten {b : Block} {x : Bytes} (h : b.serialize = .ok x) :
    x = b.layout.flatten := by
  obtain ⟨slot, hslot, rfl⟩ := serialize_eq_ok.mp h
  have slot_flatten : slot = (slotLayout b.payload).flatten := by
    cases hp : b.payload with
    | none =>
      rw [hp] at hslot
      cases hslot
      show _ = (Layout.sizedAs UInt32 (.raw [])).flatten
      rw [Layout.flatten_sizedAs, Layout.flatten_raw]
      rfl
    | some p =>
      rw [hp] at hslot
      obtain ⟨serialized, hs, heq⟩ := bind_eq_ok.mp hslot
      cases heq
      exact lengthPrefixed_flatten (Payload.serialize_flatten hs)
  have parents_flatten : (b.parents.map Layout.raw).flatMap Layout.flatten = b.parents.flatten := by
    simp [List.flatMap_map, List.flatMap_id']
  rw [slot_flatten]
  simp only [layout, Layout.flatten_seq_cons, Layout.flatten_seq_nil, Layout.flatten_raw,
    Layout.flatten_countedAs, List.length_map, parents_flatten, List.append_nil]

theorem truthful_iff [LawfulPlatform] {b : Block} {x : Bytes} (h : b.serialize = .ok x) :
    b.layout.Truthful ↔ b.SizesFit := by
  obtain ⟨slot, hslot, -⟩ := serialize_eq_ok.mp h
  have slot_truthful : (slotLayout b.payload).Truthful ↔
      ∀ p ∈ b.payload, p.byteSize < 256 ^ 4 ∧ p.SizesFit := by
    rw [slotLayout, Layout.truthful_sizedAs]
    cases hp : b.payload with
    | none =>
      simp [layoutAt]
    | some p =>
      rw [hp] at hslot
      obtain ⟨serialized, hs, -⟩ := bind_eq_ok.mp hslot
      show p.layout.flatten.length < _ ∧ p.layout.Truthful ↔ _
      rw [← Payload.serialize_flatten hs, Payload.serialize_length hs, Payload.truthful_iff hs]
      simp only [Option.mem_def, Option.some.injEq, forall_eq']
      rfl
  have parents_truthful : (Layout.countedAs UInt8 (b.parents.map .raw)).Truthful ↔
      b.parents.length < 256 := by
    rw [Layout.truthful_countedAs, List.length_map]
    exact and_iff_left fun _ hitem => by
      obtain ⟨id, -, rfl⟩ := List.mem_map.mp hitem
      exact (Layout.truthful_raw id).mpr trivial
  simp only [layout, Layout.truthful_seq_cons, Layout.truthful_seq_nil, Layout.truthful_raw,
    parents_truthful, slot_truthful, true_and, and_true]
  constructor
  · intro h
    obtain ⟨hn, hp⟩ := h
    exact ⟨hn, fun p hmem => (hp p hmem).1, fun p hmem => (hp p hmem).2⟩
  · intro fits
    exact ⟨fits.parents, fun p hmem => ⟨fits.payload_length p hmem, fits.payload p hmem⟩⟩

end Block

/-! ## Every class -/

/-- What `serialize` writes is laid out as `layout` says, and its prefixes
are true exactly if `sizesFit`. -/
def PrefixesTrueIff {T : Type} (serialize : T → Except Fault Bytes) (layout : T → Layout)
    (sizesFit : T → Prop) : Prop :=
  ∀ x b, serialize x = .ok b → b = (layout x).flatten ∧ ((layout x).Truthful ↔ sizesFit x)

theorem prefixes_true_iff [LawfulPlatform] :
    PrefixesTrueIff Feature.serialize Feature.layout Feature.SizesFit ∧
    PrefixesTrueIff Output.serialize Output.layout Output.SizesFit ∧
    PrefixesTrueIff Essence.serialize Essence.layout Essence.SizesFit ∧
    PrefixesTrueIff Payload.serialize Payload.layout Payload.SizesFit ∧
    PrefixesTrueIff Block.serialize Block.layout Block.SizesFit :=
  ⟨fun f _ h => ⟨Feature.serialize_flatten h, f.truthful_iff⟩,
    fun _ _ h => ⟨Output.serialize_flatten h, Output.truthful_iff h⟩,
    fun _ _ h => ⟨Essence.serialize_flatten h, Essence.truthful_iff h⟩,
    fun _ _ h => ⟨Payload.serialize_flatten h, Payload.truthful_iff h⟩,
    fun _ _ h => ⟨Block.serialize_flatten h, Block.truthful_iff h⟩⟩

end Payloads

section Sample

open Plain

/-- A tag of 255 bytes is as long as its prefix says. -/
theorem prefixes_true_iff_tag255 :
    (Payload.taggedData (List.replicate 255 7) []).layout.Truthful := by
  have written : (Payload.taggedData (List.replicate 255 7) []).serialize =
      .ok (Scalar.put Payload.taggedDataType ++ writeFlArray UInt8 (List.replicate 255 7) ++
        writeFlArray UInt32 []) := by
    rw [Payload.serialize]
    rfl
  apply (prefixes_true_iff.2.2.2.1 _ _ written).2.mpr
  rw [Payload.SizesFit, List.length_replicate, List.length_nil]
  decide

/-- A tag of 256 bytes has the length zero. -/
theorem Payload.tag256_prefix_false :
    let p := Payload.taggedData (List.replicate 256 7) []
    p.serialize = .ok ([5, 0, 0, 0] ++ ([0] ++ List.replicate 256 7) ++ [0, 0, 0, 0]) ∧
      p.serialize = .ok p.layout.flatten ∧ ¬ p.layout.Truthful := by
  have written : (Payload.taggedData (List.replicate 256 7) []).serialize =
      .ok ([5, 0, 0, 0] ++ ([0] ++ List.replicate 256 7) ++ [0, 0, 0, 0]) := by
    rw [Payload.serialize, writeFlArray, List.length_replicate]
    rfl
  refine ⟨written, ?_, ?_⟩
  · rw [written, serialize_flatten written]
  · rw [truthful_iff written]
    rw [SizesFit, List.length_replicate]
    exact fun fits => absurd fits.1 (by decide)

end Sample

end Qblock
