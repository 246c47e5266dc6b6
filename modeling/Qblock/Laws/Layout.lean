import Qblock.Block
import Qblock.Laws.Containers

/-!
# What is written

The parts a serialized object is made of, in order, and the objects that
are written at all: those of which no pointer is null.

The four kinds of output share one layout, `Output.serialize_eq_ok`: what a
kind adds stands between its native tokens and its unlock conditions, and
all but the basic one close with their immutable features.

- `…_serialize_eq_ok` — the parts;
- `…_serialize_ok` — without null pointers, an object is written;
- `…_getJson_ok` — exactly without null pointers, it has a JSON form.
-/

namespace Qblock

open Wire Qt

/-! ## Tagged objects -/

/-- A feature is written if its address is there. -/
theorem Feature.serialize_ok {f : Feature} (h : f.NonNull) : ∃ b, f.serialize = .ok b := by
  cases f with
  | sender a | issuer a =>
    obtain ⟨a, rfl⟩ := Option.isSome_iff_exists.mp h
    exact ⟨_, rfl⟩
  | metadata _ | tag _ => exact ⟨_, rfl⟩

theorem Feature.getJson_ok {f : Feature} : (∃ j, f.getJson = .ok j) ↔ f.NonNull := by
  cases f with
  | sender a | issuer a =>
    cases a with
    | none => exact iff_of_false (fun ⟨_, h⟩ => by cases h) Bool.false_ne_true
    | some a => exact iff_of_true ⟨_, rfl⟩ rfl
  | metadata _ | tag _ => exact iff_of_true ⟨_, rfl⟩ trivial

/-- A timelock is always written, the other kinds if their address is there. -/
theorem UnlockCondition.serialize_ok {c : UnlockCondition} (h : c.NonNull) :
    ∃ b, c.serialize = .ok b := by
  cases c with
  | timelock _ => exact ⟨_, rfl⟩
  | address a | stateControllerAddress a | governorAddress a | immutableAliasAddress a
  | storageDepositReturn a _ | expiration a _ =>
    obtain ⟨a, rfl⟩ := Option.isSome_iff_exists.mp h
    exact ⟨_, rfl⟩

theorem UnlockCondition.getJson_ok {c : UnlockCondition} :
    (∃ j, c.getJson = .ok j) ↔ c.NonNull := by
  cases c with
  | timelock _ => exact iff_of_true ⟨_, rfl⟩ trivial
  | address a | stateControllerAddress a | governorAddress a | immutableAliasAddress a
  | storageDepositReturn a _ | expiration a _ =>
    cases a with
    | none => exact iff_of_false (fun ⟨_, h⟩ => by cases h) Bool.false_ne_true
    | some a => exact iff_of_true ⟨_, rfl⟩ rfl

/-- An unlock is written if its signature is there or it has none. -/
theorem Unlock.serialize_ok {u : Unlock} (h : u.NonNull) : ∃ b, u.serialize = .ok b := by
  cases u with
  | signature s =>
    obtain ⟨s, rfl⟩ := Option.isSome_iff_exists.mp h
    exact ⟨_, rfl⟩
  | reference _ | «alias» _ | nft _ => exact ⟨_, rfl⟩

theorem Unlock.getJson_ok {u : Unlock} : (∃ j, u.getJson = .ok j) ↔ u.NonNull := by
  cases u with
  | signature s =>
    cases s with
    | none => exact iff_of_false (fun ⟨_, h⟩ => by cases h) Bool.false_ne_true
    | some s => exact iff_of_true ⟨_, rfl⟩ rfl
  | reference _ | «alias» _ | nft _ => exact iff_of_true ⟨_, rfl⟩ trivial

/-! ## Sizes of sets -/

/-- There are four types of features. -/
theorem Feature.Types.toUInt8_lt (type : Feature.Types) : type.toUInt8.toNat < 4 := by
  cases type <;> decide

/-- There are seven types of unlock conditions. -/
theorem UnlockCondition.Types.toUInt8_lt (type : UnlockCondition.Types) :
    type.toUInt8.toNat < 7 := by
  cases type <;> decide

/-- There are four types of features. -/
theorem features_length_le (s : PSet Feature) : s.elems.length ≤ 4 :=
  PSet.length_le (by decide) UInt8.toNat (fun _ _ h => h) (fun f => f.type.toUInt8_lt) s

/-- There are seven types of unlock conditions. -/
theorem unlockConditions_length_le (s : PSet UnlockCondition) : s.elems.length ≤ 7 :=
  PSet.length_le (by decide) UInt8.toNat (fun _ _ h => h) (fun c => c.type.toUInt8_lt) s

/-! ## Containers as JSON -/

/-- A container has a JSON form exactly if each of its elements is there and
has one. -/
theorem getJsonAll_ok {T : Type} {getJson : T → Except Fault QJsonObject} {nonNull : T → Prop}
    (h : ∀ x, (∃ j, getJson x = .ok j) ↔ nonNull x) {ps : List (Option T)} :
    (∃ js, getJsonAll getJson ps = .ok js) ↔ AllNonNull nonNull ps := by
  induction ps with
  | nil => simp [getJsonAll, AllNonNull]
  | cons p ps ih =>
    cases p with
    | none => simp [getJsonAll, AllNonNull, deref, bind_eq_ok]
    | some x =>
      have tail : AllNonNull nonNull (some x :: ps) ↔ nonNull x ∧ AllNonNull nonNull ps := by
        simp [AllNonNull]
      rw [tail, ← ih, ← h]
      simp [getJsonAll, deref, bind_eq_ok, map_eq_ok]

/-! ## Outputs -/

section Outputs

variable [Platform]

namespace Output

/-- What a kind puts between the native tokens and the unlock conditions. -/
def Kind.serialize (kind : Kind) : Except Fault Bytes :=
  match kind with
  | .basic => return []
  | .nft nftId => return nftId
  | .foundry tokenScheme serialNumber => do
    let tokenScheme ← deref tokenScheme
    return Scalar.put serialNumber ++ tokenScheme.serialize
  | .alias aliasId stateIndex foundryCounter stateMetadata =>
    return aliasId ++ Scalar.put stateIndex ++ writeFlArray UInt16 stateMetadata ++
      Scalar.put foundryCounter

/-- What an output puts last: its immutable features, unless it is basic. -/
def serializeLast (o : Output) : Except Fault Bytes :=
  match o.kind with
  | .basic => return []
  | .nft _ | .foundry _ _ | .alias _ _ _ _ => serializeFeatures o.immutableFeatures

omit [Platform] in
/-- A basic output has nothing behind its features. -/
theorem serializeLast_eq (o : Output) : o.serializeLast =
    if o.kind = .basic then .ok [] else serializeFeatures o.immutableFeatures := by
  unfold serializeLast
  cases o.kind with
  | basic => rfl
  | nft _ | foundry _ _ | «alias» _ _ _ _ => exact (if_neg (by simp)).symm

/-- The layout of an output. -/
theorem serialize_eq_ok {o : Output} {b : Bytes} :
    o.serialize = .ok b ↔ ∃ nativeTokens kind unlockConditions features last,
      serializeNativeTokens o.nativeTokens = .ok nativeTokens ∧
      o.kind.serialize = .ok kind ∧
      serializeUnlockConditions o.unlockConditions = .ok unlockConditions ∧
      serializeFeatures o.features = .ok features ∧
      o.serializeLast = .ok last ∧
      b = Scalar.put o.type.toUInt8 ++ (Scalar.put o.amount ++ (nativeTokens ++ (kind ++
        (unlockConditions ++ (features ++ last))))) := by
  obtain ⟨kind, amount, unlockConditions, features, immutableFeatures, nativeTokens⟩ := o
  cases kind with
  | basic | nft _ | foundry _ _ | «alias» _ _ _ _ =>
    simp only [serialize, serializeLast, Kind.serialize, bind_eq_ok, pure_eq_ok]
    grind

/-- Of the fields of a kind only the token scheme may be null. -/
theorem Kind.serialize_ok {kind : Kind} : (∃ b, kind.serialize = .ok b) ↔ kind.NonNull := by
  cases kind with
  | foundry tokenScheme _ =>
    cases tokenScheme with
    | none => exact iff_of_false (fun ⟨_, h⟩ => by cases h) Bool.false_ne_true
    | some _ => exact iff_of_true ⟨_, rfl⟩ rfl
  | basic | nft _ | «alias» _ _ _ _ => exact iff_of_true ⟨_, rfl⟩ trivial

theorem serialize_ok {o : Output} (h : o.NonNull) : ∃ b, o.serialize = .ok b := by
  obtain ⟨nativeTokens, hnt⟩ : ∃ b, serializeNativeTokens o.nativeTokens = .ok b :=
    serializeCounted_ok (fun _ _ => ⟨_, rfl⟩) h.nativeTokens
  obtain ⟨kind, hkind⟩ := Kind.serialize_ok.mpr h.kind
  obtain ⟨unlockConditions, huc⟩ : ∃ b, serializeUnlockConditions o.unlockConditions = .ok b :=
    serializeCounted_ok (fun _ => UnlockCondition.serialize_ok) h.unlockConditions
  obtain ⟨features, hf⟩ : ∃ b, serializeFeatures o.features = .ok b :=
    serializeCounted_ok (fun _ => Feature.serialize_ok) h.features
  obtain ⟨last, hlast⟩ : ∃ b, o.serializeLast = .ok b := by
    unfold serializeLast
    split
    · exact ⟨_, rfl⟩
    all_goals exact serializeCounted_ok (fun _ => Feature.serialize_ok) h.immutableFeatures
  exact ⟨_, serialize_eq_ok.mpr ⟨_, _, _, _, _, hnt, hkind, huc, hf, hlast, rfl⟩⟩

/-- The members all outputs have look through every element of their sets. -/
theorem baseGetJson_ok {o : Output} :
    (∃ j, o.baseGetJson = .ok j) ↔
      AllNonNull (fun _ => True) o.nativeTokens.elems ∧
      AllNonNull UnlockCondition.NonNull o.unlockConditions.elems ∧
      AllNonNull Feature.NonNull o.features.elems ∧
      AllNonNull Feature.NonNull o.immutableFeatures.elems := by
  have tokens : (∃ js, getJsonAll (fun t => .ok t.getJson) o.nativeTokens.elems = .ok js) ↔
      AllNonNull (fun _ => True) o.nativeTokens.elems := getJsonAll_ok fun _ => by simp
  rw [← tokens, ← getJsonAll_ok fun _ => UnlockCondition.getJson_ok,
    ← getJsonAll_ok fun _ => Feature.getJson_ok, ← getJsonAll_ok fun _ => Feature.getJson_ok]
  simp only [baseGetJson, bind_eq_ok, pure_eq_ok]
  grind

theorem getJson_ok {o : Output} : (∃ j, o.getJson = .ok j) ↔ o.NonNull := by
  have kind : (∃ j, o.getJson = .ok j) ↔ (∃ j, o.baseGetJson = .ok j) ∧ o.kind.NonNull := by
    unfold getJson
    cases o.kind with
    | foundry tokenScheme _ =>
      cases tokenScheme <;> simp [Kind.NonNull, deref, bind_eq_ok]
    | basic | nft _ | «alias» _ _ _ _ => simp [Kind.NonNull, map_eq_ok]
  rw [kind, baseGetJson_ok]
  constructor
  · intro h
    obtain ⟨⟨hnt, huc, hf, himf⟩, hk⟩ := h
    exact ⟨hk, huc, hf, himf, hnt⟩
  · exact fun h => ⟨⟨h.nativeTokens, h.unlockConditions, h.features, h.immutableFeatures⟩, h.kind⟩

end Output

/-! ## Essences and payloads -/

/-- What an essence puts in front of its closing zero. -/
def Essence.serializeEmbedded (payload : Option Payload) : Except Fault Bytes :=
  match payload with
  | some p => do
    let serialized ← p.serialize
    pure (lengthPrefixed serialized)
  | none => pure []

/-- The layout of an essence. -/
theorem Essence.serialize_eq_ok {networkId : UInt64} {inputs : List (Option Input)}
    {inputsCommitment : Bytes} {outputs : List (Option Output)} {payload : Option Payload}
    {b : Bytes} :
    (Essence.transaction networkId inputs inputsCommitment outputs payload).serialize = .ok b ↔
      ∃ inputs' outputs' embedded,
        serializeCounted UInt16 (fun i : Input => .ok i.serialize) inputs = .ok inputs' ∧
        serializeCounted UInt16 Output.serialize outputs = .ok outputs' ∧
        serializeEmbedded payload = .ok embedded ∧
        b = Scalar.put transactionType ++ (Scalar.put networkId ++ (inputs' ++
          (inputsCommitment ++ (outputs' ++ (embedded ++ Scalar.put (0 : UInt32)))))) := by
  rw [Essence.serialize]
  cases payload with
  | none | some _ =>
    simp only [serializeEmbedded, bind_eq_ok, pure_eq_ok, List.append_assoc]
    grind

/-- The layout of a transaction. -/
theorem Payload.serialize_eq_ok {essence : Option Essence} {unlocks : List (Option Unlock)}
    {b : Bytes} :
    (Payload.transaction essence unlocks).serialize = .ok b ↔
      ∃ e essence' unlocks', essence = some e ∧ e.serialize = .ok essence' ∧
        serializeCounted UInt16 Unlock.serialize unlocks = .ok unlocks' ∧
        b = Scalar.put transactionType ++ (essence' ++ unlocks') := by
  cases essence with
  | none => simp [Payload.serialize, bind, Except.bind]
  | some e =>
    simp only [Payload.serialize, bind_eq_ok, pure_eq_ok, List.append_assoc, Option.some.injEq]
    grind

mutual

/-- What has no null part is written, embedded payloads included. -/
theorem Essence.serialize_ok : ∀ {e : Essence}, e.NonNull → ∃ b, e.serialize = .ok b
  | .transaction _ inputs _ outputs payload, h => by
    obtain ⟨hi, ho, hp⟩ := Essence.nonNull_transaction.mp h
    obtain ⟨_, hinputs⟩ :
        ∃ b, serializeCounted UInt16 (fun i : Input => .ok i.serialize) inputs = .ok b :=
      serializeCounted_ok (fun _ _ => ⟨_, rfl⟩) hi
    obtain ⟨_, houtputs⟩ : ∃ b, serializeCounted UInt16 Output.serialize outputs = .ok b :=
      serializeCounted_ok (fun _ => Output.serialize_ok) ho
    obtain ⟨_, hembedded⟩ : ∃ b, Essence.serializeEmbedded payload = .ok b := by
      cases payload with
      | none => exact ⟨_, rfl⟩
      | some p =>
        obtain ⟨serialized, hs⟩ := Payload.serialize_ok (hp p rfl)
        exact ⟨lengthPrefixed serialized, by rw [Essence.serializeEmbedded, hs]; rfl⟩
    exact ⟨_, Essence.serialize_eq_ok.mpr ⟨_, _, _, hinputs, houtputs, hembedded, rfl⟩⟩

theorem Payload.serialize_ok : ∀ {p : Payload}, p.NonNull → ∃ b, p.serialize = .ok b
  | .taggedData _ _, _ => ⟨_, by rw [Payload.serialize]; rfl⟩
  | .transaction essence unlocks, h => by
    obtain ⟨⟨e, hmem, he⟩, hu⟩ := Payload.nonNull_transaction.mp h
    obtain ⟨_, hunlocks⟩ : ∃ b, serializeCounted UInt16 Unlock.serialize unlocks = .ok b :=
      serializeCounted_ok (fun _ => Unlock.serialize_ok) hu
    cases essence with
    | none => cases hmem
    | some e' =>
      cases hmem
      obtain ⟨_, hs⟩ := Essence.serialize_ok he
      exact ⟨_, Payload.serialize_eq_ok.mpr ⟨_, _, _, rfl, hs, hunlocks, rfl⟩⟩

end

mutual

/-- Exactly what has no null part has a JSON form. -/
theorem Essence.getJson_ok : ∀ {e : Essence}, (∃ j, e.getJson = .ok j) ↔ e.NonNull
  | .transaction _ inputs _ outputs payload => by
    have hinputs : (∃ js, getJsonAll (fun i : Input => .ok i.getJson) inputs = .ok js) ↔
        AllNonNull (fun _ => True) inputs := getJsonAll_ok fun _ => by simp
    have houtputs : (∃ js, getJsonAll Output.getJson outputs = .ok js) ↔
        AllNonNull Output.NonNull outputs := getJsonAll_ok fun _ => Output.getJson_ok
    rw [Essence.nonNull_transaction, ← hinputs, ← houtputs]
    cases payload with
    | none =>
      simp only [Essence.getJson, bind_eq_ok, pure_eq_ok]
      grind
    | some p =>
      have hp := Payload.getJson_ok (p := p)
      simp only [Essence.getJson, Option.mem_def, Option.some.injEq, forall_eq', ← hp, bind_eq_ok,
        pure_eq_ok]
      grind

theorem Payload.getJson_ok : ∀ {p : Payload}, (∃ j, p.getJson = .ok j) ↔ p.NonNull
  | .taggedData _ _ => by
    rw [Payload.NonNull, Payload.getJson]
    exact iff_of_true ⟨_, rfl⟩ trivial
  | .transaction essence unlocks => by
    have hunlocks : (∃ js, getJsonAll Unlock.getJson unlocks = .ok js) ↔
        AllNonNull Unlock.NonNull unlocks := getJsonAll_ok fun _ => Unlock.getJson_ok
    rw [Payload.nonNull_transaction, ← hunlocks]
    cases essence with
    | none => simp [Payload.getJson, bind, Except.bind]
    | some e =>
      have he := Essence.getJson_ok (e := e)
      simp only [Payload.getJson, Option.mem_def, Option.some.injEq, exists_eq_left', ← he,
        bind_eq_ok, pure_eq_ok]
      grind

end

/-! ## Blocks -/

namespace Block

/-- What a block puts into the slot of its payload. -/
def serializeSlot (payload : Option Payload) : Except Fault Bytes :=
  match payload with
  | some p => do
    let serialized ← p.serialize
    pure (lengthPrefixed serialized)
  | none => pure (Scalar.put (0 : UInt32))

/-- The layout of a block. -/
theorem serialize_eq_ok {b : Block} {x : Bytes} :
    b.serialize = .ok x ↔ ∃ slot, serializeSlot b.payload = .ok slot ∧
      x = Scalar.put b.protocolVersion ++
        ((Scalar.put (Scalar.ofNat b.parents.length : UInt8) ++ b.parents.flatten) ++
          (slot ++ Scalar.put b.nonce)) := by
  obtain ⟨protocolVersion, parents, payload, nonce⟩ := b
  cases payload with
  | none | some _ =>
    simp only [serialize, serializeHead, serializeSlot, bind_eq_ok, pure_eq_ok, List.append_assoc]
    grind

theorem serialize_ok {b : Block} (h : b.NonNull) : ∃ x, b.serialize = .ok x := by
  obtain ⟨slot, hslot⟩ : ∃ slot, serializeSlot b.payload = .ok slot := by
    cases hp : b.payload with
    | none => exact ⟨_, rfl⟩
    | some p =>
      obtain ⟨serialized, hs⟩ := Payload.serialize_ok (h p hp)
      exact ⟨lengthPrefixed serialized, by rw [serializeSlot, hs]; rfl⟩
  exact ⟨_, serialize_eq_ok.mpr ⟨slot, hslot, rfl⟩⟩

theorem getJson_ok {b : Block} : (∃ j, b.getJson = .ok j) ↔ b.NonNull := by
  obtain ⟨protocolVersion, parents, payload, nonce⟩ := b
  cases payload with
  | none => simp [getJson, NonNull, pure_eq_ok]
  | some p =>
    have hp := Payload.getJson_ok (p := p)
    simp only [getJson, NonNull, Option.mem_def, Option.some.injEq, forall_eq', ← hp, bind_eq_ok,
      pure_eq_ok]
    grind

end Block

end Outputs

end Qblock
