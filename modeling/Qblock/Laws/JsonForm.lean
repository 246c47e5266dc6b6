import Qblock.Laws.Json

/-!
# What the JSON of transactions and blocks loses

The JSON of a transaction does not read back. The network id of an essence
is written as a string and read as a number, which a string is not, so what
is read is zero: `jsonForm` is a payload with its network ids so lost, and
it serializes as the payload does exactly if the ids were zero to begin
with.

The JSON of a block is read from other members than it is written to, so of
a block only its protocol version reads back.
-/

namespace Qblock

open Wire Qt

section Forms

variable [Platform]

/-! ## Network ids -/

mutual

/-- What the JSON of an essence reads back as: its network id is lost. -/
def Essence.jsonForm : Essence → Essence
  | .transaction _ inputs inputsCommitment outputs payload =>
    .transaction 0 inputs inputsCommitment outputs
      (match payload with
        | some p => some p.jsonForm
        | none => none)

/-- What the JSON of a payload reads back as. -/
def Payload.jsonForm : Payload → Payload
  | .taggedData tag data => .taggedData tag data
  | .transaction essence unlocks =>
    .transaction
      (match essence with
        | some e => some e.jsonForm
        | none => none) unlocks

end

mutual

/-- The network id of the essence is zero, and so is that of every
transaction embedded in it. -/
def Essence.NetworkIdsZero : Essence → Prop
  | .transaction networkId _ _ _ payload => networkId = 0 ∧
    match payload with
    | some p => p.NetworkIdsZero
    | none => True

/-- The network ids of the payload, however deep, are zero. -/
def Payload.NetworkIdsZero : Payload → Prop
  | .taggedData _ _ => True
  | .transaction essence _ =>
    match essence with
    | some e => e.NetworkIdsZero
    | none => True

end

/-! ## What is written and what is read -/

/-- A member that is not there is no payload. -/
theorem Payload.fromQJsonValue_null : Payload.fromQJsonValue .null = .ok none := by
  rw [fromQJsonValue_eq]
  rfl

/-- The JSON of the payload an essence embeds. -/
def Essence.getJsonEmbedded (payload : Option Payload) : Except Fault QJsonValue :=
  match payload with
  | some p => do
    let json ← p.getJson
    pure (.object json)
  | none => pure .null

theorem Essence.getJson_eq_ok {networkId : UInt64} {inputs : List (Option Input)}
    {inputsCommitment : Bytes} {outputs : List (Option Output)} {payload : Option Payload}
    {j : QJsonObject} :
    (Essence.transaction networkId inputs inputsCommitment outputs payload).getJson = .ok j ↔
      ∃ inputs' outputs' payload',
        getJsonAll (fun i : Input => .ok i.getJson) inputs = .ok inputs' ∧
        getJsonAll Output.getJson outputs = .ok outputs' ∧
        getJsonEmbedded payload = .ok payload' ∧
        j = (QJsonObject.empty
          |>.insert "type" (.ofInt transactionType.toNat)
          |>.insert "networkId" (.string (number networkId))
          |>.insert "inputsCommitment" (.string (toHexString inputsCommitment))
          |>.insert "inputs" (.array inputs')
          |>.insert "outputs" (.array outputs')
          |>.insert "payload" payload') := by
  cases payload with
  | none | some _ =>
    simp only [Essence.getJson, getJsonEmbedded, bind_eq_ok, pure_eq_ok]
    grind

/-- The JSON of an essence reads back without its network id, as far as that
of its payload reads back. -/
theorem Essence.fromJson_of [LawfulPlatform] {networkId : UInt64} {inputs : List (Option Input)}
    {inputsCommitment : Bytes} {outputs : List (Option Output)} {payload payload' : Option Payload}
    {j : QJsonObject}
    (h : (Essence.transaction networkId inputs inputsCommitment outputs payload).getJson = .ok j)
    (embedded : ∀ v, getJsonEmbedded payload = .ok v → Payload.fromQJsonValue v = .ok payload') :
    fromQJsonValue Payload.fromQJsonValue (.object j) =
      .ok (some (.transaction 0 inputs inputsCommitment outputs payload')) := by
  obtain ⟨inputs', outputs', v, hi, ho, hv, rfl⟩ := getJson_eq_ok.mp h
  have readInputs : getTvec (fun v => .ok (Input.fromQJsonValue v)) inputs' = .ok inputs :=
    getTvec_getJsonAll (by
      rintro _ _ i _ _ ⟨⟩
      exact congrArg Except.ok i.fromJson) hi
  have readOutputs : getTvec Output.fromQJsonValue outputs' = .ok outputs :=
    getTvec_getJsonAll (fun _ _ _ _ _ => Output.fromJson) ho
  rw [Essence.fromQJsonValue, if_pos (getType8_object (by simp))]
  refine map_eq_ok.mpr ⟨_, ?_, rfl⟩
  simp only [Essence.ofQJsonValue, QJsonValue.member_object, QJsonObject.member_insert,
    String.reduceEq, if_false, if_true, QJsonValue.toArray_array, readInputs, readOutputs,
    embedded v hv, QJsonValue.toInt_string, ofHexValue_toHexString, bind, Except.bind]
  rfl

mutual

/-- An essence reads back from its JSON up to its network ids. -/
theorem Essence.fromJson [LawfulPlatform] : ∀ {e : Essence} {j : QJsonObject}, e.getJson = .ok j →
    Essence.fromQJsonValue Payload.fromQJsonValue (.object j) = .ok (some e.jsonForm)
  | .transaction networkId inputs inputsCommitment outputs none, j, h => by
    rw [Essence.jsonForm]
    apply Essence.fromJson_of h
    intro _ hmem
    cases hmem
    exact Payload.fromQJsonValue_null
  | .transaction networkId inputs inputsCommitment outputs (some p), j, h => by
    rw [Essence.jsonForm]
    refine Essence.fromJson_of h fun v hv => ?_
    obtain ⟨json, hjson, ⟨⟩⟩ := bind_eq_ok.mp hv
    exact Payload.fromJson hjson

/-- A payload reads back from its JSON up to its network ids. -/
theorem Payload.fromJson [LawfulPlatform] : ∀ {p : Payload} {j : QJsonObject}, p.getJson = .ok j →
    Payload.fromQJsonValue (.object j) = .ok (some p.jsonForm)
  | .taggedData tag data, j, h => by
    rw [Payload.getJson, pure_eq_ok] at h
    have type : getType32 (.object j) = Payload.taggedDataType :=
      getType32_object (by decide) (by simp [h])
    rw [Payload.fromQJsonValue_eq, Payload.dispatchQJsonValue, type, Payload.jsonForm]
    simp [Payload.taggedDataOfQJsonValue, h, ofHexValue_toHexString, Payload.taggedDataType,
      Payload.transactionType, pure, Except.pure]
  | .transaction none unlocks, j, h => by
    rw [Payload.getJson] at h
    cases h
  | .transaction (some e) unlocks, j, h => by
    rw [Payload.getJson] at h
    obtain ⟨essence, hessence, h⟩ := bind_eq_ok.mp h
    obtain ⟨unlocks', hunlocks, h⟩ := bind_eq_ok.mp h
    rw [pure_eq_ok] at h
    have type : getType32 (.object j) = Payload.transactionType :=
      getType32_object (by decide) (by simp [h])
    have readEssence := Essence.fromJson hessence
    have readUnlocks : getTvec (fun v => .ok (Unlock.fromQJsonValue v)) unlocks' = .ok unlocks :=
      getTvec_getJsonAll (fun _ _ _ _ _ hj => congrArg Except.ok (Unlock.fromJson hj)) hunlocks
    rw [Payload.fromQJsonValue_eq, Payload.dispatchQJsonValue, type, Payload.jsonForm]
    refine map_eq_ok.mpr ⟨_, ?_, rfl⟩
    simp only [h, Payload.transactionOfQJsonValue, QJsonValue.member_object,
      QJsonObject.member_insert, String.reduceEq, if_false, if_true, QJsonValue.toArray_array,
      readEssence, readUnlocks, bind, Except.bind]
    rfl

end

/-! ## Serialized -/

omit [Platform] in
mutual

theorem Essence.jsonForm_eq_self : ∀ {e : Essence}, e.NetworkIdsZero → e.jsonForm = e
  | .transaction _ _ _ _ none, h => by
    obtain ⟨rfl, -⟩ := h
    rw [Essence.jsonForm]
  | .transaction _ _ _ _ (some p), h => by
    obtain ⟨rfl, hp⟩ := h
    rw [Essence.jsonForm, Payload.jsonForm_eq_self hp]

theorem Payload.jsonForm_eq_self : ∀ {p : Payload}, p.NetworkIdsZero → p.jsonForm = p
  | .taggedData _ _, _ => by rw [Payload.jsonForm]
  | .transaction none _, _ => by rw [Payload.jsonForm]
  | .transaction (some e) _, h => by rw [Payload.jsonForm, Essence.jsonForm_eq_self h]

end

omit [Platform] in
theorem lengthPrefixed_injective : Function.Injective lengthPrefixed := by
  intro x y h
  apply List.append_inj_right h
  rw [Scalar.put_length, Scalar.put_length]

mutual

/-- An essence that serializes as its JSON form does had no network id to
lose. -/
theorem Essence.networkIdsZero_of_serialize : ∀ {e : Essence} {b : Bytes}, e.serialize = .ok b →
    e.jsonForm.serialize = .ok b → e.NetworkIdsZero
  | .transaction networkId inputs inputsCommitment outputs none, b, h, h' => by
    rw [Essence.jsonForm] at h'
    obtain ⟨inputs', outputs', embedded, hi, ho, he, rfl⟩ := Essence.serialize_eq_ok.mp h
    obtain ⟨_, _, _, hi', ho', he', heq⟩ := Essence.serialize_eq_ok.mp h'
    cases hi.symm.trans hi'
    have same := List.append_inj_left (List.append_cancel_left heq) (by simp)
    exact ⟨Scalar.put_injective same, trivial⟩
  | .transaction networkId inputs inputsCommitment outputs (some p), b, h, h' => by
    rw [Essence.jsonForm] at h'
    obtain ⟨inputs', outputs', embedded, hi, ho, he, rfl⟩ := Essence.serialize_eq_ok.mp h
    obtain ⟨_, _, _, hi', ho', he', heq⟩ := Essence.serialize_eq_ok.mp h'
    cases hi.symm.trans hi'
    cases ho.symm.trans ho'
    obtain ⟨same, rest⟩ := List.append_inj (List.append_cancel_left heq) (by simp)
    have slot := List.append_cancel_right (List.append_cancel_left (List.append_cancel_left
      (List.append_cancel_left rest)))
    obtain ⟨serialized, hs, ⟨⟩⟩ := bind_eq_ok.mp he
    obtain ⟨serialized', hs', ⟨⟩⟩ := bind_eq_ok.mp he'
    cases lengthPrefixed_injective slot
    exact ⟨Scalar.put_injective same, Payload.networkIdsZero_of_serialize hs hs'⟩

/-- A payload that serializes as its JSON form does had no network id to
lose. -/
theorem Payload.networkIdsZero_of_serialize : ∀ {p : Payload} {b : Bytes}, p.serialize = .ok b →
    p.jsonForm.serialize = .ok b → p.NetworkIdsZero
  | .taggedData _ _, _, _, _ => trivial
  | .transaction none _, _, _, _ => trivial
  | .transaction (some e) unlocks, b, h, h' => by
    rw [Payload.jsonForm] at h'
    obtain ⟨_, essence, unlocks', ⟨⟩, he, hu, rfl⟩ := Payload.serialize_eq_ok.mp h
    obtain ⟨_, essence', _, ⟨⟩, he', hu', heq⟩ := Payload.serialize_eq_ok.mp h'
    cases hu.symm.trans hu'
    cases List.append_cancel_right (List.append_cancel_left heq)
    exact Essence.networkIdsZero_of_serialize he he'

end

/-! ## Transactions -/

/-- The essence of a transaction. -/
def Payload.essence : Payload → Option Essence
  | .taggedData _ _ => none
  | .transaction essence _ => essence

/-- The payload has a JSON form, which reads back as one that serializes to
the same bytes and has the same essence hash and the same id. -/
def Payload.JsonKeeps (p : Payload) : Prop :=
  ∃ j p', p.getJson = .ok j ∧ fromQJsonValue (.object j) = .ok (some p') ∧
    p'.serialize = p.serialize ∧ p'.essence.map Essence.getHash = p.essence.map Essence.getHash ∧
    p'.getId = p.getId

/-- What the JSON of a payload keeps had no network id to lose. -/
theorem Payload.JsonKeeps.networkIdsZero [LawfulPlatform] {p : Payload} (h : p.JsonKeeps) :
    p.NetworkIdsZero := by
  obtain ⟨j, p', hj, hp', same, -, -⟩ := h
  obtain ⟨b, hb⟩ := Payload.serialize_ok (Payload.getJson_ok.mp ⟨j, hj⟩)
  cases (Payload.fromJson hj).symm.trans hp'
  exact networkIdsZero_of_serialize hb (same.trans hb)

/-- The JSON of a transaction keeps it exactly if its network id, and those
of the transactions it embeds, are zero. -/
theorem Payload.jsonKeeps_transaction [LawfulPlatform] {essence : Option Essence}
    {unlocks : List (Option Unlock)} (nonNull : (transaction essence unlocks).NonNull) :
    (transaction essence unlocks).JsonKeeps ↔ (transaction essence unlocks).NetworkIdsZero := by
  refine ⟨JsonKeeps.networkIdsZero, fun zero => ?_⟩
  obtain ⟨j, hj⟩ := Payload.getJson_ok.mpr nonNull
  have read := Payload.fromJson hj
  rw [jsonForm_eq_self zero] at read
  exact ⟨j, _, hj, read, rfl, rfl, rfl⟩

/-! ## Blocks -/

namespace Block

/-- The payload of the block, if it has one, reads back from its JSON. -/
def PayloadFromJson (b : Block) : Prop :=
  ∀ p ∈ b.payload, ∃ j, p.getJson = .ok j ∧ Payload.fromQJsonValue (.object j) = .ok (some p)

/-- The block has a JSON form, which reads back as the same block, so that
it serializes to the same bytes. -/
def JsonKeeps (b : Block) : Prop :=
  ∃ j b', b.getJson = .ok j ∧ ofQJsonValue (.object j) = .ok b' ∧
    b'.protocolVersion = b.protocolVersion ∧ b'.parents = b.parents ∧ b'.payload = b.payload ∧
    b'.nonce = b.nonce ∧ b'.serialize = b.serialize

/-- The JSON of a block has four members. -/
theorem getJson_eq {b : Block} {j : QJsonObject} (h : b.getJson = .ok j) :
    ∃ payload, j = (QJsonObject.empty
      |>.insert "protocolVersion" (.ofInt b.protocolVersion.toNat)
      |>.insert "parents" (.array (b.parents.map fun id => .string (toHexString id)))
      |>.insert "payload" payload
      |>.insert "nonce" (.string (number b.nonce))) := by
  obtain ⟨protocolVersion, parents, payload, nonce⟩ := b
  cases payload with
  | none => exact ⟨_, pure_eq_ok.mp h⟩
  | some p =>
    rw [getJson] at h
    obtain ⟨json, -, h⟩ := bind_eq_ok.mp h
    exact ⟨_, pure_eq_ok.mp h⟩

/-- Of the JSON of a block, only the protocol version is read. -/
theorem fromJson {b : Block} {j : QJsonObject} (h : b.getJson = .ok j) :
    ofQJsonValue (.object j) = .ok ⟨b.protocolVersion, [], none, 0⟩ := by
  obtain ⟨payload, h⟩ := getJson_eq h
  have noPayload : Payload.fromQJsonValue (.object j) = .ok none := by
    have type : getType32 (.object j) = 0 := by
      rw [getType32, QJsonValue.member_object, h]
      simp
      rfl
    rw [Payload.fromQJsonValue_eq, Payload.dispatchQJsonValue, type]
    rfl
  rw [ofQJsonValue, noPayload]
  simp [h, ofInt_toInt_uint8, bind, Except.bind, pure, Except.pure]
  rfl

/-- The JSON of a block keeps it exactly if there is nothing but a protocol
version to keep. -/
theorem jsonKeeps_iff {b : Block} (payload : b.PayloadFromJson) :
    b.JsonKeeps ↔ b.parents = [] ∧ b.payload = none ∧ b.nonce = 0 := by
  have nonNull : b.NonNull := fun p hp => by
    obtain ⟨j, hj, -⟩ := payload p hp
    exact Payload.getJson_ok.mp ⟨j, hj⟩
  obtain ⟨j, hj⟩ := getJson_ok.mpr nonNull
  have read := fromJson hj
  constructor
  · intro h
    obtain ⟨_, b', hj', hb', -, hparents, hpayload, hnonce, -⟩ := h
    cases hj.symm.trans hj'
    cases read.symm.trans hb'
    exact ⟨hparents.symm, hpayload.symm, hnonce.symm⟩
  · obtain ⟨protocolVersion, parents, payload, nonce⟩ := b
    intro h
    obtain ⟨rfl, rfl, rfl⟩ := h
    exact ⟨j, _, hj, read, rfl, rfl, rfl, rfl, rfl⟩

end Block

end Forms

/-! ## At a transaction and a block -/

section Sample

open Plain

/-- A transaction in network 0 that embeds tagged data. -/
def Payload.sampleNetworkZero : Payload :=
  .transaction
    (some (.transaction 0 [some ⟨List.replicate 32 1, 0⟩] (List.replicate 32 2)
      [some .sampleNft] (some (.taggedData [73, 79] [3, 4]))))
    [some (.reference 0)]

theorem Payload.jsonKeeps_sampleNetworkZero : sampleNetworkZero.JsonKeeps := by
  have nonNull : sampleNetworkZero.NonNull := by
    simp [sampleNetworkZero, nonNull_transaction, Essence.nonNull_transaction, AllNonNull,
      Unlock.NonNull, Payload.NonNull, Output.sampleNft_nonNull]
  exact (jsonKeeps_transaction nonNull).mpr ⟨rfl, trivial⟩

/-- A transaction in network 9 is another one after its JSON. -/
theorem Payload.json_loses_network_id :
    (ofOutput .sampleNft).NonNull ∧ ¬ (ofOutput .sampleNft).JsonKeeps := by
  refine ⟨ofOutput_nonNull Output.sampleNft_nonNull, fun h => ?_⟩
  exact absurd h.networkIdsZero.1 (by decide)

/-- A block of a protocol version and nothing else. -/
theorem Block.jsonKeeps_version : (⟨2, [], none, 0⟩ : Block).JsonKeeps := by
  have payload : (⟨2, [], none, 0⟩ : Block).PayloadFromJson := of_mem_none
  exact (jsonKeeps_iff payload).mpr ⟨rfl, rfl, rfl⟩

/-- A block with tagged data, of two parents. -/
def Block.sampleTaggedData : Block where
  protocolVersion := 2
  parents := [List.replicate 32 1, List.replicate 32 2]
  payload := some (.taggedData [73, 79, 84, 65] [104, 101, 108, 108, 111])
  nonce := 28110

theorem Block.sampleTaggedData_payloadFromJson : sampleTaggedData.PayloadFromJson := by
  intro p hmem
  cases hmem
  obtain ⟨j, hj⟩ := Payload.getJson_ok.mpr (show (Payload.taggedData [73, 79, 84, 65]
    [104, 101, 108, 108, 111]).NonNull from trivial)
  have read := Payload.fromJson hj
  rw [Payload.jsonForm] at read
  exact ⟨j, hj, read⟩

/-- A block with parents, a payload and a nonce is another one after its
JSON. -/
theorem Block.json_loses_parents :
    sampleTaggedData.PayloadFromJson ∧ ¬ sampleTaggedData.JsonKeeps := by
  refine ⟨sampleTaggedData_payloadFromJson, ?_⟩
  intro h
  obtain ⟨j, b', hj, hb', -, hparents, -⟩ := h
  cases (fromJson hj).symm.trans hb'
  cases hparents

end Sample

end Qblock
