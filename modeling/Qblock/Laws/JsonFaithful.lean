import Qblock.Laws.JsonForm

/-!
# JSON tells blocks apart

The readers of a transaction and of a block lose its network ids, its
parents, its payload and its nonce. The writer loses nothing: two payloads
of one JSON form are one payload, and two blocks of one JSON form are one
block, what no reader looks at included. The network ids, however deep, are
read off the members that hold them, and the rest is what does read back.
-/

namespace Qblock

open Wire Qt

/-! ## Members -/

theorem QJsonValue.ofInt_injective : Function.Injective Qt.QJsonValue.ofInt := fun i j h => by
  rw [Qt.QJsonValue.ofInt, Qt.QJsonValue.ofInt, Qt.QJsonValue.number.injEq] at h
  exact Rat.intCast_inj.mp h

theorem number_injective : Function.Injective number :=
  Function.LeftInverse.injective toULongLong_number

/-- The reader of a hex member undoes its writer. -/
theorem toHexString_injective : Function.Injective toHexString := fun a b h => by
  have read := congrArg (fun s => ofHexValue (.string s)) h
  simpa only [ofHexValue_toHexString] using read

/-- A member two objects agree on. -/
theorem member_eq {o o' : QJsonObject} (h : o = o') (key : String) :
    o.member key = o'.member key := congrArg (QJsonObject.member key) h

section Forms

variable [Platform]

/-! ## Payloads -/

omit [Platform] in
theorem Essence.jsonForm_transaction {networkId : UInt64} {inputs : List (Option Input)}
    {inputsCommitment : Bytes} {outputs : List (Option Output)} {payload : Option Payload} :
    (Essence.transaction networkId inputs inputsCommitment outputs payload).jsonForm =
      .transaction 0 inputs inputsCommitment outputs (payload.map Payload.jsonForm) := by
  cases payload with
  | none | some _ => simp [Essence.jsonForm]

omit [Platform] in
theorem Payload.jsonForm_transaction {essence : Option Essence} {unlocks : List (Option Unlock)} :
    (Payload.transaction essence unlocks).jsonForm =
      .transaction (essence.map Essence.jsonForm) unlocks := by
  cases essence with
  | none | some _ => simp [Payload.jsonForm]

/-- What two essences of one JSON form have in common before their embedded
payloads are looked at. -/
theorem Essence.eq_of_getJson [LawfulPlatform] {networkId networkId' : UInt64}
    {inputs inputs' : List (Option Input)} {inputsCommitment inputsCommitment' : Bytes}
    {outputs outputs' : List (Option Output)} {payload payload' : Option Payload} {j : QJsonObject}
    (h : (Essence.transaction networkId inputs inputsCommitment outputs payload).getJson = .ok j)
    (h' : (Essence.transaction networkId' inputs' inputsCommitment' outputs' payload').getJson =
      .ok j) :
    (∃ v, getJsonEmbedded payload = .ok v ∧ getJsonEmbedded payload' = .ok v) ∧
      networkId = networkId' ∧ inputs = inputs' ∧ inputsCommitment = inputsCommitment' ∧
      outputs = outputs' := by
  have read := Except.ok.inj ((Essence.fromJson h).symm.trans (Essence.fromJson h'))
  rw [jsonForm_transaction, jsonForm_transaction, Option.some.injEq, transaction.injEq] at read
  obtain ⟨-, hinputs, hcommitment, houtputs, -⟩ := read
  obtain ⟨_, _, v, -, -, hv, rfl⟩ := Essence.getJson_eq_ok.mp h
  obtain ⟨_, _, v', -, -, hv', heq⟩ := Essence.getJson_eq_ok.mp h'
  have hpayload : v = v' := by simpa using member_eq heq "payload"
  have hnumber : number networkId = number networkId' := by simpa using member_eq heq "networkId"
  exact ⟨⟨v, hv, hpayload ▸ hv'⟩, number_injective hnumber, hinputs, hcommitment, houtputs⟩

/-- The embedded payload is told from its member, if its own JSON tells it
from any other. A null member is no payload. -/
theorem Essence.getJsonEmbedded_inj {payload payload' : Option Payload} {v : QJsonValue}
    (inj : ∀ p ∈ payload, ∀ p' j, p.getJson = .ok j → p'.getJson = .ok j → p = p')
    (h : getJsonEmbedded payload = .ok v) (h' : getJsonEmbedded payload' = .ok v) :
    payload = payload' := by
  cases payload with
  | none =>
    cases h
    cases payload' with
    | none => rfl
    | some p' =>
      obtain ⟨_, -, ⟨⟩⟩ := bind_eq_ok.mp h'
  | some p =>
    obtain ⟨j, hj, ⟨⟩⟩ := bind_eq_ok.mp h
    cases payload' with
    | none => cases h'
    | some p' =>
      obtain ⟨_, hj', ⟨⟩⟩ := bind_eq_ok.mp h'
      rw [inj p rfl p' j hj hj']

mutual

/-- Two essences of one JSON form are one essence. -/
theorem Essence.getJson_inj [LawfulPlatform] : ∀ {e e' : Essence} {j : QJsonObject},
    e.getJson = .ok j → e'.getJson = .ok j → e = e'
  | .transaction _ _ _ _ none, .transaction _ _ _ _ _, _, h, h' => by
    obtain ⟨⟨v, hv, hv'⟩, rfl, rfl, rfl, rfl⟩ := Essence.eq_of_getJson h h'
    rw [Essence.getJsonEmbedded_inj (fun _ hp => by cases hp) hv hv']
  | .transaction _ _ _ _ (some p), .transaction _ _ _ _ _, _, h, h' => by
    obtain ⟨⟨v, hv, hv'⟩, rfl, rfl, rfl, rfl⟩ := Essence.eq_of_getJson h h'
    have embedded : ∀ q ∈ some p, ∀ p' j, q.getJson = .ok j → p'.getJson = .ok j → q = p' := by
      intro q hq p' j hj hj'
      cases hq
      exact Payload.getJson_inj hj hj'
    rw [Essence.getJsonEmbedded_inj embedded hv hv']

/-- Two payloads of one JSON form are one payload. -/
theorem Payload.getJson_inj [LawfulPlatform] : ∀ {p p' : Payload} {j : QJsonObject},
    p.getJson = .ok j → p'.getJson = .ok j → p = p'
  | .taggedData tag data, p', j, h, h' => by
    have read := Except.ok.inj ((Payload.fromJson h).symm.trans (Payload.fromJson h'))
    cases p' with
    | taggedData tag' data' => simpa only [Payload.jsonForm, Option.some.injEq] using read
    | transaction essence' unlocks' =>
      rw [Payload.jsonForm, Payload.jsonForm_transaction] at read
      cases read
  | .transaction none unlocks, _, _, h, _ => by
    rw [Payload.getJson] at h
    cases h
  | .transaction (some e) unlocks, p', j, h, h' => by
    have read := Except.ok.inj ((Payload.fromJson h).symm.trans (Payload.fromJson h'))
    cases p' with
    | taggedData tag' data' =>
      rw [Payload.jsonForm_transaction, Payload.jsonForm] at read
      cases read
    | transaction essence' unlocks' =>
      rw [Payload.jsonForm_transaction, Payload.jsonForm_transaction, Option.some.injEq,
        Payload.transaction.injEq] at read
      obtain ⟨-, rfl⟩ := read
      cases essence' with
      | none =>
        rw [Payload.getJson] at h'
        cases h'
      | some e' =>
        rw [Payload.getJson] at h h'
        obtain ⟨essence, hessence, h⟩ := bind_eq_ok.mp h
        obtain ⟨_, -, h⟩ := bind_eq_ok.mp h
        obtain ⟨essence', hessence', h'⟩ := bind_eq_ok.mp h'
        obtain ⟨_, -, h'⟩ := bind_eq_ok.mp h'
        have heq := (pure_eq_ok.mp h).symm.trans (pure_eq_ok.mp h')
        have hmember : essence = essence' := by simpa using member_eq heq "essence"
        subst hmember
        rw [Essence.getJson_inj hessence hessence']

end

/-! ## Blocks -/

/-- The JSON of a block, with that of its payload in it. -/
theorem Block.getJson_eq_ok {b : Block} {j : QJsonObject} :
    b.getJson = .ok j ↔ ∃ v, Essence.getJsonEmbedded b.payload = .ok v ∧
      j = (QJsonObject.empty
        |>.insert "protocolVersion" (.ofInt b.protocolVersion.toNat)
        |>.insert "parents" (.array (b.parents.map fun id => .string (toHexString id)))
        |>.insert "payload" v
        |>.insert "nonce" (.string (number b.nonce))) := by
  obtain ⟨protocolVersion, parents, payload, nonce⟩ := b
  cases payload with
  | none => simp only [getJson, Essence.getJsonEmbedded, bind_eq_ok, pure_eq_ok]
  | some p =>
    simp only [getJson, Essence.getJsonEmbedded, bind_eq_ok, pure_eq_ok]
    grind

/-- Two blocks of one JSON form are one block. -/
theorem Block.getJson_inj [LawfulPlatform] {b b' : Block} {j : QJsonObject}
    (h : b.getJson = .ok j) (h' : b'.getJson = .ok j) : b = b' := by
  obtain ⟨protocolVersion, parents, payload, nonce⟩ := b
  obtain ⟨protocolVersion', parents', payload', nonce'⟩ := b'
  obtain ⟨v, hv, rfl⟩ := getJson_eq_ok.mp h
  obtain ⟨v', hv', heq⟩ := getJson_eq_ok.mp h'
  have hpayload : v = v' := by simpa using member_eq heq "payload"
  have hversion : protocolVersion = protocolVersion' := by
    have same := QJsonValue.ofInt_injective (by simpa using member_eq heq "protocolVersion")
    exact UInt8.toNat_inj.mp (Int.ofNat.inj same)
  have hparents : parents = parents' := by
    have same : parents.map (fun id => QJsonValue.string (toHexString id)) =
        parents'.map (fun id => QJsonValue.string (toHexString id)) := by
      simpa using member_eq heq "parents"
    refine List.map_injective_iff.mpr (fun id id' hid => ?_) same
    exact toHexString_injective (QJsonValue.string.inj hid)
  have hnonce : nonce = nonce' := number_injective (by simpa using member_eq heq "nonce")
  have same : payload = payload' :=
    Essence.getJsonEmbedded_inj (fun _ _ _ _ => Payload.getJson_inj) hv (hpayload ▸ hv')
  rw [hversion, hparents, same, hnonce]

/-- The JSON writer is faithful: payloads of one JSON form are equal in every
field, network ids included, and so are blocks. -/
theorem json_faithful [LawfulPlatform] :
    (∀ (p p' : Payload) (j : QJsonObject), p.getJson = .ok j → p'.getJson = .ok j → p = p') ∧
    (∀ (b b' : Block) (j : QJsonObject), b.getJson = .ok j → b'.getJson = .ok j → b = b') :=
  ⟨fun _ _ _ => Payload.getJson_inj, fun _ _ _ => Block.getJson_inj⟩

end Forms

/-! ## At a block -/

section Sample

open Plain

/-- No other block has the JSON of a block with tagged data. -/
theorem json_faithful_sampleTaggedData :
    ∃ j, Block.sampleTaggedData.getJson = .ok j ∧
      ∀ b, b.getJson = .ok j → b = Block.sampleTaggedData := by
  have nonNull : Block.sampleTaggedData.NonNull := by
    rintro p ⟨⟩
    trivial
  obtain ⟨j, hj⟩ := Block.getJson_ok.mpr nonNull
  exact ⟨j, hj, fun b hb => json_faithful.2 b _ j hb hj⟩

end Sample

end Qblock
