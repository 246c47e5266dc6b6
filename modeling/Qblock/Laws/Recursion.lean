import Qblock.Block
import Qblock.Laws.Containers

/-!
# Going forward, and the recursion of payloads

Every reader of the block types goes forward over its stream, and faults
only by looking through a null pointer, which no reader of a single tagged
object does: those only ever answer a null pointer.

The readers of payloads are bounded in the model and not in the source. The
bound is the number of unread bytes, and an embedded payload is read behind
the fields of its essence and a length that is not zero, that is, at least
53 bytes further on. So the bound is never reached and plays no part:

- `Payload.fromQDataStream_eq` — the equation of the source;
- `advances_payload` — a payload reader faults on null pointers only;
- `Payload.fromQJsonValue_eq` — the equation of the source for JSON, where
  the bound is the nesting of the value.
-/

namespace Qblock

open Wire Qt

variable {E : Fault → Prop}

/-! ## Tagged objects -/

/-- No part without sets makes the decoder fault. -/
theorem advances_address : Advances E Address.fromQDataStream := by
  have kind : ∀ type, Advances E (Address.ofQDataStream type) := fun _ =>
    (advances_array 32).bind fun _ => Advances.pure _
  have packed : ∀ type, Advances E (Address.ofQDataStream type >>= fun a => pure (some a)) :=
    fun type => (kind type).bind fun _ => Advances.pure _
  exact advances_scalar.bind fun _ =>
    (packed _).ite ((packed _).ite ((packed _).ite (Advances.pure _)))

theorem advances_unlockCondition : Advances E UnlockCondition.fromQDataStream := by
  have address : ∀ kind : Option Address → UnlockCondition,
      Advances E (UnlockCondition.addressOfQDataStream kind >>= fun c => pure (some c)) :=
    fun _ => (advances_address.bind fun _ => Advances.pure _).bind fun _ => Advances.pure _
  have expiration : Advances E UnlockCondition.expirationOfQDataStream :=
    advances_address.bind fun _ => advances_scalar.bind fun _ => Advances.pure _
  have timelock : Advances E UnlockCondition.timelockOfQDataStream :=
    advances_scalar.bind fun _ => Advances.pure _
  have storageDepositReturn : Advances E UnlockCondition.storageDepositReturnOfQDataStream :=
    advances_address.bind fun _ => advances_scalar.bind fun _ => Advances.pure _
  exact advances_scalar.bind fun _ =>
    (expiration.bind fun _ => Advances.pure _).ite <|
    (timelock.bind fun _ => Advances.pure _).ite <|
    (storageDepositReturn.bind fun _ => Advances.pure _).ite <|
    (address .address).ite <| (address .stateControllerAddress).ite <|
    (address .governorAddress).ite <| (address .immutableAliasAddress).ite (Advances.pure _)

theorem advances_input : Advances E Input.fromQDataStream := by
  have utxo : Advances E Input.ofQDataStream :=
    (advances_array 32).bind fun _ => advances_scalar.bind fun _ => Advances.pure _
  exact advances_scalar.bind fun _ => (utxo.bind fun _ => Advances.pure _).ite (Advances.pure _)

theorem advances_signature : Advances E Signature.fromQDataStream := by
  have ed25519 : Advances E Signature.ofQDataStream :=
    (advances_array 32).bind fun _ => (advances_array 64).bind fun _ => Advances.pure _
  exact advances_scalar.bind fun _ => (ed25519.bind fun _ => Advances.pure _).ite (Advances.pure _)

theorem advances_unlock : Advances E Unlock.fromQDataStream := by
  have signature : Advances E Unlock.signatureOfQDataStream :=
    advances_signature.bind fun _ => Advances.pure _
  have index : ∀ kind : UInt16 → Unlock,
      Advances E (Unlock.indexOfQDataStream kind >>= fun u => pure (some u)) := fun _ =>
    (advances_scalar.bind fun _ => Advances.pure _).bind fun _ => Advances.pure _
  exact advances_scalar.bind fun _ =>
    (signature.bind fun _ => Advances.pure _).ite <|
    (index .reference).ite <| (index .alias).ite <| (index .nft).ite (Advances.pure _)

variable [Platform]

theorem advances_feature : Advances E Feature.fromQDataStream := by
  have address : ∀ kind : Option Address → Feature,
      Advances E (Address.fromQDataStream >>= fun a => pure (kind a)) := fun _ =>
    advances_address.bind fun _ => Advances.pure _
  have metadata : Advances E Feature.metadataOfQDataStream :=
    advances_flArray.bind fun _ => Advances.pure _
  have tag : Advances E Feature.tagOfQDataStream :=
    advances_flArray.bind fun _ => Advances.pure _
  exact advances_scalar.bind fun _ =>
    (metadata.bind fun _ => Advances.pure _).ite <|
    (tag.bind fun _ => Advances.pure _).ite <|
    ((address .sender).bind fun _ => Advances.pure _).ite <|
    ((address .issuer).bind fun _ => Advances.pure _).ite (Advances.pure _)

theorem advances_nativeToken : Advances E NativeToken.fromQDataStream :=
  ((advances_array 38).bind fun _ => advances_quint256.bind fun _ => Advances.pure _).bind
    fun _ => Advances.pure _

theorem advances_tokenScheme : Advances E TokenScheme.fromQDataStream := by
  have simple : Advances E TokenScheme.ofQDataStream :=
    advances_quint256.bind fun _ => advances_quint256.bind fun _ =>
      advances_quint256.bind fun _ => Advances.pure _
  exact advances_scalar.bind fun _ => (simple.bind fun _ => Advances.pure _).ite (Advances.pure _)

/-! ## Outputs -/

/-- A set compares pointers, so reading it may look through a null one. -/
theorem advances_nativeTokens : Advances (· = .nullPointer) Output.deserializeNativeTokens :=
  advances_list advances_nativeToken

omit [Platform] in
theorem advances_unlockConditions :
    Advances (· = .nullPointer) Output.deserializeUnlockConditions :=
  advances_list advances_unlockCondition

theorem advances_features : Advances (· = .nullPointer) Output.deserializeFeatures :=
  advances_list advances_feature

theorem advances_output : Advances (· = .nullPointer) Output.fromQDataStream := by
  have sets : ∀ make : PSet UnlockCondition → PSet Feature → PSet Feature → Output,
      Advances (· = .nullPointer) (do
        let unlockConditions ← Output.deserializeUnlockConditions
        let features ← Output.deserializeFeatures
        let immutableFeatures ← Output.deserializeFeatures
        return make unlockConditions features immutableFeatures) := fun _ =>
    advances_unlockConditions.bind fun _ => advances_features.bind fun _ =>
      advances_features.bind fun _ => Advances.pure _
  have basic : Advances (· = .nullPointer) Output.basicOfQDataStream :=
    advances_scalar.bind fun _ => advances_nativeTokens.bind fun _ =>
      advances_unlockConditions.bind fun _ => advances_features.bind fun _ => Advances.pure _
  have nft : Advances (· = .nullPointer) Output.nftOfQDataStream :=
    advances_scalar.bind fun _ => advances_nativeTokens.bind fun _ =>
      (advances_array 32).bind fun _ => sets _
  have foundry : Advances (· = .nullPointer) Output.foundryOfQDataStream :=
    advances_scalar.bind fun _ => advances_nativeTokens.bind fun _ =>
      advances_scalar.bind fun _ => advances_tokenScheme.bind fun _ => sets _
  have alias_ : Advances (· = .nullPointer) Output.aliasOfQDataStream :=
    advances_scalar.bind fun _ => advances_nativeTokens.bind fun _ =>
      (advances_array 32).bind fun _ => advances_scalar.bind fun _ =>
        advances_flArray.bind fun _ => advances_scalar.bind fun _ => sets _
  exact advances_scalar.bind fun _ =>
    (basic.bind fun _ => Advances.pure _).ite <|
    (nft.bind fun _ => Advances.pure _).ite <|
    (foundry.bind fun _ => Advances.pure _).ite <|
    (alias_.bind fun _ => Advances.pure _).ite (Advances.pure _)

/-! ## Payloads from a stream -/

section Nesting

variable {get get' : Read (Option Payload)} {n : Nat}

omit [Platform] in
/-- Behind a length that is not zero the stream is shorter by four bytes. -/
theorem advances_slot (h : AdvancesBelow n E get) :
    AdvancesBelow (n + 4) E (readSlot get) := by
  intro s hlt
  obtain ⟨length, s', hrun, first, shorter⟩ := readScalar_answers (ε := Fault) (σ := UInt32) s
  rw [readSlot, run_bind_ok hrun]
  by_cases hz : length ≠ 0
  · have hlt' : s'.unread.length + 4 = s.unread.length := shorter hz
    rw [if_pos hz]
    cases hrun' : get.run s' with
    | ok p => exact first.trans (h.reaches (by omega) hrun')
    | error e => exact h.fault (by omega) hrun'
  · rw [if_neg hz]
    exact first

omit [Platform] in
/-- The length in front of an embedded payload is four bytes. -/
theorem agree_slot (h : AgreeBelow n get get') :
    AgreeBelow (n + 4) (readSlot get) (readSlot get') := by
  intro s hlt
  obtain ⟨length, s', hrun, -, shorter⟩ := readScalar_answers (ε := Fault) (σ := UInt32) s
  rw [readSlot, readSlot, run_bind_ok hrun, run_bind_ok hrun]
  by_cases hz : length ≠ 0
  · have hlt' : s'.unread.length + 4 = s.unread.length := shorter hz
    rw [if_pos hz, if_pos hz]
    exact h s' (by omega)
  · rw [if_neg hz, if_neg hz]

omit [Platform] in
/-- Inputs take at least the two bytes of their count. -/
theorem takes_inputs : Takes 2 (deserializeVector UInt16 Input.fromQDataStream) :=
  takes_vector advances_input

/-- Outputs take at least the two bytes of theirs. -/
theorem takes_outputs : Takes 2 (deserializeVector UInt16 Output.fromQDataStream) :=
  takes_vector (advances_output.imp fun _ _ => trivial)

/-- In front of the slot an essence has its type, the network id, the
commitment and two counts. -/
theorem advances_essence (h : AdvancesBelow n (· = .nullPointer) get) :
    AdvancesBelow (n + 49) (· = .nullPointer) (Essence.fromQDataStream get) := by
  have slot : AdvancesBelow (n + 4) (· = .nullPointer) (readSlot get) := advances_slot h
  have transaction : AdvancesBelow (n + 48) (· = .nullPointer) (Essence.ofQDataStream get) := by
    apply AdvancesBelow.behind (k := 8) (n := n + 40) takes_scalar advances_scalar (by omega)
    intro networkId
    apply AdvancesBelow.behind (k := 2) (n := n + 38) takes_inputs
      (advances_vector advances_input) (by omega)
    intro inputs
    apply AdvancesBelow.behind (k := 32) (n := n + 6) (takes_array 32) (advances_array 32)
      (by omega)
    intro inputsCommitment
    apply AdvancesBelow.behind (k := 2) (n := n + 4) takes_outputs
      (advances_vector advances_output) (by omega)
    intro outputs
    exact slot.bind fun _ => Advances.pure _ _
  apply AdvancesBelow.behind (k := 1) (n := n + 48) takes_scalar advances_scalar (by omega)
  intro type
  exact (transaction.bind fun _ => Advances.pure _ _).ite (Advances.pure _ _)

/-- What stands in front of an embedded payload in its essence is 49 bytes. -/
theorem agree_essence (h : AgreeBelow n get get') :
    AgreeBelow (n + 49) (Essence.fromQDataStream get) (Essence.fromQDataStream get') := by
  have slot : AgreeBelow (n + 4) (readSlot get) (readSlot get') := agree_slot h
  -- up to the slot the two readers are the same one
  have transaction :
      AgreeBelow (n + 48) (Essence.ofQDataStream get) (Essence.ofQDataStream get') := by
    apply AgreeBelow.behind (k := 8) (n := n + 40) takes_scalar (by omega)
    intro networkId
    apply AgreeBelow.behind (k := 2) (n := n + 38) takes_inputs (by omega)
    intro inputs
    apply AgreeBelow.behind (k := 32) (n := n + 6) (takes_array 32) (by omega)
    intro inputsCommitment
    apply AgreeBelow.behind (k := 2) (n := n + 4) takes_outputs (by omega)
    intro outputs
    exact slot.bind_right _
  apply AgreeBelow.behind (k := 1) (n := n + 48) takes_scalar (by omega)
  intro type
  exact (transaction.bind_right _).ite (AgreeBelow.refl _)

/-- A payload embedded in a transaction is read 53 bytes further on. -/
theorem advances_dispatch (h : AdvancesBelow n (· = .nullPointer) get) :
    AdvancesBelow (n + 53) (· = .nullPointer) (Payload.dispatchQDataStream get) := by
  have transaction :
      AdvancesBelow (n + 49) (· = .nullPointer) (Payload.transactionOfQDataStream get) :=
    (advances_essence h).bind fun _ => (advances_vector advances_unlock _).bind fun _ =>
      Advances.pure _ _
  have taggedData : AdvancesBelow (n + 49) (· = .nullPointer) Payload.taggedDataOfQDataStream :=
    (advances_flArray _).bind fun _ => (advances_flArray _).bind fun _ => Advances.pure _ _
  apply AdvancesBelow.behind (k := 4) (n := n + 49) takes_scalar advances_scalar (by omega)
  intro type
  exact (transaction.bind fun _ => Advances.pure _ _).ite <|
    (taggedData.bind fun _ => Advances.pure _ _).ite (Advances.pure _ _)

/-- What stands in front of it in its transaction is 53 bytes. -/
theorem agree_dispatch (forward : AdvancesBelow n (· = .nullPointer) get)
    (h : AgreeBelow n get get') :
    AgreeBelow (n + 53) (Payload.dispatchQDataStream get) (Payload.dispatchQDataStream get') := by
  have transaction : AgreeBelow (n + 49) (Payload.transactionOfQDataStream get)
      (Payload.transactionOfQDataStream get') :=
    (agree_essence h).bind ((advances_essence forward).imp fun _ _ => trivial) fun _ =>
      AgreeBelow.refl _
  apply AgreeBelow.behind (k := 4) (n := n + 49) takes_scalar (by omega)
  intro type
  exact (transaction.bind_right _).ite (AgreeBelow.refl _)

end Nesting

namespace Payload

theorem fromQDataStreamUpTo_succ (n : Nat) :
    fromQDataStreamUpTo (n + 1) = dispatchQDataStream (fromQDataStreamUpTo n) := rfl

/-- Below 53 bytes a level, the bound on the recursion is not met. -/
theorem advances_upTo : ∀ n, AdvancesBelow (53 * n) (· = .nullPointer) (fromQDataStreamUpTo n)
  | 0 => fun _ h => absurd h (Nat.not_lt_zero _)
  | n + 1 => advances_dispatch (advances_upTo n)

/-- Two bounds are as good as each other on a stream with fewer than 53
bytes for each level they allow. -/
theorem agree_upTo : ∀ n k,
    AgreeBelow (53 * n) (fromQDataStreamUpTo n) (fromQDataStreamUpTo (n + k))
  | 0, _ => fun _ h => absurd h (Nat.not_lt_zero _)
  | n + 1, k => by
    rw [Nat.add_right_comm, fromQDataStreamUpTo_succ, fromQDataStreamUpTo_succ]
    exact agree_dispatch (advances_upTo n) (agree_upTo n k)

/-- The decoder allows one level for each unread byte, and one more. -/
theorem fromQDataStream_run (s : Stream) :
    fromQDataStream.run s = (fromQDataStreamUpTo (s.unread.length + 1)).run s := by
  rw [fromQDataStream, StateT.run_bind, StateT.run_get]
  rfl

/-- So is no bound at all. -/
theorem agree_fromQDataStream (n : Nat) :
    AgreeBelow (53 * n) (fromQDataStreamUpTo n) fromQDataStream := by
  intro s hlt
  rw [fromQDataStream_run]
  rcases Nat.le_total n (s.unread.length + 1) with hle | hle
  · obtain ⟨k, hk⟩ := Nat.exists_eq_add_of_le hle
    rw [hk]
    exact agree_upTo n k s hlt
  · obtain ⟨k, hk⟩ := Nat.exists_eq_add_of_le hle
    rw [hk]
    exact (agree_upTo _ k s (by omega)).symm

/-- The reader of payloads, as the source has it: without a bound. -/
theorem fromQDataStream_eq : fromQDataStream = dispatchQDataStream fromQDataStream := by
  refine StateT.ext fun s => ?_
  rw [fromQDataStream_run, fromQDataStreamUpTo_succ]
  exact agree_dispatch (advances_upTo _) (agree_fromQDataStream s.unread.length) s (by omega)

end Payload

/-- A payload reader faults on null pointers only: the bound is never met. -/
theorem advances_payload : Advances (· = .nullPointer) Payload.fromQDataStream := by
  intro n s hlt
  have room : s.unread.length < 53 * n := by omega
  rw [← Payload.agree_fromQDataStream n s room]
  exact Payload.advances_upTo n s room

/-! ## Payloads from JSON -/

namespace Payload

/-- Readers that agree on values nested less deep agree one level up. -/
theorem dispatchQJsonValue_congr {from_ from_' : QJsonValue → Except Fault (Option Payload)}
    {val : QJsonValue} (h : ∀ v : QJsonValue, v.depth < val.depth → from_ v = from_' v) :
    dispatchQJsonValue from_ val = dispatchQJsonValue from_' val := by
  have essence : Essence.fromQJsonValue from_ (val.member "essence") =
      Essence.fromQJsonValue from_' (val.member "essence") := by
    unfold Essence.fromQJsonValue
    split
    · next htype =>
      -- an essence with a tag is there, and nested less deep than the payload
      have hessence : val.member "essence" ≠ .null := by
        intro hnull
        rw [hnull] at htype
        exact absurd htype (by decide)
      have outer := depth_member_lt hessence
      have nested : from_ ((val.member "essence").member "payload") =
          from_' ((val.member "essence").member "payload") := by
        by_cases hpayload : (val.member "essence").member "payload" = .null
        · rw [hpayload]
          exact h _ (by rw [depth_null]; omega)
        · exact h _ (Nat.lt_trans (depth_member_lt hpayload) outer)
      unfold Essence.ofQJsonValue
      rw [nested]
    · rfl
  unfold dispatchQJsonValue transactionOfQJsonValue
  rw [essence]

theorem fromQJsonValueUpTo_succ (n : Nat) (val : QJsonValue) :
    fromQJsonValueUpTo (n + 1) val = dispatchQJsonValue (fromQJsonValueUpTo n) val := rfl

/-- On a value nested less deep than both, two bounds are as good as each
other. -/
theorem fromQJsonValueUpTo_eq : ∀ (n k : Nat) (val : QJsonValue), val.depth < n →
    fromQJsonValueUpTo n val = fromQJsonValueUpTo (n + k) val
  | 0, _, _, h => absurd h (Nat.not_lt_zero _)
  | n + 1, k, val, h => by
    rw [Nat.add_right_comm, fromQJsonValueUpTo_succ, fromQJsonValueUpTo_succ]
    exact dispatchQJsonValue_congr fun v hv => fromQJsonValueUpTo_eq n k v (by omega)

/-- The reader of payloads from JSON, as the source has it: without a bound. -/
theorem fromQJsonValue_eq (val : QJsonValue) :
    fromQJsonValue val = dispatchQJsonValue fromQJsonValue val := by
  rw [fromQJsonValue, fromQJsonValueUpTo_succ]
  refine dispatchQJsonValue_congr fun v hv => ?_
  obtain ⟨k, hk⟩ := Nat.exists_eq_add_of_le (Nat.succ_le_of_lt hv)
  rw [fromQJsonValue, hk]
  exact (fromQJsonValueUpTo_eq _ k v (Nat.lt_succ_self _)).symm

end Payload

end Qblock
