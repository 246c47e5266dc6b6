import Qblock.Laws.Layout
import Qblock.Laws.Recursion
import Qblock.Wire.Scan

/-!
# What is decoded fits

Whatever the bytes, and whether or not they were enough, the arrays of a
decoded object have the lengths that were asked for and its counts are
those of a prefix. So it fits, as what is written has to.

The one thing that may not fit is the length of an embedded payload, which
the decoder does not compare with anything. `Payload.SlotsFit` says that it
does, and it does if no payload is embedded, or if the whole is written in
less than 4 GiB.

- `Output.always_fits`, `Payload.always_fits` — of outputs and payloads;
- `Block.always_fits` — of a whole block.
-/

namespace Qblock

open Wire Qt

/-- What a pointer that the reader answers points to fits. -/
abbrev AlwaysFits {T : Type} (from_ : Read (Option T)) (fits : T → Prop) : Prop :=
  Always from_ fun p => ∀ x ∈ p, fits x

section Containers

variable {T : Type} {σ : Type} [Scalar σ] {from_ : Read (Option T)} {fits : T → Prop}

theorem AlwaysFits.null : AlwaysFits (pure none) fits := Always.pure of_mem_none

/-- What a constructor makes is put behind a pointer. -/
theorem AlwaysFits.made {make : Read T} (h : Always make fits) :
    AlwaysFits (make >>= fun x => pure (some x)) fits := by
  refine h.bind fun x hx => Always.pure ?_
  intro _ hmem
  cases hmem
  exact hx

/-- An array that is read over zeros keeps its length. -/
theorem always_array (n : Nat) : Always (readArray n) fun b => b.length = n := by
  intro s b s' hrun
  rw [readArray, run_readRaw] at hrun
  cases hrun
  rw [readRaw_length, List.length_replicate]

/-- The length of a byte array is the number that was read in front of it, or
zero. -/
theorem always_flArray [Platform] [LawfulPlatform] :
    Always (readFlArray σ) fun b => b.length < 256 ^ Scalar.width σ := by
  refine Always.behind fun size => ?_
  intro s b s' hrun
  rw [run_readRaw] at hrun
  cases hrun
  rw [readRaw_length, LawfulPlatform.uninitialized_length]
  exact Scalar.toNat_lt size

/-- A vector has as many elements as a count can say. -/
theorem always_vector (h : AlwaysFits from_ fits) :
    Always (deserializeVector σ from_) fun ps =>
      AllFit fits ps ∧ ps.length < 256 ^ Scalar.width σ := by
  refine Always.behind fun n => ?_
  intro s ps s' hrun
  obtain ⟨hlength, hall⟩ := h.repeat _ s ps s' hrun
  exact ⟨hall, hlength ▸ Scalar.toNat_lt n⟩

/-- A set has no other elements than those read. -/
theorem always_list [Keyed T] (forward : Advances (fun _ => False) from_)
    (h : AlwaysFits from_ fits) :
    Always (deserializeList σ from_) fun s =>
      AllFit fits s.elems ∧ s.elems.length < 256 ^ Scalar.width σ := by
  rw [deserializeList_eq forward]
  refine (always_vector h).bind fun ps hps => Always.lift fun s hs => ?_
  obtain ⟨hall, hcount⟩ := hps
  exact ⟨fun p hp => hall p (PSet.mem_of_mem_insertAll hs hp),
    Nat.lt_of_le_of_lt (PSet.insertAll_length_le hs) hcount⟩

end Containers

/-! ## Tagged objects -/

/-- A decoded address has a hash of 32 bytes. -/
theorem Address.always_fits : AlwaysFits fromQDataStream Fits := by
  have kind : ∀ type, AlwaysFits (ofQDataStream type >>= fun a => pure (some a)) Fits :=
    fun type => AlwaysFits.made ((always_array 32).bind fun _ h => Always.pure h)
  exact Always.behind fun _ => Always.ite (fun _ => kind _) fun _ =>
    Always.ite (fun _ => kind _) fun _ => Always.ite (fun _ => kind _) fun _ => AlwaysFits.null

/-- The one thing of an unlock condition to fit is its address. -/
theorem UnlockCondition.always_fits : AlwaysFits fromQDataStream Fits := by
  have address : ∀ kind : Option Address → UnlockCondition,
      (∀ a, (∀ x ∈ a, x.Fits) → (kind a).Fits) →
      AlwaysFits (addressOfQDataStream kind >>= fun c => pure (some c)) Fits := fun _ hkind =>
    AlwaysFits.made (Address.always_fits.bind fun a ha => Always.pure (hkind a ha))
  have expiration : Always expirationOfQDataStream Fits :=
    Address.always_fits.bind fun _ ha => Always.behind fun _ => Always.pure ha
  have timelock : Always timelockOfQDataStream Fits := Always.behind fun _ => Always.pure trivial
  have storageDepositReturn : Always storageDepositReturnOfQDataStream Fits :=
    Address.always_fits.bind fun _ ha => Always.behind fun _ => Always.pure ha
  exact Always.behind fun _ =>
    Always.ite (fun _ => AlwaysFits.made expiration) fun _ =>
    Always.ite (fun _ => AlwaysFits.made timelock) fun _ =>
    Always.ite (fun _ => AlwaysFits.made storageDepositReturn) fun _ =>
    Always.ite (fun _ => address .address fun _ h => h) fun _ =>
    Always.ite (fun _ => address .stateControllerAddress fun _ h => h) fun _ =>
    Always.ite (fun _ => address .governorAddress fun _ h => h) fun _ =>
    Always.ite (fun _ => address .immutableAliasAddress fun _ h => h) fun _ => AlwaysFits.null

/-- A decoded input has a transaction id of 32 bytes. -/
theorem Input.always_fits : AlwaysFits fromQDataStream Fits := by
  have utxo : Always ofQDataStream Fits :=
    (always_array 32).bind fun _ h => Always.behind fun _ => Always.pure h
  exact Always.behind fun _ => Always.ite (fun _ => AlwaysFits.made utxo) fun _ => AlwaysFits.null

/-- A decoded signature has its 32 and its 64 bytes. -/
theorem Signature.always_fits : AlwaysFits fromQDataStream Fits := by
  have ed25519 : Always ofQDataStream Fits :=
    (always_array 32).bind fun _ h => (always_array 64).bind fun _ h' => Always.pure ⟨h, h'⟩
  exact Always.behind fun _ =>
    Always.ite (fun _ => AlwaysFits.made ed25519) fun _ => AlwaysFits.null

/-- The one thing of an unlock to fit is its signature. -/
theorem Unlock.always_fits : AlwaysFits fromQDataStream Fits := by
  have signature : Always signatureOfQDataStream Fits :=
    Signature.always_fits.bind fun _ h => Always.pure h
  have index : ∀ kind : UInt16 → Unlock, (∀ i, (kind i).Fits) →
      AlwaysFits (indexOfQDataStream kind >>= fun u => pure (some u)) Fits := fun _ hkind =>
    AlwaysFits.made (Always.behind fun i => Always.pure (hkind i))
  exact Always.behind fun _ =>
    Always.ite (fun _ => AlwaysFits.made signature) fun _ =>
    Always.ite (fun _ => index .reference fun _ => trivial) fun _ =>
    Always.ite (fun _ => index .alias fun _ => trivial) fun _ =>
    Always.ite (fun _ => index .nft fun _ => trivial) fun _ => AlwaysFits.null

section Lawful

variable [Platform] [LawfulPlatform]

/-- The data of a feature are as long as their prefix can say. -/
theorem Feature.always_fits : AlwaysFits fromQDataStream Fits := by
  have address : ∀ kind : Option Address → Feature, (∀ a, (∀ x ∈ a, x.Fits) → (kind a).Fits) →
      Always (Address.fromQDataStream >>= fun a => pure (kind a)) Fits := fun _ hkind =>
    Address.always_fits.bind fun a ha => Always.pure (hkind a ha)
  have metadata : Always metadataOfQDataStream Fits :=
    always_flArray.bind fun _ h => Always.pure h
  have tag : Always tagOfQDataStream Fits := always_flArray.bind fun _ h => Always.pure h
  exact Always.behind fun _ =>
    Always.ite (fun _ => AlwaysFits.made metadata) fun _ =>
    Always.ite (fun _ => AlwaysFits.made tag) fun _ =>
    Always.ite (fun _ => AlwaysFits.made (address .sender fun _ h => h)) fun _ =>
    Always.ite (fun _ => AlwaysFits.made (address .issuer fun _ h => h)) fun _ => AlwaysFits.null

omit [LawfulPlatform] in
/-- A decoded native token has an id of 38 bytes. -/
theorem NativeToken.always_fits : AlwaysFits fromQDataStream Fits :=
  AlwaysFits.made ((always_array 38).bind fun _ h => Always.behind fun _ => Always.pure h)

/-! ## Outputs -/

namespace Output

omit [LawfulPlatform] in
theorem always_nativeTokens : Always deserializeNativeTokens fun s =>
    AllFit NativeToken.Fits s.elems ∧ s.elems.length < 256 :=
  always_list advances_nativeToken NativeToken.always_fits

omit [Platform] [LawfulPlatform] in
theorem always_unlockConditions : Always deserializeUnlockConditions fun s =>
    AllFit UnlockCondition.Fits s.elems ∧ s.elems.length < 256 :=
  always_list advances_unlockCondition UnlockCondition.always_fits

theorem always_features : Always deserializeFeatures fun s =>
    AllFit Feature.Fits s.elems ∧ s.elems.length < 256 :=
  always_list advances_feature Feature.always_fits

theorem always_fits : AlwaysFits fromQDataStream Fits := by
  have sets : ∀ {kind : Kind} {amount : UInt64} {nativeTokens : PSet NativeToken}, kind.Fits →
      (AllFit NativeToken.Fits nativeTokens.elems ∧ nativeTokens.elems.length < 256) →
      Always (do
        let unlockConditions ← deserializeUnlockConditions
        let features ← deserializeFeatures
        let immutableFeatures ← deserializeFeatures
        return ⟨kind, amount, unlockConditions, features, immutableFeatures, nativeTokens⟩) Fits :=
    fun hkind ht => always_unlockConditions.bind fun _ hc => always_features.bind fun _ hf =>
      always_features.bind fun _ hif => Always.pure ⟨hkind, hc.1, hf.1, hif.1, ht.1, ht.2⟩
  have basic : Always basicOfQDataStream Fits :=
    Always.behind fun _ => always_nativeTokens.bind fun _ ht =>
      always_unlockConditions.bind fun _ hc => always_features.bind fun _ hf =>
        Always.pure ⟨trivial, hc.1, hf.1, nofun, ht.1, ht.2⟩
  have nft : Always nftOfQDataStream Fits :=
    Always.behind fun _ => always_nativeTokens.bind fun _ ht =>
      (always_array 32).bind fun _ hid => sets hid ht
  have foundry : Always foundryOfQDataStream Fits :=
    Always.behind fun _ => always_nativeTokens.bind fun _ ht =>
      Always.behind fun _ => Always.behind fun _ => sets trivial ht
  have alias_ : Always aliasOfQDataStream Fits :=
    Always.behind fun _ => always_nativeTokens.bind fun _ ht =>
      (always_array 32).bind fun _ hid => Always.behind fun _ =>
        always_flArray.bind fun _ hm => Always.behind fun _ => sets ⟨hid, hm⟩ ht
  exact Always.behind fun _ =>
    Always.ite (fun _ => AlwaysFits.made basic) fun _ =>
    Always.ite (fun _ => AlwaysFits.made nft) fun _ =>
    Always.ite (fun _ => AlwaysFits.made foundry) fun _ =>
    Always.ite (fun _ => AlwaysFits.made alias_) fun _ => AlwaysFits.null

end Output

/-! ## Embedded payloads -/

mutual

/-- The lengths of all payloads embedded in the essence hold in their prefixes. -/
def Essence.SlotsFit : Essence → Prop
  | .transaction _ _ _ _ payload =>
    match payload with
    | some p => p.SlotsFit ∧ ∀ b, p.serialize = .ok b → b.length < 256 ^ 4
    | none => True

/-- The lengths of all payloads embedded in the payload hold in their prefixes. -/
def Payload.SlotsFit : Payload → Prop
  | .taggedData _ _ => True
  | .transaction essence _ =>
    match essence with
    | some e => e.SlotsFit
    | none => True

end

omit [LawfulPlatform] in
/-- The embedded payload as the pointer it is. -/
theorem Essence.slotsFit_transaction {networkId : UInt64} {inputs : List (Option Input)}
    {inputsCommitment : Bytes} {outputs : List (Option Output)} {payload : Option Payload} :
    (Essence.transaction networkId inputs inputsCommitment outputs payload).SlotsFit ↔
      ∀ p ∈ payload, p.SlotsFit ∧ ∀ b, p.serialize = .ok b → b.length < 256 ^ 4 := by
  cases payload with
  | none | some _ => simp [Essence.SlotsFit]

omit [LawfulPlatform] in
/-- The essence as the pointer it is. -/
theorem Payload.slotsFit_transaction {essence : Option Essence} {unlocks : List (Option Unlock)} :
    (Payload.transaction essence unlocks).SlotsFit ↔ ∀ e ∈ essence, e.SlotsFit := by
  cases essence with
  | none | some _ => simp [Payload.SlotsFit]

omit [LawfulPlatform] in
/-- Where nothing is embedded there is no length to fit. -/
theorem Payload.slotsFit_of_flat {p : Payload} (flat : p.Flat) : p.SlotsFit := by
  cases p with
  | taggedData tag data => simp [SlotsFit]
  | transaction essence unlocks =>
    refine slotsFit_transaction.mpr fun e he => ?_
    have none := flat e he
    obtain ⟨_, _, _, _, payload⟩ := e
    cases none
    exact Essence.slotsFit_transaction.mpr of_mem_none

omit [LawfulPlatform] in
mutual

/-- What is embedded is part of what is written. -/
theorem Essence.slotsFit_of_serialize : ∀ {e : Essence} {x : Bytes}, e.serialize = .ok x →
    x.length < 256 ^ 4 → e.SlotsFit
  | .transaction _ _ _ _ none, _, _, _ => Essence.slotsFit_transaction.mpr of_mem_none
  | .transaction _ _ _ _ (some p), x, h, small => by
    obtain ⟨_, _, embedded, -, -, hembedded, rfl⟩ := Essence.serialize_eq_ok.mp h
    obtain ⟨serialized, hs, ⟨⟩⟩ := bind_eq_ok.mp hembedded
    have inside : serialized.length < 256 ^ 4 := by
      simp only [lengthPrefixed, List.length_append] at small
      omega
    rw [Essence.slotsFit_transaction]
    rintro _ ⟨⟩
    refine ⟨Payload.slotsFit_of_serialize hs inside, fun b hb => ?_⟩
    cases hs.symm.trans hb
    exact inside

/-- What is written in less than 4 GiB embeds nothing that is longer. -/
theorem Payload.slotsFit_of_serialize : ∀ {p : Payload} {x : Bytes}, p.serialize = .ok x →
    x.length < 256 ^ 4 → p.SlotsFit
  | .taggedData _ _, _, _, _ => by rw [Payload.SlotsFit]; trivial
  | .transaction none _, _, _, _ => Payload.slotsFit_transaction.mpr of_mem_none
  | .transaction (some e) _, x, h, small => by
    obtain ⟨_, _, _, ⟨⟩, he, -, rfl⟩ := Payload.serialize_eq_ok.mp h
    rw [Payload.slotsFit_transaction]
    rintro _ ⟨⟩
    refine Essence.slotsFit_of_serialize he ?_
    simp only [List.length_append] at small
    omega

end

/-! ## Payloads and blocks -/

variable {get : Read (Option Payload)}

/-- All of an essence fits, if its payload does. -/
theorem Essence.always_fits (h : AlwaysFits get fun p => p.SlotsFit → p.Fits) :
    AlwaysFits (fromQDataStream get) fun e => e.SlotsFit → e.Fits := by
  have slot : AlwaysFits (readSlot get) fun p => p.SlotsFit → p.Fits :=
    Always.behind fun _ => Always.ite (fun _ => h) fun _ => AlwaysFits.null
  have transaction : Always (ofQDataStream get) fun e => e.SlotsFit → e.Fits := by
    refine Always.behind fun _ => (always_vector Input.always_fits).bind fun _ hi =>
      (always_array 32).bind fun _ hc => (always_vector Output.always_fits).bind fun _ ho =>
        slot.bind fun payload hp => Always.pure fun slots => ?_
    refine fits_transaction.mpr ⟨hi.1, hi.2, hc, ho.1, ho.2, fun p hmem => ?_⟩
    obtain ⟨inner, length⟩ := slotsFit_transaction.mp slots p hmem
    exact ⟨hp p hmem inner, length⟩
  exact Always.behind fun _ =>
    Always.ite (fun _ => AlwaysFits.made transaction) fun _ => AlwaysFits.null

namespace Payload

omit [LawfulPlatform] in
/-- The rule for payloads: what holds of payloads if it holds of those they
embed. -/
theorem always_fromQDataStream {P : Payload → Prop}
    (step : ∀ {get}, AlwaysFits get P → AlwaysFits (dispatchQDataStream get) P) :
    AlwaysFits fromQDataStream P := by
  have upTo : ∀ n, AlwaysFits (fromQDataStreamUpTo n) P := by
    intro n
    induction n with
    | zero => exact Always.lift nofun
    | succ n ih => exact step ih
  intro s p s' hrun
  rw [fromQDataStream_run] at hrun
  exact upTo _ s p s' hrun

/-- All of a payload fits, if those it embeds do. -/
theorem always_fits_dispatch (h : AlwaysFits get fun p => p.SlotsFit → p.Fits) :
    AlwaysFits (dispatchQDataStream get) fun p => p.SlotsFit → p.Fits := by
  have transaction : Always (transactionOfQDataStream get) fun p => p.SlotsFit → p.Fits :=
    (Essence.always_fits h).bind fun _ he => (always_vector Unlock.always_fits).bind fun _ hu =>
      Always.pure fun slots =>
        fits_transaction.mpr ⟨fun e hmem => he e hmem (slotsFit_transaction.mp slots e hmem), hu⟩
  have taggedData : Always taggedDataOfQDataStream fun p => p.SlotsFit → p.Fits := by
    refine always_flArray.bind fun _ htag => always_flArray.bind fun _ hdata =>
      Always.pure fun _ => ?_
    rw [Payload.Fits]
    exact ⟨htag, hdata⟩
  exact Always.behind fun _ =>
    Always.ite (fun _ => AlwaysFits.made transaction) fun _ =>
    Always.ite (fun _ => AlwaysFits.made taggedData) fun _ => AlwaysFits.null

theorem always_fits : AlwaysFits fromQDataStream fun p => p.SlotsFit → p.Fits :=
  always_fromQDataStream always_fits_dispatch

end Payload

namespace Block

omit [Platform] [LawfulPlatform] in
/-- Decoded parents have 32 bytes each, and there are at most 255. -/
theorem always_parents : Always readParents fun ids =>
    (∀ id ∈ ids, id.length = 32) ∧ ids.length < 256 := by
  refine Always.behind fun count => ?_
  intro s ids s' hrun
  obtain ⟨hlength, hall⟩ := (always_array 32).repeat _ s ids s' hrun
  exact ⟨hall, hlength ▸ Scalar.toNat_lt count⟩

/-- The parents of a decoded block fit, and so does its payload if those it
embeds do. -/
theorem always_fits : Always ofQDataStream fun b =>
    ((∀ id ∈ b.parents, id.length = 32) ∧ b.parents.length < 256) ∧
      ∀ p ∈ b.payload, p.SlotsFit → p.Fits := by
  have slot : AlwaysFits (readSlot Payload.fromQDataStream) fun p => p.SlotsFit → p.Fits :=
    Always.behind fun _ => Always.ite (fun _ => Payload.always_fits) fun _ => AlwaysFits.null
  exact Always.behind fun _ => always_parents.bind fun _ hids => slot.bind fun _ hp =>
    Always.behind fun _ => Always.pure ⟨hids, hp⟩

end Block

end Lawful

end Qblock
