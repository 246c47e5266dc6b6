import Qblock.Laws.WireForm
import Qblock.Laws.Recursion

/-!
# Reading back what was written

Every object without null pointers whose sizes fit is read back from its
serialized form, whatever follows it, up to the immutable features of basic
outputs, which are not written.

An essence is the exception: behind the payload it embeds it writes a zero
that its reader does not expect. `Essence.leaves` and `Payload.leaves` are
therefore stated over ANY reader of the slot, and say what becomes of the
bytes that one leaves. Without an embedded payload nothing is left.

- `Output.reads`, `Payload.reads`, `Block.reads` — the round trips;
- `Block.decode_serialize` — of a whole block, with its id.
-/

namespace Qblock

open Wire Qt

/-! ## Byte arrays -/

/-- An array of fixed size has no length of its own in the bytes. -/
theorem reads_array {n : Nat} {b : Bytes} (h : b.length = n) : Reads (readArray n) b b :=
  reads_raw (by rw [h, List.length_replicate])

section Lawful

variable {σ : Type} [Scalar σ] [Platform] [LawfulPlatform]

/-- A byte array reads back behind its length, if the length is not cut off. -/
theorem reads_flArray {b : Bytes} (h : b.length < 256 ^ Scalar.width σ) :
    Reads (readFlArray σ) (writeFlArray σ b) b := by
  refine (reads_scalar _).bind (reads_raw ?_)
  rw [LawfulPlatform.uninitialized_length, Scalar.toNat_ofNat_of_lt h]

theorem reads_quint256 (q : Quint256) : Reads readQuint256 (Platform.quint256Bytes q) q := by
  have raw := (reads_array (LawfulPlatform.quint256Bytes_length q)).bind_pure
    (f := Platform.quint256OfBytes)
  rwa [LawfulPlatform.quint256OfBytes_bytes] at raw

end Lawful

/-! ## Tagged objects -/

/-- Each kind of address is told by its tag. -/
theorem Address.reads {a : Address} (fits : a.Fits) :
    Reads fromQDataStream a.serialize (some a) := by
  obtain ⟨type, addrhash⟩ := a
  have body : Reads (ofQDataStream type >>= fun a => pure (some a)) addrhash
      (some ⟨type, addrhash⟩) := (reads_array fits).bind_pure.bind_pure
  cases type with
  | ed25519 | «alias» | nft => exact (reads_scalar _).bind body

/-- A timelock is the one kind without an address. -/
theorem UnlockCondition.reads {c : UnlockCondition} {b : Bytes} (fits : c.Fits)
    (h : c.serialize = .ok b) : Reads fromQDataStream b (some c) := by
  cases c with
  | timelock unixTime =>
    cases h
    exact (reads_scalar _).bind (reads_scalar unixTime).bind_pure.bind_pure
  | address a | stateControllerAddress a | governorAddress a | immutableAliasAddress a =>
    cases a with
    | none => cases h
    | some a =>
      cases h
      exact (reads_scalar _).bind (Address.reads (fits a rfl)).bind_pure.bind_pure
  | storageDepositReturn a amount =>
    cases a with
    | none => cases h
    | some a =>
      cases h
      rw [List.append_assoc]
      exact (reads_scalar _).bind
        ((Address.reads (fits a rfl)).bind (reads_scalar amount).bind_pure).bind_pure
  | expiration a unixTime =>
    cases a with
    | none => cases h
    | some a =>
      cases h
      rw [List.append_assoc]
      exact (reads_scalar _).bind
        ((Address.reads (fits a rfl)).bind (reads_scalar unixTime).bind_pure).bind_pure

theorem Input.reads {i : Input} (fits : i.Fits) : Reads fromQDataStream i.serialize (some i) := by
  rw [serialize, List.append_assoc]
  exact (reads_scalar _).bind
    ((reads_array fits).bind (reads_scalar i.transactionOutputIndex).bind_pure).bind_pure

theorem Signature.reads {s : Signature} (fits : s.Fits) :
    Reads fromQDataStream s.serialize (some s) := by
  rw [serialize, List.append_assoc]
  exact (reads_scalar _).bind ((reads_array fits.1).bind (reads_array fits.2).bind_pure).bind_pure

/-- A signature unlock holds a signature, the others an index. -/
theorem Unlock.reads {u : Unlock} {b : Bytes} (fits : u.Fits) (h : u.serialize = .ok b) :
    Reads fromQDataStream b (some u) := by
  cases u with
  | signature s =>
    cases s with
    | none => cases h
    | some s =>
      cases h
      exact (reads_scalar _).bind (Signature.reads (fits s rfl)).bind_pure.bind_pure
  | reference index | «alias» index | nft index =>
    cases h
    exact (reads_scalar _).bind (reads_scalar index).bind_pure.bind_pure

section Reads

variable [Platform] [LawfulPlatform]

/-- Metadata and tags come with a length. -/
theorem Feature.reads {f : Feature} {b : Bytes} (fits : f.Fits) (h : f.serialize = .ok b) :
    Reads fromQDataStream b (some f) := by
  cases f with
  | sender a | issuer a =>
    cases a with
    | none => cases h
    | some a =>
      cases h
      exact (reads_scalar _).bind (Address.reads (fits a rfl)).bind_pure.bind_pure
  | metadata data | tag data =>
    cases h
    exact (reads_scalar _).bind (reads_flArray fits).bind_pure.bind_pure

/-- A native token has no tag. -/
theorem NativeToken.reads {t : NativeToken} (fits : t.Fits) :
    Reads fromQDataStream t.serialize (some t) :=
  ((reads_array fits).bind (reads_quint256 t.amount).bind_pure).bind_pure

theorem TokenScheme.reads (s : TokenScheme) : Reads fromQDataStream s.serialize (some s) := by
  rw [serialize, List.append_assoc, List.append_assoc]
  exact (reads_scalar _).bind ((reads_quint256 s.mintedTokens).bind
    ((reads_quint256 s.meltedTokens).bind (reads_quint256 s.maximumSupply).bind_pure)).bind_pure

/-! ## Outputs -/

namespace Output

/-- The count of native tokens is one byte. -/
theorem reads_nativeTokens {s : PSet NativeToken} {b : Bytes}
    (fits : AllFit NativeToken.Fits s.elems) (count : s.elems.length < 256)
    (h : serializeNativeTokens s = .ok b) : Reads deserializeNativeTokens b s := by
  refine reads_list advances_nativeToken (fun p hp t ht c hc => ?_) count h
  cases hc
  exact NativeToken.reads (fits p hp t ht)

omit [Platform] [LawfulPlatform] in
/-- Unlock conditions need no bound on their count: there are seven types. -/
theorem reads_unlockConditions {s : PSet UnlockCondition} {b : Bytes}
    (fits : AllFit UnlockCondition.Fits s.elems) (h : serializeUnlockConditions s = .ok b) :
    Reads deserializeUnlockConditions b s :=
  reads_list advances_unlockCondition
    (fun p hp c hc _ hx => UnlockCondition.reads (fits p hp c hc) hx)
    (Nat.lt_of_le_of_lt (unlockConditions_length_le s) (by decide)) h

/-- Features need no bound on their count: there are four types. -/
theorem reads_features {s : PSet Feature} {b : Bytes} (fits : AllFit Feature.Fits s.elems)
    (h : serializeFeatures s = .ok b) : Reads deserializeFeatures b s :=
  reads_list advances_feature (fun p hp f hf _ hx => Feature.reads (fits p hp f hf) hx)
    (Nat.lt_of_le_of_lt (features_length_le s) (by decide)) h

/-- An output reads back, without the immutable features of a basic one. -/
theorem reads {o : Output} {b : Bytes} (fits : o.Fits) (h : o.serialize = .ok b) :
    Reads fromQDataStream b (some o.wireForm) := by
  obtain ⟨nativeTokens, kind, unlockConditions, features, last, hnt, hkind, huc, hf, hlast, rfl⟩ :=
    serialize_eq_ok.mp h
  have tokens := reads_nativeTokens fits.nativeTokens fits.nativeTokens_count hnt
  have conditions := reads_unlockConditions fits.unlockConditions huc
  have features' := reads_features fits.features hf
  obtain ⟨kind', amount, _, _, _, _⟩ := o
  cases kind' with
  | basic =>
    cases hkind
    cases hlast
    rw [List.append_nil]
    have body : Reads basicOfQDataStream _ _ := (reads_scalar amount).bind
      (tokens.bind (conditions.bind features'.bind_pure))
    exact (reads_scalar _).bind body.bind_pure
  | nft nftId =>
    cases hkind
    have immutable := reads_features fits.immutableFeatures hlast
    have body : Reads nftOfQDataStream _ _ := (reads_scalar amount).bind
      (tokens.bind ((reads_array fits.kind).bind
        (conditions.bind (features'.bind immutable.bind_pure))))
    exact (reads_scalar _).bind body.bind_pure
  | foundry tokenScheme serialNumber =>
    cases tokenScheme with
    | none => cases hkind
    | some tokenScheme =>
      cases hkind
      have immutable := reads_features fits.immutableFeatures hlast
      rw [List.append_assoc]
      have body : Reads foundryOfQDataStream _ _ := (reads_scalar amount).bind
        (tokens.bind ((reads_scalar serialNumber).bind ((TokenScheme.reads tokenScheme).bind
          (conditions.bind (features'.bind immutable.bind_pure)))))
      exact (reads_scalar _).bind body.bind_pure
  | «alias» aliasId stateIndex foundryCounter stateMetadata =>
    cases hkind
    obtain ⟨hid, hmetadata⟩ := fits.kind
    have immutable := reads_features fits.immutableFeatures hlast
    simp only [List.append_assoc]
    have body : Reads aliasOfQDataStream _ _ := (reads_scalar amount).bind
      (tokens.bind ((reads_array hid).bind ((reads_scalar stateIndex).bind
        ((reads_flArray hmetadata).bind ((reads_scalar foundryCounter).bind
          (conditions.bind (features'.bind immutable.bind_pure)))))))
    exact (reads_scalar _).bind body.bind_pure

/-- A clone is the output as its bytes tell it. -/
theorem clone_eq {o : Output} (nonNull : o.NonNull) (fits : o.Fits) :
    o.clone = .ok (some o.wireForm) := by
  obtain ⟨b, hb⟩ := serialize_ok nonNull
  have read := (reads fits hb).run [] .ok
  rw [List.append_nil] at read
  rw [clone, hb]
  exact congrArg (Prod.fst <$> ·) read

end Output

/-! ## Essences and payloads -/

section Payloads

variable {get : Read (Option Payload)}

omit [Platform] [LawfulPlatform] in
/-- The length of a payload is told from the zero that says there is none. -/
theorem length_ne_zero {serialized : Bytes} (small : serialized.length < 256 ^ 4)
    (nonempty : serialized ≠ []) : (Scalar.ofNat serialized.length : UInt32) ≠ 0 := by
  intro hzero
  have hval : Scalar.toNat (Scalar.ofNat serialized.length : UInt32) = 0 := by
    rw [hzero]
    rfl
  rw [Scalar.toNat_ofNat_of_lt small] at hval
  exact nonempty (List.length_eq_zero_iff.mp hval)

omit [Platform] [LawfulPlatform] in
/-- A slot behind a length that is not zero is what the payload reader makes
of it. -/
theorem leaves_slot {serialized after left : Bytes} {p : Option Payload}
    (small : serialized.length < 256 ^ 4) (nonempty : serialized ≠ [])
    (h : Leaves get (serialized ++ after) p left) :
    Leaves (readSlot get) (lengthPrefixed serialized ++ after) p left := by
  rw [lengthPrefixed, List.append_assoc]
  apply (reads_scalar _).bind
  rwa [if_pos (length_ne_zero small nonempty)]

omit [Platform] [LawfulPlatform] in
/-- An empty slot. -/
theorem reads_slot_none : Reads (readSlot get) (Scalar.put (0 : UInt32)) none := by
  rw [← List.append_nil (Scalar.put (0 : UInt32))]
  exact (reads_scalar (0 : UInt32)).bind (Reads.pure none)

/-- An essence reads back up to what its slot reads as, and leaves what the
slot leaves. -/
theorem Essence.leaves {networkId : UInt64} {inputs : List (Option Input)}
    {inputsCommitment : Bytes} {outputs : List (Option Output)} {payload payload' : Option Payload}
    {b left : Bytes}
    (fits : (Essence.transaction networkId inputs inputsCommitment outputs payload).Fits)
    (h : (Essence.transaction networkId inputs inputsCommitment outputs payload).serialize = .ok b)
    (slot : ∀ embedded, serializeEmbedded payload = .ok embedded →
      Leaves (readSlot get) (embedded ++ Scalar.put (0 : UInt32)) payload' left) :
    Leaves (fromQDataStream get) b (some (.transaction networkId inputs inputsCommitment
      (outputs.map (·.map Output.wireForm)) payload')) left := by
  obtain ⟨hi, hicount, hcommitment, ho, hocount, -⟩ := fits_transaction.mp fits
  obtain ⟨inputs', outputs', embedded, hinputs, houtputs, hembedded, rfl⟩ := serialize_eq_ok.mp h
  have input : ∀ p ∈ inputs, ∀ i ∈ p, ∀ c, (.ok i.serialize : Except Fault Bytes) = .ok c →
      Reads Input.fromQDataStream c (some i) := by
    intro p hp i hmem c hc
    cases hc
    exact Input.reads (hi p hp i hmem)
  have output : ∀ p ∈ outputs, ∀ o ∈ p, ∀ c, o.serialize = .ok c →
      Reads Output.fromQDataStream c (some o.wireForm) := fun p hp o hmem _ hc =>
    Output.reads (ho p hp o hmem) hc
  have body : Leaves (ofQDataStream get) _ _ left :=
    (reads_scalar networkId).bind ((reads_vector input hicount hinputs).bind
      ((reads_array hcommitment).bind ((reads_vector_map output hocount houtputs).bind
        (slot embedded hembedded).bind_pure)))
  exact (reads_scalar _).bind body.bind_pure

omit [Platform] [LawfulPlatform] in
theorem reads_unlocks {unlocks : List (Option Unlock)} {b : Bytes}
    (fits : AllFit Unlock.Fits unlocks) (count : unlocks.length < 256 ^ 2)
    (h : serializeCounted UInt16 Unlock.serialize unlocks = .ok b) :
    Reads (deserializeVector UInt16 Unlock.fromQDataStream) b unlocks :=
  reads_vector (fun p hp u hu _ hc => Unlock.reads (fits p hp u hu) hc) count h

namespace Payload

/-- Tagged data embeds nothing, so the reader of embedded payloads does not matter. -/
theorem reads_taggedData {tag data b : Bytes} (fits : (taggedData tag data).Fits)
    (h : (taggedData tag data).serialize = .ok b) :
    Reads (dispatchQDataStream get) b (some (taggedData tag data)) := by
  rw [Payload.serialize, pure_eq_ok] at h
  rw [Payload.Fits] at fits
  have body : Reads taggedDataOfQDataStream _ _ :=
    (reads_flArray fits.1).bind (reads_flArray fits.2).bind_pure
  rw [h, List.append_assoc]
  exact (reads_scalar _).bind body.bind_pure

omit [LawfulPlatform] in
/-- What an essence leaves comes first where the unlocks are read. -/
theorem leaves_transaction {e : Essence} {us : List (Option Unlock)}
    {essence unlocks left first rest : Bytes}
    (essenceLeaves : Leaves (Essence.fromQDataStream get) essence (some e) left)
    (split : left ++ unlocks = first ++ rest)
    (firstReads : Reads (deserializeVector UInt16 Unlock.fromQDataStream) first us) :
    Leaves (dispatchQDataStream get) (Scalar.put transactionType ++ (essence ++ unlocks))
      (some (transaction (some e) us)) rest := by
  have behind :
      Leaves (deserializeVector UInt16 Unlock.fromQDataStream) (left ++ unlocks) us rest := by
    rw [split]
    exact firstReads.append rest
  have body : Leaves (transactionOfQDataStream get) _ _ rest :=
    essenceLeaves.bind_left behind.bind_pure
  exact (reads_scalar _).bind body.bind_pure

omit [LawfulPlatform] in
/-- A transaction whose essence leaves nothing reads back up to what its
essence reads as. -/
theorem reads_transaction {e e' : Essence} {unlocks : List (Option Unlock)} {b : Bytes}
    (fits : (transaction (some e) unlocks).Fits)
    (h : (transaction (some e) unlocks).serialize = .ok b)
    (essence : ∀ c, e.serialize = .ok c → Reads (Essence.fromQDataStream get) c (some e')) :
    Reads (dispatchQDataStream get) b (some (transaction (some e') unlocks)) := by
  obtain ⟨-, hu, hcount⟩ := fits_transaction.mp fits
  obtain ⟨_, essence', unlocks', ⟨⟩, he, hunlocks, rfl⟩ := serialize_eq_ok.mp h
  exact leaves_transaction (essence essence' he) (List.append_nil _).symm
    (reads_unlocks hu hcount hunlocks)

omit [LawfulPlatform] in
/-- Serialized payloads are not empty. -/
theorem serialize_ne_nil {p : Payload} {b : Bytes} (h : p.serialize = .ok b) : b ≠ [] := by
  have tagged : ∀ (type : UInt32) (rest : Bytes), Scalar.put type ++ rest ≠ [] := by
    intro type rest heq
    have hlen := congrArg List.length heq
    rw [List.length_append, Scalar.put_length] at hlen
    exact absurd hlen (by simp [Scalar.width])
  cases p with
  | taggedData tag data =>
    rw [Payload.serialize, pure_eq_ok, List.append_assoc] at h
    exact h ▸ tagged _ _
  | transaction essence unlocks =>
    obtain ⟨_, _, _, -, -, -, rfl⟩ := serialize_eq_ok.mp h
    exact tagged _ _

/-- A payload that embeds no other reads back. -/
theorem reads {p : Payload} {b : Bytes} (fits : p.Fits) (flat : p.Flat)
    (h : p.serialize = .ok b) : Reads fromQDataStream b (some p.wireForm) := by
  rw [fromQDataStream_eq]
  cases p with
  | taggedData tag data =>
    rw [wireForm]
    exact reads_taggedData fits h
  | transaction essence unlocks =>
    obtain ⟨e, _, _, rfl, -, -, -⟩ := serialize_eq_ok.mp h
    rw [wireForm_transaction, Option.map_some]
    refine reads_transaction fits h fun c hc => ?_
    obtain ⟨networkId, inputs, inputsCommitment, outputs, payload⟩ := e
    have none : payload = none := flat _ rfl
    subst none
    have hfits := (fits_transaction.mp fits).1 _ rfl
    rw [Essence.wireForm_transaction]
    refine Essence.leaves hfits hc fun embedded hembedded => ?_
    cases hembedded
    exact reads_slot_none

end Payload

end Payloads

/-! ## Blocks -/

namespace Block

omit [Platform] [LawfulPlatform] in
/-- The count of parents is one byte. -/
theorem reads_parents {parents : List Bytes} (lengths : ∀ id ∈ parents, id.length = 32)
    (count : parents.length < 256) :
    Reads readParents (Scalar.put (Scalar.ofNat parents.length : UInt8) ++ parents.flatten)
      parents := by
  apply (reads_scalar _).bind
  rw [Scalar.toNat_ofNat_of_lt count]
  refine Reads.repeat (List.forall₂_same.mpr fun id hid => reads_array (lengths id hid))

/-- `Block(QDataStream&)` over a given reader of payloads. -/
def readWith (payloadFrom : Read (Option Payload)) : Read Block := do
  let protocolVersion ← readScalar
  let parents ← readParents
  let payload ← readSlot payloadFrom
  let nonce ← readScalar
  return ⟨protocolVersion, parents, payload, nonce⟩

omit [LawfulPlatform] in
/-- The slot of a payload reads back if the payload does. -/
theorem reads_slot {get : Read (Option Payload)} {b : Block} {slot : Bytes} (fits : b.Fits)
    (payload : ∀ p ∈ b.payload, ∀ x, p.serialize = .ok x → Reads get x (some p.wireForm))
    (h : serializeSlot b.payload = .ok slot) :
    Reads (readSlot get) slot (b.payload.map Payload.wireForm) := by
  cases hp : b.payload with
  | none =>
    rw [hp] at h
    cases h
    exact reads_slot_none
  | some p =>
    rw [hp, serializeSlot, bind_eq_ok] at h
    obtain ⟨serialized, hs, ⟨⟩⟩ := h
    have read := payload p hp _ hs
    have behind : Reads (readSlot get) (lengthPrefixed serialized ++ []) (some p.wireForm) :=
      leaves_slot (fits.payload_length p hp _ hs) (Payload.serialize_ne_nil hs)
        (by rwa [List.append_nil])
    rwa [List.append_nil] at behind

omit [LawfulPlatform] in
/-- A block reads back if its payload does. -/
theorem reads_with {get : Read (Option Payload)} {b : Block} {x : Bytes} (fits : b.Fits)
    (payload : ∀ p ∈ b.payload, ∀ x, p.serialize = .ok x → Reads get x (some p.wireForm))
    (h : b.serialize = .ok x) : Reads (readWith get) x b.wireForm := by
  obtain ⟨slot, hslot, rfl⟩ := serialize_eq_ok.mp h
  exact (reads_scalar b.protocolVersion).bind
    ((reads_parents fits.parents fits.parents_count).bind
      ((reads_slot fits payload hslot).bind (reads_scalar b.nonce).bind_pure))

/-- A block whose payload, if any, embeds no other reads back. -/
theorem reads {b : Block} {x : Bytes} (fits : b.Fits) (flat : b.Flat) (h : b.serialize = .ok x) :
    Reads ofQDataStream x b.wireForm :=
  reads_with fits (fun p hp _ hx => Payload.reads (fits.payload p hp) (flat p hp) hx) h

/-- Decoding a serialized block, whatever follows it, gives the block back
in its wire form and leaves what followed; the decoded block serializes to
the same bytes and has the same id. A block that nothing is left out of is
its own wire form. -/
theorem decode_serialize {b : Block} (nonNull : b.NonNull) (fits : b.Fits) (flat : b.Flat) :
    ∃ x, b.serialize = .ok x ∧
      (∀ s : Bytes, ofQDataStream.run ⟨x ++ s, .ok⟩ = .ok (b.wireForm, ⟨s, .ok⟩)) ∧
      b.wireForm.serialize = .ok x ∧ b.wireForm.blockId = b.blockId ∧
      (b.AllWritten → b.wireForm = b) := by
  obtain ⟨x, hx⟩ := serialize_ok nonNull
  have same : b.wireForm.serialize = b.serialize := wireForm_serialize b
  refine ⟨x, hx, fun s => (reads fits flat hx).run s .ok, same.trans hx, ?_, wireForm_eq_self⟩
  rw [blockId, blockId, same]

end Block

end Reads

/-! ## At a block -/

section Sample

open Plain

-- the block of `tests/serialization.cpp`
example :
    (⟨2, [fromHex "210fc7bb818639ac48a4c6afa2f1581a8b9525e20fda68927f2b2ff836f73578".toList,
        fromHex "db0fa54c29f7fd928d92ca43f193dee47f591549f597a811c8fa67ab031ebd9c".toList],
      some (.taggedData [73, 79, 84, 65] [104, 101, 108, 108, 111, 32, 119, 111, 114, 108, 100]),
      28110⟩ : Block).serialize =
      .ok (fromHex ("0202210fc7bb818639ac48a4c6afa2f1581a8b9525e20fda68927f2b2ff836f73578".toList ++
        "db0fa54c29f7fd928d92ca43f193dee47f591549f597a811c8fa67ab031ebd9c".toList ++
        "180000000500000004494f54410b00000068656c6c6f20776f726c64ce6d000000000000".toList)) := by
  decide +kernel

/-- An NFT with one of everything. -/
def Output.sampleNft : Output where
  kind := .nft (List.replicate 32 1)
  amount := 1000
  unlockConditions := ⟨[some (.address (some ⟨.ed25519, List.replicate 32 2⟩))],
    List.pairwise_singleton _ _⟩
  features := ⟨[some (.metadata [3, 4])], List.pairwise_singleton _ _⟩
  immutableFeatures := ⟨[some (.issuer (some ⟨.alias, List.replicate 32 5⟩))],
    List.pairwise_singleton _ _⟩
  nativeTokens := ⟨[some ⟨List.replicate 38 6, 7⟩], List.pairwise_singleton _ _⟩

theorem Output.sampleNft_nonNull : sampleNft.NonNull where
  kind := trivial
  unlockConditions := by simp [sampleNft, AllNonNull, UnlockCondition.NonNull]
  features := by simp [sampleNft, AllNonNull, Feature.NonNull]
  immutableFeatures := by simp [sampleNft, AllNonNull, Feature.NonNull]
  nativeTokens := by simp [sampleNft, AllNonNull]

theorem Output.sampleNft_fits : sampleNft.Fits where
  kind := List.length_replicate
  unlockConditions := by simp [sampleNft, AllFit, UnlockCondition.Fits, Address.Fits]
  features := by simp [sampleNft, AllFit, Feature.Fits]
  immutableFeatures := by simp [sampleNft, AllFit, Feature.Fits, Address.Fits]
  nativeTokens := by simp [sampleNft, AllFit, NativeToken.Fits]
  nativeTokens_count := by decide

/-- A transaction with the given output. -/
def Payload.ofOutput (o : Output) : Payload :=
  .transaction
    (some (.transaction 9 [some ⟨List.replicate 32 10, 11⟩] (List.replicate 32 12) [some o] none))
    [some (.signature (some ⟨List.replicate 32 13, List.replicate 64 14⟩)), some (.reference 0)]

theorem Payload.ofOutput_nonNull {o : Output} (h : o.NonNull) : (ofOutput o).NonNull := by
  simp [ofOutput, nonNull_transaction, Essence.nonNull_transaction, AllNonNull, Unlock.NonNull, h]

theorem Payload.ofOutput_fits {o : Output} (h : o.Fits) : (ofOutput o).Fits := by
  simp [ofOutput, fits_transaction, Essence.fits_transaction, AllFit, Input.Fits, Unlock.Fits,
    Signature.Fits, h]

theorem Payload.ofOutput_wireForm (o : Output) : (ofOutput o).wireForm = ofOutput o.wireForm := by
  rw [ofOutput, Payload.wireForm, Essence.wireForm, List.map_cons, Option.map_some, List.map_nil,
    ofOutput]

theorem Payload.ofOutput_injective {o o' : Output} (h : ofOutput o = ofOutput o') : o = o' := by
  simpa [ofOutput] using h

/-- A block with that transaction. -/
def Block.ofOutput (o : Output) : Block where
  protocolVersion := 2
  parents := [List.replicate 32 8]
  payload := some (.ofOutput o)
  nonce := 28110

theorem Block.ofOutput_nonNull {o : Output} (h : o.NonNull) : (ofOutput o).NonNull := by
  intro p hmem
  cases hmem
  exact Payload.ofOutput_nonNull h

theorem Block.ofOutput_fits {o : Output} (h : o.Fits)
    (small : ∀ x, (Payload.ofOutput o).serialize = .ok x → x.length < 256 ^ 4) :
    (ofOutput o).Fits where
  parents := by simp [ofOutput]
  parents_count := by simp [ofOutput]
  payload := by
    intro p hmem
    cases hmem
    exact Payload.ofOutput_fits h
  payload_length := by
    intro p hmem
    cases hmem
    exact small

theorem Block.ofOutput_flat (o : Output) : (ofOutput o).Flat := by
  rintro p ⟨⟩ e ⟨⟩
  rfl

theorem Block.ofOutput_sampleNft_fits : (ofOutput .sampleNft).Fits :=
  ofOutput_fits Output.sampleNft_fits (by rintro x ⟨⟩; decide +kernel)

theorem Block.decode_serialize_sampleNft :
    ∃ x, (ofOutput .sampleNft).serialize = .ok x ∧
      (∀ s : Bytes, ofQDataStream.run ⟨x ++ s, .ok⟩ =
        .ok ((ofOutput .sampleNft).wireForm, ⟨s, .ok⟩)) ∧
      (ofOutput .sampleNft).wireForm.serialize = .ok x ∧
      (ofOutput .sampleNft).wireForm.blockId = (ofOutput .sampleNft).blockId ∧
      ((ofOutput .sampleNft).AllWritten →
        (ofOutput .sampleNft).wireForm = ofOutput .sampleNft) :=
  decode_serialize (ofOutput_nonNull Output.sampleNft_nonNull) ofOutput_sampleNft_fits
    (ofOutput_flat _)

theorem Output.withImmutableFeature_nonNull : withImmutableFeature.NonNull where
  kind := trivial
  unlockConditions := by simp [withImmutableFeature, AllNonNull, PSet.empty]
  features := by simp [withImmutableFeature, AllNonNull, PSet.empty]
  immutableFeatures := by simp [withImmutableFeature, AllNonNull, Feature.NonNull]
  nativeTokens := by simp [withImmutableFeature, AllNonNull, PSet.empty]

theorem Output.withImmutableFeature_fits : withImmutableFeature.Fits where
  kind := trivial
  unlockConditions := by simp [withImmutableFeature, AllFit, PSet.empty]
  features := by simp [withImmutableFeature, AllFit, PSet.empty]
  immutableFeatures := by simp [withImmutableFeature, AllFit, Feature.Fits]
  nativeTokens := by simp [withImmutableFeature, AllFit, PSet.empty]
  nativeTokens_count := by decide

/-- Of a basic output with an immutable feature, the decoded block has none. -/
theorem Block.decode_drops_immutable_feature :
    (ofOutput .withImmutableFeature).NonNull ∧ (ofOutput .withImmutableFeature).Fits ∧
      (ofOutput .withImmutableFeature).Flat ∧
      ∃ x, (ofOutput .withImmutableFeature).serialize = .ok x ∧
        ∀ s, ofQDataStream.run ⟨x, .ok⟩ ≠ .ok (ofOutput .withImmutableFeature, s) := by
  have nonNull := ofOutput_nonNull Output.withImmutableFeature_nonNull
  have fits := ofOutput_fits Output.withImmutableFeature_fits (by rintro x ⟨⟩; decide +kernel)
  have flat := ofOutput_flat .withImmutableFeature
  obtain ⟨x, hx⟩ := serialize_ok nonNull
  refine ⟨nonNull, fits, flat, x, hx, fun s hrun => ?_⟩
  have decoded := (reads fits flat hx).run [] .ok
  rw [List.append_nil, hrun] at decoded
  injection decoded with decoded
  injection decoded with same
  have payload := Option.some.inj (congrArg Block.payload same)
  rw [Payload.ofOutput_wireForm] at payload
  exact Output.withImmutableFeature_wireForm (Payload.ofOutput_injective payload).symm

end Sample

end Qblock
