import Qblock.Laws.RoundTrip
import Qblock.Wire.Truncation

/-!
# Decoding a truncated block

No decoder looks at the status of its stream, so what runs on past the end
of a cut block decodes zeros. Zero is the tag of an address, a feature, an
unlock condition, an input, a signature and a token scheme, so those come
out present; it is the tag of no output and no payload, so those come out
null, but they are only stored. Nothing faults on the way, and the end that
was passed stays passed.

- `….drains` — on the exhausted stream;
- `….cut` — on a proper prefix of what was written;
- `Block.decode_truncated` — at every cut point of a block.
-/

namespace Qblock

open Wire Qt

/-! ## Containers -/

section Containers

variable {σ T : Type} [Scalar σ] {from_ : Read (Option T)} {P : Option T → Prop}

/-- The count of a container is zero past the end. -/
theorem drains_vector : Drains (deserializeVector σ from_) (· = []) := by
  refine drains_scalar.bind fun count hcount => ?_
  have zero : Scalar.toNat (Scalar.ofNat 0 : σ) = 0 := by
    rw [Scalar.toNat_ofNat, Nat.zero_mod]
  rw [hcount, zero]
  exact Drains.pure rfl

/-- A cut vector is whole elements, a cut one and drained ones. -/
theorem cut_vector {serialize : T → Except Fault Bytes} {f : T → T} {ps : List (Option T)}
    {b : Bytes} (hd : Drains from_ P)
    (h : ∀ p ∈ ps, ∀ x ∈ p, ∀ c, serialize x = .ok c →
      Reads from_ c (some (f x)) ∧ Cut from_ c P ∧ P (some (f x)))
    (hcount : ps.length < 256 ^ Scalar.width σ) (hb : serializeCounted σ serialize ps = .ok b) :
    Cut (deserializeVector σ from_) b fun ps' => ∀ p ∈ ps', P p := by
  obtain ⟨c, hc, rfl⟩ := serializeCounted_eq_ok.mp hb
  obtain ⟨bs, hbs, rfl⟩ := serializeAll_eq_ok.mp hc
  have elems : List.Forall₂ (Reads from_) bs (ps.map (·.map f)) ∧ (∀ c ∈ bs, Cut from_ c P) ∧
      ∀ p ∈ ps.map (·.map f), P p := by
    clear hcount hb hc
    induction hbs with
    | nil => exact ⟨.nil, nofun, nofun⟩
    | cons head _ ih =>
      obtain ⟨x, rfl, hx⟩ := head
      obtain ⟨read, cut, hp⟩ := h _ List.mem_cons_self x rfl _ hx
      obtain ⟨reads, cuts, hps⟩ := ih fun p hp => h p (List.mem_cons_of_mem _ hp)
      exact ⟨.cons read reads, List.forall_mem_cons.mpr ⟨cut, cuts⟩,
        List.forall_mem_cons.mpr ⟨hp, hps⟩⟩
  obtain ⟨reads, cuts, hps⟩ := elems
  refine Cut.bind (reads_scalar _) (cut_scalar _) (fun count hcount => ?_) ?_
  · have zero : Scalar.toNat (Scalar.ofNat 0 : σ) = 0 := by
      rw [Scalar.toNat_ofNat, Nat.zero_mod]
    rw [hcount, zero]
    exact Drains.pure nofun
  · have cut := Cut.repeat reads cuts hps hd
    rw [List.length_map] at cut
    rwa [Scalar.toNat_ofNat_of_lt hcount]

variable [Keyed T]

/-- The set read past the end is empty. -/
theorem drains_list : Drains (deserializeList σ from_) Anything := by
  refine drains_scalar.bind fun count hcount => ?_
  have zero : Scalar.toNat (Scalar.ofNat 0 : σ) = 0 := by
    rw [Scalar.toNat_ofNat, Nat.zero_mod]
  rw [hcount, zero]
  exact Drains.pure trivial

/-- A cut set holds elements that are there, which are inserted without a
fault. -/
theorem cut_list {serialize : T → Except Fault Bytes} {s : PSet T} {b : Bytes}
    (hfrom : Advances (fun _ => False) from_) (hd : Drains from_ (·.isSome))
    (h : ∀ p ∈ s.elems, ∀ x ∈ p, ∀ c, serialize x = .ok c →
      Reads from_ c (some x) ∧ Cut from_ c (·.isSome))
    (hcount : s.elems.length < 256 ^ Scalar.width σ)
    (hb : serializeList σ serialize s = .ok b) :
    Cut (deserializeList σ from_) b Anything := by
  rw [deserializeList_eq hfrom]
  have vector := cut_vector (f := id) hd
    (fun p hp x hx c hc => ⟨(h p hp x hx c hc).1, (h p hp x hx c hc).2, rfl⟩) hcount hb
  refine vector.bind_lift fun ps hps => ?_
  obtain ⟨s', hs', -⟩ := PSet.insertAll_ok hps
  exact ⟨s', hs', trivial⟩

end Containers

/-! ## Byte arrays -/

theorem drains_array (n : Nat) : Drains (readArray n) Anything := drains_raw _

theorem cut_array {n : Nat} {b : Bytes} (h : b.length = n) : Cut (readArray n) b Anything :=
  cut_raw (by rw [h, List.length_replicate])

section Platform

variable {σ : Type} [Scalar σ] [Platform]

theorem drains_flArray : Drains (readFlArray σ) Anything :=
  drains_scalar.bind fun _ _ => drains_raw _

/-- A cut byte array is of its own length, or of none if the length was cut. -/
theorem cut_flArray [LawfulPlatform] {b : Bytes} (h : b.length < 256 ^ Scalar.width σ) :
    Cut (readFlArray σ) (writeFlArray σ b) Anything := by
  refine Cut.bind (reads_scalar _) (cut_scalar _) (fun _ _ => drains_raw _) (cut_raw ?_)
  rw [LawfulPlatform.uninitialized_length, Scalar.toNat_ofNat_of_lt h]

theorem drains_quint256 : Drains readQuint256 Anything :=
  (drains_array 32).bind fun _ _ => Drains.pure trivial

theorem cut_quint256 [LawfulPlatform] (q : Quint256) :
    Cut readQuint256 (Platform.quint256Bytes q) Anything :=
  (cut_array (LawfulPlatform.quint256Bytes_length q)).bind_pure fun _ _ => trivial

end Platform

/-! ## Tagged objects -/

/-- Zero is the tag of an Ed25519 address. -/
theorem Address.drains : Drains fromQDataStream Anything :=
  drains_scalar.bind fun _ htype => htype ▸ (drains_array 32).packed.packed

theorem Address.cut {a : Address} (fits : a.Fits) :
    Cut fromQDataStream a.serialize Anything := by
  obtain ⟨type, addrhash⟩ := a
  have body : Cut (ofQDataStream type >>= fun a => pure (some a)) addrhash Anything :=
    (cut_array fits).packed.packed
  cases type with
  | ed25519 | «alias» | nft => exact Cut.tagged drains body

/-- Zero is the tag of an address unlock condition. -/
theorem UnlockCondition.drains : Drains fromQDataStream (·.isSome) :=
  drains_scalar.bind fun _ htype => htype ▸ Address.drains.packed.packed_some

/-- A cut unlock condition is there, at least as the one of tag zero. -/
theorem UnlockCondition.cut {c : UnlockCondition} {b : Bytes} (fits : c.Fits)
    (h : c.serialize = .ok b) : Cut fromQDataStream b (·.isSome) := by
  cases c with
  | timelock unixTime =>
    cases h
    exact Cut.tagged drains (cut_scalar unixTime).anything.packed.packed_some
  | address a | stateControllerAddress a | governorAddress a | immutableAliasAddress a =>
    cases a with
    | none => cases h
    | some a =>
      cases h
      exact Cut.tagged drains (Address.cut (fits a rfl)).packed.packed_some
  | storageDepositReturn a amount =>
    cases a with
    | none => cases h
    | some a =>
      cases h
      have body : Cut storageDepositReturnOfQDataStream (a.serialize ++ Scalar.put amount)
          Anything :=
        Cut.bind (Address.reads (fits a rfl)) (Address.cut (fits a rfl))
          (fun _ _ => drains_scalar.anything.packed) (cut_scalar amount).anything.packed
      rw [List.append_assoc]
      exact Cut.tagged drains body.packed_some
  | expiration a unixTime =>
    cases a with
    | none => cases h
    | some a =>
      cases h
      have body : Cut expirationOfQDataStream (a.serialize ++ Scalar.put unixTime) Anything :=
        Cut.bind (Address.reads (fits a rfl)) (Address.cut (fits a rfl))
          (fun _ _ => drains_scalar.anything.packed) (cut_scalar unixTime).anything.packed
      rw [List.append_assoc]
      exact Cut.tagged drains body.packed_some

/-- Zero is the tag of the one kind of input. -/
theorem Input.drains : Drains fromQDataStream Anything :=
  drains_scalar.bind fun _ htype => htype ▸ ((drains_array 32).bind fun _ _ =>
    drains_scalar.anything.packed).packed

theorem Input.cut {i : Input} (fits : i.Fits) : Cut fromQDataStream i.serialize Anything := by
  have body : Cut ofQDataStream (i.transactionId ++ Scalar.put i.transactionOutputIndex)
      Anything :=
    Cut.bind (reads_array fits) (cut_array fits) (fun _ _ => drains_scalar.anything.packed)
      (cut_scalar _).anything.packed
  rw [serialize, List.append_assoc]
  exact Cut.tagged drains body.packed

/-- Zero is the tag of the one kind of signature. -/
theorem Signature.drains : Drains fromQDataStream Anything :=
  drains_scalar.bind fun _ htype => htype ▸ ((drains_array 32).bind fun _ _ =>
    (drains_array 64).packed).packed

theorem Signature.cut {s : Signature} (fits : s.Fits) :
    Cut fromQDataStream s.serialize Anything := by
  have body : Cut ofQDataStream (s.publicKey ++ s.signature) Anything :=
    Cut.bind (reads_array fits.1) (cut_array fits.1) (fun _ _ => (drains_array 64).packed)
      (cut_array fits.2).packed
  rw [serialize, List.append_assoc]
  exact Cut.tagged drains body.packed

/-- Zero is the tag of a signature unlock. -/
theorem Unlock.drains : Drains fromQDataStream Anything :=
  drains_scalar.bind fun _ htype => htype ▸ Signature.drains.packed.packed

/-- A signature unlock is cut in its signature, the others in their index. -/
theorem Unlock.cut {u : Unlock} {b : Bytes} (fits : u.Fits) (h : u.serialize = .ok b) :
    Cut fromQDataStream b Anything := by
  cases u with
  | signature s =>
    cases s with
    | none => cases h
    | some s =>
      cases h
      exact Cut.tagged drains (Signature.cut (fits s rfl)).packed.packed
  | reference index | «alias» index | nft index =>
    cases h
    exact Cut.tagged drains (cut_scalar index).anything.packed.packed

section Lawful

variable [Platform]

/-- Zero is the tag of a sender feature. -/
theorem Feature.drains : Drains fromQDataStream (·.isSome) :=
  drains_scalar.bind fun _ htype => htype ▸ Address.drains.packed.packed_some

/-- A native token has no tag, so it is there. -/
theorem NativeToken.drains : Drains fromQDataStream (·.isSome) :=
  ((drains_array 38).bind fun _ _ => drains_quint256.packed).packed_some

/-- Zero is the tag of the one token scheme. -/
theorem TokenScheme.drains : Drains fromQDataStream Anything :=
  drains_scalar.bind fun _ htype => htype ▸ (drains_quint256.bind fun _ _ =>
    drains_quint256.bind fun _ _ => drains_quint256.packed).packed

variable [LawfulPlatform]

/-- A cut feature is there, at least as the one of tag zero. -/
theorem Feature.cut {f : Feature} {b : Bytes} (fits : f.Fits) (h : f.serialize = .ok b) :
    Cut fromQDataStream b (·.isSome) := by
  cases f with
  | sender a | issuer a =>
    cases a with
    | none => cases h
    | some a =>
      cases h
      exact Cut.tagged drains (Address.cut (fits a rfl)).packed.packed_some
  | metadata data | tag data =>
    cases h
    exact Cut.tagged drains (cut_flArray fits).packed.packed_some

/-- A cut native token is there. -/
theorem NativeToken.cut {t : NativeToken} (fits : t.Fits) :
    Cut fromQDataStream t.serialize (·.isSome) := by
  have body : Cut ofQDataStream (t.tokenId ++ Platform.quint256Bytes t.amount) Anything :=
    Cut.bind (reads_array fits) (cut_array fits) (fun _ _ => drains_quint256.packed)
      (cut_quint256 t.amount).packed
  exact body.packed_some

theorem TokenScheme.cut (s : TokenScheme) : Cut fromQDataStream s.serialize Anything := by
  have body : Cut ofQDataStream (Platform.quint256Bytes s.mintedTokens ++
      (Platform.quint256Bytes s.meltedTokens ++ Platform.quint256Bytes s.maximumSupply))
      Anything :=
    Cut.bind (reads_quint256 _) (cut_quint256 _)
      (fun _ _ => drains_quint256.bind fun _ _ => drains_quint256.packed)
      (Cut.bind (reads_quint256 _) (cut_quint256 _) (fun _ _ => drains_quint256.packed)
        (cut_quint256 _).packed)
  rw [serialize, List.append_assoc, List.append_assoc]
  exact Cut.tagged drains body.packed

/-! ## Outputs -/

namespace Output

/-- Cut native tokens are inserted as they come, since all are there. -/
theorem cut_nativeTokens {s : PSet NativeToken} {b : Bytes}
    (fits : AllFit NativeToken.Fits s.elems) (count : s.elems.length < 256)
    (h : serializeNativeTokens s = .ok b) : Cut deserializeNativeTokens b Anything := by
  refine cut_list advances_nativeToken NativeToken.drains (fun p hp t ht c hc => ?_) count h
  cases hc
  exact ⟨NativeToken.reads (fits p hp t ht), NativeToken.cut (fits p hp t ht)⟩

omit [Platform] [LawfulPlatform] in
/-- Unlock conditions need no bound on their count: there are seven types. -/
theorem cut_unlockConditions {s : PSet UnlockCondition} {b : Bytes}
    (fits : AllFit UnlockCondition.Fits s.elems) (h : serializeUnlockConditions s = .ok b) :
    Cut deserializeUnlockConditions b Anything :=
  cut_list advances_unlockCondition UnlockCondition.drains
    (fun p hp c hc _ hx =>
      ⟨UnlockCondition.reads (fits p hp c hc) hx, UnlockCondition.cut (fits p hp c hc) hx⟩)
    (Nat.lt_of_le_of_lt (unlockConditions_length_le s) (by decide)) h

/-- Features need no bound on their count: there are four types. -/
theorem cut_features {s : PSet Feature} {b : Bytes} (fits : AllFit Feature.Fits s.elems)
    (h : serializeFeatures s = .ok b) : Cut deserializeFeatures b Anything :=
  cut_list advances_feature Feature.drains
    (fun p hp f hf _ hx => ⟨Feature.reads (fits p hp f hf) hx, Feature.cut (fits p hp f hf) hx⟩)
    (Nat.lt_of_le_of_lt (features_length_le s) (by decide)) h

omit [Platform] [LawfulPlatform] in
/-- Zero is the tag of no output. -/
theorem drains [Platform] : Drains fromQDataStream Anything :=
  drains_scalar.bind fun _ htype => htype ▸ Drains.pure trivial

/-- The reader of the sets that close all but the basic output. -/
def readSets (make : PSet UnlockCondition → PSet Feature → PSet Feature → Output) :
    Read Output := do
  let unlockConditions ← deserializeUnlockConditions
  let features ← deserializeFeatures
  let immutableFeatures ← deserializeFeatures
  return make unlockConditions features immutableFeatures

section Kinds

variable {o : Output} {nativeTokens unlockConditions features last : Bytes} (fits : o.Fits)
  (hnt : serializeNativeTokens o.nativeTokens = .ok nativeTokens)
  (huc : serializeUnlockConditions o.unlockConditions = .ok unlockConditions)
  (hf : serializeFeatures o.features = .ok features)
  (hlast : serializeFeatures o.immutableFeatures = .ok last)

omit [LawfulPlatform] in
theorem drains_sets (make : PSet UnlockCondition → PSet Feature → PSet Feature → Output) :
    Drains (readSets make) Anything :=
  drains_list.bind fun _ _ => drains_list.bind fun _ _ => drains_list.packed

include fits huc hf hlast in
/-- The cut is in one of the three sets, and those behind it are drained. -/
theorem cut_sets (make : PSet UnlockCondition → PSet Feature → PSet Feature → Output) :
    Cut (readSets make) (unlockConditions ++ (features ++ last)) Anything :=
  Cut.bind (reads_unlockConditions fits.unlockConditions huc)
    (cut_unlockConditions fits.unlockConditions huc)
    (fun _ _ => drains_list.bind fun _ _ => drains_list.packed) <|
  Cut.bind (reads_features fits.features hf) (cut_features fits.features hf)
    (fun _ _ => drains_list.packed) (cut_features fits.immutableFeatures hlast).packed

include fits hnt in
/-- An output of any kind up to its native tokens. -/
theorem cut_head {readRest : UInt64 → PSet NativeToken → Read Output} {rest : Bytes}
    (drain : ∀ amount nativeTokens, Drains (readRest amount nativeTokens) Anything)
    (cut : Cut (readRest o.amount o.nativeTokens) rest Anything) :
    Cut (do
      let amount ← readScalar
      let nativeTokens ← deserializeNativeTokens
      readRest amount nativeTokens)
      (Scalar.put o.amount ++ (nativeTokens ++ rest)) Anything :=
  Cut.bind (reads_scalar o.amount) (cut_scalar o.amount)
    (fun _ _ => drains_list.bind fun _ _ => drain _ _) <|
  Cut.bind (reads_nativeTokens fits.nativeTokens fits.nativeTokens_count hnt)
    (cut_nativeTokens fits.nativeTokens fits.nativeTokens_count hnt) (fun _ _ => drain _ _) cut

include fits hnt huc hf in
theorem cut_basic :
    Cut basicOfQDataStream
      (Scalar.put o.amount ++ (nativeTokens ++ (unlockConditions ++ features))) Anything :=
  cut_head fits hnt (fun _ _ => drains_list.bind fun _ _ => drains_list.packed) <|
    Cut.bind (reads_unlockConditions fits.unlockConditions huc)
      (cut_unlockConditions fits.unlockConditions huc) (fun _ _ => drains_list.packed)
      (cut_features fits.features hf).packed

include fits hnt huc hf hlast

theorem cut_nft {nftId : Bytes} (hid : nftId.length = 32) :
    Cut nftOfQDataStream
      (Scalar.put o.amount ++ (nativeTokens ++ (nftId ++ (unlockConditions ++
        (features ++ last))))) Anything :=
  cut_head fits hnt (fun _ _ => (drains_array 32).bind fun _ _ => drains_sets _) <|
    Cut.bind (reads_array hid) (cut_array hid) (fun _ _ => drains_sets _)
      (cut_sets fits huc hf hlast _)

theorem cut_foundry (tokenScheme : TokenScheme) (serialNumber : UInt32) :
    Cut foundryOfQDataStream
      (Scalar.put o.amount ++ (nativeTokens ++ (Scalar.put serialNumber ++
        (tokenScheme.serialize ++ (unlockConditions ++ (features ++ last)))))) Anything :=
  cut_head fits hnt
    (fun _ _ => drains_scalar.bind fun _ _ => TokenScheme.drains.bind fun _ _ =>
      drains_sets _) <|
    Cut.bind (reads_scalar serialNumber) (cut_scalar serialNumber)
      (fun _ _ => TokenScheme.drains.bind fun _ _ => drains_sets _) <|
    Cut.bind (TokenScheme.reads tokenScheme) (TokenScheme.cut tokenScheme)
      (fun _ _ => drains_sets _) (cut_sets fits huc hf hlast _)

theorem cut_alias {aliasId stateMetadata : Bytes} (stateIndex foundryCounter : UInt32)
    (hid : aliasId.length = 32) (hmetadata : stateMetadata.length < 256 ^ 2) :
    Cut aliasOfQDataStream
      (Scalar.put o.amount ++ (nativeTokens ++ (aliasId ++ (Scalar.put stateIndex ++
        (writeFlArray UInt16 stateMetadata ++ (Scalar.put foundryCounter ++
          (unlockConditions ++ (features ++ last)))))))) Anything :=
  cut_head fits hnt
    (fun _ _ => (drains_array 32).bind fun _ _ => drains_scalar.bind fun _ _ =>
      drains_flArray.bind fun _ _ => drains_scalar.bind fun _ _ => drains_sets _) <|
    Cut.bind (reads_array hid) (cut_array hid)
      (fun _ _ => drains_scalar.bind fun _ _ => drains_flArray.bind fun _ _ =>
        drains_scalar.bind fun _ _ => drains_sets _) <|
    Cut.bind (reads_scalar stateIndex) (cut_scalar stateIndex)
      (fun _ _ => drains_flArray.bind fun _ _ => drains_scalar.bind fun _ _ =>
        drains_sets _) <|
    Cut.bind (reads_flArray hmetadata) (cut_flArray hmetadata)
      (fun _ _ => drains_scalar.bind fun _ _ => drains_sets _) <|
    Cut.bind (reads_scalar foundryCounter) (cut_scalar foundryCounter)
      (fun _ _ => drains_sets _) (cut_sets fits huc hf hlast _)

end Kinds

/-- Each kind of output is cut in its own fields or in its sets. -/
theorem cut {o : Output} {b : Bytes} (fits : o.Fits) (h : o.serialize = .ok b) :
    Cut fromQDataStream b Anything := by
  obtain ⟨nativeTokens, kind, unlockConditions, features, last, hnt, hkind, huc, hf, hlast, rfl⟩ :=
    serialize_eq_ok.mp h
  obtain ⟨kind', amount, _, _, _, _⟩ := o
  cases kind' with
  | basic =>
    cases hkind
    cases hlast
    rw [List.append_nil]
    exact Cut.tagged drains (cut_basic fits hnt huc hf).packed
  | nft nftId =>
    cases hkind
    exact Cut.tagged drains (cut_nft fits hnt huc hf hlast fits.kind).packed
  | foundry tokenScheme serialNumber =>
    cases tokenScheme with
    | none => cases hkind
    | some tokenScheme =>
      cases hkind
      rw [List.append_assoc]
      exact Cut.tagged drains (cut_foundry fits hnt huc hf hlast tokenScheme serialNumber).packed
  | «alias» aliasId stateIndex foundryCounter stateMetadata =>
    cases hkind
    obtain ⟨hid, hmetadata⟩ := fits.kind
    simp only [List.append_assoc]
    exact Cut.tagged drains
      (cut_alias fits hnt huc hf hlast stateIndex foundryCounter hid hmetadata).packed

end Output

/-! ## Essences and payloads -/

section Payloads

variable {get : Read (Option Payload)}

omit [Platform] [LawfulPlatform] in
/-- Past the end the length of a payload is zero. -/
theorem drains_slot : Drains (readSlot get) Anything :=
  drains_scalar.bind fun _ hzero => hzero ▸ Drains.pure trivial

omit [Platform] [LawfulPlatform] in
/-- The zero that says that there is no payload. -/
theorem cut_slot_none : Cut (readSlot get) (Scalar.put (0 : UInt32)) Anything := by
  rw [← List.append_nil (Scalar.put (0 : UInt32))]
  exact Cut.tagged drains_slot (Cut.nil _)

omit [Platform] [LawfulPlatform] in
/-- A payload behind its length, which tells a payload unless it is cut. -/
theorem cut_slot {serialized : Bytes} (small : serialized.length < 256 ^ 4)
    (nonempty : serialized ≠ []) (h : Cut get serialized Anything) :
    Cut (readSlot get) (lengthPrefixed serialized) Anything := by
  apply Cut.tagged drains_slot
  rwa [if_pos (length_ne_zero small nonempty)]

omit [Platform] [LawfulPlatform] in
/-- Zero is the tag of no essence. -/
theorem Essence.drains [Platform] : Drains (fromQDataStream get) Anything :=
  drains_scalar.bind fun _ htype => htype ▸ Drains.pure trivial

/-- The cut is in one field of the essence, and the fields behind it are
drained. -/
theorem Essence.cut {networkId : UInt64} {inputs : List (Option Input)} {inputsCommitment : Bytes}
    {outputs : List (Option Output)} {b : Bytes}
    (fits : (Essence.transaction networkId inputs inputsCommitment outputs none).Fits)
    (h : (Essence.transaction networkId inputs inputsCommitment outputs none).serialize = .ok b) :
    Cut (fromQDataStream get) b Anything := by
  obtain ⟨hi, hicount, hcommitment, ho, hocount, -⟩ := fits_transaction.mp fits
  obtain ⟨inputs', outputs', embedded, hinputs, houtputs, hembedded, rfl⟩ := serialize_eq_ok.mp h
  cases hembedded
  have input : ∀ p ∈ inputs, ∀ i ∈ p, ∀ c, (.ok i.serialize : Except Fault Bytes) = .ok c →
      Reads Input.fromQDataStream c (some i) ∧ Cut Input.fromQDataStream c Anything ∧
        Anything (some i) := by
    intro p hp i hmem c hc
    cases hc
    exact ⟨Input.reads (hi p hp i hmem), Input.cut (hi p hp i hmem), trivial⟩
  have output : ∀ p ∈ outputs, ∀ o ∈ p, ∀ c, o.serialize = .ok c →
      Reads Output.fromQDataStream c (some o.wireForm) ∧
        Cut Output.fromQDataStream c Anything ∧ Anything (some o.wireForm) :=
    fun p hp o hmem _ hc =>
      ⟨Output.reads (ho p hp o hmem) hc, Output.cut (ho p hp o hmem) hc, trivial⟩
  have body : Cut (ofQDataStream get) _ Anything :=
    Cut.bind (reads_scalar networkId) (cut_scalar networkId)
      (fun _ _ => drains_vector.bind fun _ _ => (drains_array 32).bind fun _ _ =>
        drains_vector.bind fun _ _ => drains_slot.packed) <|
    Cut.bind (reads_vector_map (f := id) (fun p hp x hx c hc => (input p hp x hx c hc).1) hicount
        hinputs)
      (cut_vector (f := id) Input.drains input hicount hinputs)
      (fun _ _ => (drains_array 32).bind fun _ _ => drains_vector.bind fun _ _ =>
        drains_slot.packed) <|
    Cut.bind (reads_array hcommitment) (cut_array hcommitment)
      (fun _ _ => drains_vector.bind fun _ _ => drains_slot.packed) <|
    Cut.bind (reads_vector_map (fun p hp x hx c hc => (output p hp x hx c hc).1) hocount houtputs)
      (cut_vector Output.drains output hocount houtputs)
      (fun _ _ => drains_slot.packed) cut_slot_none.packed
  exact Cut.tagged drains body.packed

omit [Platform] [LawfulPlatform] in
/-- Cut unlocks are whole ones, a cut one and drained ones. -/
theorem cut_unlocks {unlocks : List (Option Unlock)} {b : Bytes}
    (fits : AllFit Unlock.Fits unlocks) (count : unlocks.length < 256 ^ 2)
    (h : serializeCounted UInt16 Unlock.serialize unlocks = .ok b) :
    Cut (deserializeVector UInt16 Unlock.fromQDataStream) b Anything := by
  have unlock : ∀ p ∈ unlocks, ∀ u ∈ p, ∀ c, u.serialize = .ok c →
      Reads Unlock.fromQDataStream c (some u) ∧ Cut Unlock.fromQDataStream c Anything ∧
        Anything (some u) := fun p hp u hu _ hc =>
    ⟨Unlock.reads (fits p hp u hu) hc, Unlock.cut (fits p hp u hu) hc, trivial⟩
  exact (cut_vector (f := id) Unlock.drains unlock count h).anything

namespace Payload

omit [Platform] [LawfulPlatform] in
/-- Zero is the tag of no payload. -/
theorem drains [Platform] : Drains fromQDataStream Anything := by
  rw [fromQDataStream_eq]
  exact drains_scalar.bind fun _ htype => htype ▸ Drains.pure trivial

/-- Tagged data is cut in one of its arrays, a transaction in its essence or
its unlocks. -/
theorem cut {p : Payload} {b : Bytes} (fits : p.Fits) (flat : p.Flat)
    (h : p.serialize = .ok b) : Cut fromQDataStream b Anything := by
  have drains' := drains
  rw [fromQDataStream_eq] at drains' ⊢
  cases p with
  | taggedData tag data =>
    rw [Payload.serialize, pure_eq_ok] at h
    rw [Payload.Fits] at fits
    have body : Cut taggedDataOfQDataStream _ Anything :=
      Cut.bind (reads_flArray fits.1) (cut_flArray fits.1) (fun _ _ => drains_flArray.packed)
        (cut_flArray fits.2).packed
    rw [h, List.append_assoc]
    exact Cut.tagged drains' body.packed
  | transaction essence unlocks =>
    obtain ⟨e, essence', unlocks', rfl, he, hunlocks, rfl⟩ := serialize_eq_ok.mp h
    obtain ⟨hfits, hu, hcount⟩ := fits_transaction.mp fits
    obtain ⟨networkId, inputs, inputsCommitment, outputs, payload⟩ := e
    have none : payload = none := flat _ rfl
    subst none
    have essenceReads : Reads (Essence.fromQDataStream fromQDataStream) _ _ :=
      Essence.leaves (hfits _ rfl) he fun embedded hembedded => by
        cases hembedded
        exact reads_slot_none
    have body : Cut (transactionOfQDataStream fromQDataStream) _ Anything :=
      Cut.bind essenceReads (Essence.cut (hfits _ rfl) he)
        (fun _ _ => drains_vector.anything.packed) (cut_unlocks hu hcount hunlocks).packed
    exact Cut.tagged drains' body.packed

end Payload

end Payloads

/-! ## Blocks -/

namespace Block

omit [Platform] [LawfulPlatform] in
/-- The count of the parents is zero past the end. -/
theorem drains_parents : Drains readParents Anything :=
  drains_scalar.bind fun _ _ => (Drains.repeat (drains_array 32) _).anything

omit [Platform] [LawfulPlatform] in
/-- Cut parents are padded with zeros. -/
theorem cut_parents {parents : List Bytes} (lengths : ∀ id ∈ parents, id.length = 32)
    (count : parents.length < 256) :
    Cut readParents (Scalar.put (Scalar.ofNat parents.length : UInt8) ++ parents.flatten)
      Anything := by
  apply Cut.tagged drains_parents
  rw [Scalar.toNat_ofNat_of_lt count]
  exact (Cut.repeat (List.forall₂_same.mpr fun id hid => reads_array (lengths id hid))
    (fun id hid => cut_array (lengths id hid)) (fun _ _ => trivial) (drains_array 32)).anything

/-- The slot of a block, with its payload or without. -/
theorem cut_payloadSlot {b : Block} {slot : Bytes} (fits : b.Fits) (flat : b.Flat)
    (h : serializeSlot b.payload = .ok slot) :
    Cut (readSlot Payload.fromQDataStream) slot Anything := by
  cases hp : b.payload with
  | none =>
    rw [hp] at h
    cases h
    exact cut_slot_none
  | some p =>
    rw [hp, serializeSlot, bind_eq_ok] at h
    obtain ⟨serialized, hs, ⟨⟩⟩ := h
    exact cut_slot (fits.payload_length p hp _ hs) (Payload.serialize_ne_nil hs)
      (Payload.cut (fits.payload p hp) (flat p hp) hs)

/-- Of a cut block, some block is decoded. -/
theorem cut {b : Block} {x : Bytes} (fits : b.Fits) (flat : b.Flat) (h : b.serialize = .ok x) :
    Cut ofQDataStream x Anything := by
  obtain ⟨slot, hslot, rfl⟩ := serialize_eq_ok.mp h
  have read : ∀ p ∈ b.payload, ∀ x, p.serialize = .ok x →
      Reads Payload.fromQDataStream x (some p.wireForm) := fun p hp _ hx =>
    Payload.reads (fits.payload p hp) (flat p hp) hx
  exact Cut.bind (reads_scalar b.protocolVersion) (cut_scalar _)
      (fun _ _ => drains_parents.bind fun _ _ => drains_slot.bind fun _ _ =>
        drains_scalar.anything.packed) <|
    Cut.bind (reads_parents fits.parents fits.parents_count)
      (cut_parents fits.parents fits.parents_count)
      (fun _ _ => drains_slot.bind fun _ _ => drains_scalar.anything.packed) <|
    Cut.bind (reads_slot fits read hslot) (cut_payloadSlot fits flat hslot)
      (fun _ _ => drains_scalar.anything.packed) (cut_scalar b.nonce).anything.packed

/-- Wherever a serialized block is cut, decoding what is left of it runs to
its end with the status telling that the end of the stream was passed, and
decoding all of it ends with the status Ok. -/
theorem decode_truncated {b : Block} (nonNull : b.NonNull) (fits : b.Fits) (flat : b.Flat) :
    ∃ x, b.serialize = .ok x ∧
      ofQDataStream.run ⟨x, .ok⟩ = .ok (b.wireForm, ⟨[], .ok⟩) ∧
      ∀ t, t <+: x → t ≠ x →
        ∃ b', ofQDataStream.run ⟨t, .ok⟩ = .ok (b', ⟨[], .readPastEnd⟩) := by
  obtain ⟨x, hx⟩ := serialize_ok nonNull
  have whole := (reads fits flat hx).run [] .ok
  rw [List.append_nil] at whole
  refine ⟨x, hx, whole, fun t ht hne => ?_⟩
  obtain ⟨b', -, hrun⟩ := cut fits flat hx t ht hne .ok
  exact ⟨b', hrun⟩

end Block

end Lawful

open Plain in
theorem Block.decode_truncated_sampleNft :
    ∃ x, (ofOutput .sampleNft).serialize = .ok x ∧
      ofQDataStream.run ⟨x, .ok⟩ = .ok ((ofOutput .sampleNft).wireForm, ⟨[], .ok⟩) ∧
      ∀ t, t <+: x → t ≠ x →
        ∃ b', ofQDataStream.run ⟨t, .ok⟩ = .ok (b', ⟨[], .readPastEnd⟩) :=
  decode_truncated (ofOutput_nonNull Output.sampleNft_nonNull) ofOutput_sampleNft_fits
    (ofOutput_flat _)

end Qblock
