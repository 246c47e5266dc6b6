import Qblock.Wire.Budget
import Qblock.Laws.Canonical
import Qblock.Laws.Sizes
import Qblock.Laws.Unambiguous
import Mathlib.Algebra.Order.BigOperators.Group.List

/-!
# Nothing is made of nothing

A block says how many elements its containers have before it has them, and
how long its byte arrays are. Still, what a decoder that ends with the
status Ok has made is not larger than what it read: every byte of a decoded
object was paid for with a byte of the input.

The one thing written that was not read is the zero behind an embedded
payload, four bytes for each.

- `….pays` — of each reader;
- `Block.decode_byteSize_le` — of a whole block.
-/

namespace Qblock

open Wire Qt

/-! ## Containers -/

section Containers

variable {T σ : Type} [Scalar σ] {from_ : Read (Option T)} {size : T → Nat}

/-- The count and the elements of a vector are paid for as they are read. -/
theorem pays_vector (h : Pays 0 from_ (byteSizeAt size)) :
    Pays 0 (deserializeVector σ from_) fun ps => Scalar.width σ + byteSizeAll size ps :=
  pays_scalar.bind fun _ => (h.repeat _).credit fun _ => by
    rw [Nat.zero_add]
    rfl

theorem byteSizeAll_cons (p : Option T) (ps : List (Option T)) :
    byteSizeAll size (p :: ps) = byteSizeAt size p + byteSizeAll size ps := rfl

variable [Keyed T]

/-- Insertions add no more than what is inserted. -/
theorem byteSizeAll_insertAll {ps : List (Option T)} {s s' : PSet T}
    (h : PSet.insertAll ps s = .ok s') :
    byteSizeAll size s'.elems ≤ byteSizeAll size s.elems + byteSizeAll size ps := by
  induction ps generalizing s with
  | nil =>
    cases h
    exact Nat.le_refl _
  | cons p ps ih =>
    rw [PSet.insertAll, bind_eq_ok] at h
    obtain ⟨s₁, hp, hrest⟩ := h
    have rest := ih hrest
    have first : byteSizeAll size s₁.elems ≤ byteSizeAll size s.elems + byteSizeAt size p := by
      rcases insertM_perm (PSet.insert_eq_ok.mp hp) with hperm | ⟨heq, -⟩
      · rw [byteSizeAll, (hperm.map _).sum_eq, List.map_cons, List.sum_cons, Nat.add_comm]
        exact Nat.le_refl _
      · rw [heq]
        exact Nat.le_add_right _ _
    rw [byteSizeAll_cons]
    omega

/-- Elements that were dropped have been paid for as well. -/
theorem pays_list (hfrom : Advances (fun _ => False) from_) (h : Pays 0 from_ (byteSizeAt size)) :
    Pays 0 (deserializeList σ from_) fun s => Scalar.width σ + byteSizeAll size s.elems := by
  rw [deserializeList_eq hfrom]
  refine (pays_vector h).bind fun ps => Pays.lift fun s hs => ?_
  have inserted : byteSizeAll size s.elems ≤
      byteSizeAll size (PSet.empty : PSet T).elems + byteSizeAll size ps :=
    byteSizeAll_insertAll hs
  have nothing : byteSizeAll size (PSet.empty : PSet T).elems = 0 := rfl
  omega

end Containers

theorem pays_array (n : Nat) : Pays 0 (readArray n) List.length := pays_bytes _

theorem pays_tag : Pays 0 (readScalar : Read UInt8) fun _ => 1 := pays_scalar

theorem pays_uint16 : Pays 0 (readScalar : Read UInt16) fun _ => 2 := pays_scalar

theorem pays_uint32 : Pays 0 (readScalar : Read UInt32) fun _ => 4 := pays_scalar

theorem pays_uint64 : Pays 0 (readScalar : Read UInt64) fun _ => 8 := pays_scalar

/-- The length and the bytes of an array. -/
theorem pays_flArray {σ : Type} [Scalar σ] [Platform] :
    Pays 0 (readFlArray σ) fun b => Scalar.width σ + b.length :=
  pays_scalar.bind fun _ => (pays_bytes _).credit fun _ => by rw [Nat.zero_add]

/-! ## Tagged objects -/

/-- A null address is free. -/
theorem Address.pays : Pays 0 fromQDataStream (byteSizeAt byteSize) := by
  have kind : ∀ type, Pays (0 + 1) (ofQDataStream type) byteSize := fun _ =>
    (pays_array 32).packed fun _ => Nat.le_refl _
  exact pays_tag.bind fun _ =>
    (kind _).made.ite ((kind _).made.ite ((kind _).made.ite Pays.null))

/-- A tag, an address if there is one, and a number if there is one. -/
theorem UnlockCondition.pays : Pays 0 fromQDataStream (byteSizeAt byteSize) := by
  have address : ∀ kind : Option Address → UnlockCondition,
      (∀ a, (kind a).byteSize = 1 + byteSizeAt Address.byteSize a) →
      Pays (0 + 1) (addressOfQDataStream kind >>= fun c => pure (some c))
        (byteSizeAt byteSize) := fun _ hkind =>
    Pays.made (Address.pays.packed fun a => (hkind a).le)
  have expiration : Pays (0 + 1) expirationOfQDataStream byteSize :=
    Address.pays.bind fun _ => pays_uint32.packed fun _ => Nat.le_refl _
  have timelock : Pays (0 + 1) timelockOfQDataStream byteSize :=
    pays_uint32.packed fun _ => Nat.le_refl _
  have storageDepositReturn : Pays (0 + 1) storageDepositReturnOfQDataStream byteSize :=
    Address.pays.bind fun _ => pays_uint64.packed fun _ => Nat.le_refl _
  exact pays_tag.bind fun _ => expiration.made.ite <| timelock.made.ite <|
    storageDepositReturn.made.ite <| (address _ fun _ => rfl).ite <|
    (address _ fun _ => rfl).ite <| (address _ fun _ => rfl).ite <|
    (address _ fun _ => rfl).ite Pays.null

theorem Input.pays : Pays 0 fromQDataStream (byteSizeAt byteSize) := by
  have utxo : Pays (0 + 1) ofQDataStream byteSize :=
    (pays_array 32).bind fun _ => pays_uint16.packed fun _ => Nat.le_refl _
  exact pays_tag.bind fun _ => utxo.made.ite Pays.null

theorem Signature.pays : Pays 0 fromQDataStream (byteSizeAt byteSize) := by
  have ed25519 : Pays (0 + 1) ofQDataStream byteSize :=
    (pays_array 32).bind fun _ => (pays_array 64).packed fun _ => Nat.le_refl _
  exact pays_tag.bind fun _ => ed25519.made.ite Pays.null

theorem Unlock.pays : Pays 0 fromQDataStream (byteSizeAt byteSize) := by
  have signature : Pays (0 + 1) signatureOfQDataStream byteSize :=
    Signature.pays.packed fun _ => Nat.le_refl _
  have index : ∀ kind : UInt16 → Unlock, (∀ i, (kind i).byteSize = 3) →
      Pays (0 + 1) (indexOfQDataStream kind >>= fun u => pure (some u))
        (byteSizeAt byteSize) := fun _ hkind =>
    Pays.made (pays_uint16.packed fun i => (hkind i).le)
  exact pays_tag.bind fun _ => signature.made.ite <| (index _ fun _ => rfl).ite <|
    (index _ fun _ => rfl).ite <| (index _ fun _ => rfl).ite Pays.null

section Platform

variable [Platform]

theorem pays_quint256 : Pays 0 readQuint256 fun _ => 32 := by
  have raw : Pays 0 (readArray 32) fun _ => 32 := pays_raw _
  exact raw.packed fun _ => Nat.le_add_left _ _

theorem Feature.pays : Pays 0 fromQDataStream (byteSizeAt byteSize) := by
  have address : ∀ kind : Option Address → Feature,
      (∀ a, (kind a).byteSize = 1 + byteSizeAt Address.byteSize a) →
      Pays (0 + 1) (Address.fromQDataStream >>= fun a => pure (kind a)) byteSize :=
    fun _ hkind => Address.pays.packed fun a => (hkind a).le
  have metadata : Pays (0 + 1) metadataOfQDataStream byteSize :=
    pays_flArray.packed fun _ => Nat.le_refl _
  have tag : Pays (0 + 1) tagOfQDataStream byteSize :=
    pays_flArray.packed fun _ => Nat.le_refl _
  exact pays_tag.bind fun _ => metadata.made.ite <| tag.made.ite <|
    (address .sender fun _ => rfl).made.ite <|
    (address .issuer fun _ => rfl).made.ite Pays.null

/-- A native token has no tag to pay for. -/
theorem NativeToken.pays : Pays 0 fromQDataStream (byteSizeAt byteSize) := by
  have token : Pays 0 ofQDataStream byteSize :=
    (pays_array 38).bind fun _ => pays_quint256.packed fun _ => by
      rw [Nat.zero_add]
      exact Nat.le_refl _
  exact token.made

theorem TokenScheme.pays : Pays 0 fromQDataStream (byteSizeAt fun _ => byteSize) := by
  have simple : Pays (0 + 1) ofQDataStream fun _ => byteSize :=
    pays_quint256.bind fun _ => pays_quint256.bind fun _ => pays_quint256.packed fun _ =>
      Nat.le_refl _
  exact pays_tag.bind fun _ => simple.made.ite Pays.null

/-! ## Outputs -/

namespace Output

theorem pays_nativeTokens : Pays 0 deserializeNativeTokens fun s =>
    1 + byteSizeAll NativeToken.byteSize s.elems :=
  pays_list advances_nativeToken NativeToken.pays

omit [Platform] in
theorem pays_unlockConditions : Pays 0 deserializeUnlockConditions fun s =>
    1 + byteSizeAll UnlockCondition.byteSize s.elems :=
  pays_list advances_unlockCondition UnlockCondition.pays

theorem pays_features : Pays 0 deserializeFeatures fun s =>
    1 + byteSizeAll Feature.byteSize s.elems :=
  pays_list advances_feature Feature.pays

/-- An output pays for its tag, its amount, the fields of its kind and its sets. -/
theorem pays : Pays 0 fromQDataStream (byteSizeAt byteSize) := by
  have sets : ∀ {k : Nat} {kind : Kind} {amount : UInt64} {nativeTokens : PSet NativeToken},
      kind ≠ .basic →
      1 + (8 + ((1 + byteSizeAll NativeToken.byteSize nativeTokens.elems) + kind.byteSize)) ≤ k →
      Pays k (do
        let unlockConditions ← deserializeUnlockConditions
        let features ← deserializeFeatures
        let immutableFeatures ← deserializeFeatures
        return ⟨kind, amount, unlockConditions, features, immutableFeatures, nativeTokens⟩)
        byteSize := fun {_ kind _ _} hkind hle =>
    pays_unlockConditions.bind fun _ => pays_features.bind fun _ => pays_features.packed
      fun _ => by
        cases kind with
        | basic => exact absurd rfl hkind
        | nft _ | foundry _ _ | «alias» _ _ _ _ =>
          simp only [byteSize, lastByteSize]
          omega
  have basic : Pays (0 + 1) basicOfQDataStream byteSize :=
    pays_uint64.bind fun _ => pays_nativeTokens.bind fun _ => pays_unlockConditions.bind fun _ =>
      pays_features.packed fun _ => by
        simp only [byteSize, lastByteSize, Kind.byteSize]
        omega
  have nft : Pays (0 + 1) nftOfQDataStream byteSize :=
    pays_uint64.bind fun _ => pays_nativeTokens.bind fun _ => (pays_array 32).bind fun _ =>
      sets nofun (by simp only [Kind.byteSize]; omega)
  have foundry : Pays (0 + 1) foundryOfQDataStream byteSize :=
    pays_uint64.bind fun _ => pays_nativeTokens.bind fun _ => pays_uint32.bind fun _ =>
      TokenScheme.pays.bind fun _ => sets nofun (by simp only [Kind.byteSize]; omega)
  have alias_ : Pays (0 + 1) aliasOfQDataStream byteSize :=
    pays_uint64.bind fun _ => pays_nativeTokens.bind fun _ => (pays_array 32).bind fun _ =>
      pays_uint32.bind fun _ => (pays_flArray (σ := UInt16)).bind fun _ =>
        pays_uint32.bind fun _ => sets nofun (by
          have width : Scalar.width UInt16 = 2 := rfl
          simp only [Kind.byteSize]
          omega)
  exact pays_tag.bind fun _ => basic.made.ite <| nft.made.ite <| foundry.made.ite <|
    alias_.made.ite Pays.null

end Output

/-! ## Payloads and blocks -/

/-- What was read of an essence: not the zeros behind embedded payloads. -/
def Essence.readSize (e : Essence) : Nat := e.byteSize - 4 * e.nesting

/-- What was read of a payload. -/
def Payload.readSize (p : Payload) : Nat := p.byteSize - 4 * p.nesting

section Payloads

variable {get : Read (Option Payload)}

omit [Platform] in
/-- The length in a slot, and the payload behind it. -/
theorem pays_slot (h : Pays 0 get (byteSizeAt Payload.readSize)) :
    Pays 0 (readSlot get) fun p => 4 + byteSizeAt Payload.readSize p :=
  pays_uint32.bind fun _ => (h.credit fun _ => by rw [Nat.zero_add]).ite
    (Pays.pure (Nat.le_refl _))

/-- An essence, given what embedded payloads pay for: not for its closing zero
if it embeds one. -/
theorem Essence.pays (h : Pays 0 get (byteSizeAt Payload.readSize)) :
    Pays 0 (fromQDataStream get) (byteSizeAt readSize) := by
  have transaction : Pays (0 + 1) (ofQDataStream get) readSize :=
    pays_uint64.bind fun _ => (pays_vector Input.pays).bind fun _ => (pays_array 32).bind fun _ =>
      (pays_vector Output.pays).bind fun _ => (pays_slot h).packed fun payload => by
        have width : Scalar.width UInt16 = 2 := rfl
        rw [readSize, byteSize_transaction]
        cases payload with
        | none =>
          simp only [nesting, byteSizeAt, Option.elim_none]
          omega
        | some p =>
          simp only [nesting, byteSizeAt, Option.elim_some, Payload.readSize]
          omega
  exact pays_tag.bind fun _ => transaction.made.ite Pays.null

namespace Payload

/-- A payload, given what embedded payloads pay for. -/
theorem pays_dispatch (h : Pays 0 get (byteSizeAt readSize)) :
    Pays 0 (dispatchQDataStream get) (byteSizeAt readSize) := by
  have transaction : Pays (0 + 4) (transactionOfQDataStream get) readSize :=
    (Essence.pays h).bind fun essence => (pays_vector Unlock.pays).packed fun _ => by
      have width : Scalar.width UInt16 = 2 := rfl
      rw [readSize, byteSize_transaction]
      cases essence with
      | none =>
        simp only [nesting, byteSizeAt, Option.elim_none]
        omega
      | some e =>
        simp only [nesting, byteSizeAt, Option.elim_some, Essence.readSize]
        omega
  have taggedData : Pays (0 + 4) taggedDataOfQDataStream readSize :=
    (pays_flArray (σ := UInt8)).bind fun _ => (pays_flArray (σ := UInt32)).packed fun _ => by
      have width : Scalar.width UInt8 = 1 ∧ Scalar.width UInt32 = 4 := ⟨rfl, rfl⟩
      rw [readSize, byteSize]
      omega
  exact pays_uint32.bind fun _ => transaction.made.ite <| taggedData.made.ite Pays.null

theorem pays_upTo : ∀ n, Pays 0 (fromQDataStreamUpTo n) (byteSizeAt readSize)
  | 0 => Pays.lift nofun
  | n + 1 => pays_dispatch (pays_upTo n)

theorem pays : Pays 0 fromQDataStream (byteSizeAt readSize) := by
  intro s p s' hrun
  rw [fromQDataStream_run] at hrun
  exact pays_upTo _ s p s' hrun

end Payload

end Payloads

namespace Block

omit [Platform] in
theorem pays_parents : Pays 0 readParents fun ids => 1 + ids.flatten.length :=
  pays_tag.bind fun _ => ((pays_array 32).repeat _).credit fun ids => by
    rw [List.length_flatten, Nat.zero_add]

theorem pays : Pays 0 ofQDataStream fun b => b.byteSize - 4 * b.nesting :=
  pays_tag.bind fun _ => pays_parents.bind fun _ => (pays_slot Payload.pays).bind fun payload =>
    pays_uint64.packed fun _ => by
      rw [byteSize, nesting]
      cases payload with
      | none =>
        simp only [byteSizeAt, Option.elim_none]
        omega
      | some p =>
        simp only [byteSizeAt, Option.elim_some, Payload.readSize]
        omega

/-- A decoded block and what is unread are together no longer than the input,
but for the closing zeros. -/
theorem decode_byteSize [LawfulPlatform] {bs rest : Bytes} {b : Block}
    (decoded : ofQDataStream.run ⟨bs, .ok⟩ = .ok (b, ⟨rest, .ok⟩)) :
    b.byteSize + rest.length ≤ bs.length + 4 * b.nesting ∧
      ∀ x, b.serialize = .ok x → x.length + rest.length ≤ bs.length + 4 * b.nesting := by
  obtain ⟨-, paid⟩ := pays _ _ _ decoded rfl
  have bounded : b.byteSize + rest.length ≤ bs.length + 4 * b.nesting := by
    simp only at paid
    omega
  refine ⟨bounded, fun x hx => ?_⟩
  rw [serialize_length hx]
  exact bounded

/-- Tagged data that announces `n` bytes and ends there. -/
def announcing (n : Nat) : Bytes :=
  Scalar.put (2 : UInt8) ++ (Scalar.put (0 : UInt8) ++ (Scalar.put (1 : UInt32) ++
    (Scalar.put Payload.taggedDataType ++ (Scalar.put (0 : UInt8) ++
      Scalar.put (Scalar.ofNat n : UInt32)))))

/-- Tagged data cut off behind the number of bytes it announces: as many
bytes of fresh memory become the data. -/
theorem decode_announced [LawfulPlatform] {n : Nat} (h : n < 256 ^ 4) :
    ∃ data s, data.length = n ∧
      Payload.fromQDataStream.run ⟨Scalar.put Payload.taggedDataType ++
        (Scalar.put (0 : UInt8) ++ Scalar.put (Scalar.ofNat n : UInt32)), .ok⟩ =
          .ok (some (.taggedData [] data), s) := by
  obtain ⟨data, s, hdata, length⟩ : ∃ data s,
      (readRaw (Platform.uninitialized n) : Read Bytes).run ⟨[], .ok⟩ = .ok (data, s) ∧
        data.length = n :=
    ⟨_, _, run_readRaw _ _, (readRaw_length _ _).trans (LawfulPlatform.uninitialized_length n)⟩
  have array : (readFlArray UInt32).run ⟨Scalar.put (Scalar.ofNat n : UInt32), .ok⟩ =
      .ok (data, s) := by
    have size := (reads_scalar (ε := Fault) (Scalar.ofNat n : UInt32)).run [] .ok
    rw [List.append_nil] at size
    rw [readFlArray, run_bind_ok size, Scalar.toNat_ofNat_of_lt h]
    exact hdata
  have tag : Reads (readFlArray UInt8) (Scalar.put (0 : UInt8)) [] := reads_flArray (by decide)
  refine ⟨data, s, length, ?_⟩
  rw [Payload.fromQDataStream_eq, Payload.dispatchQDataStream,
    run_bind_ok ((reads_scalar Payload.taggedDataType).run _ _)]
  show (Payload.taggedDataOfQDataStream >>= _).run _ = _
  have make : Payload.taggedDataOfQDataStream.run
      ⟨Scalar.put (0 : UInt8) ++ Scalar.put (Scalar.ofNat n : UInt32), .ok⟩ =
        .ok (.taggedData [] data, s) := by
    rw [Payload.taggedDataOfQDataStream, run_bind_ok (tag.run _ _), run_bind_ok array]
    rfl
  rw [run_bind_ok make]
  rfl

/-- Past the end nothing is paid for: as many bytes of fresh memory as were
announced become the data. -/
theorem decode_announcing [LawfulPlatform] {n : Nat} (h : n < 256 ^ 4) :
    ∃ b s', ofQDataStream.run ⟨announcing n, .ok⟩ = .ok (b, s') ∧ n ≤ b.byteSize := by
  obtain ⟨data, s, length, payload⟩ := decode_announced h
  obtain ⟨nonce, s', hnonce, -⟩ := readScalar_answers (ε := Fault) (σ := UInt64) s
  refine ⟨⟨2, [], some (.taggedData [] data), nonce⟩, s', ?_, ?_⟩
  · have parents : Reads readParents (Scalar.put (0 : UInt8)) [] :=
      @reads_parents [] (fun _ hid => absurd hid List.not_mem_nil) (by decide)
    have slot : (readSlot Payload.fromQDataStream).run ⟨Scalar.put (1 : UInt32) ++
        (Scalar.put Payload.taggedDataType ++ (Scalar.put (0 : UInt8) ++
          Scalar.put (Scalar.ofNat n : UInt32))), .ok⟩ = .ok (some (.taggedData [] data), s) := by
      rw [readSlot, run_bind_ok ((reads_scalar (1 : UInt32)).run _ _)]
      exact payload
    rw [ofQDataStream, announcing, run_bind_ok ((reads_scalar (2 : UInt8)).run _ _),
      run_bind_ok (parents.run _ _), run_bind_ok slot, run_bind_ok hnonce]
    rfl
  · rw [byteSize, byteSizeAt, Option.elim_some, Payload.byteSize]
    omega

end Block

/-- What is decoded with the status Ok, and what it is written as again, is
no longer than the bytes it was decoded from, but for four bytes for each
payload that is embedded in another one. Past the end there is no such
bound: of fifteen bytes a block of any size up to 4 GiB is made. -/
theorem decoders_bounded [LawfulPlatform] :
    (∀ (bs rest : Bytes) (b : Block), Block.ofQDataStream.run ⟨bs, .ok⟩ = .ok (b, ⟨rest, .ok⟩) →
      b.byteSize + rest.length ≤ bs.length + 4 * b.nesting ∧
        ∀ x, b.serialize = .ok x → x.length + rest.length ≤ bs.length + 4 * b.nesting) ∧
    (∀ (bs rest : Bytes) (o : Output),
      Output.fromQDataStream.run ⟨bs, .ok⟩ = .ok (some o, ⟨rest, .ok⟩) →
      o.byteSize + rest.length ≤ bs.length ∧
        ∀ x, o.serialize = .ok x → x.length + rest.length ≤ bs.length) ∧
    ∀ n < 256 ^ 4, ∃ (bs : Bytes) (b : Block) (s : Stream), bs.length = 15 ∧
      Block.ofQDataStream.run ⟨bs, .ok⟩ = .ok (b, s) ∧ n ≤ b.byteSize := by
  refine ⟨fun _ _ _ => Block.decode_byteSize, fun bs rest o decoded => ?_, fun n hn => ?_⟩
  · obtain ⟨-, paid⟩ := Output.pays _ _ _ decoded rfl
    rw [Nat.zero_add] at paid
    refine ⟨paid, fun x hx => ?_⟩
    rw [Output.serialize_length hx]
    exact paid
  · obtain ⟨b, s, hrun, large⟩ := Block.decode_announcing hn
    exact ⟨Block.announcing n, b, s, by simp [Block.announcing, Scalar.width], hrun, large⟩

end Platform

open Plain in
theorem decoders_bounded_taggedData :
    ∃ b : Block, Block.ofQDataStream.run ⟨Block.taggedDataBytes, .ok⟩ = .ok (b, ⟨[], .ok⟩) ∧
      b.byteSize ≤ Block.taggedDataBytes.length + 4 * b.nesting := by
  obtain ⟨b, decoded⟩ : ∃ b : Block,
      Block.ofQDataStream.run ⟨Block.taggedDataBytes, .ok⟩ = .ok (b, ⟨[], .ok⟩) := ⟨_, rfl⟩
  exact ⟨b, decoded, (decoders_bounded.1 _ [] b decoded).1⟩

end Qblock
