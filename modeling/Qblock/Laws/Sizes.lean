import Qblock.Laws.Layout

/-!
# How many bytes an object takes

`byteSize` counts the bytes an object is written as, from the lengths of its
byte arrays and the elements of its containers, without writing any of it.
What is behind a null pointer counts nothing: such an object is not written.

- `…_serialize_length` — what is written is as long as `byteSize` says.
-/

namespace Qblock

open Wire Qt

/-! ## Containers -/

section Containers

variable {σ T : Type} [Scalar σ]

/-- The bytes of what a pointer points to. -/
def byteSizeAt (size : T → Nat) (p : Option T) : Nat := p.elim 0 size

/-- The bytes of all that a container points to. -/
def byteSizeAll (size : T → Nat) (ps : List (Option T)) : Nat := (ps.map (byteSizeAt size)).sum

variable {serialize : T → Except Fault Bytes} {size : T → Nat}

/-- Elements one after the other are as long as all of them together. -/
theorem serializeAll_length (h : ∀ x b, serialize x = .ok b → b.length = size x) :
    ∀ {ps : List (Option T)} {b : Bytes}, serializeAll serialize ps = .ok b →
      b.length = byteSizeAll size ps := by
  intro ps b hb
  obtain ⟨bs, hbs, rfl⟩ := serializeAll_eq_ok.mp hb
  clear hb
  induction hbs with
  | nil => rfl
  | cons head _ ih =>
    obtain ⟨x, rfl, hx⟩ := head
    rw [List.flatten_cons, List.length_append, ih, h x _ hx]
    rfl

/-- A count and its elements. -/
theorem serializeCounted_length (h : ∀ x b, serialize x = .ok b → b.length = size x)
    {ps : List (Option T)} {b : Bytes} (hb : serializeCounted σ serialize ps = .ok b) :
    b.length = Scalar.width σ + byteSizeAll size ps := by
  obtain ⟨c, hc, rfl⟩ := serializeCounted_eq_ok.mp hb
  rw [List.length_append, Scalar.put_length, serializeAll_length h hc]

/-- A length and its bytes. -/
theorem writeFlArray_length (obj : Bytes) :
    (writeFlArray σ obj).length = Scalar.width σ + obj.length := by
  rw [writeFlArray, List.length_append, Scalar.put_length]

end Containers

/-! ## Tagged objects -/

def Address.byteSize (a : Address) : Nat := 1 + a.addrhash.length

theorem Address.serialize_length (a : Address) : a.serialize.length = a.byteSize := by
  rw [serialize, List.length_append, Scalar.put_length]
  rfl

def Feature.byteSize : Feature → Nat
  | sender a | issuer a => 1 + byteSizeAt Address.byteSize a
  | metadata data => 1 + (2 + data.length)
  | tag data => 1 + (1 + data.length)

/-- The features that are written have their address. -/
theorem Feature.serialize_length {f : Feature} {b : Bytes} (h : f.serialize = .ok b) :
    b.length = f.byteSize := by
  cases f with
  | sender a | issuer a =>
    cases a with
    | none => cases h
    | some a =>
      cases h
      rw [List.length_append, Scalar.put_length, a.serialize_length]
      rfl
  | metadata data | tag data =>
    cases h
    rw [List.length_append, Scalar.put_length, writeFlArray_length]
    rfl

def UnlockCondition.byteSize : UnlockCondition → Nat
  | address a | stateControllerAddress a | governorAddress a | immutableAliasAddress a =>
    1 + byteSizeAt Address.byteSize a
  | storageDepositReturn a _ => 1 + byteSizeAt Address.byteSize a + 8
  | timelock _ => 1 + 4
  | expiration a _ => 1 + byteSizeAt Address.byteSize a + 4

/-- The unlock conditions that are written have their address. -/
theorem UnlockCondition.serialize_length {c : UnlockCondition} {b : Bytes}
    (h : c.serialize = .ok b) : b.length = c.byteSize := by
  cases c with
  | timelock _ =>
    cases h
    simp only [List.length_append, Scalar.put_length]
    rfl
  | address a | stateControllerAddress a | governorAddress a | immutableAliasAddress a
  | storageDepositReturn a _ | expiration a _ =>
    cases a with
    | none => cases h
    | some a =>
      cases h
      simp only [List.length_append, Scalar.put_length, a.serialize_length]
      rfl

def Input.byteSize (i : Input) : Nat := 1 + i.transactionId.length + 2

theorem Input.serialize_length (i : Input) : i.serialize.length = i.byteSize := by
  simp only [serialize, List.length_append, Scalar.put_length]
  rfl

def Signature.byteSize (s : Signature) : Nat := 1 + s.publicKey.length + s.signature.length

theorem Signature.serialize_length (s : Signature) : s.serialize.length = s.byteSize := by
  simp only [serialize, List.length_append, Scalar.put_length]
  rfl

def Unlock.byteSize : Unlock → Nat
  | signature s => 1 + byteSizeAt Signature.byteSize s
  | reference _ | «alias» _ | nft _ => 1 + 2

/-- A signature unlock is as long as its signature says, the others are three
bytes. -/
theorem Unlock.serialize_length {u : Unlock} {b : Bytes} (h : u.serialize = .ok b) :
    b.length = u.byteSize := by
  cases u with
  | signature s =>
    cases s with
    | none => cases h
    | some s =>
      cases h
      rw [List.length_append, Scalar.put_length, s.serialize_length]
      rfl
  | reference _ | «alias» _ | nft _ =>
    cases h
    simp only [List.length_append, Scalar.put_length]
    rfl

/-! ## Outputs -/

def NativeToken.byteSize (t : NativeToken) : Nat := t.tokenId.length + 32

/-- The bytes of a token scheme: a tag and three numbers. -/
def TokenScheme.byteSize : Nat := 1 + 3 * 32

def Output.Kind.byteSize : Output.Kind → Nat
  | .basic => 0
  | .nft nftId => nftId.length
  | .foundry tokenScheme _ => 4 + byteSizeAt (fun _ => TokenScheme.byteSize) tokenScheme
  | .alias aliasId _ _ stateMetadata => aliasId.length + 4 + (2 + stateMetadata.length) + 4

/-- The bytes of the immutable features, which a basic output does not write. -/
def Output.lastByteSize (o : Output) : Nat :=
  match o.kind with
  | .basic => 0
  | .nft _ | .foundry _ _ | .alias _ _ _ _ =>
    1 + byteSizeAll Feature.byteSize o.immutableFeatures.elems

def Output.byteSize (o : Output) : Nat :=
  1 + (8 + ((1 + byteSizeAll NativeToken.byteSize o.nativeTokens.elems) + (o.kind.byteSize +
    ((1 + byteSizeAll UnlockCondition.byteSize o.unlockConditions.elems) +
      ((1 + byteSizeAll Feature.byteSize o.features.elems) + o.lastByteSize)))))

mutual

def Essence.byteSize : Essence → Nat
  | .transaction _ inputs inputsCommitment outputs payload =>
    1 + (8 + ((2 + byteSizeAll Input.byteSize inputs) + (inputsCommitment.length +
      ((2 + byteSizeAll Output.byteSize outputs) +
        ((match payload with
          | some p => 4 + p.byteSize
          | none => 0) + 4)))))

def Payload.byteSize : Payload → Nat
  | .taggedData tag data => 4 + (1 + tag.length) + (4 + data.length)
  | .transaction essence unlocks =>
    4 + ((match essence with
      | some e => e.byteSize
      | none => 0) + (2 + byteSizeAll Unlock.byteSize unlocks))

end

/-- The embedded payload counts with the length in front of it, and the closing
zero in any case. -/
theorem Essence.byteSize_transaction {networkId : UInt64} {inputs : List (Option Input)}
    {inputsCommitment : Bytes} {outputs : List (Option Output)} {payload : Option Payload} :
    (Essence.transaction networkId inputs inputsCommitment outputs payload).byteSize =
      1 + (8 + ((2 + byteSizeAll Input.byteSize inputs) + (inputsCommitment.length +
        ((2 + byteSizeAll Output.byteSize outputs) +
          (byteSizeAt (fun p => 4 + p.byteSize) payload + 4))))) := by
  cases payload with
  | none | some _ => rw [Essence.byteSize]; rfl

/-- An essence that is not there counts nothing. -/
theorem Payload.byteSize_transaction {essence : Option Essence} {unlocks : List (Option Unlock)} :
    (Payload.transaction essence unlocks).byteSize =
      4 + (byteSizeAt Essence.byteSize essence + (2 + byteSizeAll Unlock.byteSize unlocks)) := by
  cases essence with
  | none | some _ => rw [Payload.byteSize]; rfl

def Block.byteSize (b : Block) : Nat :=
  1 + ((1 + b.parents.flatten.length) + ((4 + byteSizeAt Payload.byteSize b.payload) + 8))

section Writing

variable [Platform]

open LawfulPlatform (quint256Bytes_length)

theorem NativeToken.serialize_length [LawfulPlatform] (t : NativeToken) :
    t.serialize.length = t.byteSize := by
  rw [serialize, List.length_append, quint256Bytes_length]
  rfl

theorem TokenScheme.serialize_length [LawfulPlatform] (s : TokenScheme) :
    s.serialize.length = byteSize := by
  simp only [serialize, List.length_append, Scalar.put_length, quint256Bytes_length]
  rfl

namespace Output

/-- What a kind of output writes of its own. -/
theorem Kind.serialize_length [LawfulPlatform] {kind : Kind} {b : Bytes}
    (h : kind.serialize = .ok b) : b.length = kind.byteSize := by
  cases kind with
  | basic | nft _ =>
    cases h
    rfl
  | foundry tokenScheme _ =>
    cases tokenScheme with
    | none => cases h
    | some tokenScheme =>
      cases h
      rw [List.length_append, Scalar.put_length, tokenScheme.serialize_length]
      rfl
  | «alias» _ _ _ stateMetadata =>
    cases h
    simp only [List.length_append, Scalar.put_length, writeFlArray_length]
    rfl

omit [Platform] in
theorem serializeFeatures_length {s : PSet Feature} {b : Bytes}
    (h : serializeFeatures s = .ok b) : b.length = 1 + byteSizeAll Feature.byteSize s.elems :=
  serializeCounted_length (fun _ _ => Feature.serialize_length) h

omit [Platform] in
/-- A basic output writes nothing there. -/
theorem serializeLast_length {o : Output} {b : Bytes} (h : o.serializeLast = .ok b) :
    b.length = o.lastByteSize := by
  obtain ⟨kind, _, _, _, _, _⟩ := o
  cases kind with
  | basic =>
    cases h
    rfl
  | nft _ | foundry _ _ | «alias» _ _ _ _ => exact serializeFeatures_length h

/-- An output is as long as its tag, its amount, its sets and the fields of its
kind. -/
theorem serialize_length [LawfulPlatform] {o : Output} {b : Bytes} (h : o.serialize = .ok b) :
    b.length = o.byteSize := by
  obtain ⟨nativeTokens, kind, unlockConditions, features, last, hnt, hkind, huc, hf, hlast, rfl⟩ :=
    serialize_eq_ok.mp h
  have tokens : nativeTokens.length = 1 + byteSizeAll NativeToken.byteSize o.nativeTokens.elems :=
    serializeCounted_length (fun t b ht => Except.ok.inj ht ▸ t.serialize_length) hnt
  have conditions : unlockConditions.length =
      1 + byteSizeAll UnlockCondition.byteSize o.unlockConditions.elems :=
    serializeCounted_length (fun _ _ => UnlockCondition.serialize_length) huc
  simp only [List.length_append, Scalar.put_length, tokens, Kind.serialize_length hkind,
    conditions, serializeFeatures_length hf, serializeLast_length hlast]
  rfl

end Output

omit [Platform] in
/-- A payload behind its length. -/
theorem lengthPrefixed_length (serialized : Bytes) :
    (lengthPrefixed serialized).length = 4 + serialized.length := by
  rw [lengthPrefixed, List.length_append, Scalar.put_length]
  rfl

mutual

/-- The recursion goes along with that of `serialize`. -/
theorem Essence.serialize_length [LawfulPlatform] : ∀ {e : Essence} {b : Bytes},
    e.serialize = .ok b → b.length = e.byteSize
  | .transaction _ inputs _ outputs payload, b, h => by
    obtain ⟨inputs', outputs', embedded, hi, ho, hp, rfl⟩ := Essence.serialize_eq_ok.mp h
    have inputs_length : inputs'.length = 2 + byteSizeAll Input.byteSize inputs :=
      serializeCounted_length (fun i b hi => Except.ok.inj hi ▸ i.serialize_length) hi
    have outputs_length : outputs'.length = 2 + byteSizeAll Output.byteSize outputs :=
      serializeCounted_length (fun _ _ => Output.serialize_length) ho
    have embedded_length : embedded.length = byteSizeAt (fun p => 4 + p.byteSize) payload := by
      cases payload with
      | none =>
        cases hp
        rfl
      | some p =>
        obtain ⟨serialized, hs, heq⟩ := bind_eq_ok.mp hp
        cases heq
        rw [lengthPrefixed_length, Payload.serialize_length hs]
        rfl
    rw [Essence.byteSize_transaction]
    simp only [List.length_append, Scalar.put_length, inputs_length, outputs_length,
      embedded_length]
    rfl

theorem Payload.serialize_length [LawfulPlatform] : ∀ {p : Payload} {b : Bytes},
    p.serialize = .ok b → b.length = p.byteSize
  | .taggedData tag data, b, h => by
    rw [Payload.serialize] at h
    cases h
    rw [Payload.byteSize]
    simp only [List.length_append, Scalar.put_length, writeFlArray_length]
    rfl
  | .transaction none _, b, h => by
    obtain ⟨_, _, _, ⟨⟩, -⟩ := Payload.serialize_eq_ok.mp h
  | .transaction (some e) unlocks, b, h => by
    obtain ⟨_, essence', unlocks', ⟨⟩, he, hu, rfl⟩ := Payload.serialize_eq_ok.mp h
    have unlocks_length : unlocks'.length = 2 + byteSizeAll Unlock.byteSize unlocks :=
      serializeCounted_length (fun _ _ => Unlock.serialize_length) hu
    rw [Payload.byteSize_transaction]
    simp only [List.length_append, Scalar.put_length, Essence.serialize_length he, unlocks_length]
    rfl

end

/-- A block is as long as its parents, its payload behind a length, and the ten
bytes of the version, the count and the nonce. -/
theorem Block.serialize_length [LawfulPlatform] {b : Block} {x : Bytes}
    (h : b.serialize = .ok x) : x.length = b.byteSize := by
  obtain ⟨slot, hslot, rfl⟩ := Block.serialize_eq_ok.mp h
  have slot_length : slot.length = 4 + byteSizeAt Payload.byteSize b.payload := by
    cases hp : b.payload with
    | none =>
      rw [hp] at hslot
      cases hslot
      rfl
    | some p =>
      rw [hp] at hslot
      obtain ⟨serialized, hs, heq⟩ := bind_eq_ok.mp hslot
      cases heq
      rw [lengthPrefixed_length, Payload.serialize_length hs]
      rfl
  simp only [List.length_append, Scalar.put_length, slot_length]
  rfl

end Writing

end Qblock
