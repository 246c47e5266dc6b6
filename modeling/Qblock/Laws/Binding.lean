import Qblock.Wire.Binding
import Qblock.Laws.Lifecycle
import Qblock.Laws.OutputMetadata
import Qblock.Laws.Unambiguous

/-!
# What an id commits to

An essence is named by its hash, which is what is signed, and a transaction
and a block by theirs; an NFT or an alias by the hash of the id of the
output it was minted as, which holds the id of the transaction that minted
it; a native token by the alias that controls its foundry. Nothing here is
assumed of Blake2b: two objects of one name are the same, or two different
byte strings that were hashed to name them are a collision of it.

What an essence hash commits to is all that is signed, so not the unlocks,
and no id commits to the immutable features of a basic output.
-/

namespace Qblock

open Wire Qt

/-- What a serializer without collisions of its own writes, named by its
hash. -/
theorem PrefixFree.binds {T : Type} {serialize : T → Except Fault Bytes} {fits : T → Prop}
    {same : T → T → Prop} (h : PrefixFree serialize fits same) (hash : Bytes → Bytes) :
    Binds hash (Hashed hash (Written fun p x => fits p ∧ serialize p = .ok x)) same :=
  (binds_written fun p q x hp hq =>
    (h p q x [] hp.1 hq.1 hq.2 (by rw [hp.2, List.append_nil])).1).hashed

section Names

variable [Platform]

/-! ## Essences, transactions and blocks -/

/-- The essence fits, and that is its hash. -/
def Essence.NamedBy : Naming Essence := fun e name trail =>
  e.Fits ∧ e.getHash = .ok name ∧ ∃ x, e.serialize = .ok x ∧ trail = [x]

/-- The payload is a transaction that fits, and that is its id. -/
def Payload.NamedBy : Naming Payload := fun p name trail =>
  p.Fits ∧ (∃ essence unlocks, p = .transaction essence unlocks) ∧ p.getId = .ok name ∧
    ∃ x, p.serialize = .ok x ∧ trail = [x]

/-- The block fits, and that is its id. -/
def Block.NamedBy : Naming Block := fun b name trail =>
  b.Fits ∧ b.blockId = .ok name ∧ ∃ x, b.serialize = .ok x ∧ trail = [x]

/-- The name is the hash of the bytes, where naming serializes and hashes. -/
theorem hashed_of {T : Type} {serialize : T → Except Fault Bytes} {fits : T → Prop} {p : T}
    {name : Bytes} {trail : List Bytes} (fit : fits p)
    (named : (do let x ← serialize p; pure (Platform.blake2b256 x)) = .ok name)
    (written : ∃ x, serialize p = .ok x ∧ trail = [x]) :
    Hashed Platform.blake2b256 (Written fun p x => fits p ∧ serialize p = .ok x) p name trail := by
  obtain ⟨x, hx, rfl⟩ := written
  rw [hx] at named
  exact ⟨x, [], ⟨⟨fit, hx⟩, rfl⟩, (Except.ok.inj named).symm, rfl⟩

variable [LawfulPlatform]

theorem Essence.binds :
    Binds Platform.blake2b256 Essence.NamedBy fun e f => e.wireForm = f.wireForm :=
  (Essence.prefixFree.binds _).comap id (fun _ _ _ h => hashed_of h.1 h.2.1 h.2.2)
    fun _ _ _ _ _ _ _ same => same

theorem Payload.binds :
    Binds Platform.blake2b256 Payload.NamedBy fun p q => p.wireForm = q.wireForm :=
  (Payload.prefixFree.binds _).comap id
    (by
      intro p name trail h
      obtain ⟨fits, ⟨essence, unlocks, rfl⟩, named, written⟩ := h
      exact hashed_of fits named written)
    fun _ _ _ _ _ _ _ same => same

theorem Block.binds :
    Binds Platform.blake2b256 Block.NamedBy fun b c => b.wireForm = c.wireForm :=
  (Block.prefixFree.binds _).comap id (fun _ _ _ h => hashed_of h.1 h.2.1 h.2.2)
    fun _ _ _ _ _ _ _ same => same

/-! ## Minted outputs -/

/-- An output of a transaction, at its index. -/
structure Minting where
  payload : Payload
  index : UInt16
  output : Output

omit [LawfulPlatform] in
/-- The output of that index. -/
def Payload.outputAt (p : Payload) (index : UInt16) : Option Output :=
  match p with
  | .transaction (some (.transaction _ _ _ outputs _)) _ => outputs[index.toNat]?.join
  | .transaction none _ | .taggedData _ _ => none

/-- The output was minted there with no id yet, and that is the id `set_id`
gives it, called with its output id. -/
def Minting.NamedBy : Naming Minting := fun m name trail =>
  m.payload.outputAt m.index = some m.output ∧ m.output.kind.ownId = some Output.noId ∧
    ∃ transactionId rest, m.payload.NamedBy transactionId rest ∧
      (m.output.setId (setOutputid transactionId m.index)).getId = .ok name ∧
      trail = setOutputid transactionId m.index :: rest

/-- One output: of the same transaction, at the same index, and equal in
every field. -/
structure Minting.Same (m m' : Minting) : Prop where
  payload : m.payload.wireForm = m'.payload.wireForm
  index : m.index = m'.index
  output : m.output = m'.output

omit [Platform] [LawfulPlatform] in
/-- The bytes of a transaction tell its outputs, up to what they leave out. -/
theorem Payload.outputAt_wireForm (p : Payload) (index : UInt16) :
    p.wireForm.outputAt index = (p.outputAt index).map Output.wireForm := by
  cases p with
  | taggedData tag data => simp [Payload.wireForm, outputAt]
  | transaction essence unlocks =>
    cases essence with
    | none => simp [Payload.wireForm, outputAt]
    | some e =>
      obtain ⟨networkId, inputs, inputsCommitment, outputs, payload⟩ := e
      rw [wireForm_transaction, Option.map_some, Essence.wireForm_transaction]
      simp only [outputAt, List.getElem?_map]
      cases outputs[index.toNat]? with
      | none => rfl
      | some o => rfl

omit [Platform] [LawfulPlatform] in
/-- An output with an id of its own is not a basic one. -/
theorem Output.wireForm_of_ownId {o : Output} {id : Bytes} (h : o.kind.ownId = some id) :
    o.wireForm = o := by
  apply wireForm_eq_self
  intro basic
  rw [basic] at h
  cases h

omit [LawfulPlatform] in
/-- The id an output without one is given. -/
theorem Output.getId_setId {o : Output} (h : o.kind.ownId = some noId) (outputid : Bytes) :
    (o.setId outputid).getId = .ok (Platform.blake2b256 outputid) := by
  rcases setId_cases outputid o with ⟨-, heq⟩ | ⟨hne, -⟩
  · rw [heq]
    apply getId_of_ownId
    rw [Kind.ownId_withId, h, Option.map_some]
  · exact absurd h hne

/-- An output id as the name of a transaction and an index. -/
theorem binds_outputid :
    Binds Platform.blake2b256
      (Wrapped (fun (index : UInt16) transactionId => setOutputid transactionId index)
        Payload.NamedBy) fun p q => p.1 = q.1 ∧ p.2.wireForm = q.2.wireForm :=
  Payload.binds.wrapped (fun _ _ _ _ => trivial) fun _ _ _ _ _ _ heq =>
    (setOutputid_inj.mp heq).symm

theorem Minting.binds : Binds Platform.blake2b256 Minting.NamedBy Minting.Same := by
  apply binds_outputid.hashed.comap fun m => (m.index, m.payload)
  · intro m name trail h
    obtain ⟨-, fresh, transactionId, rest, named, given, rfl⟩ := h
    rw [Output.getId_setId fresh] at given
    exact ⟨_, rest, ⟨transactionId, named, rfl⟩, (Except.ok.inj given).symm, rfl⟩
  · intro m m' _ _ _ h h' same
    obtain ⟨hindex, hpayload⟩ := same
    refine ⟨hpayload, hindex, ?_⟩
    have outputs : some m.output.wireForm = some m'.output.wireForm := by
      have at_ := congrArg (fun p => p.outputAt m.index) hpayload
      have index : m.index = m'.index := hindex
      simp only [Payload.outputAt_wireForm] at at_
      rw [h.1, index, h'.1] at at_
      exact at_
    rw [Output.wireForm_of_ownId h.2.1, Output.wireForm_of_ownId h'.2.1] at outputs
    exact Option.some.inj outputs

/-! ## Native tokens -/

/-- A foundry and the minted output that controls it. -/
structure Token where
  controller : Minting
  controllerType : Address.Types
  tokenScheme : TokenScheme
  serialNumber : UInt32
  foundry : Output

/-- The foundry is controlled by the address made of the id of the minted
output, and that is the id of its tokens. -/
def Token.NamedBy : Naming Token := fun t name trail =>
  ∃ id, t.controller.NamedBy id trail ∧
    t.foundry.FoundryOf ⟨t.controllerType, id⟩ t.tokenScheme t.serialNumber ∧
    t.foundry.getId = .ok name

/-- One token: of one serial number under one controller. -/
structure Token.Same (t t' : Token) : Prop where
  controller : t.controller.Same t'.controller
  controllerType : t.controllerType = t'.controllerType
  serialNumber : t.serialNumber = t'.serialNumber

omit [Platform] [LawfulPlatform] in
/-- The id of a foundry tells what controls it, and its serial number. -/
theorem Output.foundryId_told {type type' : Address.Types} {id id' : Bytes}
    {tokenScheme tokenScheme' : TokenScheme} {serialNumber serialNumber' : UInt32}
    (fits : id.length = 32) (fits' : id'.length = 32)
    (h : foundryId ⟨type, id⟩ tokenScheme serialNumber =
      foundryId ⟨type', id'⟩ tokenScheme' serialNumber') :
    (type, serialNumber) = (type', serialNumber') ∧ id = id' := by
  have same : (⟨type, id⟩ : Address).Fits ∧ (⟨type', id'⟩ : Address).Fits := ⟨fits, fits'⟩
  obtain ⟨haddress, rfl, -⟩ := (foundryId_inj same.1 same.2).mp h
  cases haddress
  exact ⟨rfl, rfl⟩

theorem Token.binds : Binds Platform.blake2b256 Token.NamedBy Token.Same := by
  have ids : Binds Platform.blake2b256
      (fun m name trail => Minting.NamedBy m name trail ∧ name.length = 32) Minting.Same :=
    Minting.binds.comap id (fun _ _ _ h => h.1) fun _ _ _ _ _ _ _ same => same
  -- The scheme of a token is of the one type there is, so any will do.
  have addresses : Binds Platform.blake2b256
      (Wrapped (fun (i : Address.Types × UInt32) x => Output.foundryId ⟨i.1, x⟩ ⟨0, 0, 0⟩ i.2)
        fun m name trail => Minting.NamedBy m name trail ∧ name.length = 32)
      fun p q => p.1 = q.1 ∧ p.2.Same q.2 :=
    ids.wrapped (fun _ _ _ h => h.2) fun _ _ _ _ hx hy heq => Output.foundryId_told hx hy heq
  apply addresses.comap fun t => ((t.controllerType, t.serialNumber), t.controller)
  · intro t name trail h
    obtain ⟨id, named, foundry, hname⟩ := h
    rw [foundry.getId] at hname
    exact ⟨id, ⟨named, foundry.fits⟩, (Except.ok.inj hname).symm⟩
  · intro t t' _ _ _ _ _ same
    obtain ⟨hparts, hcontroller⟩ := same
    obtain ⟨htype, hserial⟩ := Prod.mk.inj hparts
    exact ⟨hcontroller, htype, hserial⟩

/-- Ids commit to what they name: essences, transactions and blocks up to
what their bytes leave out, minted outputs and tokens exactly. Two of one
id are the same, or two of the byte strings hashed on the way to it are a
collision. -/
theorem ids_bind :
    Binds Platform.blake2b256 Essence.NamedBy (fun e f => e.wireForm = f.wireForm) ∧
    Binds Platform.blake2b256 Payload.NamedBy (fun p q => p.wireForm = q.wireForm) ∧
    Binds Platform.blake2b256 Block.NamedBy (fun b c => b.wireForm = c.wireForm) ∧
    Binds Platform.blake2b256 Minting.NamedBy Minting.Same ∧
    Binds Platform.blake2b256 Token.NamedBy Token.Same :=
  ⟨Essence.binds, Payload.binds, Block.binds, Minting.binds, Token.binds⟩

end Names

/-! ## At a new NFT -/

section Sample

open Plain

/-- A new NFT, as the first output of a transaction. -/
def Minting.sampleNft : Minting := ⟨.ofOutput Sampled.nft, 0, Sampled.nft⟩

/-- The NFT has an id, and what else has that id is the NFT, or there is a
collision. -/
theorem ids_bind_sampleNft : ∃ name trail, Minting.sampleNft.NamedBy name trail ∧
    ∀ m trail', Minting.NamedBy m name trail' → Minting.sampleNft.Same m ∨
      ∃ x ∈ trail, ∃ y ∈ trail', Collision Platform.blake2b256 x y := by
  have fits := Payload.ofOutput_fits Sampled.nft_fits
  obtain ⟨x, hx⟩ := Payload.serialize_ok (Payload.ofOutput_nonNull Sampled.nft_nonNull)
  have id : (Payload.ofOutput Sampled.nft).getId = .ok (Platform.blake2b256 x) := by
    rw [Payload.ofOutput, Payload.getId, ← Payload.ofOutput, hx]
    rfl
  have named : Minting.sampleNft.NamedBy _ _ :=
    ⟨rfl, rfl, _, [x], ⟨fits, ⟨_, _, rfl⟩, id, x, hx, rfl⟩, Output.getId_setId rfl _, rfl⟩
  exact ⟨_, _, named, fun m trail' h => ids_bind.2.2.2.1 _ m _ _ trail' named h⟩

end Sample

end Qblock
