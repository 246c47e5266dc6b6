import Qblock.Payloads

/-!
# Blocks

`qblock`: a block is a protocol version, the ids of its parents, an
optional payload and a nonce. The slot of the payload is a length and then,
if the length is not zero, the payload.
-/

namespace Qblock

open Wire Qt

variable [Platform]

/-- `Block`. -/
structure Block where
  protocolVersion : UInt8
  parents : List Bytes
  payload : Option Payload
  nonce : UInt64

namespace Block

/-- `Block(const std::shared_ptr<const Payload>&)`. It sets neither the
protocol version nor the nonce: they are what the memory holds. -/
def ofPayload (protocolVersion : UInt8) (nonce : UInt64) (pyl : Option Payload) : Block :=
  ⟨protocolVersion, [], pyl, nonce⟩

def setPv (pv : UInt8) (b : Block) : Block := { b with protocolVersion := pv }

def setParents (parents : List Bytes) (b : Block) : Block := { b with parents := parents }

def setNonce (nonce : UInt64) (b : Block) : Block := { b with nonce := nonce }

/-- `operator<(QDataStream&, const Block&)`: the block without its nonce. -/
def serializeHead (b : Block) : Except Fault Bytes := do
  let slot ← match b.payload with
    | some p => do
      let serialized ← p.serialize
      pure (lengthPrefixed serialized)
    | none => pure (Scalar.put (0 : UInt32))
  return Scalar.put b.protocolVersion ++ Scalar.put (Scalar.ofNat b.parents.length : UInt8) ++
    b.parents.flatten ++ slot

def serialize (b : Block) : Except Fault Bytes := do
  let head ← b.serializeHead
  return head ++ Scalar.put b.nonce

/-- The loop that reads the parents. -/
def readParents : Read (List Bytes) := do
  let count : UInt8 ← readScalar
  repeatRead (readArray 32) (Scalar.toNat count)

/-- `Block(QDataStream&)`. -/
def ofQDataStream : Read Block := do
  let protocolVersion ← readScalar
  let parents ← readParents
  let payload ← readSlot Payload.fromQDataStream
  let nonce ← readScalar
  return ⟨protocolVersion, parents, payload, nonce⟩

/-- `Block::get_Json`. -/
def getJson (b : Block) : Except Fault QJsonObject := do
  let payload ← match b.payload with
    | some p => do
      let json ← p.getJson
      pure (.object json)
    | none => pure .null
  return QJsonObject.empty
    |>.insert "protocolVersion" (.ofInt b.protocolVersion.toNat)
    |>.insert "parents" (.array (b.parents.map fun id => .string (toHexString id)))
    |>.insert "payload" payload
    |>.insert "nonce" (.string (number b.nonce))

/-- `Block(const QJsonValue&)`. The payload is read from the whole value,
and the parents from a member that is not the one they are written to. -/
def ofQJsonValue (val : QJsonValue) : Except Fault Block := do
  let protocolVersion := UInt8.ofInt (val.member "protocolVersion").toInt
  let nonce := UInt64.ofInt (val.member "nonce").toInteger
  let payload ← Payload.fromQJsonValue val
  let parents := (val.member "outputs").toArray.map ofHexValue
  return ⟨protocolVersion, parents, payload, nonce⟩

/-- `Block_ID`: the hash of the entire serialized block. -/
def blockId (b : Block) : Except Fault Bytes := do
  let serialized ← b.serialize
  return Platform.blake2b256 serialized

/-- No pointer of the block is null, but for the payload it may have. -/
def NonNull (b : Block) : Prop := ∀ p ∈ b.payload, p.NonNull

/-- Byte arrays and lists have the lengths their readers expect and their
prefixes hold; so does the serialized form of the payload. -/
structure Fits (b : Block) : Prop where
  parents : ∀ id ∈ b.parents, id.length = 32
  parents_count : b.parents.length < 256
  payload : ∀ p ∈ b.payload, p.Fits
  payload_length : ∀ p ∈ b.payload, ∀ x, p.serialize = .ok x → x.length < 256 ^ 4

/-- The block has no payload, or one that embeds no other. -/
def Flat (b : Block) : Prop := ∀ p ∈ b.payload, p.Flat

/-- The block without what its bytes leave out. -/
def wireForm (b : Block) : Block := { b with payload := b.payload.map Payload.wireForm }

end Block

end Qblock
