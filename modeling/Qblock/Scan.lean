import Qblock.Wire.Scan
import Qblock.Block

/-!
# What a block has to look like

The layout of the block types as scanners of a byte string: they walk over
tags, counts and lengths, build no object and look through no pointer. Three
policies share the layout.

- `comparable` asks only for what the decoder itself looks through, which
  are the pointers it compares to order a set: an element of an unknown tag
  has to be alone in its set.
- `lenient` asks that every pointer is there that the decoder looks through,
  or that writing what it made is going to look through: the tags of inputs,
  outputs, unlocks, signatures, token schemes, essences and set elements are
  known, and the tag of an address is known unless its element repeats a
  key, in which case the set drops it. The tag of a payload may be unknown,
  since payloads are looked through only if they are there.
- `canonical` asks for the written form as well: every tag is known, the
  keys of a set come in increasing order, the length in front of a payload
  is the number of its bytes, as a 32-bit number, and no payload is embedded
  in an essence.

For JSON values there is the lenient policy only.
-/

namespace Qblock

open Wire Qt

/-- What a scanner insists on. -/
inductive Policy where
  | comparable
  | lenient
  | canonical
  deriving DecidableEq, Repr

/-! ## Sets -/

section Sets

variable {K : Type} [LT K] [DecidableLT K]

/-- What is seen of an element of a set: nothing if its tag is unknown,
otherwise its key and whether the pointer in it, if any, is there. -/
abbrev Seen (K : Type) := Option (K × Bool)

/-- Whether an element may follow elements with the given keys, and the keys
then. -/
def enter (policy : Policy) (keys : List K) : Seen K → Except Unit (List K)
  | none => .error ()
  | some (key, whole) =>
    match policy with
    | .comparable => .ok keys
    | .lenient =>
      if ∃ k ∈ keys, ¬ k < key ∧ ¬ key < k then .ok keys
      else if whole then .ok (key :: keys)
      else .error ()
    | .canonical => if whole ∧ ∀ k ∈ keys, k < key then .ok (key :: keys) else .error ()

/-- The same for a run of elements. -/
def enterAll (policy : Policy) : List K → List (Seen K) → Except Unit (List K)
  | keys, [] => .ok keys
  | keys, e :: es => do
    let keys ← enter policy keys e
    enterAll policy keys es

/-- The elements of a set. One that is alone is compared with nothing. -/
def enterSet (policy : Policy) (es : List (Seen K)) : Except Unit Unit :=
  if policy = .comparable ∧ es.length ≤ 1 then .ok ()
  else do
    let _ ← enterAll policy [] es
    return ()

/-- A count, then that many elements of a set. -/
def scanList (policy : Policy) (σ : Type) [Scalar σ] (scan : Scanner (Seen K)) :
    Scanner Unit := do
  let length : σ ← readScalar
  let elements ← repeatRead scan (Scalar.toNat length)
  lift (enterSet policy elements)

end Sets

/-- Insist on a known tag, unless the pointer is only stored. -/
def required (policy : Policy) (scan : Scanner Bool) : Scanner Unit := do
  let known ← scan
  if policy = .comparable ∨ known then return () else reject

/-- A count, then that many elements of a vector. -/
def scanVector (σ : Type) [Scalar σ] (scan : Scanner Unit) : Scanner Unit := do
  let length : σ ← readScalar
  let _ ← repeatRead scan (Scalar.toNat length)
  return ()

/-- A length, then that many bytes. -/
def skipFlArray (σ : Type) [Scalar σ] : Scanner Unit := do
  let size : σ ← readScalar
  skip (Scalar.toNat size)

/-! ## Tagged objects

Each scanner tells whether the tag was known. -/

def scanAddress : Scanner Bool := do
  let type : UInt8 ← readScalar
  if type = Address.Types.nft.toUInt8 ∨ type = Address.Types.alias.toUInt8 ∨
      type = Address.Types.ed25519.toUInt8 then
    skip 32
    return true
  else return false

/-- An element of the given key that holds an address. -/
def scanHolder {K : Type} (key : K) : Scanner (Seen K) := do
  let known ← scanAddress
  return some (key, known)

def scanFeature : Scanner (Seen UInt8) := do
  let type : UInt8 ← readScalar
  if type = Feature.Types.metadata.toUInt8 then
    skipFlArray UInt16
    return some (type, true)
  else if type = Feature.Types.tag.toUInt8 then
    skipFlArray UInt8
    return some (type, true)
  else if type = Feature.Types.sender.toUInt8 ∨ type = Feature.Types.issuer.toUInt8 then
    scanHolder type
  else return none

def scanUnlockCondition : Scanner (Seen UInt8) := do
  let type : UInt8 ← readScalar
  if type = UnlockCondition.Types.expiration.toUInt8 then
    let seen ← scanHolder type
    skip 4
    return seen
  else if type = UnlockCondition.Types.timelock.toUInt8 then
    skip 4
    return some (type, true)
  else if type = UnlockCondition.Types.storageDepositReturn.toUInt8 then
    let seen ← scanHolder type
    skip 8
    return seen
  else if type = UnlockCondition.Types.address.toUInt8 ∨
      type = UnlockCondition.Types.stateControllerAddress.toUInt8 ∨
      type = UnlockCondition.Types.governorAddress.toUInt8 ∨
      type = UnlockCondition.Types.immutableAliasAddress.toUInt8 then
    scanHolder type
  else return none

/-- A native token has no tag: its key are the bytes of its id. -/
def scanNativeToken : Scanner (Seen Bytes) := do
  let tokenId ← readRaw (List.replicate 38 0)
  skip 32
  return some (tokenId, true)

def scanTokenScheme : Scanner Bool := do
  let type : UInt8 ← readScalar
  if type = TokenScheme.simpleType then
    skip 32
    skip 32
    skip 32
    return true
  else return false

def scanInput : Scanner Bool := do
  let type : UInt8 ← readScalar
  if type = Input.utxoType then
    skip 32
    skip 2
    return true
  else return false

def scanSignature : Scanner Bool := do
  let type : UInt8 ← readScalar
  if type = Signature.ed25519Type then
    skip 32
    skip 64
    return true
  else return false

def scanUnlock (policy : Policy) : Scanner Bool := do
  let type : UInt8 ← readScalar
  if type = Unlock.Types.signature.toUInt8 then
    required policy scanSignature
    return true
  else if type = Unlock.Types.reference.toUInt8 ∨ type = Unlock.Types.alias.toUInt8 ∨
      type = Unlock.Types.nft.toUInt8 then
    skip 2
    return true
  else return false

/-! ## Outputs, payloads and blocks -/

section Scanners

variable (policy : Policy)

/-- The unlock conditions, the features and, for all kinds but the basic
one, the immutable features, which close every output. -/
def scanSets (immutable : Bool) : Scanner Bool := do
  scanList policy UInt8 scanUnlockCondition
  scanList policy UInt8 scanFeature
  if immutable then
    scanList policy UInt8 scanFeature
    return true
  else return true

/-- An output behind its tag and its amount. -/
def scanOutput : Scanner Bool := do
  let type : UInt8 ← readScalar
  if type = Output.Types.basic.toUInt8 then
    skip 8
    scanList policy UInt8 scanNativeToken
    scanSets policy false
  else if type = Output.Types.nft.toUInt8 then
    skip 8
    scanList policy UInt8 scanNativeToken
    skip 32
    scanSets policy true
  else if type = Output.Types.foundry.toUInt8 then
    skip 8
    scanList policy UInt8 scanNativeToken
    skip 4
    required policy scanTokenScheme
    scanSets policy true
  else if type = Output.Types.alias.toUInt8 then
    skip 8
    scanList policy UInt8 scanNativeToken
    skip 32
    skip 4
    skipFlArray UInt16
    skip 4
    scanSets policy true
  else return false

/-- The slot of an essence. -/
def scanEmbedded (scanPayload : Scanner Bool) : Scanner Unit := do
  let payloadLength : UInt32 ← readScalar
  if payloadLength ≠ 0 then
    match policy with
    | .comparable | .lenient =>
      let _ ← scanPayload
      return ()
    | .canonical => reject
  else return ()

/-- The slot of a block. -/
def scanSlot (scanPayload : Scanner Bool) : Scanner Unit := do
  let payloadLength : UInt32 ← readScalar
  if payloadLength ≠ 0 then
    let (known, length) ← measured scanPayload
    match policy with
    | .comparable | .lenient => return ()
    | .canonical => if known ∧ Scalar.ofNat length = payloadLength then return () else reject
  else return ()

def scanEssence (scanPayload : Scanner Bool) : Scanner Bool := do
  let type : UInt8 ← readScalar
  if type = Essence.transactionType then
    skip 8
    scanVector UInt16 (required policy scanInput)
    skip 32
    scanVector UInt16 (required policy (scanOutput policy))
    scanEmbedded policy scanPayload
    return true
  else return false

/-- A payload, given the scanner of embedded payloads. -/
def scanPayloadWith (scanPayload : Scanner Bool) : Scanner Bool := do
  let type : UInt32 ← readScalar
  if type = Payload.transactionType then
    required policy (scanEssence policy scanPayload)
    scanVector UInt16 (required policy (scanUnlock policy))
    return true
  else if type = Payload.taggedDataType then
    skipFlArray UInt8
    skipFlArray UInt32
    return true
  else return false

/-- A payload, of payloads nested at most so deep. -/
def scanPayloadUpTo : Nat → Scanner Bool
  | 0 => reject
  | n + 1 => scanPayloadWith policy (scanPayloadUpTo n)

def scanPayload : Scanner Bool := do
  let s ← get
  scanPayloadUpTo policy (s.unread.length + 1)

def scanBlock : Scanner Unit := do
  skip 1
  let count : UInt8 ← readScalar
  let _ ← repeatRead (skip 32) (Scalar.toNat count)
  scanSlot policy (scanPayload policy)
  skip 8

end Scanners

/-! ## JSON values -/

/-- A verdict on a JSON value: rejected, or accepted and whether the tag was
known. -/
abbrev Verdict := Except Unit Bool

def knownAddress (val : QJsonValue) : Bool :=
  getType8 val = Address.Types.nft.toUInt8 ∨ getType8 val = Address.Types.alias.toUInt8 ∨
    getType8 val = Address.Types.ed25519.toUInt8

def seenFeature (val : QJsonValue) : Seen UInt8 :=
  let type := getType8 val
  if type = Feature.Types.metadata.toUInt8 ∨ type = Feature.Types.tag.toUInt8 then some (type, true)
  else if type = Feature.Types.sender.toUInt8 ∨ type = Feature.Types.issuer.toUInt8 then
    some (type, knownAddress (val.member "address"))
  else none

def seenUnlockCondition (val : QJsonValue) : Seen UInt8 :=
  let type := getType8 val
  if type = UnlockCondition.Types.expiration.toUInt8 ∨
      type = UnlockCondition.Types.storageDepositReturn.toUInt8 then
    some (type, knownAddress (val.member "returnAddress"))
  else if type = UnlockCondition.Types.timelock.toUInt8 then some (type, true)
  else if type = UnlockCondition.Types.address.toUInt8 ∨
      type = UnlockCondition.Types.stateControllerAddress.toUInt8 ∨
      type = UnlockCondition.Types.governorAddress.toUInt8 ∨
      type = UnlockCondition.Types.immutableAliasAddress.toUInt8 then
    some (type, knownAddress (val.member "address"))
  else none

/-- The elements of a vector, each of which has to have a known tag. -/
def checkValues (check : QJsonValue → Verdict) : List QJsonValue → Except Unit Unit
  | [] => .ok ()
  | v :: vs => do
    let known ← check v
    if known then checkValues check vs else .error ()

def checkInput (val : QJsonValue) : Verdict := .ok (getType8 val = Input.utxoType)

def checkUnlock (val : QJsonValue) : Verdict :=
  let type := getType8 val
  if type = Unlock.Types.signature.toUInt8 then
    if getType8 (val.member "signature") = Signature.ed25519Type then .ok true else .error ()
  else .ok (type = Unlock.Types.reference.toUInt8 ∨ type = Unlock.Types.alias.toUInt8 ∨
    type = Unlock.Types.nft.toUInt8)

/-- The sets every output has. Native tokens have no tag. -/
def checkSets (val : QJsonValue) : Except Unit Unit := do
  let _ ← enterAll .lenient []
    ((val.member "unlockConditions").toArray.map seenUnlockCondition)
  let _ ← enterAll .lenient [] ((val.member "features").toArray.map seenFeature)
  let _ ← enterAll .lenient [] ((val.member "immutableFeatures").toArray.map seenFeature)
  return ()

def checkOutput (val : QJsonValue) : Verdict :=
  let type := getType8 val
  if type = Output.Types.basic.toUInt8 ∨ type = Output.Types.nft.toUInt8 ∨
      type = Output.Types.alias.toUInt8 then do
    checkSets val
    return true
  else if type = Output.Types.foundry.toUInt8 then do
    checkSets val
    if getType8 (val.member "tokenScheme") = TokenScheme.simpleType then return true else .error ()
  else return false

def checkEssence (checkPayload : QJsonValue → Verdict) (val : QJsonValue) : Verdict :=
  if getType8 val = Essence.transactionType then do
    checkValues checkInput (val.member "inputs").toArray
    checkValues checkOutput (val.member "outputs").toArray
    let _ ← checkPayload (val.member "payload")
    return true
  else return false

/-- A payload, given the check of embedded payloads. -/
def checkPayloadWith (checkPayload : QJsonValue → Verdict) (val : QJsonValue) : Verdict :=
  let type := getType32 val
  if type = Payload.transactionType then do
    let known ← checkEssence checkPayload (val.member "essence")
    if known then
      checkValues checkUnlock (val.member "unlocks").toArray
      return true
    else .error ()
  else return type = Payload.taggedDataType

/-- A payload, of payloads nested at most so deep. -/
def checkPayloadUpTo : Nat → QJsonValue → Verdict
  | 0, _ => .error ()
  | n + 1, val => checkPayloadWith (checkPayloadUpTo n) val

def checkPayload (val : QJsonValue) : Verdict := checkPayloadUpTo (val.depth + 1) val

/-! ## Results -/

/-- No null pointer is compared while the bytes are decoded into a block: in
every set of more than one element the tags are known. -/
def Block.SetsComparable (bs : Bytes) : Prop :=
  ∃ r, (scanBlock .comparable).run ⟨bs, .ok⟩ = .ok r

/-- Every tag the decoder of outputs needs to know in the bytes is known. -/
def Output.TagsKnown (bs : Bytes) : Prop := ∃ r, (scanOutput .lenient).run ⟨bs, .ok⟩ = .ok r

/-- Every tag the decoder of blocks needs to know in the bytes is known. -/
def Block.TagsKnown (bs : Bytes) : Prop := ∃ r, (scanBlock .lenient).run ⟨bs, .ok⟩ = .ok r

/-- Every tag the reader of outputs needs to know in the value is known. -/
def Output.JsonTagsKnown (val : QJsonValue) : Prop := ∃ known, checkOutput val = .ok known

/-- Every tag the reader of payloads needs to know in the value is known. -/
def Payload.JsonTagsKnown (val : QJsonValue) : Prop := ∃ known, checkPayload val = .ok known

/-- The bytes are in the written form, and embed no payload. -/
def Block.Canonical (bs : Bytes) : Prop := ∃ r, (scanBlock .canonical).run ⟨bs, .ok⟩ = .ok r

end Qblock
