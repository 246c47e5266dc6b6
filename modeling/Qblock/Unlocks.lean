import Qblock.CArray

/-!
# Inputs, signatures and unlocks

`qinputs`, `qsignatures` and `qunlocks`: what a transaction spends and what
entitles it to. Inputs and signatures have one kind each, unlocks four, of
which three are a tag and an index.
-/

namespace Qblock

open Wire Qt

/-! ## Inputs -/

/-- `Input` and its one kind, `UTXO_Input`. -/
structure Input where
  transactionId : Bytes
  transactionOutputIndex : UInt16
  deriving DecidableEq, Repr

namespace Input

/-- `UTXO_typ`. -/
def utxoType : UInt8 := 0

def serialize (i : Input) : Bytes :=
  Scalar.put utxoType ++ i.transactionId ++ Scalar.put i.transactionOutputIndex

/-- `UTXO_Input(QDataStream&)`. -/
def ofQDataStream : Read Input := do
  let transactionId ← readArray 32
  let transactionOutputIndex ← readScalar
  return ⟨transactionId, transactionOutputIndex⟩

def fromQDataStream : Read (Option Input) := do
  let type : UInt8 ← readScalar
  if type = utxoType then
    let i ← ofQDataStream
    return some i
  else return none

def fromQJsonValue (val : QJsonValue) : Option Input :=
  if getType8 val = utxoType then
    some ⟨ofHexValue (val.member "transactionId"),
      UInt16.ofInt (val.member "transactionOutputIndex").toInt⟩
  else none

def getJson (i : Input) : QJsonObject :=
  QJsonObject.empty
    |>.insert "type" (.ofInt utxoType.toNat)
    |>.insert "transactionId" (.string (toHexString i.transactionId))
    |>.insert "transactionOutputIndex" (.ofInt i.transactionOutputIndex.toNat)

/-- The transaction id has the length its reader expects. -/
def Fits (i : Input) : Prop := i.transactionId.length = 32

end Input

/-! ## Signatures -/

/-- `Signature` and its one kind, `Ed25519_Signature`. -/
structure Signature where
  publicKey : Bytes
  signature : Bytes
  deriving DecidableEq, Repr

namespace Signature

/-- `Ed25519_typ`. -/
def ed25519Type : UInt8 := 0

def serialize (s : Signature) : Bytes := Scalar.put ed25519Type ++ s.publicKey ++ s.signature

/-- `Ed25519_Signature(QDataStream&)`. -/
def ofQDataStream : Read Signature := do
  let publicKey ← readArray 32
  let signature ← readArray 64
  return ⟨publicKey, signature⟩

def fromQDataStream : Read (Option Signature) := do
  let type : UInt8 ← readScalar
  if type = ed25519Type then
    let s ← ofQDataStream
    return some s
  else return none

def fromQJsonValue (val : QJsonValue) : Option Signature :=
  if getType8 val = ed25519Type then
    some ⟨ofHexValue (val.member "publicKey"), ofHexValue (val.member "signature")⟩
  else none

def getJson (s : Signature) : QJsonObject :=
  QJsonObject.empty
    |>.insert "type" (.ofInt ed25519Type.toNat)
    |>.insert "publicKey" (.string (toHexString s.publicKey))
    |>.insert "signature" (.string (toHexString s.signature))

/-- Key and signature have the lengths their readers expect. -/
def Fits (s : Signature) : Prop := s.publicKey.length = 32 ∧ s.signature.length = 64

end Signature

/-! ## Unlocks -/

/-- `Unlock::types`. -/
inductive Unlock.Types where
  | signature
  | reference
  | alias
  | nft
  deriving DecidableEq, Repr

def Unlock.Types.toUInt8 : Unlock.Types → UInt8
  | .signature => 0
  | .reference => 1
  | .alias => 2
  | .nft => 3

/-- The four kinds of `Unlock`. -/
inductive Unlock where
  | signature (signature : Option Signature)
  | reference (reference : UInt16)
  | alias (aliasReferenceUnlockIndex : UInt16)
  | nft (nftReferenceUnlockIndex : UInt16)
  deriving DecidableEq, Repr

namespace Unlock

def type : Unlock → Types
  | .signature _ => .signature
  | .reference _ => .reference
  | .alias _ => .alias
  | .nft _ => .nft

def serialize (u : Unlock) : Except Fault Bytes :=
  match u with
  | .signature s => do
    let s ← deref s
    return Scalar.put u.type.toUInt8 ++ s.serialize
  | .reference index | .alias index | .nft index =>
    return Scalar.put u.type.toUInt8 ++ Scalar.put index

/-- `Signature_Unlock(QDataStream&)`. -/
def signatureOfQDataStream : Read Unlock := do
  let s ← Signature.fromQDataStream
  return .signature s

/-- The stream constructor of a kind that is an index. -/
def indexOfQDataStream (kind : UInt16 → Unlock) : Read Unlock := do
  let index ← readScalar
  return kind index

def fromQDataStream : Read (Option Unlock) := do
  let type : UInt8 ← readScalar
  if type = Types.signature.toUInt8 then
    let u ← signatureOfQDataStream
    return some u
  else if type = Types.reference.toUInt8 then
    let u ← indexOfQDataStream .reference
    return some u
  else if type = Types.alias.toUInt8 then
    let u ← indexOfQDataStream .alias
    return some u
  else if type = Types.nft.toUInt8 then
    let u ← indexOfQDataStream .nft
    return some u
  else return none

def fromQJsonValue (val : QJsonValue) : Option Unlock :=
  let type := getType8 val
  let index := UInt16.ofInt (val.member "reference").toInt
  if type = Types.signature.toUInt8 then
    some (.signature (Signature.fromQJsonValue (val.member "signature")))
  else if type = Types.reference.toUInt8 then some (.reference index)
  else if type = Types.alias.toUInt8 then some (.alias index)
  else if type = Types.nft.toUInt8 then some (.nft index)
  else none

def getJson (u : Unlock) : Except Fault QJsonObject :=
  let var := QJsonObject.empty.insert "type" (.ofInt u.type.toUInt8.toNat)
  match u with
  | .signature s => do
    let s ← deref s
    return var.insert "signature" (.object s.getJson)
  | .reference index | .alias index | .nft index =>
    return var.insert "reference" (.ofInt index.toNat)

def NonNull : Unlock → Prop
  | .signature s => s.isSome
  | .reference _ | .alias _ | .nft _ => True

def Fits : Unlock → Prop
  | .signature s => ∀ x ∈ s, x.Fits
  | .reference _ | .alias _ | .nft _ => True

end Unlock

end Qblock
