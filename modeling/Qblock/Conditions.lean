import Qblock.CArray

/-!
# Addresses, features and unlock conditions

`qaddresses`, `qfeatures` and `qunlock_conditions`. Each class is a tag
byte and the fields of its kind, written by `serialize` and `get_Json` and
read by `from_`, which dispatches on the tag and answers a null pointer for
an unknown one. Features and unlock conditions hold their address by
pointer, so theirs may be null.

`NonNull` says that no pointer of an object is null and `Fits` that its
byte arrays have the lengths their readers expect.
-/

namespace Qblock

open Wire Qt

/-! ## Addresses -/

/-- `Address::types`. -/
inductive Address.Types where
  | ed25519
  | alias
  | nft
  deriving DecidableEq, Repr

namespace Address.Types

def toUInt8 : Address.Types → UInt8
  | .nft => 16
  | .alias => 8
  | .ed25519 => 0

/-- The JSON member that holds the hash. -/
def hashKey : Address.Types → String
  | .nft => "nftId"
  | .alias => "aliasId"
  | .ed25519 => "pubKeyHash"

end Address.Types

/-- `Address` and its three kinds, which differ in the type and in the name
of the JSON member only. -/
structure Address where
  type : Address.Types
  addrhash : Bytes
  deriving DecidableEq, Repr

namespace Address

def serialize (a : Address) : Bytes := Scalar.put a.type.toUInt8 ++ a.addrhash

/-- `Address(types, QDataStream&)`. -/
def ofQDataStream (type : Types) : Read Address := do
  let addrhash ← readArray 32
  return ⟨type, addrhash⟩

def ofQJsonValue (type : Types) (val : QJsonValue) : Address :=
  ⟨type, ofHexValue (val.member type.hashKey)⟩

def fromQDataStream : Read (Option Address) := do
  let type : UInt8 ← readScalar
  if type = Types.nft.toUInt8 then
    let a ← ofQDataStream .nft
    return some a
  else if type = Types.alias.toUInt8 then
    let a ← ofQDataStream .alias
    return some a
  else if type = Types.ed25519.toUInt8 then
    let a ← ofQDataStream .ed25519
    return some a
  else return none

def fromQJsonValue (val : QJsonValue) : Option Address :=
  if getType8 val = Types.nft.toUInt8 then some (ofQJsonValue .nft val)
  else if getType8 val = Types.alias.toUInt8 then some (ofQJsonValue .alias val)
  else if getType8 val = Types.ed25519.toUInt8 then some (ofQJsonValue .ed25519 val)
  else none

def getJson (a : Address) : QJsonObject :=
  QJsonObject.empty
    |>.insert "type" (.ofInt a.type.toUInt8.toNat)
    |>.insert a.type.hashKey (.string (toHexString a.addrhash))

/-- `Address::addr`. -/
def addr (a : Address) : Bytes := a.serialize

/-- `Address::from_array`: what `from_` reads off a stream of its own, whose
status is not looked at. -/
def fromArray (val : Bytes) : Except Fault (Option Address) :=
  Prod.fst <$> fromQDataStream.run ⟨val, .ok⟩

/-- The hash has the length its reader expects. -/
def Fits (a : Address) : Prop := a.addrhash.length = 32

end Address

/-! ## Features -/

/-- `Feature::types`. -/
inductive Feature.Types where
  | sender
  | issuer
  | metadata
  | tag
  deriving DecidableEq, Repr

def Feature.Types.toUInt8 : Feature.Types → UInt8
  | .sender => 0
  | .issuer => 1
  | .metadata => 2
  | .tag => 3

/-- The four kinds of `Feature`. -/
inductive Feature where
  | sender (sender : Option Address)
  | issuer (issuer : Option Address)
  | metadata (data : Bytes)
  | tag (tag : Bytes)
  deriving DecidableEq, Repr

namespace Feature

def type : Feature → Types
  | sender _ => .sender
  | issuer _ => .issuer
  | metadata _ => .metadata
  | tag _ => .tag

def serialize (f : Feature) : Except Fault Bytes :=
  match f with
  | sender a | issuer a => do
    let a ← deref a
    return Scalar.put f.type.toUInt8 ++ a.serialize
  | metadata data => return Scalar.put f.type.toUInt8 ++ writeFlArray UInt16 data
  | tag data => return Scalar.put f.type.toUInt8 ++ writeFlArray UInt8 data

/-- `Sender_Feature(QDataStream&)`. -/
def senderOfQDataStream : Read Feature := do
  let a ← Address.fromQDataStream
  return sender a

/-- `Issuer_Feature(QDataStream&)`. -/
def issuerOfQDataStream : Read Feature := do
  let a ← Address.fromQDataStream
  return issuer a

/-- `Metadata_Feature(QDataStream&)`. -/
def metadataOfQDataStream [Platform] : Read Feature := do
  let data ← readFlArray UInt16
  return metadata data

/-- `Tag_Feature(QDataStream&)`. -/
def tagOfQDataStream [Platform] : Read Feature := do
  let data ← readFlArray UInt8
  return tag data

def fromQDataStream [Platform] : Read (Option Feature) := do
  let type : UInt8 ← readScalar
  if type = Types.metadata.toUInt8 then
    let f ← metadataOfQDataStream
    return some f
  else if type = Types.tag.toUInt8 then
    let f ← tagOfQDataStream
    return some f
  else if type = Types.sender.toUInt8 then
    let f ← senderOfQDataStream
    return some f
  else if type = Types.issuer.toUInt8 then
    let f ← issuerOfQDataStream
    return some f
  else return none

def fromQJsonValue (val : QJsonValue) : Option Feature :=
  let type := getType8 val
  if type = Types.metadata.toUInt8 then some (metadata (ofHexValue (val.member "data")))
  else if type = Types.tag.toUInt8 then some (tag (ofHexValue (val.member "tag")))
  else if type = Types.sender.toUInt8 then
    some (sender (Address.fromQJsonValue (val.member "address")))
  else if type = Types.issuer.toUInt8 then
    some (issuer (Address.fromQJsonValue (val.member "address")))
  else none

def getJson (f : Feature) : Except Fault QJsonObject :=
  let var := QJsonObject.empty.insert "type" (.ofInt f.type.toUInt8.toNat)
  match f with
  | sender a | issuer a => do
    let a ← deref a
    return var.insert "address" (.object a.getJson)
  | metadata data => return var.insert "data" (.string (toHexString data))
  | tag data => return var.insert "tag" (.string (toHexString data))

def NonNull : Feature → Prop
  | sender a | issuer a => a.isSome
  | metadata _ | tag _ => True

def Fits : Feature → Prop
  | sender a | issuer a => ∀ x ∈ a, x.Fits
  | metadata data => data.length < 256 ^ 2
  | tag data => data.length < 256

end Feature

/-- `operator<` of features compares the types. -/
instance : Keyed Feature where
  Key := UInt8
  asymm _ _ := Std.Asymm.asymm _ _
  trans _ _ _ := Trans.trans
  trichotomous _ _ := Std.Trichotomous.trichotomous _ _
  key f := f.type.toUInt8

/-! ## Unlock conditions -/

/-- `Unlock_Condition::types`. -/
inductive UnlockCondition.Types where
  | address
  | storageDepositReturn
  | timelock
  | expiration
  | stateControllerAddress
  | governorAddress
  | immutableAliasAddress
  deriving DecidableEq, Repr

def UnlockCondition.Types.toUInt8 : UnlockCondition.Types → UInt8
  | .address => 0
  | .storageDepositReturn => 1
  | .timelock => 2
  | .expiration => 3
  | .stateControllerAddress => 4
  | .governorAddress => 5
  | .immutableAliasAddress => 6

/-- The seven kinds of `Unlock_Condition`. A timelock has no address: the
base class holds a null one that nothing sets. -/
inductive UnlockCondition where
  | address (address : Option Address)
  | storageDepositReturn (address : Option Address) (returnAmount : UInt64)
  | timelock (unixTime : UInt32)
  | expiration (address : Option Address) (unixTime : UInt32)
  | stateControllerAddress (address : Option Address)
  | governorAddress (address : Option Address)
  | immutableAliasAddress (address : Option Address)
  deriving DecidableEq, Repr

namespace UnlockCondition

def type : UnlockCondition → Types
  | address _ => .address
  | storageDepositReturn _ _ => .storageDepositReturn
  | timelock _ => .timelock
  | expiration _ _ => .expiration
  | stateControllerAddress _ => .stateControllerAddress
  | governorAddress _ => .governorAddress
  | immutableAliasAddress _ => .immutableAliasAddress

/-- `Unlock_Condition::address`. -/
def addressOf : UnlockCondition → Option Address
  | address a | storageDepositReturn a _ | expiration a _ | stateControllerAddress a
  | governorAddress a | immutableAliasAddress a => a
  | timelock _ => none

/-- `unix_time` of the two kinds that have one. -/
def unixTimeOf : UnlockCondition → Option UInt32
  | timelock unixTime | expiration _ unixTime => some unixTime
  | address _ | storageDepositReturn _ _ | stateControllerAddress _ | governorAddress _
  | immutableAliasAddress _ => none

/-- `Unlock_Condition::serialize`, which the kinds with an address alone
inherit and the two others with an address call first. -/
def baseSerialize (type : Types) (a : Option Address) : Except Fault Bytes := do
  let a ← deref a
  return Scalar.put type.toUInt8 ++ a.serialize

/-- `Unlock_Condition::get_Json`. -/
def baseGetJson (type : Types) (a : Option Address) : Except Fault QJsonObject := do
  let a ← deref a
  return QJsonObject.empty
    |>.insert "type" (.ofInt type.toUInt8.toNat)
    |>.insert "address" (.object a.getJson)

def serialize (c : UnlockCondition) : Except Fault Bytes :=
  match c with
  | address a | stateControllerAddress a | governorAddress a | immutableAliasAddress a =>
    baseSerialize c.type a
  | storageDepositReturn a returnAmount => do
    let base ← baseSerialize c.type a
    return base ++ Scalar.put returnAmount
  | timelock unixTime => return Scalar.put c.type.toUInt8 ++ Scalar.put unixTime
  | expiration a unixTime => do
    let base ← baseSerialize c.type a
    return base ++ Scalar.put unixTime

def getJson (c : UnlockCondition) : Except Fault QJsonObject :=
  let var := QJsonObject.empty.insert "type" (.ofInt c.type.toUInt8.toNat)
  match c with
  | address a | stateControllerAddress a | governorAddress a | immutableAliasAddress a =>
    baseGetJson c.type a
  | storageDepositReturn a returnAmount => do
    let a ← deref a
    return var
      |>.insert "returnAddress" (.object a.getJson)
      |>.insert "amount" (.string (number returnAmount))
  | timelock unixTime => return var.insert "unixTime" (.ofInt (castInt unixTime))
  | expiration a unixTime => do
    let a ← deref a
    return var
      |>.insert "returnAddress" (.object a.getJson)
      |>.insert "unixTime" (.ofInt (castInt unixTime))

/-- The stream constructor of a kind with an address alone. -/
def addressOfQDataStream (kind : Option Address → UnlockCondition) : Read UnlockCondition := do
  let a ← Address.fromQDataStream
  return kind a

/-- `Storage_Deposit_Return_Unlock_Condition(QDataStream&)`. -/
def storageDepositReturnOfQDataStream : Read UnlockCondition := do
  let a ← Address.fromQDataStream
  let returnAmount ← readScalar
  return storageDepositReturn a returnAmount

/-- `Timelock_Unlock_Condition(QDataStream&)`. -/
def timelockOfQDataStream : Read UnlockCondition := do
  let unixTime ← readScalar
  return timelock unixTime

/-- `Expiration_Unlock_Condition(QDataStream&)`. -/
def expirationOfQDataStream : Read UnlockCondition := do
  let a ← Address.fromQDataStream
  let unixTime ← readScalar
  return expiration a unixTime

def fromQDataStream : Read (Option UnlockCondition) := do
  let type : UInt8 ← readScalar
  if type = Types.expiration.toUInt8 then
    let c ← expirationOfQDataStream
    return some c
  else if type = Types.timelock.toUInt8 then
    let c ← timelockOfQDataStream
    return some c
  else if type = Types.storageDepositReturn.toUInt8 then
    let c ← storageDepositReturnOfQDataStream
    return some c
  else if type = Types.address.toUInt8 then
    let c ← addressOfQDataStream address
    return some c
  else if type = Types.stateControllerAddress.toUInt8 then
    let c ← addressOfQDataStream stateControllerAddress
    return some c
  else if type = Types.governorAddress.toUInt8 then
    let c ← addressOfQDataStream governorAddress
    return some c
  else if type = Types.immutableAliasAddress.toUInt8 then
    let c ← addressOfQDataStream immutableAliasAddress
    return some c
  else return none

def fromQJsonValue (val : QJsonValue) : Option UnlockCondition :=
  let type := getType8 val
  let holder := Address.fromQJsonValue (val.member "address")
  let returnAddress := Address.fromQJsonValue (val.member "returnAddress")
  let unixTime := UInt32.ofInt (val.member "unixTime").toInteger
  if type = Types.expiration.toUInt8 then some (expiration returnAddress unixTime)
  else if type = Types.timelock.toUInt8 then some (timelock unixTime)
  else if type = Types.storageDepositReturn.toUInt8 then
    some (storageDepositReturn returnAddress (toULongLong (val.member "amount").toString))
  else if type = Types.address.toUInt8 then some (address holder)
  else if type = Types.stateControllerAddress.toUInt8 then some (stateControllerAddress holder)
  else if type = Types.governorAddress.toUInt8 then some (governorAddress holder)
  else if type = Types.immutableAliasAddress.toUInt8 then some (immutableAliasAddress holder)
  else none

def NonNull : UnlockCondition → Prop
  | address a | storageDepositReturn a _ | expiration a _ | stateControllerAddress a
  | governorAddress a | immutableAliasAddress a => a.isSome
  | timelock _ => True

def Fits : UnlockCondition → Prop
  | address a | storageDepositReturn a _ | expiration a _ | stateControllerAddress a
  | governorAddress a | immutableAliasAddress a => ∀ x ∈ a, x.Fits
  | timelock _ => True

end UnlockCondition

/-- `operator<` of unlock conditions compares the types. -/
instance : Keyed UnlockCondition where
  Key := UInt8
  asymm _ _ := Std.Asymm.asymm _ _
  trans _ _ _ := Trans.trans
  trichotomous _ _ := Std.Trichotomous.trichotomous _ _
  key c := c.type.toUInt8

end Qblock
