import Qblock.Conditions
import Qblock.Tokens

/-!
# Outputs

`qoutputs`: the four kinds of `Output`. The base class holds the amount and
the four sets, `immutable_features_` among them whatever the kind, and each
kind writes and reads them in an order of its own. A `Basic_Output` neither
writes nor reads its immutable features as bytes, while its JSON, which is
that of the base class, does both: `wireForm` is an output without what its
bytes leave out.
-/

namespace Qblock

open Wire Qt

variable [Platform]

/-- `Output::types`. -/
inductive Output.Types where
  | basic
  | nft
  | foundry
  | alias
  deriving DecidableEq, Repr

def Output.Types.toUInt8 : Output.Types → UInt8
  | .basic => 3
  | .nft => 6
  | .foundry => 5
  | .alias => 4

/-- What the four kinds of `Output` add to the base class. -/
inductive Output.Kind where
  | basic
  | nft (nftId : Bytes)
  | foundry (tokenScheme : Option TokenScheme) (serialNumber : UInt32)
  | alias (aliasId : Bytes) (stateIndex foundryCounter : UInt32) (stateMetadata : Bytes)
  deriving DecidableEq, Repr

/-- `Output`. -/
structure Output where
  kind : Output.Kind
  amount : UInt64
  unlockConditions : PSet UnlockCondition
  features : PSet Feature
  immutableFeatures : PSet Feature
  nativeTokens : PSet NativeToken

namespace Output

def type (o : Output) : Types :=
  match o.kind with
  | .basic => .basic
  | .nft _ => .nft
  | .foundry _ _ => .foundry
  | .alias _ _ _ _ => .alias

/-! ## As bytes -/

def serializeNativeTokens (s : PSet NativeToken) : Except Fault Bytes :=
  serializeList UInt8 (fun t => .ok t.serialize) s

def serializeUnlockConditions (s : PSet UnlockCondition) : Except Fault Bytes :=
  serializeList UInt8 UnlockCondition.serialize s

def serializeFeatures (s : PSet Feature) : Except Fault Bytes :=
  serializeList UInt8 Feature.serialize s

def serialize (o : Output) : Except Fault Bytes := do
  let head := Scalar.put o.type.toUInt8 ++ Scalar.put o.amount
  match o.kind with
  | .basic =>
    let nativeTokens ← serializeNativeTokens o.nativeTokens
    let unlockConditions ← serializeUnlockConditions o.unlockConditions
    let features ← serializeFeatures o.features
    return head ++ nativeTokens ++ unlockConditions ++ features
  | .nft nftId =>
    let nativeTokens ← serializeNativeTokens o.nativeTokens
    let unlockConditions ← serializeUnlockConditions o.unlockConditions
    let features ← serializeFeatures o.features
    let immutableFeatures ← serializeFeatures o.immutableFeatures
    return head ++ nativeTokens ++ nftId ++ unlockConditions ++ features ++ immutableFeatures
  | .foundry tokenScheme serialNumber =>
    let nativeTokens ← serializeNativeTokens o.nativeTokens
    let tokenScheme ← deref tokenScheme
    let unlockConditions ← serializeUnlockConditions o.unlockConditions
    let features ← serializeFeatures o.features
    let immutableFeatures ← serializeFeatures o.immutableFeatures
    return head ++ nativeTokens ++ Scalar.put serialNumber ++ tokenScheme.serialize ++
      unlockConditions ++ features ++ immutableFeatures
  | .alias aliasId stateIndex foundryCounter stateMetadata =>
    let nativeTokens ← serializeNativeTokens o.nativeTokens
    let unlockConditions ← serializeUnlockConditions o.unlockConditions
    let features ← serializeFeatures o.features
    let immutableFeatures ← serializeFeatures o.immutableFeatures
    return head ++ nativeTokens ++ aliasId ++ Scalar.put stateIndex ++
      writeFlArray UInt16 stateMetadata ++ Scalar.put foundryCounter ++
      unlockConditions ++ features ++ immutableFeatures

def deserializeNativeTokens : Read (PSet NativeToken) :=
  deserializeList UInt8 NativeToken.fromQDataStream

def deserializeUnlockConditions : Read (PSet UnlockCondition) :=
  deserializeList UInt8 UnlockCondition.fromQDataStream

def deserializeFeatures : Read (PSet Feature) :=
  deserializeList UInt8 Feature.fromQDataStream

/-- `Basic_Output(QDataStream&)`. -/
def basicOfQDataStream : Read Output := do
  let amount ← readScalar
  let nativeTokens ← deserializeNativeTokens
  let unlockConditions ← deserializeUnlockConditions
  let features ← deserializeFeatures
  return ⟨.basic, amount, unlockConditions, features, .empty, nativeTokens⟩

/-- `NFT_Output(QDataStream&)`. -/
def nftOfQDataStream : Read Output := do
  let amount ← readScalar
  let nativeTokens ← deserializeNativeTokens
  let nftId ← readArray 32
  let unlockConditions ← deserializeUnlockConditions
  let features ← deserializeFeatures
  let immutableFeatures ← deserializeFeatures
  return ⟨.nft nftId, amount, unlockConditions, features, immutableFeatures, nativeTokens⟩

/-- `Foundry_Output(QDataStream&)`. -/
def foundryOfQDataStream : Read Output := do
  let amount ← readScalar
  let nativeTokens ← deserializeNativeTokens
  let serialNumber ← readScalar
  let tokenScheme ← TokenScheme.fromQDataStream
  let unlockConditions ← deserializeUnlockConditions
  let features ← deserializeFeatures
  let immutableFeatures ← deserializeFeatures
  return ⟨.foundry tokenScheme serialNumber, amount, unlockConditions, features,
    immutableFeatures, nativeTokens⟩

/-- `Alias_Output(QDataStream&)`. -/
def aliasOfQDataStream : Read Output := do
  let amount ← readScalar
  let nativeTokens ← deserializeNativeTokens
  let aliasId ← readArray 32
  let stateIndex ← readScalar
  let stateMetadata ← readFlArray UInt16
  let foundryCounter ← readScalar
  let unlockConditions ← deserializeUnlockConditions
  let features ← deserializeFeatures
  let immutableFeatures ← deserializeFeatures
  return ⟨.alias aliasId stateIndex foundryCounter stateMetadata, amount, unlockConditions,
    features, immutableFeatures, nativeTokens⟩

def fromQDataStream : Read (Option Output) := do
  let type : UInt8 ← readScalar
  if type = Types.basic.toUInt8 then
    let o ← basicOfQDataStream
    return some o
  else if type = Types.nft.toUInt8 then
    let o ← nftOfQDataStream
    return some o
  else if type = Types.foundry.toUInt8 then
    let o ← foundryOfQDataStream
    return some o
  else if type = Types.alias.toUInt8 then
    let o ← aliasOfQDataStream
    return some o
  else return none

/-! ## As JSON -/

/-- Insert an array, unless it is empty. -/
def insertNonempty (key : String) (values : List QJsonValue) (var : QJsonObject) : QJsonObject :=
  if values.isEmpty then var else var.insert key (.array values)

/-- `Output::get_Json`. -/
def baseGetJson (o : Output) : Except Fault QJsonObject := do
  let nativeTokens ← getJsonAll (fun t => .ok t.getJson) o.nativeTokens.elems
  let unlockConditions ← getJsonAll UnlockCondition.getJson o.unlockConditions.elems
  let features ← getJsonAll Feature.getJson o.features.elems
  let immutableFeatures ← getJsonAll Feature.getJson o.immutableFeatures.elems
  return QJsonObject.empty
    |>.insert "type" (.ofInt o.type.toUInt8.toNat)
    |>.insert "amount" (.string (number o.amount))
    |> insertNonempty "nativeTokens" nativeTokens
    |>.insert "unlockConditions" (.array unlockConditions)
    |> insertNonempty "features" features
    |> insertNonempty "immutableFeatures" immutableFeatures

def getJson (o : Output) : Except Fault QJsonObject := do
  let var ← o.baseGetJson
  match o.kind with
  | .basic => return var
  | .nft nftId => return var.insert "nftId" (.string (toHexString nftId))
  | .foundry tokenScheme serialNumber =>
    let tokenScheme ← deref tokenScheme
    return var
      |>.insert "serialNumber" (.ofInt (castInt serialNumber))
      |>.insert "tokenScheme" (.object tokenScheme.getJson)
  | .alias aliasId stateIndex foundryCounter stateMetadata =>
    return var
      |>.insert "aliasId" (.string (toHexString aliasId))
      |>.insert "stateIndex" (.ofInt (castInt stateIndex))
      |>.insert "foundryCounter" (.ofInt (castInt foundryCounter))
      |>.insert "stateMetadata" (.string (toHexString stateMetadata))

/-- `Output(types, const QJsonValue&)`. -/
def ofQJsonValue (kind : Kind) (val : QJsonValue) : Except Fault Output := do
  let unlockConditions ←
    getT UnlockCondition.fromQJsonValue (val.member "unlockConditions").toArray .empty
  let features ← getT Feature.fromQJsonValue (val.member "features").toArray .empty
  let nativeTokens ← getT NativeToken.fromQJsonValue (val.member "nativeTokens").toArray .empty
  let immutableFeatures ←
    getT Feature.fromQJsonValue (val.member "immutableFeatures").toArray .empty
  return ⟨kind, toULongLong (val.member "amount").toString, unlockConditions, features,
    immutableFeatures, nativeTokens⟩

/-- `NFT_Output(const QJsonValue&)`. -/
def nftOfQJsonValue (val : QJsonValue) : Except Fault Output :=
  ofQJsonValue (.nft (ofHexValue (val.member "nftId"))) val

/-- `Foundry_Output(const QJsonValue&)`. -/
def foundryOfQJsonValue (val : QJsonValue) : Except Fault Output :=
  ofQJsonValue (.foundry (TokenScheme.fromQJsonValue (val.member "tokenScheme"))
    (UInt32.ofInt (val.member "serialNumber").toInteger)) val

/-- `Alias_Output(const QJsonValue&)`. -/
def aliasOfQJsonValue (val : QJsonValue) : Except Fault Output :=
  ofQJsonValue (.alias (ofHexValue (val.member "aliasId"))
    (UInt32.ofInt (val.member "stateIndex").toInteger)
    (UInt32.ofInt (val.member "foundryCounter").toInteger)
    (ofHexValue (val.member "stateMetadata"))) val

def fromQJsonValue (val : QJsonValue) : Except Fault (Option Output) :=
  let type := getType8 val
  if type = Types.basic.toUInt8 then some <$> ofQJsonValue .basic val
  else if type = Types.nft.toUInt8 then some <$> nftOfQJsonValue val
  else if type = Types.foundry.toUInt8 then some <$> foundryOfQJsonValue val
  else if type = Types.alias.toUInt8 then some <$> aliasOfQJsonValue val
  else return none

/-! ## Factories -/

/-- `Output::Basic`, which takes no immutable features. -/
def basic (amount : UInt64) (unlockConditions : PSet UnlockCondition)
    (nativeTokens : PSet NativeToken) (features : PSet Feature) : Output :=
  ⟨.basic, amount, unlockConditions, features, .empty, nativeTokens⟩

/-- `Output::NFT`. -/
def nft (amount : UInt64) (unlockConditions : PSet UnlockCondition)
    (nativeTokens : PSet NativeToken) (immutableFeatures features : PSet Feature) : Output :=
  ⟨.nft (List.replicate 32 0), amount, unlockConditions, features, immutableFeatures,
    nativeTokens⟩

/-- `Output::Foundry`. -/
def foundry (amount : UInt64) (unlockConditions : PSet UnlockCondition)
    (tokenScheme : Option TokenScheme) (serialNumber : UInt32)
    (nativeTokens : PSet NativeToken) (immutableFeatures features : PSet Feature) : Output :=
  ⟨.foundry tokenScheme serialNumber, amount, unlockConditions, features, immutableFeatures,
    nativeTokens⟩

/-- `Output::Alias`. -/
def «alias» (amount : UInt64) (unlockConditions : PSet UnlockCondition) (stateMetadata : Bytes)
    (foundryCounter stateIndex : UInt32) (nativeTokens : PSet NativeToken)
    (immutableFeatures features : PSet Feature) : Output :=
  ⟨.alias (List.replicate 32 0) stateIndex foundryCounter stateMetadata, amount,
    unlockConditions, features, immutableFeatures, nativeTokens⟩

/-! ## Operations -/

/-- `set_id`, which only the kinds with an id of their own override, and
which sets it once. -/
def setId (outputid : Bytes) (o : Output) : Output :=
  match o.kind with
  | .nft nftId =>
    if nftId = List.replicate 32 0 then { o with kind := .nft (Platform.blake2b256 outputid) }
    else o
  | .alias aliasId stateIndex foundryCounter stateMetadata =>
    if aliasId = List.replicate 32 0 then
      { o with
        kind := .alias (Platform.blake2b256 outputid) stateIndex foundryCounter stateMetadata }
    else o
  | .basic | .foundry _ _ => o

/-- `get_id`. The first unlock condition of a foundry that has none is taken
for a null pointer. -/
def getId (o : Output) : Except Fault Bytes :=
  match o.kind with
  | .basic => return List.replicate 32 0
  | .nft nftId => return nftId
  | .foundry tokenScheme serialNumber => do
    let unlockCondition ← deref o.unlockConditions.elems.head?.join
    let address ← deref unlockCondition.addressOf
    let tokenScheme ← deref tokenScheme
    return address.addr ++ Scalar.put serialNumber ++ Scalar.put tokenScheme.type
  | .alias aliasId _ _ _ => return aliasId

/-- `consume`. A foundry keeps its unlock conditions. -/
def consume (o : Output) : Output :=
  match o.kind with
  | .foundry _ _ => { o with features := .empty, nativeTokens := .empty }
  | .basic | .nft _ | .alias _ _ _ _ =>
    { o with features := .empty, nativeTokens := .empty, unlockConditions := .empty }

/-- `clone`: the output is written and read back. -/
def clone (o : Output) : Except Fault (Option Output) := do
  let var ← o.serialize
  Prod.fst <$> fromQDataStream.run ⟨var, .ok⟩

/-- `min_deposit_of_output`. -/
def minDepositOfOutput (o : Output) (wkey wdata vByteCost : UInt64) : Except Fault UInt64 := do
  let offset := 34 * wkey + (32 + 4 + 4) * wdata
  let serializedOutput ← o.serialize
  let outp := UInt64.ofNat serializedOutput.length * wdata
  return (outp + offset) * vByteCost

/-- `get_unlock_`. -/
def getUnlock (o : Output) (typ : UnlockCondition.Types) : Except Fault (Option UnlockCondition) :=
  findIf (fun c => c.type = typ) o.unlockConditions.elems

/-- `get_feature_`. -/
def getFeature (o : Output) (typ : Feature.Types) : Except Fault (Option Feature) :=
  findIf (fun f => f.type = typ) o.features.elems

/-- `get_immutable_feature_`. -/
def getImmutableFeature (o : Output) (typ : Feature.Types) : Except Fault (Option Feature) :=
  findIf (fun f => f.type = typ) o.immutableFeatures.elems

/-! ## Well-formedness -/

def Kind.NonNull : Kind → Prop
  | .foundry tokenScheme _ => tokenScheme.isSome
  | .basic | .nft _ | .alias _ _ _ _ => True

/-- No pointer of the output is null. -/
structure NonNull (o : Output) : Prop where
  kind : o.kind.NonNull
  unlockConditions : AllNonNull UnlockCondition.NonNull o.unlockConditions.elems
  features : AllNonNull Feature.NonNull o.features.elems
  immutableFeatures : AllNonNull Feature.NonNull o.immutableFeatures.elems
  nativeTokens : AllNonNull (fun _ => True) o.nativeTokens.elems

def Kind.Fits : Kind → Prop
  | .nft nftId => nftId.length = 32
  | .alias aliasId _ _ stateMetadata => aliasId.length = 32 ∧ stateMetadata.length < 256 ^ 2
  | .basic | .foundry _ _ => True

/-- The byte arrays of the output have the lengths their readers expect, and
its sets the sizes their counts hold. -/
structure Fits (o : Output) : Prop where
  kind : o.kind.Fits
  unlockConditions : AllFit UnlockCondition.Fits o.unlockConditions.elems
  features : AllFit Feature.Fits o.features.elems
  immutableFeatures : AllFit Feature.Fits o.immutableFeatures.elems
  nativeTokens : AllFit NativeToken.Fits o.nativeTokens.elems
  nativeTokens_count : o.nativeTokens.elems.length < 256

/-- The output without what its bytes leave out: the immutable features of
a basic one. -/
def wireForm (o : Output) : Output :=
  match o.kind with
  | .basic => { o with immutableFeatures := .empty }
  | .nft _ | .foundry _ _ | .alias _ _ _ _ => o

end Output

end Qblock
