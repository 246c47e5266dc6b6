import Qblock.CArray

/-!
# Native tokens and token schemes

`qnative_tokens` and `qtoken_scheme`. A native token has no tag and `from_`
always answers one; a token scheme has one kind, and any other tag is a null
pointer. Both hold 256-bit amounts, written by the `quint256` of the
platform.
-/

namespace Qblock

open Wire Qt

variable [Platform]

/-! ## Native tokens -/

/-- `Native_Token`. -/
structure NativeToken where
  tokenId : Bytes
  amount : Quint256
  deriving DecidableEq, Repr

namespace NativeToken

def serialize (t : NativeToken) : Bytes := t.tokenId ++ Platform.quint256Bytes t.amount

/-- `Native_Token(QDataStream&)`. -/
def ofQDataStream : Read NativeToken := do
  let tokenId ← readArray 38
  let amount ← readQuint256
  return ⟨tokenId, amount⟩

def fromQDataStream : Read (Option NativeToken) := do
  let t ← ofQDataStream
  return some t

def fromQJsonValue (val : QJsonValue) : Option NativeToken :=
  some ⟨ofHexValue (val.member "id"), Platform.quint256OfString (val.member "amount").toString⟩

def getJson (t : NativeToken) : QJsonObject :=
  QJsonObject.empty
    |>.insert "id" (.string (toHexString t.tokenId))
    |>.insert "amount" (.string (Platform.quint256ToHex t.amount))

/-- The token id has the length its reader expects. -/
def Fits (t : NativeToken) : Prop := t.tokenId.length = 38

end NativeToken

/-- `operator<` of native tokens compares the ids, as unsigned bytes. -/
instance : Keyed NativeToken where
  Key := List UInt8
  asymm _ _ := Std.Asymm.asymm _ _
  trans _ _ _ := Trans.trans
  trichotomous _ _ := Std.Trichotomous.trichotomous _ _
  key t := t.tokenId

/-! ## Token schemes -/

/-- `Token_Scheme` and its one kind, `Simple_Token_Scheme`. -/
structure TokenScheme where
  mintedTokens : Quint256
  meltedTokens : Quint256
  maximumSupply : Quint256
  deriving DecidableEq, Repr

namespace TokenScheme

/-- `Simple_typ`. -/
def simpleType : UInt8 := 0

/-- `Token_Scheme::type`. -/
def type (_ : TokenScheme) : UInt8 := simpleType

def serialize (s : TokenScheme) : Bytes :=
  Scalar.put simpleType ++ Platform.quint256Bytes s.mintedTokens ++
    Platform.quint256Bytes s.meltedTokens ++ Platform.quint256Bytes s.maximumSupply

/-- `Simple_Token_Scheme(QDataStream&)`. -/
def ofQDataStream : Read TokenScheme := do
  let mintedTokens ← readQuint256
  let meltedTokens ← readQuint256
  let maximumSupply ← readQuint256
  return ⟨mintedTokens, meltedTokens, maximumSupply⟩

def fromQDataStream : Read (Option TokenScheme) := do
  let type : UInt8 ← readScalar
  if type = simpleType then
    let s ← ofQDataStream
    return some s
  else return none

def fromQJsonValue (val : QJsonValue) : Option TokenScheme :=
  if getType8 val = simpleType then
    some ⟨Platform.quint256OfString (val.member "mintedTokens").toString,
      Platform.quint256OfString (val.member "meltedTokens").toString,
      Platform.quint256OfString (val.member "maximumSupply").toString⟩
  else none

def getJson (s : TokenScheme) : QJsonObject :=
  QJsonObject.empty
    |>.insert "type" (.ofInt simpleType.toNat)
    |>.insert "mintedTokens" (.string (Platform.quint256ToHex s.mintedTokens))
    |>.insert "meltedTokens" (.string (Platform.quint256ToHex s.meltedTokens))
    |>.insert "maximumSupply" (.string (Platform.quint256ToHex s.maximumSupply))

end TokenScheme

end Qblock
