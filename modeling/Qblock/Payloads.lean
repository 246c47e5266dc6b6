import Qblock.Outputs
import Qblock.Unlocks

/-!
# Essences and payloads

`qessences` and `qpayloads`, which are mutually recursive: a transaction
payload has an essence and an essence may embed a payload.

The readers are written by open recursion, each taking the reader of the
payloads it may meet, and `Payload.fromQDataStream` ties the knot. Its bound
is the number of bytes left: an embedded payload is only read behind a
length that is not zero, so the bound is never reached, and
`Laws.Recursion` gives back the equation of the source, which has none.
The same goes for `Payload.fromQJsonValue`, bounded by the nesting of the
value.
-/

namespace Qblock

open Wire Qt

variable [Platform]

mutual

/-- `Essence` and its one kind, `Transaction_Essence`. -/
inductive Essence where
  | transaction (networkId : UInt64) (inputs : List (Option Input)) (inputsCommitment : Bytes)
      (outputs : List (Option Output)) (payload : Option Payload)

/-- The two kinds of `Payload`. -/
inductive Payload where
  | taggedData (tag data : Bytes)
  | transaction (essence : Option Essence) (unlocks : List (Option Unlock))

end

/-- `Essence::Transaction_typ`. -/
def Essence.transactionType : UInt8 := 1

/-- `Payload::Tagged_Data_typ`. -/
def Payload.taggedDataType : UInt32 := 5

/-- `Payload::Transaction_typ`. -/
def Payload.transactionType : UInt32 := 6

/-! ## As bytes -/

/-- The length of a serialized payload, then the payload. -/
def lengthPrefixed (serialized : Bytes) : Bytes :=
  Scalar.put (Scalar.ofNat serialized.length : UInt32) ++ serialized

mutual

/-- `Transaction_Essence::serialize`. The zero that stands for a payload
that is not there is written behind one that is as well. -/
def Essence.serialize : Essence → Except Fault Bytes
  | .transaction networkId inputs inputsCommitment outputs payload => do
    let inputs ← serializeCounted UInt16 (fun i => .ok i.serialize) inputs
    let outputs ← serializeCounted UInt16 Output.serialize outputs
    let slot ← match payload with
      | some p => do
        let serialized ← p.serialize
        pure (lengthPrefixed serialized)
      | none => pure []
    return Scalar.put Essence.transactionType ++ Scalar.put networkId ++ inputs ++
      inputsCommitment ++ outputs ++ slot ++ Scalar.put (0 : UInt32)

/-- `Payload::serialize` of the two kinds. -/
def Payload.serialize : Payload → Except Fault Bytes
  | .taggedData tag data =>
    return Scalar.put Payload.taggedDataType ++ writeFlArray UInt8 tag ++ writeFlArray UInt32 data
  | .transaction essence unlocks => do
    let essence ← match essence with
      | some e => e.serialize
      | none => .error .nullPointer
    let unlocks ← serializeCounted UInt16 Unlock.serialize unlocks
    return Scalar.put Payload.transactionType ++ essence ++ unlocks

end

/-- A length, and a payload if it is not zero. What the length says is not
looked at otherwise. -/
def readSlot (payloadFrom : Read (Option Payload)) : Read (Option Payload) := do
  let payloadLength : UInt32 ← readScalar
  if payloadLength ≠ 0 then payloadFrom else return none

/-- `Transaction_Essence(QDataStream&)`. -/
def Essence.ofQDataStream (payloadFrom : Read (Option Payload)) : Read Essence := do
  let networkId ← readScalar
  let inputs ← deserializeVector UInt16 Input.fromQDataStream
  let inputsCommitment ← readArray 32
  let outputs ← deserializeVector UInt16 Output.fromQDataStream
  let payload ← readSlot payloadFrom
  return .transaction networkId inputs inputsCommitment outputs payload

/-- `Essence::from_<QDataStream>`. -/
def Essence.fromQDataStream (payloadFrom : Read (Option Payload)) : Read (Option Essence) := do
  let type : UInt8 ← readScalar
  if type = transactionType then
    let e ← ofQDataStream payloadFrom
    return some e
  else return none

namespace Payload

/-- `Tagged_Data_Payload(QDataStream&)`. -/
def taggedDataOfQDataStream : Read Payload := do
  let tag ← readFlArray UInt8
  let data ← readFlArray UInt32
  return taggedData tag data

/-- `Transaction_Payload(QDataStream&)`. -/
def transactionOfQDataStream (payloadFrom : Read (Option Payload)) : Read Payload := do
  let essence ← Essence.fromQDataStream payloadFrom
  let unlocks ← deserializeVector UInt16 Unlock.fromQDataStream
  return transaction essence unlocks

/-- `Payload::from_<QDataStream>`, given the reader of embedded payloads. -/
def dispatchQDataStream (payloadFrom : Read (Option Payload)) : Read (Option Payload) := do
  let type : UInt32 ← readScalar
  if type = transactionType then
    let p ← transactionOfQDataStream payloadFrom
    return some p
  else if type = taggedDataType then
    let p ← taggedDataOfQDataStream
    return some p
  else return none

/-- `Payload::from_<QDataStream>`, of payloads nested at most so deep. -/
def fromQDataStreamUpTo : Nat → Read (Option Payload)
  | 0 => lift (.error .recursionLimit)
  | n + 1 => dispatchQDataStream (fromQDataStreamUpTo n)

/-- `Payload::from_<QDataStream>`. -/
def fromQDataStream : Read (Option Payload) := do
  let s ← get
  fromQDataStreamUpTo (s.unread.length + 1)

end Payload

/-! ## As JSON -/

mutual

/-- `Transaction_Essence::get_Json`. -/
def Essence.getJson : Essence → Except Fault QJsonObject
  | .transaction networkId inputs inputsCommitment outputs payload => do
    let inputs ← getJsonAll (fun i => .ok i.getJson) inputs
    let outputs ← getJsonAll Output.getJson outputs
    let payload ← match payload with
      | some p => do
        let json ← p.getJson
        pure (.object json)
      | none => pure .null
    return QJsonObject.empty
      |>.insert "type" (.ofInt Essence.transactionType.toNat)
      |>.insert "networkId" (.string (number networkId))
      |>.insert "inputsCommitment" (.string (toHexString inputsCommitment))
      |>.insert "inputs" (.array inputs)
      |>.insert "outputs" (.array outputs)
      |>.insert "payload" payload

/-- `Payload::get_Json` of the two kinds. -/
def Payload.getJson : Payload → Except Fault QJsonObject
  | .taggedData tag data =>
    return QJsonObject.empty
      |>.insert "type" (.ofInt Payload.taggedDataType.toNat)
      |>.insert "tag" (.string (toHexString tag))
      |>.insert "data" (.string (toHexString data))
  | .transaction essence unlocks => do
    let essence ← match essence with
      | some e => e.getJson
      | none => .error .nullPointer
    let unlocks ← getJsonAll Unlock.getJson unlocks
    return QJsonObject.empty
      |>.insert "type" (.ofInt Payload.transactionType.toNat)
      |>.insert "essence" (.object essence)
      |>.insert "unlocks" (.array unlocks)

end

/-- `Transaction_Essence(const QJsonValue&)`. -/
def Essence.ofQJsonValue (payloadFrom : QJsonValue → Except Fault (Option Payload))
    (val : QJsonValue) : Except Fault Essence := do
  let networkId := UInt64.ofInt (val.member "networkId").toInt
  let inputs ← getTvec (fun v => .ok (Input.fromQJsonValue v)) (val.member "inputs").toArray
  let inputsCommitment := ofHexValue (val.member "inputsCommitment")
  let outputs ← getTvec Output.fromQJsonValue (val.member "outputs").toArray
  let payload ← payloadFrom (val.member "payload")
  return .transaction networkId inputs inputsCommitment outputs payload

/-- `Essence::from_<const QJsonValue>`. -/
def Essence.fromQJsonValue (payloadFrom : QJsonValue → Except Fault (Option Payload))
    (val : QJsonValue) : Except Fault (Option Essence) :=
  if getType8 val = transactionType then some <$> ofQJsonValue payloadFrom val
  else return none

namespace Payload

/-- `Tagged_Data_Payload(const QJsonValue&)`. -/
def taggedDataOfQJsonValue (val : QJsonValue) : Payload :=
  taggedData (ofHexValue (val.member "tag")) (ofHexValue (val.member "data"))

/-- `Transaction_Payload(const QJsonValue&)`. -/
def transactionOfQJsonValue (payloadFrom : QJsonValue → Except Fault (Option Payload))
    (val : QJsonValue) : Except Fault Payload := do
  let essence ← Essence.fromQJsonValue payloadFrom (val.member "essence")
  let unlocks ← getTvec (fun v => .ok (Unlock.fromQJsonValue v)) (val.member "unlocks").toArray
  return transaction essence unlocks

/-- `Payload::from_<const QJsonValue>`, given the reader of embedded payloads. -/
def dispatchQJsonValue (payloadFrom : QJsonValue → Except Fault (Option Payload))
    (val : QJsonValue) : Except Fault (Option Payload) :=
  let type := getType32 val
  if type = transactionType then some <$> transactionOfQJsonValue payloadFrom val
  else if type = taggedDataType then return some (taggedDataOfQJsonValue val)
  else return none

/-- `Payload::from_<const QJsonValue>`, of payloads nested at most so deep. -/
def fromQJsonValueUpTo : Nat → QJsonValue → Except Fault (Option Payload)
  | 0, _ => .error .recursionLimit
  | n + 1, val => dispatchQJsonValue (fromQJsonValueUpTo n) val

/-- `Payload::from_<const QJsonValue>`. -/
def fromQJsonValue (val : QJsonValue) : Except Fault (Option Payload) :=
  fromQJsonValueUpTo (val.depth + 1) val

end Payload

/-! ## Hashes -/

/-- `Essence::get_hash`. -/
def Essence.getHash (e : Essence) : Except Fault Bytes := do
  let serialized ← e.serialize
  return Platform.blake2b256 serialized

/-- `Payload::get_id`, which is a hash for transactions only. -/
def Payload.getId (p : Payload) : Except Fault Bytes :=
  match p with
  | taggedData _ _ => return List.replicate 32 0
  | transaction _ _ => do
    let serialized ← p.serialize
    return Platform.blake2b256 serialized

/-! ## Well-formedness -/

mutual

/-- No pointer of the essence is null, but for the payload it may embed. -/
def Essence.NonNull : Essence → Prop
  | .transaction _ inputs _ outputs payload =>
    AllNonNull (fun _ => True) inputs ∧ AllNonNull Output.NonNull outputs ∧
      match payload with
      | some p => p.NonNull
      | none => True

/-- No pointer of the payload is null. -/
def Payload.NonNull : Payload → Prop
  | .taggedData _ _ => True
  | .transaction essence unlocks =>
    (match essence with
      | some e => e.NonNull
      | none => False) ∧ AllNonNull Unlock.NonNull unlocks

end

mutual

/-- Byte arrays and lists have the lengths their readers expect and their
prefixes hold; so does the serialized form of an embedded payload. -/
def Essence.Fits : Essence → Prop
  | .transaction _ inputs inputsCommitment outputs payload =>
    AllFit Input.Fits inputs ∧ inputs.length < 256 ^ 2 ∧ inputsCommitment.length = 32 ∧
      AllFit Output.Fits outputs ∧ outputs.length < 256 ^ 2 ∧
      match payload with
      | some p => p.Fits ∧ ∀ b, p.serialize = .ok b → b.length < 256 ^ 4
      | none => True

/-- Byte arrays and lists have the lengths their readers expect and their
prefixes hold. -/
def Payload.Fits : Payload → Prop
  | .taggedData tag data => tag.length < 256 ∧ data.length < 256 ^ 4
  | .transaction essence unlocks =>
    (match essence with
      | some e => e.Fits
      | none => True) ∧ AllFit Unlock.Fits unlocks ∧ unlocks.length < 256 ^ 2

end

mutual

/-- The essence without what its bytes leave out. -/
def Essence.wireForm : Essence → Essence
  | .transaction networkId inputs inputsCommitment outputs payload =>
    .transaction networkId inputs inputsCommitment (outputs.map (·.map Output.wireForm))
      (match payload with
        | some p => some p.wireForm
        | none => none)

/-- The payload without what its bytes leave out. -/
def Payload.wireForm : Payload → Payload
  | .taggedData tag data => .taggedData tag data
  | .transaction essence unlocks =>
    .transaction
      (match essence with
        | some e => some e.wireForm
        | none => none) unlocks

end

section Equations

variable {networkId : UInt64} {inputs : List (Option Input)} {inputsCommitment : Bytes}
  {outputs : List (Option Output)} {payload : Option Payload} {essence : Option Essence}
  {unlocks : List (Option Unlock)}

omit [Platform] in
/-- An embedded payload is the one part that need not be there. -/
theorem Essence.nonNull_transaction :
    (Essence.transaction networkId inputs inputsCommitment outputs payload).NonNull ↔
      AllNonNull (fun _ => True) inputs ∧ AllNonNull Output.NonNull outputs ∧
        ∀ p ∈ payload, p.NonNull := by
  cases payload with
  | none | some _ => simp [Essence.NonNull]

omit [Platform] in
/-- The essence has to be there. -/
theorem Payload.nonNull_transaction :
    (Payload.transaction essence unlocks).NonNull ↔
      (∃ e ∈ essence, e.NonNull) ∧ AllNonNull Unlock.NonNull unlocks := by
  cases essence with
  | none | some _ => simp [Payload.NonNull]

/-- The length in front of an embedded payload has to fit its four bytes. -/
theorem Essence.fits_transaction :
    (Essence.transaction networkId inputs inputsCommitment outputs payload).Fits ↔
      AllFit Input.Fits inputs ∧ inputs.length < 256 ^ 2 ∧ inputsCommitment.length = 32 ∧
      AllFit Output.Fits outputs ∧ outputs.length < 256 ^ 2 ∧
        ∀ p ∈ payload, p.Fits ∧ ∀ b, p.serialize = .ok b → b.length < 256 ^ 4 := by
  cases payload with
  | none | some _ => simp [Essence.Fits]

/-- A transaction fits by its essence and its unlocks. -/
theorem Payload.fits_transaction :
    (Payload.transaction essence unlocks).Fits ↔
      (∀ e ∈ essence, e.Fits) ∧ AllFit Unlock.Fits unlocks ∧ unlocks.length < 256 ^ 2 := by
  cases essence with
  | none | some _ => simp [Payload.Fits]

omit [Platform] in
/-- Bytes leave out something of the outputs and of an embedded payload. -/
theorem Essence.wireForm_transaction :
    (Essence.transaction networkId inputs inputsCommitment outputs payload).wireForm =
      .transaction networkId inputs inputsCommitment (outputs.map (·.map Output.wireForm))
        (payload.map Payload.wireForm) := by
  cases payload with
  | none | some _ => simp [Essence.wireForm]

omit [Platform] in
/-- The unlocks are written whole. -/
theorem Payload.wireForm_transaction :
    (Payload.transaction essence unlocks).wireForm =
      .transaction (essence.map Essence.wireForm) unlocks := by
  cases essence with
  | none | some _ => simp [Payload.wireForm]

end Equations

/-- The embedded payload of an essence. -/
def Essence.payload : Essence → Option Payload
  | .transaction _ _ _ _ payload => payload

/-- The payload is tagged data, or a transaction whose essence embeds none. -/
def Payload.Flat : Payload → Prop
  | .taggedData _ _ => True
  | .transaction essence _ => ∀ e ∈ essence, e.payload = none

end Qblock
