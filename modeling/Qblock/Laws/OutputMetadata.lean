import Qblock.OutputMetadata
import Qblock.Laws.Ids

/-!
# The ids of outputs

The id of an output is the id of its transaction and its index, the index in
two bytes at the end, so that the two can be told from it whatever the
length of the one in front. The metadata a node sends may name another
output id: that member is not read, and the one written is the right one.

- `setOutputid_inj` — what an output id tells;
- `OutputMetadataResponse.fromJson` — metadata read back;
- `OutputMetadataResponse.outputid_laws` — and what its output id is to an input.
-/

namespace Qblock

open Wire Qt

/-- The index is the last two bytes, so the parts of an output id are told. -/
theorem setOutputid_inj {transactionId transactionId' : Bytes} {outputIndex outputIndex' : UInt16} :
    setOutputid transactionId outputIndex = setOutputid transactionId' outputIndex' ↔
      transactionId = transactionId' ∧ outputIndex = outputIndex' := by
  constructor
  · intro heq
    obtain ⟨id, index⟩ := List.append_inj' heq (by rw [Scalar.put_length, Scalar.put_length])
    exact ⟨id, Scalar.put_injective index⟩
  · intro parts
    rw [parts.1, parts.2]

namespace OutputMetadataResponse

/-- Metadata are told by the members that are read. -/
theorem ext_of {m m' : OutputMetadataResponse} (blockId : m.blockId = m'.blockId)
    (transactionId : m.transactionId = m'.transactionId)
    (outputIndex : m.outputIndex = m'.outputIndex) (isSpent : m.isSpent = m'.isSpent) : m = m' := by
  obtain ⟨_, _, _, _, _, rfl⟩ := m
  obtain ⟨_, _, _, _, _, rfl⟩ := m'
  cases blockId
  cases transactionId
  cases outputIndex
  cases isSpent
  rfl

theorem ofInt_toInteger_uint16 (x : UInt16) :
    UInt16.ofInt (QJsonValue.ofInt x.toNat).toInteger = x := by
  have hx := x.toNat_lt
  have wrapped : ((x.toNat : Int) % 2 ^ 16).toNat = x.toNat := by omega
  rw [QJsonValue.toInteger_ofInt (by omega) (by omega), UInt16.ofInt, wrapped, UInt16.ofNat_toNat]

/-- Metadata read back from their JSON. -/
theorem fromJson (m : OutputMetadataResponse) : ofQJsonValue (.object m.getJson) = m := by
  apply ext_of
  · simp [ofQJsonValue, getJson, ofHexValue_toHexString]
  · simp [ofQJsonValue, getJson, ofHexValue_toHexString]
  · simp [ofQJsonValue, getJson, ofInt_toInteger_uint16]
  · simp [ofQJsonValue, getJson, QJsonValue.toBool]

/-- The output id a node names is not looked at. -/
theorem ofQJsonValue_insert_outputId (o : QJsonObject) (v : QJsonValue) :
    ofQJsonValue (.object (o.insert "outputId" v)) = ofQJsonValue (.object o) := by
  simp [ofQJsonValue]

/-- The input that spends the output, as `Input::UTXO` makes it. -/
def spentBy (m : OutputMetadataResponse) : Input := ⟨m.transactionId, m.outputIndex⟩

/-- The bytes of that input are its tag and the output id. -/
theorem serialize_spentBy (m : OutputMetadataResponse) :
    m.spentBy.serialize = Scalar.put Input.utxoType ++ m.outputid := by
  rw [m.outputid_eq, setOutputid, CArray.append, ← List.append_assoc]
  rfl

/-- Metadata read back from their JSON, whatever output id a node puts in
it. Their output id tells the transaction and the index, and is, behind its
tag, the input that spends the output, byte for byte. -/
theorem outputid_laws (m : OutputMetadataResponse) :
    (∀ v, ofQJsonValue (.object (m.getJson.insert "outputId" v)) = m) ∧
    (∀ m' : OutputMetadataResponse, m'.outputid = m.outputid ↔ m'.spentBy = m.spentBy) ∧
    m.spentBy.serialize = Scalar.put Input.utxoType ++ m.outputid ∧
    (m.outputid.length = 34 →
      Reads Input.fromQDataStream (Scalar.put Input.utxoType ++ m.outputid) (some m.spentBy)) := by
  refine ⟨?_, ?_, m.serialize_spentBy, ?_⟩
  · intro v
    rw [ofQJsonValue_insert_outputId, fromJson]
  · intro m'
    rw [m'.outputid_eq, m.outputid_eq, setOutputid_inj, spentBy, spentBy, Input.mk.injEq]
  · intro hlength
    have fits : m.spentBy.Fits := by
      rw [m.outputid_eq, setOutputid, CArray.append, List.length_append,
        Scalar.put_length] at hlength
      exact Nat.add_right_cancel hlength
    rw [← serialize_spentBy]
    exact Input.reads fits

end OutputMetadataResponse

end Qblock
