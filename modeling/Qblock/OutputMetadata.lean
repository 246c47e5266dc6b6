import Qblock.CArray

/-!
# Output metadata

`qoutput_metadata_response`: what a node tells of an output. The id of the
output is not taken from the node but put together from the id of its
transaction and its index, so the record carries that as a field: there is
none with another output id.
-/

namespace Qblock

open Wire Qt

/-- `Output_Metadata_Response::set_outputid`. -/
def setOutputid (transactionId : Bytes) (outputIndex : UInt16) : Bytes :=
  CArray.append transactionId outputIndex

/-- `Output_Metadata_Response`. -/
structure OutputMetadataResponse where
  blockId : Bytes
  transactionId : Bytes
  outputIndex : UInt16
  isSpent : Bool
  outputid : Bytes
  outputid_eq : outputid = setOutputid transactionId outputIndex
  deriving DecidableEq, Repr

namespace OutputMetadataResponse

/-- `Output_Metadata_Response(const QJsonValue&)`. -/
def ofQJsonValue (val : QJsonValue) : OutputMetadataResponse where
  blockId := ofHexValue (val.member "blockId")
  transactionId := ofHexValue (val.member "transactionId")
  outputIndex := UInt16.ofInt (val.member "outputIndex").toInteger
  isSpent := (val.member "isSpent").toBool
  outputid := setOutputid (ofHexValue (val.member "transactionId"))
    (UInt16.ofInt (val.member "outputIndex").toInteger)
  outputid_eq := rfl

def getJson (m : OutputMetadataResponse) : QJsonObject :=
  QJsonObject.empty
    |>.insert "blockId" (.string (toHexString m.blockId))
    |>.insert "transactionId" (.string (toHexString m.transactionId))
    |>.insert "outputIndex" (.ofInt m.outputIndex.toNat)
    |>.insert "isSpent" (.bool m.isSpent)
    |>.insert "outputId" (.string (toHexString m.outputid))

end OutputMetadataResponse

end Qblock
