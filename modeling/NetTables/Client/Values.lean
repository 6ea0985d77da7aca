import NetTables.Spec.MsgPack

namespace NetTables.Client

open Spec

/-- The id of a value message; the client's clock goes under −1. -/
inductive UnsignedIntOrNegativeOne where
  | negativeOne
  | unsignedInt (uInt : UInt32)
  deriving DecidableEq

def UnsignedIntOrNegativeOne.writeToBuf (rmp : ClientRmp) : UnsignedIntOrNegativeOne → List UInt8
  | .negativeOne => rmp.writeI32 (-1)
  | .unsignedInt uInt => rmp.writeU32 uInt

/-- What `publish_value_w_timestamp` puts on the socket channel. -/
def publishValueWTimestamp (rmp : ClientRmp) (id : UnsignedIntOrNegativeOne) (type : FrcType)
    (timestamp : UInt32) (value : Value) : List UInt8 :=
  rmp.writeArrayLen 4 ++ id.writeToBuf rmp ++ rmp.writeUint timestamp.toUInt64 ++
    rmp.writeU8 type.asU8 ++ rmp.writeValue value

/-- `publish_value`, called when `server_time()` is this. -/
def publishValue (rmp : ClientRmp) (id : UnsignedIntOrNegativeOne) (type : FrcType)
    (serverTime : UInt64) (value : Value) : List UInt8 :=
  publishValueWTimestamp rmp id type serverTime.toUInt32 value

/-- The timestamp is what is left of the time in 32 bits. -/
theorem publishValue_eq (rmp : ClientRmp) (pubuid : UInt32) (type : FrcType) (serverTime : UInt64)
    (value : Value) :
    publishValue rmp (.unsignedInt pubuid) type serverTime value =
      rmp.valueBytes pubuid serverTime.toUInt32.toUInt64 type.asU8 value := rfl

end NetTables.Client
