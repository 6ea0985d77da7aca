import Mathlib.Algebra.Group.Int.Defs

namespace NetTables.Spec

/-- `FrcType`; a struct type is known by its `type_str`. -/
inductive FrcType where
  | boolean
  | double
  | int
  | float
  | string
  | raw
  | void
  | struct (typeStr : String)
  | structArray (typeStr : String)
  | booleanArray
  | doubleArray
  | intArray
  | floatArray
  | stringArray
  deriving DecidableEq

namespace FrcType

def asU8 : FrcType → UInt8
  | boolean => 0
  | double => 1
  | int => 2
  | float => 3
  | string => 4
  | raw | void | struct _ | structArray _ => 5
  | booleanArray => 16
  | doubleArray => 17
  | intArray => 18
  | floatArray => 19
  | stringArray => 20

def stringify : FrcType → String
  | boolean => "boolean"
  | double => "double"
  | int => "int"
  | float => "float"
  | string => "string"
  | raw | void => "raw"
  | struct typeStr => typeStr
  | structArray typeStr => typeStr ++ "[]"
  | booleanArray => "boolean[]"
  | doubleArray => "double[]"
  | intArray => "int[]"
  | floatArray => "float[]"
  | stringArray => "string[]"

end FrcType

/-- `rmpv::Value`; an `Integer` holds an `i64` or a `u64`, floats are kept by their bits. -/
inductive Value where
  | nil
  | boolean (b : Bool)
  | integer (i : Int)
  | f32 (bits : UInt32)
  | f64 (bits : UInt64)
  | string (bytes : List UInt8)
  | binary (bytes : List UInt8)
  | array (items : List Value)
  | map (items : List (Value × Value))
  | ext (type : Int8) (bytes : List UInt8)

/-- `Value::as_u64`. -/
def Value.asU64 : Value → Option UInt64
  | .integer i => if 0 ≤ i ∧ i < 2 ^ 64 then some (UInt64.ofNat i.toNat) else none
  | _ => none

/-- An `FrcValue` by what the crate reads of it: `get_type` and its conversion to `rmpv::Value`. -/
structure FrcValue where
  getType : FrcType
  payload : Value

structure FrcTimestampedValue where
  timestamp : UInt64
  value : FrcValue

/-- The functions of `rmp::encode` and `rmpv::encode` that write a value message;
none of them fails on a `Vec<u8>`. -/
structure RmpEncode where
  writeArrayLen : UInt32 → List UInt8
  writeI32 : Int32 → List UInt8
  writeUint : UInt64 → List UInt8
  writeU8 : UInt8 → List UInt8
  writeValue : Value → List UInt8

/-- `rmp_serde::decode::from_read` of a value: the value and what is left to read, which is less
than before. -/
structure RmpDecode where
  fromRead : List UInt8 → Option (Value × List UInt8)
  length_lt : ∀ bytes v rest, fromRead bytes = some (v, rest) → rest.length < bytes.length

namespace FrcTimestampedValue

def asBytes (rmp : RmpEncode) (v : FrcTimestampedValue) (topicId : Int32) : List UInt8 :=
  rmp.writeArrayLen 4 ++ rmp.writeI32 topicId ++ rmp.writeUint v.timestamp ++
    rmp.writeU8 v.value.getType.asU8 ++ rmp.writeValue v.value.payload

def replaceInplace (_ other : FrcTimestampedValue) : FrcTimestampedValue :=
  ⟨other.timestamp, other.value⟩

end FrcTimestampedValue

end NetTables.Spec
