/-! The built-in types: their spelling, and the families that are mapped alike. -/

namespace IdlBindings

inductive Primitive where
  | undefined
  | boolean
  | byte
  | octet
  | short
  | unsignedShort
  | long
  | unsignedLong
  | longLong
  | unsignedLongLong
  | float
  | unrestrictedFloat
  | double
  | unrestrictedDouble
  | bigint
  | domString
  | usvString
  | byteString
  | object
  | symbol
  | arrayBuffer
  | sharedArrayBuffer
  | dataView
  | int8Array
  | int16Array
  | int32Array
  | uint8Array
  | uint16Array
  | uint32Array
  | uint8ClampedArray
  | bigInt64Array
  | bigUint64Array
  | float16Array
  | float32Array
  | float64Array
  deriving DecidableEq, Repr

namespace Primitive

/-- The words that name a built-in type. -/
def words : Primitive → List String
  | .undefined => ["undefined"]
  | .boolean => ["boolean"]
  | .byte => ["byte"]
  | .octet => ["octet"]
  | .short => ["short"]
  | .unsignedShort => ["unsigned", "short"]
  | .long => ["long"]
  | .unsignedLong => ["unsigned", "long"]
  | .longLong => ["long", "long"]
  | .unsignedLongLong => ["unsigned", "long", "long"]
  | .float => ["float"]
  | .unrestrictedFloat => ["unrestricted", "float"]
  | .double => ["double"]
  | .unrestrictedDouble => ["unrestricted", "double"]
  | .bigint => ["bigint"]
  | .domString => ["DOMString"]
  | .usvString => ["USVString"]
  | .byteString => ["ByteString"]
  | .object => ["object"]
  | .symbol => ["symbol"]
  | .arrayBuffer => ["ArrayBuffer"]
  | .sharedArrayBuffer => ["SharedArrayBuffer"]
  | .dataView => ["DataView"]
  | .int8Array => ["Int8Array"]
  | .int16Array => ["Int16Array"]
  | .int32Array => ["Int32Array"]
  | .uint8Array => ["Uint8Array"]
  | .uint16Array => ["Uint16Array"]
  | .uint32Array => ["Uint32Array"]
  | .uint8ClampedArray => ["Uint8ClampedArray"]
  | .bigInt64Array => ["BigInt64Array"]
  | .bigUint64Array => ["BigUint64Array"]
  | .float16Array => ["Float16Array"]
  | .float32Array => ["Float32Array"]
  | .float64Array => ["Float64Array"]

/-- The spelling, with one space between words. -/
def text (p : Primitive) : String :=
  " ".intercalate p.words

/-- The built-in types of one word. -/
def singleWords : List Primitive :=
  [.undefined, .boolean, .byte, .octet, .short, .long, .float, .double, .bigint, .domString,
    .usvString, .byteString, .object, .symbol, .arrayBuffer, .sharedArrayBuffer, .dataView,
    .int8Array, .int16Array, .int32Array, .uint8Array, .uint16Array, .uint32Array,
    .uint8ClampedArray, .bigInt64Array, .bigUint64Array, .float16Array, .float32Array,
    .float64Array]

/-- The built-in type that one word names; `void` is the old name of `undefined`. -/
def ofWord? (word : String) : Option Primitive :=
  if word = "void" then some .undefined
  else singleWords.find? fun p => p.words == [word]

def isString : Primitive → Bool
  | .domString | .usvString | .byteString => true
  | _ => false

/-- The integer and floating-point types, `bigint` apart. -/
def isNumeric : Primitive → Bool
  | .byte | .octet | .short | .unsignedShort | .long | .unsignedLong | .longLong
  | .unsignedLongLong | .float | .unrestrictedFloat | .double | .unrestrictedDouble => true
  | _ => false

/-- The buffers, the data view and the typed arrays. -/
def isBuffer : Primitive → Bool
  | .arrayBuffer | .sharedArrayBuffer | .dataView | .int8Array | .int16Array | .int32Array
  | .uint8Array | .uint16Array | .uint32Array | .uint8ClampedArray | .bigInt64Array
  | .bigUint64Array | .float16Array | .float32Array | .float64Array => true
  | _ => false

end Primitive

end IdlBindings
