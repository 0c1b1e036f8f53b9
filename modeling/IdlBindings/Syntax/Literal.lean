/-!
Literal values. A number keeps its source text; `ConstValue.integer?` is what an integer literal
means, when that fits in a signed word of 128 bits.
-/

namespace IdlBindings

inductive ConstValue where
  | boolean (value : Bool)
  /-- A decimal, hexadecimal or octal integer, as written. -/
  | integer (source : String)
  /-- A number with a point or an exponent, as written. -/
  | decimal (source : String)
  | infinity
  | negativeInfinity
  | notANumber
  deriving DecidableEq, Repr

/-- The value of an argument or a dictionary member that is left out. -/
inductive DefaultValue where
  | const (value : ConstValue)
  | string (content : String)
  | emptySequence
  | emptyDictionary
  | null
  | undefined
  deriving DecidableEq, Repr

namespace Numeral

/-- The value of a digit in a radix up to 16. -/
def digit? (radix : Nat) (c : Char) : Option Nat :=
  let value :=
    if '0' ≤ c ∧ c ≤ '9' then c.toNat - '0'.toNat
    else if 'a' ≤ c ∧ c ≤ 'f' then c.toNat - 'a'.toNat + 10
    else if 'A' ≤ c ∧ c ≤ 'F' then c.toNat - 'A'.toNat + 10
    else radix
  if value < radix then some value else none

/-- The number that the digits continue, from the value of those before them. -/
def digitsFrom? (radix : Nat) : Nat → List Char → Option Nat
  | value, [] => some value
  | value, c :: cs =>
    match digit? radix c with
    | some d => digitsFrom? radix (value * radix + d) cs
    | none => none

/-- The number that one or more digits write. -/
def digits? (radix : Nat) (cs : List Char) : Option Nat :=
  if cs.isEmpty then none else digitsFrom? radix 0 cs

/-- The number that digits with an optional sign write. -/
def signed? (radix : Nat) : List Char → Option Int
  | '+' :: cs => (digits? radix cs).map Int.ofNat
  | '-' :: cs => (digits? radix cs).map fun n => -Int.ofNat n
  | cs => (digits? radix cs).map Int.ofNat

/-- The value itself if it fits in a signed word of 128 bits. -/
def inWord? (value : Int) : Option Int :=
  if -Int.pow 2 127 ≤ value ∧ value < Int.pow 2 127 then some value else none

/-- The number that the text after a sign writes: hexadecimal after `0x`, octal after a `0` that is
not alone, otherwise decimal. -/
def magnitude? : List Char → Option Int
  | '0' :: 'x' :: cs | '0' :: 'X' :: cs => (signed? 16 cs).bind inWord?
  | '0' :: c :: cs => (signed? 8 (c :: cs)).bind inWord?
  | cs => (signed? 10 cs).bind inWord?

end Numeral

namespace ConstValue

/-- The value of an integer literal; `none` for any other literal and outside the word. -/
def integer? : ConstValue → Option Int
  | .integer source =>
    match source.toList with
    | '-' :: cs => (Numeral.magnitude? cs).map (- ·)
    | cs => Numeral.magnitude? cs
  | _ => none

def text : ConstValue → String
  | .boolean value => if value then "true" else "false"
  | .integer source | .decimal source => source
  | .infinity => "Infinity"
  | .negativeInfinity => "-Infinity"
  | .notANumber => "NaN"

end ConstValue

def DefaultValue.text : DefaultValue → String
  | .const value => value.text
  | .string content => "\"" ++ content ++ "\""
  | .emptySequence => "[]"
  | .emptyDictionary => "\x7b\x7d"
  | .null => "null"
  | .undefined => "undefined"

end IdlBindings
