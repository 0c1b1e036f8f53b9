/-! JSON values with ordered keys, and their text with one entry on a line. -/

namespace IdlBindings

inductive JsonValue where
  | null
  | bool (value : Bool)
  | number (value : Nat)
  | string (value : String)
  | array (items : List JsonValue)
  | object (entries : List (String × JsonValue))

namespace JsonValue

variable {α : Type}

/-- A value that may be left out. -/
def ofOption (encode : α → JsonValue) : Option α → JsonValue
  | some a => encode a
  | none => .null

def ofList (encode : α → JsonValue) (items : List α) : JsonValue :=
  .array (items.map encode)

/-- The hexadecimal digit of a number below 16. -/
def hexDigit (n : Nat) : Char :=
  if n < 10 then Char.ofNat ('0'.toNat + n) else Char.ofNat ('a'.toNat + (n - 10))

/-- A character inside a JSON string. -/
def escape (c : Char) : List Char :=
  match c with
  | '"' => ['\\', '"']
  | '\\' => ['\\', '\\']
  | '\x08' => ['\\', 'b']
  | '\x0c' => ['\\', 'f']
  | '\n' => ['\\', 'n']
  | '\r' => ['\\', 'r']
  | '\t' => ['\\', 't']
  | _ =>
    if c.toNat < 0x20 then ['\\', 'u', '0', '0', hexDigit (c.toNat / 16), hexDigit (c.toNat % 16)]
    else [c]

/-- A string with its quotes. -/
def quoted (text : String) : String :=
  "\"" ++ String.ofList (text.toList.flatMap escape) ++ "\""

/-- Two spaces for each level. -/
def pad (level : Nat) : String :=
  "".pushn ' ' (2 * level)

mutual

/-- The text of a value that starts at this level of nesting. -/
def textAt (level : Nat) : JsonValue → String
  | .null => "null"
  | .bool value => if value then "true" else "false"
  | .number value => toString value
  | .string value => quoted value
  | .array [] => "[]"
  | .array items =>
    "[\n" ++ ",\n".intercalate (itemLines (level + 1) items) ++ "\n" ++ pad level ++ "]"
  | .object [] => "\x7b\x7d"
  | .object entries =>
    "\x7b\n" ++ ",\n".intercalate (entryLines (level + 1) entries) ++ "\n" ++ pad level ++ "\x7d"

def itemLines (level : Nat) : List JsonValue → List String
  | [] => []
  | item :: rest => (pad level ++ item.textAt level) :: itemLines level rest

def entryLines (level : Nat) : List (String × JsonValue) → List String
  | [] => []
  | (key, value) :: rest =>
    (pad level ++ quoted key ++ ": " ++ value.textAt level) :: entryLines level rest

end

/-- The text of a value, without a final line break. -/
def text (value : JsonValue) : String :=
  value.textAt 0

end JsonValue

end IdlBindings
