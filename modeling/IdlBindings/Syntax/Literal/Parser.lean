import IdlBindings.Syntax.Literal
import IdlBindings.Token.Cursor

/-! Reading the values of constants and defaults. -/

namespace IdlBindings

open Parse

/-- The value that a word means. -/
def ConstValue.ofWord? (word : String) : Option ConstValue :=
  match word with
  | "true" => some (.boolean true)
  | "false" => some (.boolean false)
  | "Infinity" => some .infinity
  | "-Infinity" => some .negativeInfinity
  | "NaN" => some .notANumber
  | _ => none

/-- The value that the tokens at the cursor begin with, and the cursor after it. -/
def ConstValue.next? (c : Cursor) : Option (ConstValue × Cursor) :=
  if c.atKind .integer then some (.integer c.text, c.advance)
  else if c.atKind .decimal then some (.decimal c.text, c.advance)
  else if c.atKind .identifier then
    (ConstValue.ofWord? c.text).map fun value => (value, c.advance)
  else if c.atKind .minus && c.beforeWord "Infinity" then
    some (.negativeInfinity, c.advance.advance)
  else none

def ConstValue.parse : Parse ConstValue := fun c =>
  match ConstValue.next? c with
  | some next => .ok next
  | none => fail .expectedValue c

def DefaultValue.parse : Parse DefaultValue := do
  if ← atKind .string then
    return .string (← stringContent "a string")
  else if ← eat .bracketOpen then
    expect .bracketClose "`]`"
    return .emptySequence
  else if ← eat .braceOpen then
    expect .braceClose "`\x7d`"
    return .emptyDictionary
  else if ← eatWord "null" then
    return .null
  else if ← eatWord "undefined" then
    return .undefined
  else
    return .const (← ConstValue.parse)

end IdlBindings
