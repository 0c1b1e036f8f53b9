import IdlBindings.Syntax.Literal.Parser
import IdlBindings.Syntax.Type

/-!
Reading types, extended attributes and arguments. Each production is written over the parsers of
its parts; the recursion between types and arguments is tied once, on a depth that the number of
tokens bounds, since a part begins at least one token later.
-/

namespace IdlBindings

open Parse

/-- The arguments between parentheses. -/
def Argument.parseListWith (argument : Parse Argument) : Parse (List Argument) := do
  expect .parenOpen "`(`"
  if ← eat .parenClose then
    return []
  else
    let args ← commaSeparated argument
    expect .parenClose "`)`"
    return args

/-- What stands after the `=` of an extended attribute. -/
def AttributeValue.parse : Parse AttributeValue := do
  if ← atKind .identifier then
    return .identifier (← readName)
  else if ← atKind .string then
    return .string (← stringContent "a string")
  else if ← atKind .integer then
    let source ← look Cursor.text
    advance
    return .integer source
  else if ← atKind .decimal then
    let source ← look Cursor.text
    advance
    return .decimal source
  else if ← eat .star then
    return .wildcard
  else if ← eat .parenOpen then
    let names ← commaSeparated readName
    expect .parenClose "`)`"
    return .identifierList names
  else
    fail .expectedValue

/-- Whether arguments may follow the value of an extended attribute. -/
def AttributeValue.allowsArguments : Option AttributeValue → Bool
  | none | some (.identifier _) => true
  | _ => false

namespace ExtendedAttribute

def parseWith (argument : Parse Argument) : Parse ExtendedAttribute := do
  let name ← readName
  let value ← if ← eat .equals then some <$> AttributeValue.parse else pure none
  if ← look fun c => AttributeValue.allowsArguments value && c.atKind .parenOpen then
    let args ← Argument.parseListWith argument
    return ⟨name, value, some args⟩
  else
    return ⟨name, value, none⟩

/-- Extended attributes in square brackets, or none. -/
def parseListWith (argument : Parse Argument) : Parse (List ExtendedAttribute) := do
  if ← eat .bracketOpen then
    let attrs ← commaSeparated (parseWith argument)
    expect .bracketClose "`]`"
    return attrs
  else
    return []

end ExtendedAttribute

/-- The types of one word that take a type between angle brackets. -/
def IdlType.wrapper? (word : String) : Option (IdlType → IdlType) :=
  match word with
  | "sequence" => some .sequence
  | "FrozenArray" => some .frozenArray
  | "ObservableArray" => some .observableArray
  | "Promise" => some .promise
  | _ => none

/-- Whether a type can be the key of a record. -/
def IdlType.isRecordKey (type : IdlType) : Bool :=
  match type.unannotated with
  | .primitive p => p.isString
  | _ => false

namespace IdlType

/-- A type in angle brackets. -/
def parseWrappedWith (type : Parse IdlType) : Parse IdlType := do
  expect .angleOpen "`<`"
  let item ← type
  expect .angleClose "`>`"
  return item

/-- The part of a record type after its name. -/
def parseRecordWith (type : Parse IdlType) : Parse IdlType := do
  expect .angleOpen "`<`"
  let first ← start
  let key ← type
  if key.isRecordKey then
    expect .comma "`,`"
    let value ← type
    expect .angleClose "`>`"
    return .record key value
  else
    failAt .invalidRecordKey (← spanFrom first) key.text

/-- The part of an unsigned integer type after `unsigned`. -/
def parseUnsigned : Parse IdlType := do
  if ← eatWord "short" then
    return .primitive .unsignedShort
  else
    expectWord "long"
    if ← eatWord "long" then
      return .primitive .unsignedLongLong
    else
      return .primitive .unsignedLong

/-- The part of an unrestricted type after `unrestricted`. -/
def parseUnrestricted : Parse IdlType := do
  if ← eatWord "float" then
    return .primitive .unrestrictedFloat
  else
    expectWord "double"
    return .primitive .unrestrictedDouble

/-- The part of a long integer type after `long`. -/
def parseLong : Parse IdlType := do
  if ← eatWord "long" then
    return .primitive .longLong
  else
    return .primitive .long

/-- A type that is not a union, without its attributes and its `?`. -/
def parseSingleWith (type : Parse IdlType) : Parse IdlType := do
  if ← atKind .identifier then
    let word ← look Cursor.text
    match wrapper? word with
    | some wrap =>
      advance
      return wrap (← parseWrappedWith type)
    | none =>
      match word with
      | "any" =>
        advance
        return .any
      | "record" =>
        advance
        parseRecordWith type
      | "unsigned" =>
        advance
        parseUnsigned
      | "unrestricted" =>
        advance
        parseUnrestricted
      | "long" =>
        advance
        parseLong
      | _ =>
        match Primitive.ofWord? word with
        | some p =>
          advance
          return .primitive p
        | none => return .named (← readName)
  else
    fail .expectedType

/-- Two or more types in parentheses with `or` between. -/
def parseUnionWith (type : Parse IdlType) : Parse IdlType := do
  expect .parenOpen "`(`"
  let first ← type
  let rest ← repeatWhile (eatWord "or") type
  if rest.isEmpty then
    unexpected "`or`"
  else
    expect .parenClose "`)`"
    return .union (first :: rest)

/-- A type with the extended attributes before it and the `?` after it. -/
def parseWith (type : Parse IdlType) (argument : Parse Argument) : Parse IdlType := do
  let extAttrs ← ExtendedAttribute.parseListWith argument
  let bare ← if ← atKind .parenOpen then parseUnionWith type else parseSingleWith type
  let inner := if ← eat .question then .nullable bare else bare
  return if extAttrs.isEmpty then inner else .annotated extAttrs inner

end IdlType

/-- An argument. Only an optional one has a default, and only another one is variadic. -/
def Argument.parseWith (type : Parse IdlType) (argument : Parse Argument) : Parse Argument := do
  let extAttrs ← ExtendedAttribute.parseListWith argument
  if ← eatWord "optional" then
    let type ← type
    let name ← readName
    let default ← if ← eat .equals then some <$> DefaultValue.parse else pure none
    return ⟨name, type, true, false, default, extAttrs⟩
  else
    let type ← type
    let isVariadic ← eat .ellipsis
    let name ← readName
    return ⟨name, type, false, isVariadic, none, extAttrs⟩

mutual

/-- A type with parts nested less than `depth` deep. -/
def IdlType.parseAt (depth : Nat) (c : Cursor) : Except Diagnostic (IdlType × Cursor) :=
  match depth with
  | 0 => fail .expectedType c
  | depth + 1 => IdlType.parseWith (IdlType.parseAt depth) (Argument.parseAt depth) c

/-- An argument with parts nested less than `depth` deep. -/
def Argument.parseAt (depth : Nat) (c : Cursor) : Except Diagnostic (Argument × Cursor) :=
  match depth with
  | 0 => fail .expectedType c
  | depth + 1 =>
    Argument.parseWith
      (IdlType.parseWith (IdlType.parseAt depth) (Argument.parseAt depth))
      (Argument.parseAt depth) c

end

/-- Read a type. -/
def IdlType.parse : Parse IdlType := fun c => IdlType.parseAt (c.rest.length + 1) c

/-- Read an argument. -/
def Argument.parse : Parse Argument := fun c => Argument.parseAt (c.rest.length + 1) c

/-- Read the arguments between parentheses. -/
def Argument.parseList : Parse (List Argument) := Argument.parseListWith Argument.parse

/-- Read extended attributes in square brackets, or none. -/
def ExtendedAttribute.parseList : Parse (List ExtendedAttribute) :=
  ExtendedAttribute.parseListWith Argument.parse

end IdlBindings
