import IdlBindings.Syntax.Member
import IdlBindings.Syntax.Type.Parser

/-! Reading the members of interfaces, mixins, dictionaries and namespaces. -/

namespace IdlBindings

open Parse

/-- Read the `;` that ends a member or a definition. -/
def Parse.semicolon : Parse Unit := expect .semicolon "`;`"

/-- The words of which one may stand first in a member. -/
inductive Qualifier where
  | static
  | stringifier
  | inherit
  deriving DecidableEq, Repr

/-- Read the first qualifier of a member. -/
def Qualifier.parse? : Parse (Option Qualifier) := do
  if ← eatWord "static" then
    return some .static
  else if ← eatWord "stringifier" then
    return some .stringifier
  else if ← eatWord "inherit" then
    return some .inherit
  else
    return none

/-- Read a special role before an operation. -/
def Special.parse? : Parse (Option Special) := do
  if ← eatWord "getter" then
    return some .getter
  else if ← eatWord "setter" then
    return some .setter
  else if ← eatWord "deleter" then
    return some .deleter
  else
    return none

/-- Read the words that begin an iteration. -/
def IterationKind.parse : Parse IterationKind := do
  if ← eatWord "iterable" then
    return .iterable
  else if ← eatWord "async" then
    expectWord "iterable"
    return .asyncIterable
  else if ← eatWord "maplike" then
    return .maplike
  else
    expectWord "setlike"
    return .setlike

/-- Whether the words at the cursor begin an iteration. -/
def Cursor.atIteration (c : Cursor) : Bool :=
  c.atWord "iterable" || c.atWord "maplike" || c.atWord "setlike"
    || (c.atWord "async" && c.beforeWord "iterable")

namespace MemberBody

/-- The part of a constant after `const`. -/
def parseConst : Parse MemberBody := do
  let type ← IdlType.parse
  let name ← readName
  expect .equals "`=`"
  let value ← ConstValue.parse
  semicolon
  return .const name type value

/-- The part of a constructor after `constructor`. -/
def parseConstructor : Parse MemberBody := do
  let args ← Argument.parseList
  semicolon
  return .constructor args

/-- The part of an attribute after `attribute`. -/
def parseAttribute (qualifier : Option Qualifier) (isReadonly : Bool) : Parse MemberBody := do
  let type ← IdlType.parse
  let name ← readName
  semicolon
  return .attribute ⟨name, type, isReadonly, qualifier == some .static,
    qualifier == some .inherit, qualifier == some .stringifier⟩

/-- An operation after its qualifiers. One without a special role has a name. -/
def parseOperation (isStatic : Bool) (special : Option Special) : Parse MemberBody := do
  let result ← IdlType.parse
  let name ← if ← atKind .identifier then some <$> readName else pure none
  if name.isNone && special.isNone then
    fail .expectedIdentifier
  else
    let args ← Argument.parseList
    semicolon
    return .operation ⟨name, result, args, isStatic, special⟩

/-- The types of an iteration: maps have a key and a value, sets a value, and the others a value with
or without a key. -/
def parseIterationTypes (kind : IterationKind) : Parse (Option IdlType × IdlType) := do
  let first ← IdlType.parse
  match kind with
  | .maplike =>
    expect .comma "`,`"
    return (some first, ← IdlType.parse)
  | .setlike => return (none, first)
  | .iterable | .asyncIterable =>
    if ← eat .comma then
      return (some first, ← IdlType.parse)
    else
      return (none, first)

/-- An iteration after its qualifiers. -/
def parseIteration (isReadonly : Bool) : Parse MemberBody := do
  let kind ← IterationKind.parse
  expect .angleOpen "`<`"
  let (key, value) ← parseIterationTypes kind
  expect .angleClose "`>`"
  let hasArgs ← look fun c => kind == .asyncIterable && c.atKind .parenOpen
  let args ← if hasArgs then Argument.parseList else pure []
  semicolon
  return .iteration ⟨kind, isReadonly, key, value, args⟩

/-- The part of a member after `readonly`, if it has that, and the qualifier. -/
def parseQualified (qualifier : Option Qualifier) (isReadonly : Bool) : Parse MemberBody := do
  if ← eatWord "attribute" then
    parseAttribute qualifier isReadonly
  else if isReadonly || qualifier == some .inherit then
    unexpected "`attribute`"
  else if ← look Cursor.atIteration then
    parseIteration false
  else if qualifier == some .stringifier then
    parseOperation false (some .stringifier)
  else
    let special ← Special.parse?
    parseOperation (qualifier == some .static) special

/-- A member of an interface, a mixin or a namespace. -/
def parse : Parse MemberBody := do
  if ← eatWord "const" then
    parseConst
  else if ← look fun c => c.atWord "constructor" && c.beforeKind .parenOpen then
    advance
    parseConstructor
  else
    let qualifier ← Qualifier.parse?
    if ← eatIf (qualifier == some .stringifier) .semicolon then
      return .stringifier
    else if ← eatWord "readonly" then
      if ← look fun c => c.atWord "maplike" || c.atWord "setlike" then
        parseIteration true
      else
        parseQualified qualifier true
    else
      parseQualified qualifier false

/-- A member of a dictionary. -/
def parseField : Parse MemberBody := do
  let isRequired ← eatWord "required"
  let type ← IdlType.parse
  let name ← readName
  let default ← if ← eat .equals then some <$> DefaultValue.parse else pure none
  semicolon
  return .field ⟨name, type, isRequired, default⟩

end MemberBody

/-- Read a member; dictionaries have fields. -/
def Member.parse (inDictionary : Bool) : Parse Member := do
  let first ← start
  let extAttrs ← ExtendedAttribute.parseList
  let body ← if inDictionary then MemberBody.parseField else MemberBody.parse
  return ⟨body, extAttrs, ← spanFrom first⟩

end IdlBindings
