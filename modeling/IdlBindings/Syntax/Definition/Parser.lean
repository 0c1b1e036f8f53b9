import IdlBindings.Markup.Fragment
import IdlBindings.Syntax.Definition
import IdlBindings.Syntax.Member.Parser
import IdlBindings.Token.Lexer

/-!
Reading definitions: one, all those of a text, and those of the fragments of a document. Reading a
text stops at its first fault; each fragment is read whatever the others hold.
-/

namespace IdlBindings

open Parse

/-- Read the words that make a container of a partial definition. -/
def ContainerKind.parsePartial? : Parse (Option ContainerKind) := do
  if ← eatWord "interface" then
    if ← eatWord "mixin" then
      return some .mixin
    else
      return some .interface
  else if ← eatWord "dictionary" then
    return some .dictionary
  else if ← eatWord "namespace" then
    return some .nameSpace
  else
    return none

/-- A named definition without what stands around it. -/
abbrev NamedBody := String × DefinitionBody

namespace DefinitionBody

/-- The part of a container after its keyword. -/
def parseContainer (kind : ContainerKind) (isPartial : Bool) : Parse NamedBody := do
  let name ← readName
  let hasParent ← eatIf (kind.allowsParent && !isPartial) .colon
  let parent ← if hasParent then some <$> readName else pure none
  let brace ← look Cursor.span
  expect .braceOpen "`\x7b`"
  let members ← repeatWhile (look fun c => !c.atKind .braceClose && !c.rest.isEmpty)
    (Member.parse (kind == .dictionary))
  if ← atEnd then
    failAt .unclosedBrace brace ("`" ++ name ++ "` body")
  else
    expect .braceClose "`\x7d`"
    semicolon
    return (name, .container ⟨kind, isPartial, parent, members⟩)

/-- At most `limit` enumeration values with commas between and perhaps one after. -/
def parseValues (unclosed : Parse (List String)) : Nat → Parse (List String)
  | 0 => pure []
  | limit + 1 => do
    if ← atKind .braceClose then
      return []
    else if ← atEnd then
      unclosed
    else
      let value ← stringContent "an enum value string"
      if ← eat .comma then
        let rest ← parseValues unclosed limit
        return value :: rest
      else
        return [value]

/-- The part of an enumeration after its keyword. -/
def parseEnumeration : Parse NamedBody := do
  let name ← readName
  let brace ← look Cursor.span
  expect .braceOpen "`\x7b`"
  let limit ← look fun c => c.rest.length + 1
  let values ← parseValues (failAt .unclosedBrace brace ("`" ++ name ++ "` values")) limit
  expect .braceClose "`\x7d`"
  semicolon
  return (name, .enumeration values)

/-- The part of a type definition after its keyword. -/
def parseTypedef : Parse NamedBody := do
  let type ← IdlType.parse
  let name ← readName
  semicolon
  return (name, .typedef type)

/-- The part of a callback function after its keyword. -/
def parseCallback : Parse NamedBody := do
  let name ← readName
  expect .equals "`=`"
  let result ← IdlType.parse
  let args ← Argument.parseList
  semicolon
  return (name, .callback result args)

/-- An includes statement. -/
def parseIncludes : Parse NamedBody := do
  let target ← readName
  expectWord "includes"
  let mixin ← readName
  semicolon
  return (target, .includes mixin)

/-- A definition after its extended attributes. -/
def parse : Parse NamedBody := do
  if ← eatWord "callback" then
    if ← eatWord "interface" then
      parseContainer .callbackInterface false
    else
      parseCallback
  else if ← eatWord "interface" then
    if ← eatWord "mixin" then
      parseContainer .mixin false
    else
      parseContainer .interface false
  else if ← eatWord "partial" then
    match ← ContainerKind.parsePartial? with
    | some kind => parseContainer kind true
    | none => fail .unknownDefinition
  else if ← eatWord "dictionary" then
    parseContainer .dictionary false
  else if ← eatWord "namespace" then
    parseContainer .nameSpace false
  else if ← eatWord "enum" then
    parseEnumeration
  else if ← eatWord "typedef" then
    parseTypedef
  else if ← look fun c => c.atKind .identifier && c.beforeWord "includes" then
    parseIncludes
  else
    fail .unknownDefinition

end DefinitionBody

namespace Definition

/-- Read a definition. -/
def parse : Parse Definition := do
  let first ← start
  let extAttrs ← ExtendedAttribute.parseList
  let (name, body) ← DefinitionBody.parse
  return ⟨name, body, extAttrs, ← spanFrom first⟩

/-- Read definitions up to the end. -/
def parseAll : Parse (List Definition) :=
  repeatWhile (look fun c => !c.rest.isEmpty) parse

/-- The definitions of a text whose first byte is byte `base` of the document. -/
def ofSource (source : String) (base : Nat) : Except Diagnostic (List Definition) :=
  let tokens := Token.significant (Token.lex source base)
  (parseAll ⟨tokens, base, base + byteLength source.toList⟩).map Prod.fst

/-- The definitions of a text whose first byte is byte `base` of the document, with their places as
stored. -/
def parseAt (source : String) (base : UInt32) : Except Diagnostic (List Definition) :=
  let tokens := Token.significant (Token.lexAt source base)
  (parseAll ⟨tokens, base.toNat, storedPlace base (byteLength source.toList)⟩).map Prod.fst

/-- The definitions of all fragments, or one diagnostic for each fragment that cannot be read. -/
def ofFragments : List Fragment → Except (List Diagnostic) (List Definition)
  | [] => .ok []
  | fragment :: rest =>
    match ofSource fragment.text fragment.offset, ofFragments rest with
    | .ok definitions, .ok others => .ok (definitions ++ others)
    | .ok _, .error diagnostics => .error diagnostics
    | .error diagnostic, .ok _ => .error [diagnostic]
    | .error diagnostic, .error diagnostics => .error (diagnostic :: diagnostics)

end Definition

end IdlBindings
