import IdlBindings.Diagnostic
import IdlBindings.Token

/-!
Reading tokens from left to right. A parser takes a cursor and gives a value with the cursor after
it, or the one diagnostic that stops it.
-/

namespace IdlBindings

/-- A place in the significant tokens of a text. -/
structure Cursor where
  rest : List Token
  /-- Where the last token read ends. -/
  lastEnd : Nat
  /-- Where the text ends. -/
  eof : Nat

namespace Cursor

/-- The place of the next token; at the end, the empty place there. -/
def span (c : Cursor) : Span :=
  match c.rest with
  | token :: _ => token.span
  | [] => ⟨c.eof, c.eof⟩

/-- What stands at the cursor, for messages. -/
def found (c : Cursor) : String :=
  match c.rest with
  | token :: _ => "found `" ++ token.text ++ "`"
  | [] => "found end of block"

/-- Whether the next token is of this kind. -/
def atKind (c : Cursor) (kind : TokenKind) : Bool :=
  match c.rest with
  | token :: _ => token.kind == kind
  | [] => false

/-- Whether the token after the next one is of this kind. -/
def beforeKind (c : Cursor) (kind : TokenKind) : Bool :=
  match c.rest with
  | _ :: token :: _ => token.kind == kind
  | _ => false

/-- Whether a token is this word; an escaped identifier never is. -/
def isWord (token : Token) (word : String) : Bool :=
  token.kind == .identifier && token.text == word

def atWord (c : Cursor) (word : String) : Bool :=
  match c.rest with
  | token :: _ => isWord token word
  | [] => false

def beforeWord (c : Cursor) (word : String) : Bool :=
  match c.rest with
  | _ :: token :: _ => isWord token word
  | _ => false

/-- The text of the next token. -/
def text (c : Cursor) : String :=
  match c.rest with
  | token :: _ => token.text
  | [] => ""

/-- Past the next token. -/
def advance (c : Cursor) : Cursor :=
  match c.rest with
  | token :: rest => { c with rest, lastEnd := token.span.stop }
  | [] => c

end Cursor

abbrev Parse := StateT Cursor (Except Diagnostic)

namespace Parse

variable {α : Type}

/-- Look at the cursor. -/
def look (f : Cursor → α) : Parse α := fun c => .ok (f c, c)

def advance : Parse Unit := fun c => .ok ((), c.advance)

/-- Stop with a fault at a given place. -/
def failAt (kind : FaultKind) (span : Span) (detail : String) : Parse α := fun _ =>
  .error (.report kind span detail)

/-- Stop with a fault at the next token. -/
def fail (kind : FaultKind) : Parse α := fun c =>
  .error (.report kind c.span c.found)

/-- Stop where something else was expected. -/
def unexpected (what : String) : Parse α := fun c =>
  .error (.report .unexpectedToken c.span (what ++ ", " ++ c.found))

/-- Where the next token begins. -/
def start : Parse Nat := look fun c => c.span.start

/-- The place from byte `first` to the last token read. -/
def spanFrom (first : Nat) : Parse Span := look fun c => ⟨first, max c.lastEnd first⟩

def atEnd : Parse Bool := look fun c => c.rest.isEmpty

def atKind (kind : TokenKind) : Parse Bool := look fun c => c.atKind kind

def atWord (word : String) : Parse Bool := look fun c => c.atWord word

/-- Read a token of this kind, if it is next. -/
def eat (kind : TokenKind) : Parse Bool := fun c =>
  if c.atKind kind then .ok (true, c.advance) else .ok (false, c)

/-- Read a token of this kind, if it is next and allowed. -/
def eatIf (allowed : Bool) (kind : TokenKind) : Parse Bool :=
  if allowed then eat kind else pure false

/-- Read this word, if it is next. -/
def eatWord (word : String) : Parse Bool := fun c =>
  if c.atWord word then .ok (true, c.advance) else .ok (false, c)

/-- Read a token of this kind, which has to be next. -/
def expect (kind : TokenKind) (what : String) : Parse Unit := fun c =>
  if c.atKind kind then .ok ((), c.advance) else unexpected what c

/-- Read this word, which has to be next. -/
def expectWord (word : String) : Parse Unit := fun c =>
  if c.atWord word then .ok ((), c.advance) else unexpected ("`" ++ word ++ "`") c

/-- A name without the `_` that escapes it. -/
def unescape (text : String) : String :=
  match text.toList with
  | '_' :: name => String.ofList name
  | _ => text

/-- Read a name. -/
def readName : Parse String := fun c =>
  if c.atKind .identifier then .ok (unescape c.text, c.advance)
  else fail .expectedIdentifier c

/-- A string without its quotes. -/
def unquote (text : String) : String :=
  String.ofList (text.toList.drop 1).dropLast

/-- Read a string, which has to be next. -/
def stringContent (what : String) : Parse String := fun c =>
  if c.atKind .string then .ok (unquote c.text, c.advance) else unexpected what c

/-- Read items for as long as `more` says, at most `limit` of them. -/
def repeatUpTo (more : Parse Bool) (item : Parse α) : Nat → Parse (List α)
  | 0 => pure []
  | limit + 1 => do
    if ← more then
      let first ← item
      let rest ← repeatUpTo more item limit
      return first :: rest
    else
      return []

/-- Read items for as long as `more` says. Each round reads a token, so their number bounds the
rounds. -/
def repeatWhile (more : Parse Bool) (item : Parse α) : Parse (List α) := fun c =>
  repeatUpTo more item (c.rest.length + 1) c

/-- Read one or more items with a comma between. -/
def commaSeparated (item : Parse α) : Parse (List α) := do
  let first ← item
  let rest ← repeatWhile (eat .comma) item
  return first :: rest

end Parse

end IdlBindings
