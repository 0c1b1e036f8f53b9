import IdlBindings.Proofs.Checked.Text
import IdlBindings.Token.Cursor

/-!
Reading tokens by their index. A `Reader` has the text, the kinds and places of its tokens, and the
index of the next one; the text of a token is cut out of the source when it is needed. Reading gives
`none` when an index, a slice or a sum is out of range.
-/

namespace IdlBindings

/-- The kind of a token and its place. -/
structure Mark where
  kind : TokenKind
  span : Span

def Token.mark (token : Token) : Mark := ⟨token.kind, token.span⟩

/-- A text of the document and how far its tokens have been read. -/
structure Reader where
  source : List Char
  /-- The byte of the document at which the text begins. -/
  base : Nat
  /-- The tokens that the grammar sees. -/
  marks : List Mark
  /-- The index of the next token. -/
  pos : Nat
  /-- Where the last token read ends. -/
  lastEnd : Nat

namespace Reader

open Checked

/-! ### Tokens -/

/-- The token so many places ahead. -/
def ahead? (r : Reader) (n : Nat) : Option Mark := r.marks[r.pos + n]?

/-- The text of a token. -/
def markText? (r : Reader) (mark : Mark) : Option String := do
  let start ← sub? mark.span.start r.base
  let stop ← sub? mark.span.stop r.base
  let piece ← slice? r.source start stop
  return String.ofList piece

/-- The empty place behind the text. -/
def eofSpan? (r : Reader) : Option Span := do
  let length ← word? (byteLength r.source)
  let stop ← add? r.base length
  return ⟨stop, stop⟩

def span? (r : Reader) : Option Span :=
  match r.ahead? 0 with
  | some mark => some mark.span
  | none => r.eofSpan?

def text? (r : Reader) : Option String :=
  match r.ahead? 0 with
  | some mark => r.markText? mark
  | none => some ""

/-- What stands at the next token, for messages. -/
def found? (r : Reader) : Option String :=
  match r.ahead? 0 with
  | some mark => (r.markText? mark).map fun text => "found `" ++ text ++ "`"
  | none => some "found end of block"

/-- Whether the token so many places ahead is of this kind. -/
def hasKind (r : Reader) (n : Nat) (kind : TokenKind) : Bool :=
  match r.ahead? n with
  | some mark => mark.kind == kind
  | none => false

/-- Whether the token so many places ahead is this word. -/
def hasWord? (r : Reader) (n : Nat) (word : String) : Option Bool :=
  match r.ahead? n with
  | some mark =>
    if mark.kind == .identifier then (r.markText? mark).map (· == word) else some false
  | none => some false

/-- Past the next token, which there has to be. -/
def bump? (r : Reader) : Option (Mark × Reader) := do
  let mark ← r.ahead? 0
  return (mark, { r with pos := r.pos + 1, lastEnd := mark.span.stop })

/-- The text between the quotes of a string. -/
def unquote? (text : String) : Option String := do
  let stop ← sub? (byteLength text.toList) 1
  let content ← slice? text.toList 1 stop
  return String.ofList content

/-! ### Reading -/

/-- Reading tokens: a result and the reader after it, one fault that stops it, or `none` when
something was out of range. -/
abbrev Run := StateT Reader (ExceptT Diagnostic Option)

variable {α β : Type}

def look (f : Reader → Option α) : Run α := fun r => (f r).map fun a => .ok (a, r)

/-- Past the next token. -/
def bump : Run Mark := fun r => r.bump?.map .ok

def failAt (kind : FaultKind) (span : Span) (detail : String) : Run α := fun _ =>
  some (.error (.report kind span detail))

def fail (kind : FaultKind) : Run α := do
  let span ← look span?
  failAt kind span (← look found?)

def unexpected (what : String) : Run α := do
  let span ← look span?
  let found ← look found?
  failAt .unexpectedToken span (what ++ ", " ++ found)

def start : Run Nat := do
  let span ← look span?
  return span.start

def spanFrom (first : Nat) : Run Span := look fun r => some ⟨first, max r.lastEnd first⟩

def atEnd : Run Bool := look fun r => some (r.ahead? 0).isNone

def atKind (kind : TokenKind) : Run Bool := look fun r => some (r.hasKind 0 kind)

def atWord (word : String) : Run Bool := look fun r => r.hasWord? 0 word

def beforeWord (word : String) : Run Bool := look fun r => r.hasWord? 1 word

def eat (kind : TokenKind) : Run Bool := do
  if ← atKind kind then
    let _ ← bump
    return true
  else
    return false

def eatIf (allowed : Bool) (kind : TokenKind) : Run Bool :=
  if allowed then eat kind else pure false

def eatWord (word : String) : Run Bool := do
  if ← atWord word then
    let _ ← bump
    return true
  else
    return false

def expect (kind : TokenKind) (what : String) : Run Unit := do
  if ← atKind kind then
    let _ ← bump
  else
    unexpected what

def expectWord (word : String) : Run Unit := do
  if ← atWord word then
    let _ ← bump
  else
    unexpected ("`" ++ word ++ "`")

def readName : Run String := do
  if ← atKind .identifier then
    let text ← look text?
    let _ ← bump
    return Parse.unescape text
  else
    fail .expectedIdentifier

def stringContent (what : String) : Run String := do
  if ← atKind .string then
    let mark ← bump
    look fun r => r.markText? mark >>= unquote?
  else
    unexpected what

/-- Read items for as long as `more` says. The rounds have no bound: it is out of range as well when
they use up `limit`. -/
def repeatUpTo (more : Run Bool) (item : Run α) : Nat → Run (List α)
  | 0 => fun _ => none
  | limit + 1 => do
    if ← more then
      let first ← item
      let rest ← repeatUpTo more item limit
      return first :: rest
    else
      return []

/-- Read items for as long as `more` says. -/
def repeatWhile (more : Run Bool) (item : Run α) : Run (List α) := fun r =>
  repeatUpTo more item (r.marks.length + 1) r

def commaSeparated (item : Run α) : Run (List α) := do
  let first ← item
  let rest ← repeatWhile (eat .comma) item
  return first :: rest

end Reader

end IdlBindings
