import IdlBindings.Span

/-! The tokens of interface definition text. Keywords are identifiers: only the grammar tells. -/

namespace IdlBindings

inductive TokenKind where
  | parenOpen
  | parenClose
  | bracketOpen
  | bracketClose
  | braceOpen
  | braceClose
  | angleOpen
  | angleClose
  | comma
  | semicolon
  | colon
  | equals
  | question
  | star
  | ellipsis
  | minus
  | integer
  | decimal
  | identifier
  | string
  | whitespace
  | lineComment
  | blockComment
  /-- Characters that begin no token. -/
  | garbage
  deriving DecidableEq, Repr

/-- Blanks and comments, which the grammar never sees. -/
def TokenKind.isTrivia : TokenKind → Bool
  | .whitespace | .lineComment | .blockComment => true
  | _ => false

/-- A token: what it is, where it stands in the document, and its text. -/
structure Token where
  kind : TokenKind
  span : Span
  text : String
  deriving DecidableEq, Repr

/-- The same token at another place. -/
def Token.move (f : Nat → Nat) (token : Token) : Token :=
  { token with span := token.span.move f }

end IdlBindings
