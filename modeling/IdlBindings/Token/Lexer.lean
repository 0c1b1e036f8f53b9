import IdlBindings.Automaton
import IdlBindings.Token

/-!
The lexical grammar of interface definition text, as an automaton, and the tokens of a text that
starts at a given byte of a document. Neighbouring lexemes that are no token form one garbage
token.
-/

namespace IdlBindings.Token

/-- What has been read of the current token. -/
inductive LexState where
  | start
  /-- A token that nothing extends. -/
  | complete (kind : TokenKind)
  | dot
  | dotDot
  | minus
  | minusDot
  /-- The `_` before an identifier. -/
  | escape
  | identifier
  /-- `0`, with its sign. -/
  | zero
  | octal
  /-- A `0` and digits of which one is not octal: the start of a decimal only. -/
  | digits
  | integer
  /-- Digits and a point. -/
  | point
  | fraction
  | exponentMark
  | exponentSign
  | exponent
  | hexMark
  | hex
  | quoted
  | blank
  | slash
  | lineComment
  | blockComment
  | blockCommentStar
  deriving DecidableEq, Repr

def isAsciiLetter (c : Char) : Bool :=
  ('a' ≤ c && c ≤ 'z') || ('A' ≤ c && c ≤ 'Z')

def isAsciiDigit (c : Char) : Bool :=
  '0' ≤ c && c ≤ '9'

def isOctalDigit (c : Char) : Bool :=
  '0' ≤ c && c ≤ '7'

def isHexDigit (c : Char) : Bool :=
  isAsciiDigit c || ('a' ≤ c && c ≤ 'f') || ('A' ≤ c && c ≤ 'F')

/-- Tab, line feed, carriage return and space. -/
def isBlank (c : Char) : Bool :=
  c == '\t' || c == '\n' || c == '\r' || c == ' '

def isIdentifierRest (c : Char) : Bool :=
  isAsciiLetter c || isAsciiDigit c || c == '_' || c == '-'

namespace LexState

/-- The tokens that one character makes. -/
def punctuation? (c : Char) : Option TokenKind :=
  match c with
  | '(' => some .parenOpen
  | ')' => some .parenClose
  | '[' => some .bracketOpen
  | ']' => some .bracketClose
  | '\x7b' => some .braceOpen
  | '\x7d' => some .braceClose
  | '<' => some .angleOpen
  | '>' => some .angleClose
  | ',' => some .comma
  | ';' => some .semicolon
  | ':' => some .colon
  | '=' => some .equals
  | '?' => some .question
  | '*' => some .star
  | _ => none

/-- After a first character. -/
def begin? (c : Char) : Option LexState :=
  match punctuation? c with
  | some kind => some (.complete kind)
  | none =>
    if isAsciiLetter c then some .identifier
    else if c == '0' then some .zero
    else if isAsciiDigit c then some .integer
    else if isBlank c then some .blank
    else match c with
      | '.' => some .dot
      | '-' => some .minus
      | '_' => some .escape
      | '"' => some .quoted
      | '/' => some .slash
      | _ => none

/-- After the digits before a decimal point or an exponent. -/
def number? (c : Char) : Option LexState :=
  if c == '.' then some .point
  else if c == 'e' || c == 'E' then some .exponentMark
  else none

def step : LexState → Char → Option LexState
  | .start, c => begin? c
  | .complete _, _ => none
  | .dot, c =>
    if isAsciiDigit c then some .fraction else if c == '.' then some .dotDot else none
  | .dotDot, c => if c == '.' then some (.complete .ellipsis) else none
  | .minus, c =>
    if isAsciiLetter c then some .identifier
    else if c == '0' then some .zero
    else if isAsciiDigit c then some .integer
    else if c == '.' then some .minusDot
    else none
  | .minusDot, c => if isAsciiDigit c then some .fraction else none
  | .escape, c => if isAsciiLetter c then some .identifier else none
  | .identifier, c => if isIdentifierRest c then some .identifier else none
  | .zero, c =>
    if c == 'x' || c == 'X' then some .hexMark
    else if isOctalDigit c then some .octal
    else if isAsciiDigit c then some .digits
    else number? c
  | .octal, c =>
    if isOctalDigit c then some .octal
    else if isAsciiDigit c then some .digits
    else number? c
  | .digits, c => if isAsciiDigit c then some .digits else number? c
  | .integer, c => if isAsciiDigit c then some .integer else number? c
  | .point, c =>
    if isAsciiDigit c then some .fraction
    else if c == 'e' || c == 'E' then some .exponentMark
    else none
  | .fraction, c =>
    if isAsciiDigit c then some .fraction
    else if c == 'e' || c == 'E' then some .exponentMark
    else none
  | .exponentMark, c =>
    if isAsciiDigit c then some .exponent
    else if c == '+' || c == '-' then some .exponentSign
    else none
  | .exponentSign, c => if isAsciiDigit c then some .exponent else none
  | .exponent, c => if isAsciiDigit c then some .exponent else none
  | .hexMark, c => if isHexDigit c then some .hex else none
  | .hex, c => if isHexDigit c then some .hex else none
  | .quoted, c => if c == '"' then some (.complete .string) else some .quoted
  | .blank, c => if isBlank c then some .blank else none
  | .slash, c =>
    if c == '/' then some .lineComment else if c == '*' then some .blockComment else none
  | .lineComment, c => if c == '\n' then none else some .lineComment
  | .blockComment, c => if c == '*' then some .blockCommentStar else some .blockComment
  | .blockCommentStar, c =>
    if c == '/' then some (.complete .blockComment)
    else if c == '*' then some .blockCommentStar
    else some .blockComment

def accept : LexState → Option TokenKind
  | .complete kind => some kind
  | .minus => some .minus
  | .identifier => some .identifier
  | .zero | .octal | .integer | .hex => some .integer
  | .point | .fraction | .exponent => some .decimal
  | .blank => some .whitespace
  | .lineComment => some .lineComment
  | _ => none

end LexState

/-- The automaton that recognises one token. -/
def automaton : Automaton LexState TokenKind :=
  ⟨.start, LexState.step, LexState.accept⟩

/-- Join neighbouring lexemes that are no token. -/
def joinGarbage : List (Lexeme TokenKind) → List (Lexeme TokenKind)
  | [] => []
  | ⟨some kind, text⟩ :: rest => ⟨some kind, text⟩ :: joinGarbage rest
  | ⟨none, text⟩ :: rest =>
    match joinGarbage rest with
    | ⟨none, more⟩ :: rest' => ⟨none, text ++ more⟩ :: rest'
    | rest' => ⟨none, text⟩ :: rest'

/-- Give each lexeme its place, the first one at byte `offset`. -/
def place : Nat → List (Lexeme TokenKind) → List Token
  | _, [] => []
  | offset, lexeme :: rest =>
    let stop := offset + byteLength lexeme.text
    ⟨lexeme.kind.getD .garbage, ⟨offset, stop⟩, String.ofList lexeme.text⟩ :: place stop rest

/-- The tokens of `source`, blanks and comments included, when its first byte is byte `base` of the
document. -/
def lex (source : String) (base : Nat) : List Token :=
  place base (joinGarbage (automaton.scan source.toList))

/-- The tokens of `source` with their places as stored, when its first byte is byte `base` of the
document. -/
def lexAt (source : String) (base : UInt32) : List Token :=
  (lex source 0).map (move (storedPlace base))

/-- The tokens that the grammar sees. -/
def significant (tokens : List Token) : List Token :=
  tokens.filter fun token => !token.kind.isTrivia

end IdlBindings.Token
