import IdlBindings.Markup.Token

/-!
The attributes of an opening tag, and whether they mark the block that it opens as interface
definitions.
-/

namespace IdlBindings.Markup

/-- The pieces of a tag. -/
inductive TagPiece where
  | blank
  | equals
  | quoted
  | word
  | punctuation
  deriving DecidableEq, Repr

inductive TagState where
  | start
  | blank
  | word
  | doubleQuoted
  | singleQuoted
  | complete (piece : TagPiece)
  deriving DecidableEq, Repr

/-- The characters of a word: no blank, quote, `=`, `<`, `>` or `/`. -/
def isWordChar (c : Char) : Bool :=
  !(isBlank c || c == '=' || c == '"' || c == '\'' || c == '<' || c == '>' || c == '/')

namespace TagState

def step : TagState → Char → Option TagState
  | .start, c =>
    if isBlank c then some .blank
    else match c with
      | '=' => some (.complete .equals)
      | '"' => some .doubleQuoted
      | '\'' => some .singleQuoted
      | '/' | '<' | '>' => some (.complete .punctuation)
      | _ => some .word
  | .blank, c => if isBlank c then some .blank else none
  | .word, c => if isWordChar c then some .word else none
  | .doubleQuoted, c => if c == '"' then some (.complete .quoted) else some .doubleQuoted
  | .singleQuoted, c => if c == '\'' then some (.complete .quoted) else some .singleQuoted
  | .complete _, _ => none

def accept : TagState → Option TagPiece
  | .blank => some .blank
  | .word => some .word
  | .complete piece => some piece
  | _ => none

end TagState

def tagAutomaton : Automaton TagState TagPiece :=
  ⟨.start, TagState.step, TagState.accept⟩

/-- An attribute; one without a value has the empty value. -/
structure TagAttribute where
  name : String
  value : String
  deriving DecidableEq, Repr

/-- A value without the quotes around it. -/
def unquote (text : List Char) : List Char :=
  match text with
  | '"' :: rest | '\'' :: rest => if rest.isEmpty then text else rest.dropLast
  | _ => text

/-- The attribute being read: none, a name, or a name and the `=` after it. -/
inductive Pending where
  | nothing
  | name (name : List Char)
  | value (name : List Char)

/-- An attribute that ends without a value. -/
def Pending.flush : Pending → List TagAttribute
  | .nothing => []
  | .name key | .value key => [⟨String.ofList key, ""⟩]

/-- Read the attributes from the pieces after the element name. -/
def readAttributes : Pending → List (Lexeme TagPiece) → List TagAttribute
  | pending, [] => pending.flush
  | pending, ⟨kind, text⟩ :: rest =>
    match kind, pending with
    | some .word, .value key | some .quoted, .value key =>
      ⟨String.ofList key, String.ofList (unquote text)⟩ :: readAttributes .nothing rest
    | some .word, pending => pending.flush ++ readAttributes (.name text) rest
    | some .equals, .name key => readAttributes (.value key) rest
    | _, pending => readAttributes pending rest

/-- The pieces after the first word, which is the element name. -/
def afterElementName : List (Lexeme TagPiece) → List (Lexeme TagPiece)
  | [] => []
  | ⟨some .word, _⟩ :: rest => rest
  | _ :: rest => afterElementName rest

/-- The attributes of a tag, in order. -/
def attributes (tag : List Char) : List TagAttribute :=
  let inner := ((tag.dropWhile (· == '<')).reverse.dropWhile (· == '>')).reverse
  readAttributes .nothing (afterElementName (tagAutomaton.scan inner))

/-- The same text with ASCII letters in lower case. -/
def asciiLower (text : String) : String :=
  text.map Char.toLower

/-- Space, tab, line feed, form feed and carriage return. -/
def isAsciiSpace (c : Char) : Bool :=
  isBlank c || c == '\x0c'

/-- The words of a text that ASCII whitespace separates, the first one begun by `word`. -/
def wordsFrom (word : List Char) : List Char → List (List Char)
  | [] => if word.isEmpty then [] else [word]
  | c :: cs =>
    if isAsciiSpace c then
      if word.isEmpty then wordsFrom [] cs else word :: wordsFrom [] cs
    else wordsFrom (word ++ [c]) cs

/-- The words of a text that ASCII whitespace separates. -/
def words (text : String) : List String :=
  (wordsFrom [] text.toList).map String.ofList

/-- The value of the first attribute of this name, whatever its case. -/
def attribute? (attributes : List TagAttribute) (name : String) : Option String :=
  (attributes.find? fun a => asciiLower a.name == name).map TagAttribute.value

/-- Whether a tag marks its block as interface definitions: `idl` is a class of a `pre` or `xmp`,
or the type of a `script`. -/
def carriesIdl (element : Element) (tag : List Char) : Bool :=
  match element with
  | .pre | .xmp =>
    (attribute? (attributes tag) "class").any fun value => (words value).contains "idl"
  | .script => (attribute? (attributes tag) "type").any fun value => asciiLower value == "idl"

end IdlBindings.Markup
