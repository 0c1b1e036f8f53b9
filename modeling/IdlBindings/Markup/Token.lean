import IdlBindings.Automaton

/-!
The markup that can hide or carry interface definitions: comments and the raw blocks `pre`, `xmp`
and `script`. All other text is prose.
-/

namespace IdlBindings.Markup

/-- An element whose content is a raw block. -/
inductive Element where
  | pre
  | xmp
  | script
  deriving DecidableEq, Repr

namespace Element

def name : Element → String
  | .pre => "pre"
  | .xmp => "xmp"
  | .script => "script"

/-- The elements differ in the first letter, which may have either case. -/
def ofInitial? (c : Char) : Option Element :=
  match c.toLower with
  | 'p' => some .pre
  | 'x' => some .xmp
  | 's' => some .script
  | _ => none

/-- The letters of the name after the first. -/
def afterInitial : Element → List Char
  | .pre => ['r', 'e']
  | .xmp => ['m', 'p']
  | .script => ['c', 'r', 'i', 'p', 't']

end Element

inductive TokenKind where
  | commentOpen
  | blockOpen (element : Element)
  | blockClose (element : Element)
  | lessThan
  | prose
  deriving DecidableEq, Repr

/-- What has been read of the current token. -/
inductive ScanState where
  | start
  | prose
  | lessThan
  | bang
  | bangDash
  | slash
  /-- In the name of a tag, with the letters still to come. -/
  | name (closing : Bool) (element : Element) (rest : List Char)
  /-- After the name of an opening tag and a blank. -/
  | attributes (element : Element)
  /-- After the name of a closing tag and a blank. -/
  | closeBlank (element : Element)
  /-- A token that nothing extends. -/
  | complete (kind : TokenKind)
  deriving DecidableEq, Repr

/-- Space, tab, carriage return and line feed. -/
def isBlank (c : Char) : Bool :=
  c == ' ' || c == '\t' || c == '\r' || c == '\n'

namespace ScanState

def beginName? (closing : Bool) (c : Char) : Option ScanState :=
  (Element.ofInitial? c).map fun element => .name closing element element.afterInitial

def step : ScanState → Char → Option ScanState
  | .start, c => if c == '<' then some .lessThan else some .prose
  | .prose, c => if c == '<' then none else some .prose
  | .lessThan, c =>
    if c == '!' then some .bang
    else if c == '/' then some .slash
    else beginName? false c
  | .bang, c => if c == '-' then some .bangDash else none
  | .bangDash, c => if c == '-' then some (.complete .commentOpen) else none
  | .slash, c => beginName? true c
  | .name closing element (letter :: rest), c =>
    if c.toLower == letter then some (.name closing element rest) else none
  | .name false element [], c =>
    if c == '>' then some (.complete (.blockOpen element))
    else if isBlank c then some (.attributes element)
    else none
  | .name true element [], c =>
    if c == '>' then some (.complete (.blockClose element))
    else if isBlank c then some (.closeBlank element)
    else none
  | .attributes element, c =>
    if c == '>' then some (.complete (.blockOpen element)) else some (.attributes element)
  | .closeBlank element, c =>
    if c == '>' then some (.complete (.blockClose element))
    else if isBlank c then some (.closeBlank element)
    else none
  | .complete _, _ => none

def accept : ScanState → Option TokenKind
  | .prose => some .prose
  | .lessThan => some .lessThan
  | .complete kind => some kind
  | _ => none

end ScanState

/-- The automaton that recognises one piece of markup. -/
def automaton : Automaton ScanState TokenKind :=
  ⟨.start, ScanState.step, ScanState.accept⟩

end IdlBindings.Markup
