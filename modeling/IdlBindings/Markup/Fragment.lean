import IdlBindings.Diagnostic
import IdlBindings.Markup.Tag

/-!
The fragments of a document: the raw blocks that hold interface definitions, byte for byte, in
document order. Extraction stops at the first fault, since what follows cannot be told apart.
-/

namespace IdlBindings

/-- A raw block that holds interface definitions. -/
structure Fragment where
  element : Markup.Element
  /-- The byte of the document at which `text` begins. -/
  offset : Nat
  /-- The opening tag. -/
  tag : Span
  text : String
  deriving DecidableEq, Repr

/-- The same fragment at other places. -/
def Fragment.move (f : Nat → Nat) (fragment : Fragment) : Fragment :=
  { fragment with offset := f fragment.offset, tag := fragment.tag.move f }

namespace Markup

/-- How a block ends. -/
inductive Closing where
  /-- At its closing tag, which comes right after the content. -/
  | closed (content tag : List Char)
  /-- A definition block opens inside a `pre`. -/
  | interrupted (opening : Span)
  | missing

/-- Whether this piece of markup ends a block of `element`. -/
def closes (element : Element) : Option TokenKind → Bool
  | some (.blockClose closed) => closed == element
  | _ => false

/-- Whether this piece of markup shows that a block of `element` was never closed. The content of
`xmp` and `script` is raw text, so only `pre` can be interrupted. -/
def interrupts (element : Element) (kind : Option TokenKind) (text : List Char) : Bool :=
  match kind with
  | some (.blockOpen inner) => element == .pre && carriesIdl inner text
  | _ => false

/-- Look for the end of a block of `element` in the document from byte `offset` on. -/
def findClose (element : Element) : Nat → List Char → Closing
  | _, [] => .missing
  | offset, c :: cs =>
    let next := automaton.first (c :: cs)
    let text := (c :: cs).take next.2
    let stop := offset + byteLength text
    if closes element next.1 then .closed [] text
    else if interrupts element next.1 text then .interrupted ⟨offset, stop⟩
    else match findClose element stop ((c :: cs).drop next.2) with
      | .closed content tag => .closed (text ++ content) tag
      | .interrupted opening => .interrupted opening
      | .missing => .missing
termination_by _ cs => cs.length
decreasing_by
  have := automaton.one_le_first (c :: cs)
  simp only [List.length_drop, List.length_cons]
  omega

/-- The text up to and including the first `-->`. -/
def commentBody? : List Char → Option (List Char)
  | '-' :: '-' :: '>' :: _ => some ['-', '-', '>']
  | [] => none
  | c :: rest => (commentBody? rest).map (c :: ·)

/-- The fragments of the document from byte `offset` on. -/
def fragmentsFrom : Nat → List Char → Except Diagnostic (List Fragment)
  | _, [] => .ok []
  | offset, c :: cs =>
    let next := automaton.first (c :: cs)
    let text := (c :: cs).take next.2
    let rest := (c :: cs).drop next.2
    let stop := offset + byteLength text
    match next.1 with
    | some .commentOpen =>
      match commentBody? rest with
      | some body => fragmentsFrom (stop + byteLength body) (rest.drop body.length)
      | none => .error (.ofKind .unterminatedComment ⟨offset, stop⟩ none)
    | some (.blockOpen element) =>
      match findClose element stop rest with
      | .closed content tag => do
        let block := content ++ tag
        let others ← fragmentsFrom (stop + byteLength block) (rest.drop block.length)
        if carriesIdl element text then
          return ⟨element, stop, ⟨offset, stop⟩, String.ofList content⟩ :: others
        else
          return others
      | .interrupted opening =>
        .error <| (Diagnostic.report .interruptedBlock ⟨offset, stop⟩ element.name).withRelated
          "IDL block opens here" opening
      | .missing => .error (.report .unterminatedBlock ⟨offset, stop⟩ element.name)
    | _ => fragmentsFrom stop rest
termination_by _ cs => cs.length
decreasing_by
  all_goals
    have := automaton.one_le_first (c :: cs)
    simp only [List.length_drop, List.length_cons]
    omega

end Markup

/-- The fragments of a document, or what is wrong with its markup. -/
def fragments (doc : String) : Except Diagnostic (List Fragment) :=
  Markup.fragmentsFrom 0 doc.toList

/-- The fragments of a document, or what is wrong with its markup, with all places as stored. -/
def extract (doc : String) : Except Diagnostic (List Fragment) :=
  match fragments doc with
  | .ok found => .ok (found.map (Fragment.move (storedPlace 0)))
  | .error fault => .error (fault.relabel (Span.move (storedPlace 0)))

end IdlBindings
