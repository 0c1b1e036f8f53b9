import IdlBindings.Diagnostic
import IdlBindings.Text.Lines

/-!
Diagnostics beside the lines of the document that they point into. A diagnostic has a title, the
lines with marks under the places, and its hints.
-/

namespace IdlBindings

/-- The part of a span that lies in a document of `limit` bytes. An empty one covers one byte where
there is one. -/
def Span.visible (span : Span) (limit : Nat) : Span :=
  let start := min span.start limit
  let stop := min span.stop limit
  if start = stop then ⟨start, min (start + 1) limit⟩ else ⟨start, stop⟩

namespace Snippet

/-- A line of the document. -/
structure SourceLine where
  /-- Counted from one. -/
  number : Nat
  /-- The byte at which it begins. -/
  first : Nat
  text : List Char

/-- A line with the byte after its line break. -/
def measure : Nat → Nat → List Char → List (SourceLine × Nat)
  | _, _, [] => []
  | number, first, c :: cs =>
    let line := (c :: cs).takeWhile (· != '\n')
    let rest := (c :: cs).dropWhile (· != '\n')
    let text := if rest.isEmpty || line.getLast? != some '\r' then line else line.dropLast
    let stop := first + byteLength line + (if rest.isEmpty then 0 else 1)
    (⟨number, first, text⟩, stop) :: measure (number + 1) stop (rest.drop 1)
termination_by _ _ cs => cs.length
decreasing_by
  have := (List.dropWhile_suffix (l := c :: cs) (· != '\n')).length_le
  simp only [List.length_drop, List.length_cons] at *
  omega

/-- The line that holds a byte; the last line holds all bytes after it. -/
def lineAt (lines : List (SourceLine × Nat)) (offset : Nat) : SourceLine :=
  match lines.find? fun (_, stop) => offset < stop with
  | some (line, _) => line
  | none => (lines.getLast?.map Prod.fst).getD ⟨1, 0, []⟩

/-- How many of these characters stand within so many bytes. -/
def charsWithin : Nat → List Char → Nat
  | _, [] => 0
  | bytes, c :: cs => if c.utf8Size ≤ bytes then charsWithin (bytes - c.utf8Size) cs + 1 else 0

/-- The column of a byte in a line, counted from zero. -/
def SourceLine.column (line : SourceLine) (offset : Nat) : Nat :=
  charsWithin (offset - line.first) line.text

/-- The column that a title gives, counted from one. The line break has a column of its own. -/
def SourceLine.titleColumn (line : SourceLine) (offset : Nat) : Nat :=
  line.column offset + (if offset - line.first > byteLength line.text then 2 else 1)

/-- A place to mark in a line. -/
structure Mark where
  line : SourceLine
  column : Nat
  width : Nat
  /-- What is said about a related place; none for the place of the fault. -/
  label : Option String

def markOf (lines : List (SourceLine × Nat)) (limit : Nat) (span : Span) (label : Option String) :
    Mark :=
  let shown := span.visible limit
  let line := lineAt lines shown.start
  let column := line.column shown.start
  ⟨line, column, max 1 (line.column shown.stop - column), label⟩

/-- How the parts of a snippet are coloured. -/
structure Paint where
  error : String → String
  title : String → String
  gutter : String → String
  caret : String → String
  help : String → String

/-- The codes of a terminal around a text. -/
def escaped (codes text : String) : String :=
  codes ++ text ++ "\x1b[0m"

def Paint.plain : Paint := ⟨id, id, id, id, id⟩

/-- Bold, with red for faults, blue for the margin and related places, and cyan for hints. -/
def Paint.terminal : Paint :=
  ⟨escaped "\x1b[1m\x1b[91m", escaped "\x1b[1m", escaped "\x1b[1m\x1b[94m",
    escaped "\x1b[1m\x1b[91m", escaped "\x1b[1m\x1b[96m"⟩

def spaces (n : Nat) : String := "".pushn ' ' n

/-- The marks under a line, from left to right, from column `at` on. -/
def markText (paint : Paint) : Nat → List Mark → String
  | _, [] => ""
  | column, mark :: rest =>
    let glyphs := match mark.label with
      | none => paint.caret ("".pushn '^' mark.width)
      | some label =>
        paint.gutter ("".pushn '-' mark.width)
          ++ if label.isEmpty then "" else " " ++ paint.gutter label
    spaces (mark.column - column) ++ glyphs ++ markText paint (mark.column + mark.width) rest

/-- A bar of the margin, with what stands behind it. -/
def barLine (paint : Paint) (width : Nat) (text : String) : String :=
  spaces (width + 1) ++ paint.gutter "|" ++ if text.isEmpty then "" else " " ++ text

/-- A line of the document behind its number. -/
def sourceLine (paint : Paint) (width : Nat) (line : SourceLine) : String :=
  let number := toString line.number
  spaces (width - number.length) ++ paint.gutter number ++ " " ++ paint.gutter "|"
    ++ if line.text.isEmpty then "" else " " ++ String.ofList line.text

/-- The lines of the document that hold marks, each once, from the top. -/
def markedLines (marks : List Mark) : List Nat :=
  ((marks.map fun mark => mark.line.number).mergeSort (· ≤ ·)).eraseDups

/-- What stands between two lines that are shown: the line between them, or three dots. -/
def between (paint : Paint) (width : Nat) (lines : List (SourceLine × Nat)) (upper lower : Nat) :
    List String :=
  if lower ≤ upper + 1 then []
  else if lower = upper + 2 then
    ((lines.map Prod.fst).find? fun line => line.number == upper + 1).toList.map
      (sourceLine paint width)
  else [paint.gutter "..."]

/-- The marked lines, each with its marks below. -/
def body (paint : Paint) (width : Nat) (lines : List (SourceLine × Nat)) (marks : List Mark) :
    List Nat → List String
  | [] => []
  | number :: rest =>
    let here := (marks.filter fun mark => mark.line.number == number).mergeSort
      fun a b => a.column ≤ b.column
    let shown := (here.head?.map fun mark => sourceLine paint width mark.line).toList
      ++ [barLine paint width (markText paint 0 here)]
    let gap := match rest with
      | next :: _ => between paint width lines number next
      | [] => []
    shown ++ gap ++ body paint width lines marks rest

/-- A diagnostic beside the document. -/
def render (paint : Paint) (source : String) (path : Option String) (d : Diagnostic) : String :=
  let lines := measure 1 0 source.toList
  let limit := byteLength source.toList
  let marks := markOf lines limit d.span none
    :: d.related.map fun r => markOf lines limit r.span (some r.message)
  let numbers := markedLines marks
  let width := (toString (numbers.getLast?.getD 1)).length
  let start := (d.span.visible limit).start
  let line := lineAt lines start
  let title := paint.error "error" ++ paint.title (": " ++ d.message)
  let arrow := path.toList.map fun path =>
    spaces width ++ paint.gutter "--> " ++ path ++ ":" ++ toString line.number ++ ":"
      ++ toString (line.titleColumn start)
  let hints := if d.hints.isEmpty then [] else
    barLine paint width "" :: d.hints.map fun hint => paint.help "help" ++ ": " ++ hint
  "\n".intercalate
    (title :: arrow ++ barLine paint width "" :: body paint width lines marks numbers ++ hints)

end Snippet

/-- Diagnostics beside the document they belong to. -/
def Diagnostic.renderAll (colored : Bool) (source : String) (path : Option String)
    (ds : List Diagnostic) : String :=
  let paint := if colored then Snippet.Paint.terminal else Snippet.Paint.plain
  "\n".intercalate (ds.map (Snippet.render paint source path))

end IdlBindings
