/-! The lines of a text. A line ends at a line feed, with or without a carriage return before it. -/

namespace IdlBindings.Text

/-- The lines, without what ends them; after the last end there is no empty line. -/
def linesOf : List Char → List (List Char)
  | [] => []
  | '\n' :: rest => [] :: linesOf rest
  | '\r' :: '\n' :: rest => [] :: linesOf rest
  | c :: rest =>
    match linesOf rest with
    | [] => [[c]]
    | line :: more => (c :: line) :: more

def lines (text : String) : List String :=
  (linesOf text.toList).map String.ofList

end IdlBindings.Text
