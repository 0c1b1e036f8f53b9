import IdlBindings.Diagnostic.Kind
import IdlBindings.Span

/-! Diagnostics: a fault at a place of the document, other places that explain it, and hints. -/

namespace IdlBindings

/-- A place that explains a fault. -/
structure Related where
  message : String
  span : Span
  deriving DecidableEq, Repr

structure Diagnostic where
  kind : FaultKind
  span : Span
  message : String
  related : List Related
  hints : List String
  deriving DecidableEq, Repr

namespace Diagnostic

/-- A fault with the message and the hint of its kind. -/
def ofKind (kind : FaultKind) (span : Span) (detail : Option String) : Diagnostic :=
  ⟨kind, span, kind.message detail, [], kind.hint?.toList⟩

/-- A fault whose message gives `detail`. -/
def report (kind : FaultKind) (span : Span) (detail : String) : Diagnostic :=
  ofKind kind span (some detail)

/-- Name another place. -/
def withRelated (d : Diagnostic) (message : String) (span : Span) : Diagnostic :=
  { d with related := d.related ++ [⟨message, span⟩] }

/-- Give another hint. -/
def withHint (d : Diagnostic) (hint : String) : Diagnostic :=
  { d with hints := d.hints ++ [hint] }

/-- The same diagnostic at other places. -/
def relabel (g : Span → Span) (d : Diagnostic) : Diagnostic :=
  { d with span := g d.span, related := d.related.map fun r => { r with span := g r.span } }

/-- The whole diagnostic on one line. -/
def text (d : Diagnostic) : String :=
  "error at " ++ d.span.text ++ ": " ++ d.message
    ++ String.join (d.related.map fun r =>
      " (related: " ++ r.message ++ " at " ++ r.span.text ++ ")")
    ++ String.join (d.hints.map fun hint => " (hint: " ++ hint ++ ")")

/-- One line for each diagnostic. -/
def plainText (ds : List Diagnostic) : String :=
  "\n".intercalate (ds.map text)

end Diagnostic

end IdlBindings
