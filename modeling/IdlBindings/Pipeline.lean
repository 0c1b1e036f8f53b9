import IdlBindings.Declaration.File
import IdlBindings.Model.Link
import IdlBindings.Syntax.Definition.Parser

/-!
From a document to its output: fragments, definitions, model, text. Each step runs the steps
before it, and the first one that finds a fault stops the rest.
-/

namespace IdlBindings

/-- A step that found faults. -/
structure Failure where
  stage : Stage
  diagnostics : List Diagnostic
  deriving DecidableEq, Repr

def Stage.failureText : Stage → String
  | .extraction => "IDL extraction failed"
  | .parsing => "IDL parsing failed"
  | .linking => "IDL linking failed"

/-- How many faults stopped the pipeline. -/
def Failure.message (failure : Failure) : String :=
  failure.stage.failureText ++ " with " ++ toString failure.diagnostics.length ++ " errors"

namespace Pipeline

/-- The fragments of a document. -/
def fragments (doc : String) : Except Failure (List Fragment) :=
  match IdlBindings.fragments doc with
  | .ok fragments => .ok fragments
  | .error d => .error ⟨.extraction, [d]⟩

/-- The definitions of a document. -/
def definitions (doc : String) : Except Failure (List Definition) := do
  match Definition.ofFragments (← fragments doc) with
  | .ok definitions => .ok definitions
  | .error ds => .error ⟨.parsing, ds⟩

/-- The linked model of a document. -/
def model (policy : Policy) (doc : String) : Except Failure Model := do
  match Model.link policy (← definitions doc) with
  | .ok model => .ok model
  | .error ds => .error ⟨.linking, ds⟩

/-- The declaration file of a document. -/
def declarations (policy : Policy) (style : Style) (doc : String) : Except Failure String :=
  return style.declarations (← model policy doc)

/-- The linked definitions of a document as text. -/
def interfaceText (policy : Policy) (indent : Nat) (doc : String) : Except Failure String :=
  return (← model policy doc).text indent

end Pipeline

end IdlBindings
