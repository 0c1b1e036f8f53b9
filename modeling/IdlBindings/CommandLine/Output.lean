import IdlBindings.CommandLine.Options
import IdlBindings.Json.Model
import IdlBindings.Pipeline

/-! What the command writes for a document. -/

namespace IdlBindings.CommandLine

inductive OutputFormat where
  | typeScript
  | idl
  | json
  deriving DecidableEq, Repr

namespace Options

def format (options : Options) : OutputFormat :=
  if options.json then .json else if options.idl then .idl else .typeScript

/-- How definitions are linked. -/
def policy (options : Options) : Policy :=
  let collision := if options.rejectDuplicates then .reject else .replace
  let base := Policy.default.withCollision collision
  let exposed := options.globalAttrs.foldl Policy.addExposure base
  options.externals.foldl Policy.addExternal exposed

/-- How declarations are written. -/
def style (options : Options) : Style :=
  { Style.default with forceGlobal := options.forceGlobal, nominal := options.nominal }

/-- The input and the output path, if both are given. -/
def paths? (options : Options) : Option (String × String) := do
  return (← options.input, ← options.output)

/-- The output for a document. -/
def outputText (options : Options) (doc : String) : Except Failure String :=
  match options.format with
  | .typeScript => Pipeline.declarations options.policy options.style doc
  | .idl => Pipeline.interfaceText options.policy 4 doc
  | .json => return (← Pipeline.model options.policy doc).json.text ++ "\n"

end Options

end IdlBindings.CommandLine
