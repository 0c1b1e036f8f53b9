import IdlBindings.Declaration.Block
import IdlBindings.Model.Order
import IdlBindings.Text.Blank
import IdlBindings.Text.Lines

/-!
The declaration file of a model. If everything is global it is a script; otherwise it is a module,
with the global definitions in a part of their own.
-/

namespace IdlBindings

/-- A comment line. -/
def commentLine (line : String) : String :=
  if line.isEmpty then "//\n" else "// " ++ line ++ "\n"

/-- A line of a block; an empty line is not indented. -/
def indentedLine (indent line : String) : String :=
  (if line.isEmpty then "" else indent) ++ line ++ "\n"

/-- Blocks with an empty line between, each line indented. -/
def blockText (indent : String) (blocks : List String) : String :=
  "\n".intercalate
    (blocks.map fun block => String.join ((Text.lines block).map (indentedLine indent)))

namespace Style

/-- The comment at the top of a file. -/
def headerText (style : Style) : String :=
  match style.header with
  | none => ""
  | some header => String.join ((Text.lines header).map commentLine) ++ "\n"

/-- Whether a name is declared in the global scope. -/
def isPlacedGlobal (style : Style) (model : Model) (name : String) : Bool :=
  style.forceGlobal || model.isGlobal name

/-- The texts of the blocks of these definitions in a scope. -/
def blockTexts (style : Style) (model : Model) (scope : Scope) (names : List String) :
    List String :=
  ((names.filterMap model.get?).flatMap (style.blocks model)).map (Block.text style.indent scope)

/-- The declarations of a model, before the end of the file is tidied. -/
def bodyText (style : Style) (model : Model) : String :=
  let globals := model.emissionOrder.filter (style.isPlacedGlobal model)
  let exported := model.emissionOrder.filter fun name => !style.isPlacedGlobal model name
  if exported.isEmpty then
    blockText "" (style.blockTexts model .script globals)
  else
    blockText "" (style.blockTexts model .module exported)
      ++ if globals.isEmpty then ""
        else "\ndeclare global \x7b\n"
          ++ blockText style.indent (style.blockTexts model .global globals) ++ "\x7d\n"

/-- The declaration file of a model, which ends with one line break. -/
def declarations (style : Style) (model : Model) : String :=
  Text.trimEnd (style.headerText ++ style.bodyText model) ++ "\n"

end Style

end IdlBindings
