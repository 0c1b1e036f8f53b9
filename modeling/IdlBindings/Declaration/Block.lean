import IdlBindings.Declaration.Lines
import IdlBindings.Model

/-!
The blocks that declare a definition. A block does not know where it will stand: the scope only
adds words before it.
-/

namespace IdlBindings

/-- Where a block stands. -/
inductive Scope where
  /-- The top of a script. -/
  | script
  /-- The top of a module: declarations are exported. -/
  | module
  /-- The global part of a module. -/
  | global
  deriving DecidableEq, Repr

/-- What a block declares. -/
inductive BlockKind where
  | type
  | value
  deriving DecidableEq, Repr

/-- The words before a block of some kind. -/
def Scope.lead : Scope → BlockKind → String
  | .script, .type => ""
  | .module, .type => "export "
  | .global, .type => ""
  | .script, .value => "declare "
  | .module, .value => "export declare "
  | .global, .value => ""

structure Block where
  kind : BlockKind
  /-- The first line, without the words that the scope adds and without a brace. -/
  head : String
  /-- What stands between braces, if there are any. -/
  body : Option (List String)
  /-- What stands at the end. -/
  close : String
  deriving DecidableEq, Repr

namespace Block

/-- What follows the head. -/
def bodyText (indent : String) : Option (List String) → String
  | none => ""
  | some [] => " \x7b\x7d"
  | some lines => " \x7b\n" ++ String.join (lines.map fun line => indent ++ line ++ "\n") ++ "\x7d"

def text (indent : String) (scope : Scope) (block : Block) : String :=
  scope.lead block.kind ++ block.head ++ bodyText indent block.body ++ block.close

end Block

namespace Style

/-- The block of an interface or a dictionary. A line is written once. -/
def interfaceBlock (style : Style) (name : String) (c : Container) : Block :=
  let isBranded := style.nominal && (c.kind == .interface || c.kind == .dictionary)
  let brand := if isBranded then [style.brand name ++ ";"] else []
  ⟨.type, "interface " ++ name ++ optionalText c.parent " extends ",
    some (brand ++ c.members.flatMap fun m => style.instanceLines name m.body).eraseDups, ""⟩

/-- The block of the object that stands for an exposed interface. -/
def objectBlock (style : Style) (name : String) (c : Container) : Block :=
  ⟨.value, "var " ++ name ++ ":",
    some (("prototype: " ++ name ++ ";")
      :: c.members.flatMap fun m => style.objectLines name m.body), ";"⟩

def namespaceBlock (style : Style) (name : String) (c : Container) : Block :=
  ⟨.value, "namespace " ++ name,
    some (c.members.flatMap fun m => style.namespaceLines m.body), ""⟩

/-- The block that gives a name to a type. -/
def aliasBlock (name : String) (type : TypeExpr) : Block :=
  ⟨.type, "type " ++ name ++ " = " ++ type.text, none, ";"⟩

/-- The type of an enumeration: one of its values. -/
def enumerationType (style : Style) (name : String) (values : List String) : TypeExpr :=
  let literals := TypeExpr.unionOf (values.map fun value => .stringLiteral (Text.quote value))
  if style.nominal then .intersection [literals, .object [style.brand name]] else literals

/-- The type of a callback function. -/
def callbackType (style : Style) (result : IdlType) (args : List Argument) : TypeExpr :=
  .function (style.parameters args) (TypeExpr.ofResult style result)

/-- The extended attribute of an interface that no object stands for. -/
def noObjectAttribute : String := "LegacyNoInterfaceObject"

/-- The blocks of a definition. -/
def blocks (style : Style) (model : Model) (d : Definition) : List Block :=
  match d.body with
  | .container c =>
    match c.kind with
    | .interface =>
      style.interfaceBlock d.name c
        :: if model.isGlobal d.name && !d.hasExtAttr noObjectAttribute then
            [style.objectBlock d.name c]
          else []
    | .callbackInterface | .dictionary => [style.interfaceBlock d.name c]
    | .nameSpace => [style.namespaceBlock d.name c]
    | .mixin => []
  | .enumeration values => [aliasBlock d.name (style.enumerationType d.name values)]
  | .typedef type => [aliasBlock d.name (TypeExpr.ofType style type)]
  | .callback result args => [aliasBlock d.name (style.callbackType result args)]
  | .includes _ => []

end Style

end IdlBindings
