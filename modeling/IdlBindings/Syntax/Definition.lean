import IdlBindings.Syntax.Member

/-! Definitions, the kinds of names that they declare, and their text. -/

namespace IdlBindings

/-- The definitions that hold members. -/
inductive ContainerKind where
  | interface
  | callbackInterface
  | mixin
  | dictionary
  | nameSpace
  deriving DecidableEq, Repr

namespace ContainerKind

def all : List ContainerKind :=
  [.interface, .callbackInterface, .mixin, .dictionary, .nameSpace]

def keyword : ContainerKind → String
  | .interface => "interface"
  | .callbackInterface => "callback interface"
  | .mixin => "interface mixin"
  | .dictionary => "dictionary"
  | .nameSpace => "namespace"

/-- Whether `partial` may stand before the keyword. -/
def allowsPartial : ContainerKind → Bool
  | .callbackInterface => false
  | _ => true

/-- Whether the definition may name a parent. -/
def allowsParent : ContainerKind → Bool
  | .interface | .dictionary => true
  | _ => false

end ContainerKind

/-- What a name can stand for. -/
inductive SymbolKind where
  | container (kind : ContainerKind)
  | enumeration
  | typedef
  | callback
  deriving DecidableEq, Repr

namespace SymbolKind

def all : List SymbolKind :=
  ContainerKind.all.map container ++ [.enumeration, .typedef, .callback]

/-- Whether the name can be used as a type. -/
def isType : SymbolKind → Bool
  | .container .mixin | .container .nameSpace => false
  | _ => true

/-- The kind with its article. -/
def describe : SymbolKind → String
  | .container .interface => "an interface"
  | .container .callbackInterface => "a callback interface"
  | .container .mixin => "an interface mixin"
  | .container .dictionary => "a dictionary"
  | .container .nameSpace => "a namespace"
  | .enumeration => "an enum"
  | .typedef => "a typedef"
  | .callback => "a callback"

end SymbolKind

structure Container where
  kind : ContainerKind
  isPartial : Bool
  parent : Option String
  members : List Member

inductive DefinitionBody where
  | container (c : Container)
  | enumeration (values : List String)
  | typedef (type : IdlType)
  | callback (result : IdlType) (args : List Argument)
  /-- The members of the mixin belong to the interface that gives the definition its name. -/
  | includes (mixin : String)

/-- A definition. An includes statement has the name of its target. -/
structure Definition where
  name : String
  body : DefinitionBody
  extAttrs : List ExtendedAttribute
  span : Span

namespace Definition

def container? (d : Definition) : Option Container :=
  match d.body with
  | .container c => some c
  | _ => none

def isPartial (d : Definition) : Bool :=
  d.container?.any Container.isPartial

/-- What the definition declares its name to be; an includes statement declares nothing. -/
def symbolKind? (d : Definition) : Option SymbolKind :=
  match d.body with
  | .container c => some (.container c.kind)
  | .enumeration _ => some .enumeration
  | .typedef _ => some .typedef
  | .callback _ _ => some .callback
  | .includes _ => none

def members (d : Definition) : List Member :=
  match d.container? with
  | some c => c.members
  | none => []

def isMixin (d : Definition) : Bool :=
  d.container?.any fun c => c.kind == .mixin

def hasExtAttr (d : Definition) (name : String) : Bool :=
  d.extAttrs.any fun attr => attr.name == name

/-- The types written in a definition, in order, each with the span of the member or definition
that owns it. -/
def types (d : Definition) : List (IdlType × Span) :=
  match d.body with
  | .container c => c.members.flatMap fun m => m.body.types.map fun type => (type, m.span)
  | .enumeration _ | .includes _ => []
  | .typedef type => [(type, d.span)]
  | .callback result args => (result, d.span) :: args.map fun arg => (arg.type, d.span)

/-- The names that the types of a definition refer to, in order, each with the span of its owner. -/
def references (d : Definition) : List (String × Span) :=
  d.types.flatMap fun (type, span) => type.references.map fun name => (name, span)

/-- The lines of an enumeration's values: a comma after each but the last. -/
def valueLines (pad : String) : List String → String
  | [] => ""
  | [value] => pad ++ "\"" ++ value ++ "\"\n"
  | value :: rest => pad ++ "\"" ++ value ++ "\",\n" ++ valueLines pad rest

/-- The text of a definition, with `pad` before each member. -/
def text (pad : String) (d : Definition) : String :=
  (if d.extAttrs.isEmpty then "" else ExtendedAttribute.listText d.extAttrs ++ "\n")
    ++ match d.body with
      | .container c =>
        (if c.isPartial then "partial " else "") ++ c.kind.keyword ++ " " ++ d.name
          ++ optionalText c.parent " : " ++ " \x7b\n"
          ++ String.join (c.members.map fun m => pad ++ m.text ++ "\n") ++ "\x7d;\n"
      | .enumeration values =>
        "enum " ++ d.name ++ " \x7b\n" ++ valueLines pad values ++ "\x7d;\n"
      | .typedef type => "typedef " ++ type.text ++ " " ++ d.name ++ ";\n"
      | .callback result args =>
        "callback " ++ d.name ++ " = " ++ result.text ++ " (" ++ Argument.listText args ++ ");\n"
      | .includes mixin => d.name ++ " includes " ++ mixin ++ ";\n"

/-- The text of definitions with a blank line between, members indented by `indent` spaces. The
text of no definition is an empty line. -/
def listText (indent : Nat) (definitions : List Definition) : String :=
  if definitions.isEmpty then "\n"
  else "\n".intercalate (definitions.map (text ("".pushn ' ' indent)))

end Definition

end IdlBindings
