import IdlBindings.Syntax.Literal
import IdlBindings.Syntax.Primitive

/-!
Type references. They carry extended attributes, extended attributes carry arguments, and
arguments carry types, so the three are defined together, each with its text in interface
definition syntax.
-/

namespace IdlBindings

/-- What stands after the `=` of an extended attribute. -/
inductive AttributeValue where
  | identifier (name : String)
  | identifierList (names : List String)
  | string (content : String)
  | integer (source : String)
  | decimal (source : String)
  | wildcard
  deriving DecidableEq, Repr

mutual

inductive IdlType where
  | primitive (p : Primitive)
  | named (name : String)
  | sequence (item : IdlType)
  | frozenArray (item : IdlType)
  | observableArray (item : IdlType)
  | record (key value : IdlType)
  | promise (result : IdlType)
  | nullable (inner : IdlType)
  | union (members : List IdlType)
  | any
  /-- A type behind a list of extended attributes. -/
  | annotated (extAttrs : List ExtendedAttribute) (inner : IdlType)

structure ExtendedAttribute where
  name : String
  value : Option AttributeValue
  args : Option (List Argument)

structure Argument where
  name : String
  type : IdlType
  isOptional : Bool
  isVariadic : Bool
  default : Option DefaultValue
  extAttrs : List ExtendedAttribute

end

namespace IdlType

/-- The type without the extended attributes in front of it. -/
def unannotated : IdlType → IdlType
  | .annotated _ inner => inner.unannotated
  | type => type

mutual

/-- The names that a type refers to, in the order they are written. Extended attributes refer to
nothing. -/
def references : IdlType → List String
  | .primitive _ | .any => []
  | .named name => [name]
  | .sequence inner | .frozenArray inner | .observableArray inner | .promise inner
  | .nullable inner | .annotated _ inner => inner.references
  | .record key value => key.references ++ value.references
  | .union members => referencesOfAll members

def referencesOfAll : List IdlType → List String
  | [] => []
  | type :: rest => type.references ++ referencesOfAll rest

end

end IdlType

def AttributeValue.text : AttributeValue → String
  | .identifier name => name
  | .identifierList names => "(" ++ ", ".intercalate names ++ ")"
  | .string content => "\"" ++ content ++ "\""
  | .integer source | .decimal source => source
  | .wildcard => "*"

/-- What an optional part adds to a text. -/
def optionalText (part : Option String) (before : String) : String :=
  match part with
  | some text => before ++ text
  | none => ""

/-- The texts as a list in square brackets; nothing when there are none. -/
def bracketed (texts : List String) : String :=
  if texts.isEmpty then "" else "[" ++ ", ".intercalate texts ++ "]"

mutual

def IdlType.text : IdlType → String
  | .primitive p => p.text
  | .named name => name
  | .sequence item => "sequence<" ++ item.text ++ ">"
  | .frozenArray item => "FrozenArray<" ++ item.text ++ ">"
  | .observableArray item => "ObservableArray<" ++ item.text ++ ">"
  | .record key value => "record<" ++ key.text ++ ", " ++ value.text ++ ">"
  | .promise result => "Promise<" ++ result.text ++ ">"
  | .nullable inner => inner.text ++ "?"
  | .union members => "(" ++ " or ".intercalate (IdlType.texts members) ++ ")"
  | .any => "any"
  | .annotated extAttrs inner => bracketed (ExtendedAttribute.texts extAttrs) ++ " " ++ inner.text

def IdlType.texts : List IdlType → List String
  | [] => []
  | type :: rest => type.text :: IdlType.texts rest

def ExtendedAttribute.text : ExtendedAttribute → String
  | ⟨name, value, args⟩ =>
    name ++ optionalText (value.map AttributeValue.text) "=" ++ Argument.parenthesized args

def ExtendedAttribute.texts : List ExtendedAttribute → List String
  | [] => []
  | attr :: rest => attr.text :: ExtendedAttribute.texts rest

def Argument.parenthesized : Option (List Argument) → String
  | none => ""
  | some args => "(" ++ ", ".intercalate (Argument.texts args) ++ ")"

def Argument.texts : List Argument → List String
  | [] => []
  | arg :: rest => arg.text :: Argument.texts rest

def Argument.text : Argument → String
  | ⟨name, type, isOptional, isVariadic, default, extAttrs⟩ =>
    (if extAttrs.isEmpty then "" else bracketed (ExtendedAttribute.texts extAttrs) ++ " ")
      ++ (if isOptional then "optional " else "")
      ++ type.text
      ++ (if isVariadic then "..." else "")
      ++ " " ++ name
      ++ optionalText (default.map DefaultValue.text) " = "

end

theorem IdlType.texts_eq_map (types : List IdlType) :
    IdlType.texts types = types.map IdlType.text := by
  induction types with
  | nil => simp [IdlType.texts]
  | cons type rest ih => simp [IdlType.texts, ih]

theorem ExtendedAttribute.texts_eq_map (attrs : List ExtendedAttribute) :
    ExtendedAttribute.texts attrs = attrs.map ExtendedAttribute.text := by
  induction attrs with
  | nil => simp [ExtendedAttribute.texts]
  | cons attr rest ih => simp [ExtendedAttribute.texts, ih]

theorem Argument.texts_eq_map (args : List Argument) :
    Argument.texts args = args.map Argument.text := by
  induction args with
  | nil => simp [Argument.texts]
  | cons arg rest ih => simp [Argument.texts, ih]

/-- Extended attributes in square brackets; nothing when there are none. -/
def ExtendedAttribute.listText (attrs : List ExtendedAttribute) : String :=
  bracketed (attrs.map text)

/-- Arguments as written between parentheses. -/
def Argument.listText (args : List Argument) : String :=
  ", ".intercalate (args.map text)

end IdlBindings
