import IdlBindings.Span
import IdlBindings.Syntax.Type

/-! The members of interfaces, mixins, dictionaries and namespaces. -/

namespace IdlBindings

structure Attribute where
  name : String
  type : IdlType
  isReadonly : Bool
  isStatic : Bool
  isInherited : Bool
  isStringifier : Bool

/-- A special role of an operation. -/
inductive Special where
  | getter
  | setter
  | deleter
  | stringifier
  deriving DecidableEq, Repr

def Special.keyword : Special → String
  | .getter => "getter"
  | .setter => "setter"
  | .deleter => "deleter"
  | .stringifier => "stringifier"

structure Operation where
  /-- Special operations may do without a name. -/
  name : Option String
  result : IdlType
  args : List Argument
  isStatic : Bool
  special : Option Special

/-- A dictionary member. -/
structure Field where
  name : String
  type : IdlType
  isRequired : Bool
  default : Option DefaultValue

inductive IterationKind where
  | iterable
  | asyncIterable
  | maplike
  | setlike
  deriving DecidableEq, Repr

def IterationKind.keyword : IterationKind → String
  | .iterable => "iterable"
  | .asyncIterable => "async iterable"
  | .maplike => "maplike"
  | .setlike => "setlike"

/-- What iterating over an object gives. -/
structure Iteration where
  kind : IterationKind
  isReadonly : Bool
  /-- The key type, of a map or of an iteration over pairs. -/
  key : Option IdlType
  value : IdlType
  args : List Argument

inductive MemberBody where
  | const (name : String) (type : IdlType) (value : ConstValue)
  | attribute (a : Attribute)
  | operation (o : Operation)
  | constructor (args : List Argument)
  | field (f : Field)
  | iteration (i : Iteration)
  /-- The word `stringifier` alone. -/
  | stringifier

structure Member where
  body : MemberBody
  extAttrs : List ExtendedAttribute
  span : Span

namespace MemberBody

def name? : MemberBody → Option String
  | .const name _ _ => some name
  | .attribute a => some a.name
  | .operation o => o.name
  | .field f => some f.name
  | .constructor _ | .iteration _ | .stringifier => none

def isStatic : MemberBody → Bool
  | .attribute a => a.isStatic
  | .operation o => o.isStatic
  | _ => false

/-- The types written in a member, in order. -/
def types : MemberBody → List IdlType
  | .const _ type _ => [type]
  | .attribute a => [a.type]
  | .operation o => o.result :: o.args.map Argument.type
  | .constructor args => args.map Argument.type
  | .field f => [f.type]
  | .iteration i => i.key.toList ++ i.value :: i.args.map Argument.type
  | .stringifier => []

/-- What stands before the name of an attribute. -/
def attributeWords (a : Attribute) : String :=
  (if a.isStatic then "static " else "") ++ (if a.isStringifier then "stringifier " else "")
    ++ (if a.isInherited then "inherit " else "") ++ (if a.isReadonly then "readonly " else "")
    ++ "attribute "

def text : MemberBody → String
  | .const name type value => "const " ++ type.text ++ " " ++ name ++ " = " ++ value.text ++ ";"
  | .attribute a => attributeWords a ++ a.type.text ++ " " ++ a.name ++ ";"
  | .operation o =>
    (if o.isStatic then "static " else "")
      ++ (match o.special with
        | some special => special.keyword ++ " "
        | none => "")
      ++ o.result.text ++ " " ++ o.name.getD "" ++ "(" ++ Argument.listText o.args ++ ");"
  | .constructor args => "constructor(" ++ Argument.listText args ++ ");"
  | .field f =>
    (if f.isRequired then "required " else "") ++ f.type.text ++ " " ++ f.name
      ++ optionalText (f.default.map DefaultValue.text) " = " ++ ";"
  | .iteration i =>
    (if i.isReadonly then "readonly " else "") ++ i.kind.keyword ++ "<"
      ++ (match i.key with
        | some key => key.text ++ ", "
        | none => "")
      ++ i.value.text ++ ">"
      ++ (if i.args.isEmpty then "" else "(" ++ Argument.listText i.args ++ ")") ++ ";"
  | .stringifier => "stringifier;"

end MemberBody

/-- A member on one line. -/
def Member.text (m : Member) : String :=
  (if m.extAttrs.isEmpty then "" else ExtendedAttribute.listText m.extAttrs ++ " ") ++ m.body.text

end IdlBindings
