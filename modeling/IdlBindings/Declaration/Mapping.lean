import IdlBindings.Declaration.Style
import IdlBindings.Declaration.TypeExpr
import IdlBindings.Syntax.Type
import IdlBindings.Text.Name

/-! The type expression of each type, and what is written for arguments and brands. -/

namespace IdlBindings

namespace TypeExpr

def ofPrimitive (p : Primitive) : TypeExpr :=
  if p.isNumeric then .keyword "number"
  else if p.isString then .keyword "string"
  else if p.isBuffer then .reference p.text
  else match p with
    | .undefined => .keyword "undefined"
    | .boolean => .keyword "boolean"
    | .bigint => .keyword "bigint"
    | .symbol => .keyword "symbol"
    | _ => .keyword "any"

/-- Whether a result is no value at all. -/
def isVoid (type : IdlType) : Bool :=
  match type.unannotated with
  | .primitive .undefined => true
  | _ => false

mutual

/-- The type expression of a type. Extended attributes do not show; the key of a record is always a
string. -/
def ofType (style : Style) : IdlType → TypeExpr
  | .primitive p => ofPrimitive p
  | .named name => .reference name
  | .sequence item | .observableArray item => .array (ofType style item)
  | .frozenArray item =>
    if style.readonlyArrays then .generic "ReadonlyArray" [ofType style item]
    else .array (ofType style item)
  | .record _ value => .generic "Record" [.keyword "string", ofType style value]
  | .promise result =>
    .generic "Promise" [if isVoid result then .keyword "void" else ofType style result]
  | .nullable inner => nullable (ofType style inner)
  | .union members => unionOf (ofTypes style members)
  | .any => .keyword "any"
  | .annotated _ inner => ofType style inner

def ofTypes (style : Style) : List IdlType → List TypeExpr
  | [] => []
  | type :: rest => ofType style type :: ofTypes style rest

end

/-- The type expression of a result: no value is `void`. -/
def ofResult (style : Style) (type : IdlType) : TypeExpr :=
  if isVoid type then .keyword "void" else ofType style type

end TypeExpr

namespace Style

/-- The text of a type. -/
def typeText (style : Style) (type : IdlType) : String :=
  (TypeExpr.ofType style type).text

/-- The text of a result type. -/
def resultText (style : Style) (type : IdlType) : String :=
  (TypeExpr.ofResult style type).text

/-- An argument as a parameter. -/
def parameter (style : Style) (arg : Argument) : String :=
  let name := Text.parameterName arg.name
  let type := TypeExpr.ofType style arg.type
  if arg.isVariadic then "..." ++ name ++ ": " ++ (TypeExpr.array type).text
  else if arg.isOptional then name ++ "?: " ++ type.text
  else name ++ ": " ++ type.text

def parameters (style : Style) (args : List Argument) : List String :=
  args.map style.parameter

/-- Parameters as written between parentheses. -/
def parameterText (style : Style) (args : List Argument) : String :=
  ", ".intercalate (style.parameters args)

/-- The key of the member that tells `name` from all others. -/
def brandKey (style : Style) (name : String) : String :=
  Text.propertyName (style.brandPrefix ++ name)

/-- The member that tells `name` from all others, without the `;`. -/
def brand (style : Style) (name : String) : String :=
  "readonly " ++ style.brandKey name ++ ": " ++ Text.quote name

end Style

end IdlBindings
