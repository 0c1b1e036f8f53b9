import IdlBindings.Declaration.Mapping
import IdlBindings.Syntax.Definition

/-! The lines that a member puts into the declaration of its owner. -/

namespace IdlBindings

namespace Style

/-- The type of a constant: its value if that is an integer or a truth value. -/
def constType (style : Style) (type : IdlType) (value : ConstValue) : TypeExpr :=
  match value with
  | .boolean b => .literal (if b then "true" else "false")
  | .integer _ =>
    match value.integer? with
    | some n => .literal (toString n)
    | none => TypeExpr.ofType style type
  | _ => TypeExpr.ofType style type

def constLine (style : Style) (name : String) (type : IdlType) (value : ConstValue) : String :=
  "readonly " ++ Text.propertyName name ++ ": " ++ (style.constType type value).text ++ ";"

def attributeLine (style : Style) (a : Attribute) : String :=
  (if a.isReadonly then "readonly " else "") ++ Text.propertyName a.name ++ ": "
    ++ style.typeText a.type ++ ";"

/-- The line of an operation that has a name. -/
def methodLine? (style : Style) (o : Operation) : Option String :=
  o.name.map fun name =>
    Text.propertyName name ++ "(" ++ style.parameterText o.args ++ "): "
      ++ style.resultText o.result ++ ";"

def toStringLine : String := "toString(): string;"

/-- The line of a getter without a name: reading by index or by key. -/
def indexLine? (style : Style) (o : Operation) : Option String :=
  o.args.head?.map fun key =>
    let keyType := if TypeExpr.ofType style key.type = .keyword "number" then "number" else "string"
    "[" ++ Text.parameterName key.name ++ ": " ++ keyType ++ "]: " ++ style.typeText o.result ++ ";"

def operationLines (style : Style) (o : Operation) : List String :=
  (style.methodLine? o).toList
    ++ match o.special, o.name with
      | some .stringifier, _ => [toStringLine]
      | some .getter, none => (style.indexLine? o).toList
      | _, _ => []

/-- A method without arguments that gives an iterator over items of this type. -/
def iteratorLine (method : String) (item : TypeExpr) : String :=
  method ++ "(): " ++ (TypeExpr.generic "IterableIterator" [item]).text ++ ";"

def asyncIteratorLine (method params : String) (item : TypeExpr) : String :=
  method ++ "(" ++ params ++ "): " ++ (TypeExpr.generic "AsyncIterableIterator" [item]).text ++ ";"

def forEachLine (owner : String) (key value : TypeExpr) : String :=
  "forEach(callbackfn: (value: " ++ value.text ++ ", key: " ++ key.text ++ ", parent: " ++ owner
    ++ ") => void, thisArg?: any): void;"

/-- The methods of an iteration, a map or a set. -/
def iterationLines (style : Style) (owner : String) (i : Iteration) : List String :=
  let value := TypeExpr.ofType style i.value
  let key := match i.key with
    | some key => TypeExpr.ofType style key
    | none => if i.kind = .setlike then value else .keyword "number"
  let pair := TypeExpr.tuple [key, value]
  let item := if i.key.isSome then pair else value
  match i.kind with
  | .iterable =>
    [iteratorLine "[Symbol.iterator]" item, iteratorLine "entries" pair, iteratorLine "keys" key,
      iteratorLine "values" value, forEachLine owner key value]
  | .asyncIterable =>
    let params := style.parameterText i.args
    asyncIteratorLine "[Symbol.asyncIterator]" params item
      :: (if i.key.isSome then
          [asyncIteratorLine "entries" params pair, asyncIteratorLine "keys" params key]
        else [])
      ++ [asyncIteratorLine "values" params value]
  | .maplike =>
    let found := TypeExpr.unionOf [value, .keyword "undefined"]
    ["readonly size: number;", iteratorLine "[Symbol.iterator]" pair, iteratorLine "entries" pair,
      iteratorLine "keys" key, iteratorLine "values" value, forEachLine owner key value,
      "get(key: " ++ key.text ++ "): " ++ found.text ++ ";",
      "has(key: " ++ key.text ++ "): boolean;"]
      ++ if i.isReadonly then [] else
        ["set(key: " ++ key.text ++ ", value: " ++ value.text ++ "): this;",
          "delete(key: " ++ key.text ++ "): boolean;", "clear(): void;"]
  | .setlike =>
    ["readonly size: number;", iteratorLine "[Symbol.iterator]" value, iteratorLine "entries" pair,
      iteratorLine "keys" value, iteratorLine "values" value, forEachLine owner key value,
      "has(value: " ++ value.text ++ "): boolean;"]
      ++ if i.isReadonly then [] else
        ["add(value: " ++ value.text ++ "): this;", "delete(value: " ++ value.text ++ "): boolean;",
          "clear(): void;"]

/-- The lines of a member in the declaration of an instance. Static members and constructors have
none. -/
def instanceLines (style : Style) (owner : String) : MemberBody → List String
  | .const name type value => [style.constLine name type value]
  | .attribute a =>
    if a.isStatic then []
    else style.attributeLine a :: if a.isStringifier then [toStringLine] else []
  | .operation o => if o.isStatic then [] else style.operationLines o
  | .constructor _ => []
  | .field f =>
    [Text.propertyName f.name ++ (if f.isRequired then "" else "?") ++ ": "
      ++ style.typeText f.type ++ ";"]
  | .iteration i => style.iterationLines owner i
  | .stringifier => [toStringLine]

/-- The lines of a member in the declaration of the object that stands for the interface. -/
def objectLines (style : Style) (owner : String) : MemberBody → List String
  | .constructor args => ["new(" ++ style.parameterText args ++ "): " ++ owner ++ ";"]
  | .const name type value => [style.constLine name type value]
  | .attribute a => if a.isStatic then [style.attributeLine a] else []
  | .operation o => if o.isStatic then (style.methodLine? o).toList else []
  | _ => []

/-- The lines of a member in the declaration of a namespace. -/
def namespaceLines (style : Style) : MemberBody → List String
  | .const name type value =>
    ["const " ++ name ++ ": " ++ (style.constType type value).text ++ ";"]
  | .attribute a =>
    [(if a.isReadonly then "const " else "var ") ++ a.name ++ ": " ++ style.typeText a.type ++ ";"]
  | .operation o =>
    (o.name.map fun name =>
      "function " ++ name ++ "(" ++ style.parameterText o.args ++ "): "
        ++ style.resultText o.result ++ ";").toList
  | _ => []

end Style

end IdlBindings
