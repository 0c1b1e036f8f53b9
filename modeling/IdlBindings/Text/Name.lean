/-! Names and string literals of declaration files. -/

namespace IdlBindings.Text

/-- The words that cannot name a parameter. -/
def reservedWords : List String :=
  ["break", "case", "catch", "class", "const", "continue", "debugger", "default", "delete", "do",
    "else", "enum", "export", "extends", "false", "finally", "for", "function", "if", "import",
    "in", "instanceof", "new", "null", "return", "super", "switch", "this", "throw", "true", "try",
    "typeof", "var", "void", "while", "with", "implements", "interface", "let", "package",
    "private", "protected", "public", "static", "yield", "arguments", "eval"]

def isReservedWord (word : String) : Bool :=
  reservedWords.contains word

def isNameStart (c : Char) : Bool :=
  c.isAlpha || c == '_' || c == '$'

def isNameRest (c : Char) : Bool :=
  c.isAlphanum || c == '_' || c == '$'

/-- Whether a text can stand as a bare name. Only ASCII letters and digits count. -/
def isIdentifier (text : String) : Bool :=
  match text.toList with
  | [] => false
  | first :: rest => isNameStart first && rest.all isNameRest

/-- A character inside a string literal. -/
def escape (c : Char) : List Char :=
  match c with
  | '"' => ['\\', '"']
  | '\\' => ['\\', '\\']
  | '\n' => ['\\', 'n']
  | _ => [c]

/-- The text as a string literal in double quotes. -/
def quote (text : String) : String :=
  "\"" ++ String.ofList (text.toList.flatMap escape) ++ "\""

/-- The key of a property: bare where it can be, otherwise quoted. -/
def propertyName (text : String) : String :=
  if isIdentifier text then text else quote text

/-- The name of a parameter. The `_` that escapes a name goes, other characters become `_`, and a
name that is reserved or cannot stand gets a `_` more. -/
def parameterName (text : String) : String :=
  let bare := match text.toList with
    | '_' :: rest => rest
    | cs => cs
  let name := String.ofList (bare.map fun c => if c.isAlphanum || c == '$' then c else '_')
  if isReservedWord name then name ++ "_"
  else if isIdentifier name then name
  else "_" ++ name

end IdlBindings.Text
