/-!
The options of the command line. Arguments are read from left to right, and the first one that
cannot be read, or that asks for help or the version, ends the reading.
-/

namespace IdlBindings.CommandLine

/-- When diagnostics are coloured. -/
inductive ColorChoice where
  | auto
  | always
  | never
  deriving DecidableEq, Repr

def ColorChoice.ofString? : String → Option ColorChoice
  | "auto" => some .auto
  | "always" => some .always
  | "never" => some .never
  | _ => none

/-- Why reading ends without options. -/
inductive Stop where
  | help
  | version
  | unknownArgument
  | invalidValue
  | argumentConflict
  | tooManyValues
  deriving DecidableEq, Repr

inductive Flag where
  | forceGlobal
  | idl
  | nominal
  | rejectDuplicates
  | json
  | help
  | version
  deriving DecidableEq, Repr

/-- An option that takes a value. -/
inductive Setting where
  | input
  | output
  | globalAttr
  | external
  | color
  deriving DecidableEq, Repr

/-- What a name on the command line stands for. -/
inductive Switch where
  | flag (flag : Flag)
  | setting (setting : Setting)
  deriving DecidableEq, Repr

def Switch.ofLong? : String → Option Switch
  | "in" => some (.setting .input)
  | "out" => some (.setting .output)
  | "forceGlobal" => some (.flag .forceGlobal)
  | "idl" => some (.flag .idl)
  | "nominal" => some (.flag .nominal)
  | "version" => some (.flag .version)
  | "global-attr" => some (.setting .globalAttr)
  | "extern" => some (.setting .external)
  | "reject-duplicates" => some (.flag .rejectDuplicates)
  | "json" => some (.flag .json)
  | "color" => some (.setting .color)
  | "help" => some (.flag .help)
  | _ => none

def Switch.ofShort? : Char → Option Switch
  | 'i' => some (.setting .input)
  | 'o' => some (.setting .output)
  | 'f' => some (.flag .forceGlobal)
  | 'I' => some (.flag .idl)
  | 'n' => some (.flag .nominal)
  | 'v' => some (.flag .version)
  | 'h' => some (.flag .help)
  | _ => none

structure Options where
  input : Option String
  output : Option String
  forceGlobal : Bool
  idl : Bool
  nominal : Bool
  json : Bool
  globalAttrs : List String
  externals : List String
  rejectDuplicates : Bool
  color : Option ColorChoice
  deriving DecidableEq, Repr

namespace Options

/-- Nothing given. -/
def initial : Options :=
  ⟨none, none, false, false, false, false, [], [], false, none⟩

/-- The colours asked for. -/
def colorChoice (options : Options) : ColorChoice :=
  options.color.getD .auto

/-- A flag may be given once. -/
def once (given : Bool) (options : Options) : Except Stop Options :=
  if given then .error .argumentConflict else .ok options

def setFlag (options : Options) : Flag → Except Stop Options
  | .forceGlobal => once options.forceGlobal { options with forceGlobal := true }
  | .idl => once options.idl { options with idl := true }
  | .nominal => once options.nominal { options with nominal := true }
  | .rejectDuplicates => once options.rejectDuplicates { options with rejectDuplicates := true }
  | .json => once options.json { options with json := true }
  | .help => .error .help
  | .version => .error .version

/-- Paths cannot be empty and colours have names; the other settings take any text and may be given
again. -/
def set (options : Options) (setting : Setting) (value : String) : Except Stop Options :=
  match setting with
  | .input =>
    if value.isEmpty then .error .invalidValue
    else once options.input.isSome { options with input := some value }
  | .output =>
    if value.isEmpty then .error .invalidValue
    else once options.output.isSome { options with output := some value }
  | .globalAttr => .ok { options with globalAttrs := options.globalAttrs ++ [value] }
  | .external => .ok { options with externals := options.externals ++ [value] }
  | .color =>
    match ColorChoice.ofString? value with
    | some choice => once options.color.isSome { options with color := some choice }
    | none => .error .invalidValue

/-- Whether an argument can be the value of the option before it. -/
def isValue (arg : String) : Bool :=
  match arg.toList with
  | '-' :: rest => rest.isEmpty
  | _ => true

/-- Read the letters after one `-`, and the next argument if the last letter needs it as a value.
Gives the options and the arguments left. -/
def readCluster (options : Options) (args : List String) :
    List Char → Except Stop (Options × List String)
  | [] => .ok (options, args)
  | c :: cs =>
    match Switch.ofShort? c with
    | none => .error .unknownArgument
    | some (.flag flag) => do readCluster (← options.setFlag flag) args cs
    | some (.setting setting) =>
      match cs, args with
      | '=' :: value, _ => do return (← options.set setting (String.ofList value), args)
      | _ :: _, _ => do return (← options.set setting (String.ofList cs), args)
      | [], value :: rest =>
        if isValue value then do return (← options.set setting value, rest)
        else .error .invalidValue
      | [], [] => .error .invalidValue

/-- Read a name after `--`, with the value behind its `=` or else in the next argument. -/
def readLong (options : Options) (args : List String) (name : String) (value : Option String) :
    Except Stop (Options × List String) :=
  match Switch.ofLong? name, value, args with
  | none, _, _ => .error .unknownArgument
  | some (.flag _), some _, _ => .error .tooManyValues
  | some (.flag flag), none, _ => do return (← options.setFlag flag, args)
  | some (.setting setting), some value, _ => do return (← options.set setting value, args)
  | some (.setting setting), none, value :: rest =>
    if isValue value then do return (← options.set setting value, rest)
    else .error .invalidValue
  | some (.setting _), none, [] => .error .invalidValue

/-- A text before its first `=`, and what is behind that. -/
def splitEquals (cs : List Char) : String × Option String :=
  let name := String.ofList (cs.takeWhile (· != '='))
  match cs.dropWhile (· != '=') with
  | _ :: value => (name, some (String.ofList value))
  | [] => (name, none)

/-- Read one argument, given the arguments after it. -/
def readArgument (options : Options) (arg : String) (rest : List String) :
    Except Stop (Options × List String) :=
  match arg.toList with
  | '-' :: '-' :: [] => if rest.isEmpty then .ok (options, []) else .error .unknownArgument
  | '-' :: '-' :: cs =>
    let (name, value) := splitEquals cs
    readLong options rest name value
  | '-' :: c :: cs => readCluster options rest (c :: cs)
  | _ => .error .unknownArgument

/-- Read at most `limit` arguments. -/
def readUpTo : Nat → Options → List String → Except Stop Options
  | _, options, [] => .ok options
  | 0, options, _ => .ok options
  | limit + 1, options, arg :: rest => do
    let (options, left) ← readArgument options arg rest
    readUpTo limit options left

/-- The options that the arguments give. The two kinds of output exclude each other. -/
def ofArguments (args : List String) : Except Stop Options := do
  let options ← readUpTo args.length initial args
  if options.idl && options.json then .error .argumentConflict else .ok options

end Options

end IdlBindings.CommandLine
