import IdlBindings.CommandLine.Help
import IdlBindings.CommandLine.Output
import IdlBindings.Diagnostic.Snippet

/-! The command: read a document, write its declarations, or say what is wrong. -/

namespace IdlBindings.CommandLine

/-- The directory part of a path. -/
def directory (path : String) : String :=
  String.ofList (path.toList.reverse.dropWhile (· != '/')).reverse

def stopText : Stop → String
  | .help => helpText
  | .version => versionText
  | .unknownArgument => "error: unexpected argument\n"
  | .invalidValue => "error: invalid or missing value\n"
  | .argumentConflict => "error: arguments cannot be used together\n"
  | .tooManyValues => "error: unexpected value\n"

def writeOutput (path text : String) : IO Unit := do
  let parent := directory path
  unless parent.isEmpty do
    try IO.FS.createDirAll parent
    catch e => IO.eprintln ("warning: cannot create directory '" ++ parent ++ "': " ++ toString e)
  IO.FS.writeFile path text

/-- Run the command on a document that can be read. -/
def run (options : Options) (input output : String) : IO UInt32 := do
  let doc ← IO.FS.readFile input
  match options.outputText doc with
  | .ok text =>
    writeOutput output text
    return 0
  | .error failure =>
    IO.eprintln ("error: " ++ failure.message)
    IO.eprint (Diagnostic.renderAll (options.colorChoice == .always) doc (some input)
      failure.diagnostics)
    return 1

end IdlBindings.CommandLine

open IdlBindings.CommandLine

def main (args : List String) : IO UInt32 := do
  match Options.ofArguments args with
  | .error stop =>
    let text := stopText stop
    if stop == .help || stop == .version then
      IO.print text
      return 0
    else
      IO.eprint text
      return 2
  | .ok options =>
    match options.paths? with
    | none =>
      IO.eprintln missingPaths
      IO.println helpText
      return 0
    | some (input, output) =>
      try run options input output
      catch e =>
        IO.eprintln ("error: " ++ toString e)
        return 1
