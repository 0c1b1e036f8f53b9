/-! The texts of the command line. -/

namespace IdlBindings.CommandLine

def versionText : String := "bikeshed-to-ts 0.3.3\n"

/-- What is said when a path is missing. -/
def missingPaths : String :=
  "This command requires the --in and --out options to be defined!"

def helpLines : List String :=
  ["Generate TypeScript declarations from the WebIDL in a Bikeshed document",
    "",
    "Usage: bikeshed-to-ts --in <FILE> --out <FILE> [OPTIONS]",
    "",
    "Options:",
    "  -i, --in <FILE>           Bikeshed source document",
    "  -o, --out <FILE>          File to write; parent directories are created",
    "  -f, --forceGlobal         Declare every type globally, ignoring [Exposed]",
    "  -I, --idl                 Write the merged WebIDL instead of TypeScript",
    "  -n, --nominal             Brand interfaces, dictionaries and enums so equal shapes stay distinct",
    "  -v, --version             Print version",
    "      --global-attr <NAME>  Additional extended attribute that marks a definition as global",
    "      --extern <NAME>       Type name to accept without a declaration",
    "      --reject-duplicates   Report members declared twice instead of keeping the last one",
    "      --json                Write the linked model as JSON",
    "      --color <WHEN>        Colorize diagnostics [default: auto] [possible values: auto, always, never]",
    "  -h, --help                Print help",
    "",
    "EXAMPLES:",
    "  bikeshed-to-ts -i fetch.bs -o fetch.d.ts            # module + declare global",
    "  bikeshed-to-ts -i fetch.bs -o fetch.d.ts -f         # everything global",
    "  bikeshed-to-ts -i fetch.bs -o fetch.webidl --idl    # merged WebIDL",
    "  bikeshed-to-ts -i dom.bs -o dom.d.ts --nominal      # branded types"]

def helpText : String :=
  String.join (helpLines.map (· ++ "\n"))

end IdlBindings.CommandLine
