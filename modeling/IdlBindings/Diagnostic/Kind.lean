/-!
What can be wrong with a document, and the wording of each fault: a message without detail, a
message with one, and a hint.
-/

namespace IdlBindings

/-- The step of the pipeline that finds a fault. -/
inductive Stage where
  | extraction
  | parsing
  | linking
  deriving DecidableEq, Repr

/-- The faults, by stage. -/
inductive FaultKind where
  | unterminatedBlock
  | unterminatedComment
  | interruptedBlock
  | unclosedBrace
  | expectedIdentifier
  | expectedType
  | expectedValue
  | unknownDefinition
  | invalidRecordKey
  | unexpectedToken
  | unresolvedName
  | duplicateDefinition
  | kindConflict
  | duplicateMember
  deriving DecidableEq, Repr

namespace FaultKind

/-- Place in the list of faults: earlier stages first. -/
def rank : FaultKind → Nat
  | .unterminatedBlock => 0
  | .unterminatedComment => 1
  | .interruptedBlock => 2
  | .unclosedBrace => 3
  | .expectedIdentifier => 4
  | .expectedType => 5
  | .expectedValue => 6
  | .unknownDefinition => 7
  | .invalidRecordKey => 8
  | .unexpectedToken => 9
  | .unresolvedName => 10
  | .duplicateDefinition => 11
  | .kindConflict => 12
  | .duplicateMember => 13

/-- The kinds in the order of the list of faults. -/
def sort (kinds : List FaultKind) : List FaultKind :=
  kinds.mergeSort fun a b => a.rank ≤ b.rank

def stage : FaultKind → Stage
  | .unterminatedBlock | .unterminatedComment | .interruptedBlock => .extraction
  | .unclosedBrace | .expectedIdentifier | .expectedType | .expectedValue | .unknownDefinition
  | .invalidRecordKey | .unexpectedToken => .parsing
  | .unresolvedName | .duplicateDefinition | .kindConflict | .duplicateMember => .linking

/-- The advice that goes with every fault of a kind. -/
def hint? : FaultKind → Option String
  | .unterminatedBlock => some "every block must be closed by a matching end tag"
  | .interruptedBlock => some "close the earlier block or escape its markup"
  | .invalidRecordKey => some "record keys must be DOMString, USVString or ByteString"
  | .unresolvedName =>
    some "declare it somewhere in the document or register it as an external name"
  | _ => none

/-- The message of a fault of which no detail is known. -/
def plainMessage : FaultKind → String
  | .unterminatedBlock => "unterminated IDL block"
  | .unterminatedComment => "unterminated HTML comment"
  | .interruptedBlock => "IDL block inside an unclosed block"
  | .unclosedBrace => "missing closing `\x7d`"
  | .expectedIdentifier => "expected an identifier"
  | .expectedType => "expected a type"
  | .expectedValue => "expected a constant value"
  | .unknownDefinition => "expected a definition"
  | .invalidRecordKey => "invalid record key type"
  | .unexpectedToken => "unexpected token"
  | .unresolvedName => "unresolved name"
  | .duplicateDefinition => "duplicate definition"
  | .kindConflict => "name used with conflicting kinds"
  | .duplicateMember => "duplicate member"

/-- What stands before and after the detail in a message that has one. -/
def frame (kind : FaultKind) : String × String :=
  match kind with
  | .unterminatedBlock => ("`", "` block is never closed")
  | .interruptedBlock => ("IDL block opens inside an unclosed `", "` block")
  | .unresolvedName => ("`", "` is not defined")
  | .duplicateDefinition => ("`", "` is already defined")
  | .duplicateMember => ("member `", "` is already declared")
  | .kindConflict => ("", "")
  | .invalidRecordKey => ("`", "` cannot be a record key")
  | .unexpectedToken => ("expected ", "")
  | .unclosedBrace => ("missing closing `\x7d` for ", "")
  | _ => (kind.plainMessage ++ ": ", "")

/-- The message with `detail` in its place. -/
def detailedMessage (kind : FaultKind) (detail : String) : String :=
  kind.frame.1 ++ detail ++ kind.frame.2

/-- The detailed message with a pair of braces for the detail. -/
def template (kind : FaultKind) : String :=
  kind.detailedMessage "\x7b\x7d"

def message (kind : FaultKind) : Option String → String
  | none => kind.plainMessage
  | some detail => kind.detailedMessage detail

end FaultKind

end IdlBindings
