import IdlBindings.Diagnostic
import IdlBindings.Model.Policy

/-!
Bringing members together. The key of a member tells which others it cannot stand beside;
operations may share a name as overloads.
-/

namespace IdlBindings

/-- What tells a member from the others of its definition. -/
inductive MemberKey where
  | named (isStatic : Bool) (name : String)
  | operation (isStatic : Bool) (name : Option String) (special : Option Special)
      (signature : List String)
  | constructor (signature : List String)
  /-- One iteration, map or set. -/
  | iteration
  | stringifier
  deriving DecidableEq, Repr

namespace MemberKey

/-- The argument types, each without the extended attributes in front of it. -/
def signature (args : List Argument) : List String :=
  args.map fun arg => arg.type.unannotated.text

def ofBody : MemberBody → MemberKey
  | .const name _ _ => .named false name
  | .attribute a => .named a.isStatic a.name
  | .operation o => .operation o.isStatic o.name o.special (signature o.args)
  | .constructor args => .constructor (signature args)
  | .field f => .named false f.name
  | .iteration _ => .iteration
  | .stringifier => .stringifier

/-- The side and the name under which a member is found. -/
def slot? : MemberKey → Option (Bool × String)
  | .named isStatic name | .operation isStatic (some name) _ _ => some (isStatic, name)
  | _ => none

def isOperation : MemberKey → Bool
  | .operation .. => true
  | _ => false

/-- Whether two members cannot stand side by side: their keys are equal, or they have one name on one
side and are not both operations. -/
def collides (a b : MemberKey) : Bool :=
  a == b || (a.slot?.isSome && a.slot? == b.slot? && !(a.isOperation && b.isOperation))

end MemberKey

namespace Member

def key (m : Member) : MemberKey :=
  .ofBody m.body

def collides (a b : Member) : Bool :=
  a.key.collides b.key

/-- The name of a member in messages. -/
def label (m : Member) : String :=
  match m.body with
  | .constructor _ => "constructor"
  | .iteration _ => "iterable"
  | .stringifier => "stringifier"
  | .operation o => o.name.getD (match o.special with
    | some special => special.keyword
    | none => "operation")
  | .const name _ _ => name
  | .attribute a => a.name
  | .field f => f.name

/-- Put `m` in the place of the first member that it collides with, and drop the others that it
collides with; without one, put it at the end. -/
def insert (m : Member) : List Member → List Member
  | [] => [m]
  | first :: rest =>
    if first.collides m then m :: rest.filter fun other => !other.collides m
    else first :: insert m rest

/-- Add `incoming` to the members of `owner` in order. -/
def merge (owner : String) (collision : Collision) :
    List Member → List Member → List Member × List Diagnostic
  | target, [] => (target, [])
  | target, m :: rest =>
    match collision, target.find? (·.collides m) with
    | .reject, some other =>
      let (members, diagnostics) := merge owner collision target rest
      (members,
        (Diagnostic.report .duplicateMember m.span (owner ++ "." ++ m.label)).withRelated
          "previously declared here" other.span :: diagnostics)
    | _, _ => merge owner collision (m.insert target) rest

/-- The number of incoming members that collide with one that is there before them. -/
def collisionCount (collision : Collision) : List Member → List Member → Nat
  | _, [] => 0
  | target, m :: rest =>
    match collision, target.find? (·.collides m) with
    | .reject, some _ => collisionCount collision target rest + 1
    | _, some _ => collisionCount collision (m.insert target) rest + 1
    | _, none => collisionCount collision (m.insert target) rest

end Member

end IdlBindings
