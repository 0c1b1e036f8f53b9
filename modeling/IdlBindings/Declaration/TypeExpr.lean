/-!
Type expressions of declaration files, with their text. Unions are built flat and without
duplicates by `TypeExpr.unionOf`; parentheses are decided by binding strength when the text is
written.
-/

namespace IdlBindings

inductive TypeExpr where
  /-- A built-in type. -/
  | keyword (word : String)
  /-- A declared or library type. -/
  | reference (name : String)
  | generic (name : String) (args : List TypeExpr)
  | array (item : TypeExpr)
  | tuple (items : List TypeExpr)
  | union (members : List TypeExpr)
  | intersection (members : List TypeExpr)
  /-- A string literal, with its quotes. -/
  | stringLiteral (quoted : String)
  /-- A number or a truth value. -/
  | literal (source : String)
  /-- An object type; each member is complete but for the `;`. -/
  | object (members : List String)
  /-- A function type; each parameter is complete. -/
  | function (params : List String) (result : TypeExpr)
  deriving Inhabited

namespace TypeExpr

mutual

/-- Whether two type expressions are equal. -/
def same : TypeExpr → TypeExpr → Bool
  | .keyword a, .keyword b => a == b
  | .reference a, .reference b => a == b
  | .generic a as, .generic b bs => a == b && sameAll as bs
  | .array a, .array b => same a b
  | .tuple as, .tuple bs => sameAll as bs
  | .union as, .union bs => sameAll as bs
  | .intersection as, .intersection bs => sameAll as bs
  | .stringLiteral a, .stringLiteral b => a == b
  | .literal a, .literal b => a == b
  | .object as, .object bs => as == bs
  | .function as a, .function bs b => as == bs && same a b
  | _, _ => false

def sameAll : List TypeExpr → List TypeExpr → Bool
  | [], [] => true
  | a :: as, b :: bs => same a b && sameAll as bs
  | _, _ => false

end

mutual

theorem same_iff : ∀ a b : TypeExpr, same a b = true ↔ a = b
  | .keyword _, b => by cases b <;> simp [same]
  | .reference _, b => by cases b <;> simp [same]
  | .generic _ as, b => by cases b <;> simp [same, sameAll_iff as]
  | .array a, b => by cases b <;> simp [same, same_iff a]
  | .tuple as, b => by cases b <;> simp [same, sameAll_iff as]
  | .union as, b => by cases b <;> simp [same, sameAll_iff as]
  | .intersection as, b => by cases b <;> simp [same, sameAll_iff as]
  | .stringLiteral _, b => by cases b <;> simp [same]
  | .literal _, b => by cases b <;> simp [same]
  | .object _, b => by cases b <;> simp [same]
  | .function _ a, b => by cases b <;> simp [same, same_iff a]

theorem sameAll_iff : ∀ as bs : List TypeExpr, sameAll as bs = true ↔ as = bs
  | [], bs => by cases bs <;> simp [sameAll]
  | a :: as, bs => by cases bs <;> simp [sameAll, same_iff a, sameAll_iff as]

end

instance : DecidableEq TypeExpr := fun a b => decidable_of_iff _ (same_iff a b)

/-- The members of a union, or the type itself. -/
def unionMembers : TypeExpr → List TypeExpr
  | .union members => members
  | type => [type]

/-- The union of types: unions among them are opened, duplicates go, and `any` takes in all the
others. -/
def unionOf (types : List TypeExpr) : TypeExpr :=
  let members := (types.flatMap unionMembers).eraseDups
  if members.contains (.keyword "any") then .keyword "any"
  else match members with
    | [] => .keyword "never"
    | [only] => only
    | _ => .union members

/-- The type or `null`. -/
def nullable (type : TypeExpr) : TypeExpr :=
  unionOf [type, .keyword "null"]

/-- How strongly the parts of an expression hold together: function types bind loosest, then
unions, then intersections, then all others. -/
def strength : TypeExpr → Nat
  | .function _ _ => 0
  | .union _ => 1
  | .intersection _ => 2
  | _ => 3

/-- The text, in parentheses if it binds too loosely for its place. -/
def parenthesize (strength least : Nat) (text : String) : String :=
  if strength < least then "(" ++ text ++ ")" else text

mutual

def text : TypeExpr → String
  | .keyword word => word
  | .reference name => name
  | .generic name args => name ++ "<" ++ ", ".intercalate (textsAt 0 args) ++ ">"
  | .array item => parenthesize item.strength 3 item.text ++ "[]"
  | .tuple items => "[" ++ ", ".intercalate (textsAt 0 items) ++ "]"
  | .union members => " | ".intercalate (textsAt 2 members)
  | .intersection members => " & ".intercalate (textsAt 3 members)
  | .stringLiteral quoted => quoted
  | .literal source => source
  | .object members =>
    if members.isEmpty then "\x7b\x7d" else "\x7b " ++ "; ".intercalate members ++ " \x7d"
  | .function params result => "(" ++ ", ".intercalate params ++ ") => " ++ result.text

/-- The texts for a place that needs this strength at least. -/
def textsAt (least : Nat) : List TypeExpr → List String
  | [] => []
  | type :: rest => parenthesize type.strength least type.text :: textsAt least rest

end

end TypeExpr

end IdlBindings
