import IdlBindings.Syntax.Definition

/-! What linking takes as given: how members collide, what makes a name global, what is declared
elsewhere. -/

namespace IdlBindings

/-- What happens to a member that comes into the place of another. -/
inductive Collision where
  /-- It replaces the other. -/
  | replace
  /-- It is an error. -/
  | reject
  deriving DecidableEq, Repr

/-- The list with `name` at its end, unless it is in the list. -/
def insertName (names : List String) (name : String) : List String :=
  if names.contains name then names else names ++ [name]

structure Policy where
  collision : Collision
  /-- The extended attributes that make a definition global. -/
  exposure : List String
  /-- The names that need no declaration. -/
  externals : List String
  deriving DecidableEq, Repr

namespace Policy

def defaultExposure : List String := ["Exposed", "Global"]

def defaultExternals : List String := ["ArrayBufferView", "BufferSource", "AllowSharedBufferSource"]

/-- The last declaration of a member wins. -/
def default : Policy := ⟨.replace, defaultExposure, defaultExternals⟩

def withCollision (policy : Policy) (collision : Collision) : Policy :=
  { policy with collision }

/-- Only these attributes make a definition global. -/
def withExposure (policy : Policy) (names : List String) : Policy :=
  { policy with exposure := names.foldl insertName [] }

def addExposure (policy : Policy) (name : String) : Policy :=
  { policy with exposure := insertName policy.exposure name }

def addExternal (policy : Policy) (name : String) : Policy :=
  { policy with externals := insertName policy.externals name }

def isExternal (policy : Policy) (name : String) : Bool :=
  policy.externals.contains name

/-- Whether one of the extended attributes makes a definition global. -/
def isGlobal (policy : Policy) (extAttrs : List ExtendedAttribute) : Bool :=
  extAttrs.any fun attr => policy.exposure.contains attr.name

end Policy

end IdlBindings
