/-! How declarations are written. -/

namespace IdlBindings

structure Style where
  /-- Declare everything in the global scope. -/
  forceGlobal : Bool
  /-- Give interfaces, dictionaries and enumerations a member that tells them apart. -/
  nominal : Bool
  /-- What the name of that member begins with. -/
  brandPrefix : String
  /-- Frozen arrays are read-only. -/
  readonlyArrays : Bool
  /-- A comment at the top. -/
  header : Option String
  /-- One level of indentation. -/
  indent : String
  deriving DecidableEq, Repr

def Style.default : Style := ⟨false, false, "__brand_", true, none, "  "⟩

end IdlBindings
