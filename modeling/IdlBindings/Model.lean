import IdlBindings.Syntax.Definition

/-! The linked model: every definition once, with all that was added to it, in the order of first
declaration. -/

namespace IdlBindings

structure Model where
  definitions : List Definition
  /-- The names of the definitions that belong to the global scope. -/
  globals : List String
  /-- The mixins that some interface includes. -/
  consumedMixins : List String

/-- The definition of this name. -/
def Definition.named? (definitions : List Definition) (name : String) : Option Definition :=
  definitions.find? fun d => d.name == name

namespace Model

def get? (model : Model) (name : String) : Option Definition :=
  Definition.named? model.definitions name

def container? (model : Model) (name : String) : Option Container :=
  (model.get? name).bind Definition.container?

def kind? (model : Model) (name : String) : Option SymbolKind :=
  (model.get? name).bind Definition.symbolKind?

def names (model : Model) : List String :=
  model.definitions.map Definition.name

/-- The place of a name in the order of first declaration. -/
def position? (model : Model) (name : String) : Option Nat :=
  model.definitions.findIdx? fun d => d.name == name

def isGlobal (model : Model) (name : String) : Bool :=
  model.globals.contains name

def isConsumedMixin (model : Model) (name : String) : Bool :=
  model.consumedMixins.contains name

/-- The model as interface definitions. -/
def text (indent : Nat) (model : Model) : String :=
  Definition.listText indent model.definitions

end Model

end IdlBindings
