import IdlBindings.Model

/-!
The order in which definitions are declared: what a definition refers to comes before it, and
definitions that do not refer to each other keep the order of the model. A cycle is cut where it
comes back.
-/

namespace IdlBindings

/-- The names that a definition needs: its parent, then its references, each once. -/
def Definition.dependencies (d : Definition) : List String :=
  ((d.container?.bind Container.parent).toList ++ d.references.map Prod.fst).eraseDups

namespace Model

/-- The names met so far, and those of them that are in order. -/
structure Visit where
  visited : List String
  order : List String

/-- Put a definition in order, after what it needs. `depth` bounds the chain of definitions that
wait for each other. -/
def visit (model : Model) : Nat → Visit → Definition → Visit
  | 0, state, _ => state
  | depth + 1, state, d =>
    if state.visited.contains d.name then state
    else
      let entered : Visit := ⟨state.visited ++ [d.name], state.order⟩
      if d.isMixin then entered
      else
        let left := d.dependencies.foldl (fun state name =>
          match model.get? name with
          | some needed => visit model depth state needed
          | none => state) entered
        ⟨left.visited, left.order ++ [d.name]⟩

/-- The names of the definitions in the order of their declarations. Mixins have none: their
members are in the interfaces that include them. -/
def emissionOrder (model : Model) : List String :=
  (model.definitions.foldl (visit model model.definitions.length) ⟨[], []⟩).order

end Model

end IdlBindings
