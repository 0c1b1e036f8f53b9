import IdlBindings.Proofs.Model.WellFormed

/-!
What a linked model is, without the passes of linking: well-formed definitions have one model, which
`Model.ofFolds` gives (`Model.link_eq_ok`).
-/

namespace IdlBindings

open Definition Linked

/-- The names of the definitions that are global. -/
def Definition.globalNames (policy : Policy) (definitions : List Definition) : List String :=
  (definitions.filter fun d => policy.isGlobal d.extAttrs).map name

/-- The mixins that includes statements name, each once. -/
def Definition.includedMixins (definitions : List Definition) : List String :=
  ((inclusions definitions).filterMap mixin?).foldl insertName []

namespace Model

/-- The model of well-formed definitions. -/
def ofFolds (policy : Policy) (definitions : List Definition) : Model :=
  ⟨folded policy definitions, globalNames policy (folded policy definitions),
    includedMixins definitions⟩

variable {policy : Policy} {definitions : List Definition} {model : Model}

/-- Linking gives the model of the definitions if they are well-formed, and no other. -/
theorem link_eq_ok : link policy definitions = .ok model ↔
    WellFormed policy definitions ∧ ofFolds policy definitions = model := by
  have hmodel {model : Model} (h : link policy definitions = .ok model) :
      ofFolds policy definitions = model := by
    rw [link, ofDefinitions_eq (wellFormed_of_link h).1.fit] at h
    split at h
    · exact Except.ok.inj h
    · cases h
  constructor
  · exact fun h => ⟨(wellFormed_of_link h).1, hmodel h⟩
  · rintro ⟨hwell, rfl⟩
    obtain ⟨model, h⟩ := hwell.link
    rw [h, hmodel h]

end Model

end IdlBindings
