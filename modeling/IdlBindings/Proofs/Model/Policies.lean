import IdlBindings.Proofs.Model.ClosedForm
import IdlBindings.Proofs.Model.Reordering
import Mathlib.Data.List.Basic

/-!
Linking under two policies. What is linked under one policy is linked under each that is looser,
and to the same definitions: a collision is not there to be treated in one way or the other, and the
names that a policy leaves to others take part in no fold (`Model.link_of_looser`).
-/

namespace IdlBindings

open Definition Linked

/-- What the first policy lets pass the second lets pass, and what both let pass they treat alike. -/
structure Policy.Looser (policy other : Policy) : Prop where
  collision : policy.collision = .reject ∨ other.collision = policy.collision
  externals : ∀ name, policy.isExternal name = true → other.isExternal name = true

variable {policy other : Policy} {definitions : List Definition}

section Looser

variable (hlooser : policy.Looser other)

include hlooser

/-- Members that come together without a collision come together in one way. -/
theorem Member.merged_of_looser {target incoming : List Member}
    (hclean : policy.collision = .reject → Clean target incoming) :
    merged other.collision target incoming = merged policy.collision target incoming := by
  rcases hlooser.collision with hreject | hsame
  · rw [merged_of_clean _ (hclean hreject), merged_of_clean _ (hclean hreject)]
  · rw [hsame]

/-! ### The folds -/

namespace Fit

variable (hfit : Fit policy definitions)

include hfit

theorem withPartials_of_looser :
    withPartials other definitions = withPartials policy definitions := by
  apply List.map_congr_left
  intro base hbase
  rw [addPartials, addPartials,
    Member.merged_of_looser hlooser fun hreject => hfit.partials.clean hreject base hbase]

theorem folded_of_looser : folded other definitions = folded policy definitions := by
  rw [folded, folded, withPartials_of_looser hlooser hfit]
  apply List.map_congr_left
  intro base hbase
  rw [addIncludes, addIncludes,
    Member.merged_of_looser hlooser fun hreject => hfit.includes.clean hreject base hbase]

end Fit

/-! ### Well-formed definitions -/

namespace Definition

theorem Resolves.of_looser {name : String} {fits : SymbolKind → Prop}
    (h : Resolves policy definitions name fits) : Resolves other definitions name fits :=
  h.imp_right fun ⟨hundeclared, hexternal⟩ => ⟨hundeclared, hlooser.externals name hexternal⟩

theorem WellFormed.of_looser (h : WellFormed policy definitions) :
    WellFormed other definitions where
  distinct := h.distinct
  partials := h.partials
  includes := h.includes
  collisions := by
    intro hreject base hbase
    have hboth : policy.collision = .reject := by
      rcases hlooser.collision with hpolicy | hsame
      · exact hpolicy
      · rw [← hsame, hreject]
    rw [incomingMembers, h.fit.withPartials_of_looser hlooser]
    exact h.collisions hboth base hbase
  parents := by
    rw [h.fit.folded_of_looser hlooser]
    intro d hd c hc parent hparent
    exact (h.parents d hd c hc parent hparent).of_looser hlooser
  references := by
    rw [h.fit.folded_of_looser hlooser]
    intro d hd reference hreference
    exact (h.references d hd reference hreference).of_looser hlooser

end Definition

/-- Only the global names may be others. -/
theorem Model.link_of_looser {model : Model} (h : link policy definitions = .ok model) :
    link other definitions = .ok { model with globals := globalNames other model.definitions } := by
  obtain ⟨hwell, rfl⟩ := link_eq_ok.1 h
  rw [link_eq_ok]
  constructor
  · exact hwell.of_looser hlooser
  · rw [ofFolds, ofFolds, hwell.fit.folded_of_looser hlooser]

end Looser

/-! ### One setting -/

namespace Policy

theorem looser_withCollision (policy : Policy) :
    (policy.withCollision .reject).Looser (policy.withCollision .replace) :=
  ⟨.inl rfl, fun _ h => h⟩

theorem looser_addExternal (policy : Policy) (name : String) :
    policy.Looser (policy.addExternal name) := by
  constructor
  · exact .inr rfl
  · intro declared hdeclared
    rw [isExternal, List.contains_iff_mem] at hdeclared ⊢
    exact mem_insertName.2 (.inl hdeclared)

theorem looser_addExposure (policy : Policy) (name : String) :
    policy.Looser (policy.addExposure name) :=
  ⟨.inr rfl, fun _ h => h⟩

theorem isGlobal_addExposure (policy : Policy) (name : String) {extAttrs : List ExtendedAttribute}
    (h : policy.isGlobal extAttrs = true) : (policy.addExposure name).isGlobal extAttrs = true := by
  rw [isGlobal, List.any_eq_true] at h ⊢
  obtain ⟨attr, hattr, hexposed⟩ := h
  refine ⟨attr, hattr, ?_⟩
  rw [List.contains_iff_mem] at hexposed ⊢
  exact mem_insertName.2 (.inl hexposed)

end Policy

theorem Definition.globalNames_addExposure (policy : Policy) (name : String)
    (definitions : List Definition) :
    (globalNames policy definitions).Sublist
      (globalNames (policy.addExposure name) definitions) := by
  apply List.Sublist.map
  exact List.monotone_filter_right definitions fun d => policy.isGlobal_addExposure name

namespace Model

/-- What is linked where collisions are errors is linked to the same model where members replace
others. One more name that is declared elsewhere changes nothing, and one more extended attribute
that makes definitions global adds names to the global ones. -/
theorem link_monotone (policy : Policy) (definitions : List Definition) :
    (∀ model, link (policy.withCollision .reject) definitions = .ok model →
      link (policy.withCollision .replace) definitions = .ok model) ∧
    ∀ model, link policy definitions = .ok model →
      (∀ name, link (policy.addExternal name) definitions = .ok model) ∧
      ∀ name, ∃ globals, link (policy.addExposure name) definitions = .ok { model with globals } ∧
        model.globals.Sublist globals := by
  have hglobals {policy : Policy} {model : Model} (h : link policy definitions = .ok model) :
      model.globals = globalNames policy model.definitions :=
    (wellFormed_of_link h).2.2
  constructor
  · intro model h
    have hreplace := link_of_looser policy.looser_withCollision h
    rwa [show globalNames (policy.withCollision .replace) model.definitions = model.globals from
      (hglobals h).symm] at hreplace
  · intro model h
    constructor
    · intro name
      have hexternal := link_of_looser (policy.looser_addExternal name) h
      rwa [show globalNames (policy.addExternal name) model.definitions = model.globals from
        (hglobals h).symm] at hexternal
    · intro name
      refine ⟨_, link_of_looser (policy.looser_addExposure name) h, ?_⟩
      rw [hglobals h]
      exact globalNames_addExposure policy name model.definitions

/-- An interface, and its partial definition, which brings a member of a type declared elsewhere. -/
def borrowing : List Definition :=
  [⟨"A", .container ⟨.interface, false, none, [⟨.stringifier, [], ⟨1, 2⟩⟩]⟩,
      [⟨"Exposed", some .wildcard, none⟩], ⟨0, 3⟩⟩,
    ⟨"A", .container ⟨.interface, true, none,
      [⟨.attribute ⟨"b", .named "BufferSource", false, false, false, false⟩, [], ⟨4, 5⟩⟩]⟩,
      [⟨"Global", none, none⟩], ⟨3, 6⟩⟩]

theorem link_monotone_borrowing : ∃ model,
    link (Policy.default.withCollision .reject) borrowing = .ok model ∧ model.globals = ["A"] ∧
      link (Policy.default.withCollision .replace) borrowing = .ok model ∧
      link ((Policy.default.withCollision .reject).addExternal "C") borrowing = .ok model ∧
      ∃ globals, link ((Policy.default.withCollision .reject).addExposure "C") borrowing
        = .ok { model with globals } ∧ model.globals.Sublist globals := by
  have hlink : link (Policy.default.withCollision .reject) borrowing = .ok _ := rfl
  obtain ⟨hreplace, -⟩ := link_monotone .default borrowing
  obtain ⟨-, hadd⟩ := link_monotone (Policy.default.withCollision .reject) borrowing
  obtain ⟨hexternal, hexposure⟩ := hadd _ hlink
  exact ⟨_, hlink, rfl, hreplace _ hlink, hexternal "C", hexposure "C"⟩

end Model

end IdlBindings
