import IdlBindings.Proofs.Model.ClosedForm
import IdlBindings.Proofs.Model.Content

/-!
The order of definitions does not matter to linking, but for that of the partial definitions of one
name and of the includes statements of one target. Each pass looks up what it needs by name, and the
names are distinct, so a reordering changes no lookup: a name becomes the same definition
(`Definition.Reordered.foldedOne_eq`), and well-formed definitions stay so
(`Definition.Reordered.wellFormed`).
-/

namespace IdlBindings

open Definition Linked

namespace Definition

/-- The same definitions in another order. The partial definitions of each name and the includes
statements of each target keep their order. -/
structure Reordered (definitions others : List Definition) : Prop where
  perm : definitions.Perm others
  partials : ∀ name, ofName (Definition.partials definitions) name
    = ofName (Definition.partials others) name
  inclusions : ∀ name, ofName (Definition.inclusions definitions) name
    = ofName (Definition.inclusions others) name

variable {policy : Policy} {definitions others : List Definition}

/-! ### Lookups by name -/

theorem named?_perm (hperm : definitions.Perm others)
    (hnodup : (definitions.map Definition.name).Nodup) (name : String) :
    named? definitions name = named? others name := by
  have hnodup' : (others.map Definition.name).Nodup := (hperm.map Definition.name).nodup_iff.1 hnodup
  apply Option.ext
  intro d
  rw [named?_eq_some hnodup, named?_eq_some hnodup', hperm.mem_iff]

theorem membersOf_perm (hperm : definitions.Perm others)
    (hnodup : (definitions.map Definition.name).Nodup) :
    membersOf definitions = membersOf others := by
  funext name
  rw [membersOf, membersOf, named?_perm hperm hnodup]

theorem declares_perm (hperm : definitions.Perm others) {name : String} {kind : SymbolKind} :
    Declares definitions name kind ↔ Declares others name kind := by
  simp only [Declares, hperm.mem_iff]

namespace Reordered

variable (h : Reordered definitions others)

include h

theorem symm : Reordered others definitions :=
  ⟨h.perm.symm, fun name => (h.partials name).symm, fun name => (h.inclusions name).symm⟩

theorem declarations : (Definition.declarations definitions).Perm (Definition.declarations others) :=
  h.perm.filter _

theorem distinct (hdistinct : ((Definition.declarations definitions).map Definition.name).Nodup) :
    ((Definition.declarations others).map Definition.name).Nodup :=
  (h.declarations.map Definition.name).nodup_iff.1 hdistinct

theorem resolves {name : String} {fits : SymbolKind → Prop}
    (hname : Resolves policy definitions name fits) : Resolves policy others name fits := by
  rcases hname with ⟨kind, hdeclared, hfits⟩ | ⟨hnone, hexternal⟩
  · exact .inl ⟨kind, (declares_perm h.declarations).1 hdeclared, hfits⟩
  · exact .inr ⟨fun d hd => hnone d (h.declarations.mem_iff.2 hd), hexternal⟩

/-! ### What comes to a name -/

theorem addPartials_eq (policy : Policy) :
    addPartials policy (Definition.partials definitions)
      = addPartials policy (Definition.partials others) := by
  funext base
  rw [addPartials, addPartials, h.partials base.name]

theorem withPartials (policy : Policy) :
    (Definition.withPartials policy definitions).Perm (Definition.withPartials policy others) := by
  rw [Definition.withPartials, Definition.withPartials, h.addPartials_eq policy]
  exact h.declarations.map _

variable (hdistinct : ((Definition.declarations definitions).map Definition.name).Nodup)

include hdistinct

theorem includedMembers_eq (policy : Policy) (target : String) :
    includedMembers (Definition.withPartials policy definitions)
        (Definition.inclusions definitions) target
      = includedMembers (Definition.withPartials policy others)
        (Definition.inclusions others) target := by
  have hnodup : ((Definition.withPartials policy definitions).map Definition.name).Nodup := by
    rw [names_withPartials]
    exact hdistinct
  rw [includedMembers, includedMembers, h.inclusions target,
    membersOf_perm (h.withPartials policy) hnodup]

theorem incomingMembers_eq (policy : Policy) (name : String) :
    incomingMembers policy definitions name = incomingMembers policy others name := by
  rw [incomingMembers, incomingMembers, h.partials name, h.includedMembers_eq hdistinct]

/-- A declaration becomes the same definition. -/
theorem foldedOne_eq (policy : Policy) :
    foldedOne policy definitions = foldedOne policy others := by
  funext base
  rw [foldedOne, foldedOne, h.addPartials_eq policy, addIncludes, addIncludes,
    h.includedMembers_eq hdistinct]

theorem folded (policy : Policy) :
    (Definition.folded policy definitions).Perm (Definition.folded policy others) := by
  rw [folded_eq_map, folded_eq_map, h.foldedOne_eq hdistinct policy]
  exact h.declarations.map _

omit hdistinct

/-- Well-formed definitions are so in any order. -/
theorem wellFormed (hwell : WellFormed policy definitions) : WellFormed policy others where
  distinct := h.distinct hwell.distinct
  partials := by
    intro d hd c hc hpartial
    rw [← declares_perm h.declarations]
    exact hwell.partials d (h.perm.mem_iff.2 hd) c hc hpartial
  includes := by
    intro d hd mixin hmixin
    rw [← declares_perm h.declarations, ← declares_perm h.declarations]
    exact hwell.includes d (h.perm.mem_iff.2 hd) mixin hmixin
  collisions := by
    intro hreject base hbase
    rw [← h.incomingMembers_eq hwell.distinct policy base.name]
    exact hwell.collisions hreject base (h.declarations.mem_iff.2 hbase)
  parents := by
    intro d hd c hc parent hparent
    have hmem := (h.folded hwell.distinct policy).mem_iff.2 hd
    exact h.resolves (hwell.parents d hmem c hc parent hparent)
  references := by
    intro d hd reference hreference
    have hmem := (h.folded hwell.distinct policy).mem_iff.2 hd
    exact h.resolves (hwell.references d hmem reference hreference)

end Reordered

end Definition

/-! ### Linked models -/

variable {policy : Policy} {definitions others : List Definition} {model other : Model}

theorem mem_insertName {names : List String} {name item : String} :
    name ∈ insertName names item ↔ name ∈ names ∨ name = item := by
  unfold insertName
  by_cases hitem : item ∈ names
  · rw [if_pos (List.contains_iff_mem.2 hitem)]
    constructor
    · exact Or.inl
    · rintro (hname | rfl)
      · exact hname
      · exact hitem
  · rw [if_neg (by simpa using hitem), List.mem_append, List.mem_singleton]

theorem mem_foldl_insertName {name : String} (names items : List String) :
    name ∈ items.foldl insertName names ↔ name ∈ names ∨ name ∈ items := by
  induction items generalizing names with
  | nil => simp
  | cons item rest ih => rw [List.foldl_cons, ih, List.mem_cons, ← or_assoc, mem_insertName]

/-- The consumed mixins are those that some includes statement names. -/
theorem mem_consumedMixins_of_link (h : Model.link policy definitions = .ok model)
    {mixin : String} :
    mixin ∈ model.consumedMixins ↔ ∃ d ∈ inclusions definitions, d.mixin? = some mixin := by
  obtain ⟨-, rfl⟩ := Model.link_eq_ok.1 h
  rw [Model.ofFolds, includedMixins, mem_foldl_insertName, List.mem_filterMap]
  simp

theorem mem_globals_of_link (h : Model.link policy definitions = .ok model) {name : String} :
    name ∈ model.globals ↔
      ∃ d ∈ model.definitions, policy.isGlobal d.extAttrs = true ∧ d.name = name := by
  rw [(wellFormed_of_link h).2.2, List.mem_map]
  simp only [List.mem_filter, and_assoc]

/-- Reordered definitions are linked if one of them is, and then every name stands for the same
definition in both models, is global in both or in neither, and is a mixin that some interface
includes in both or in neither. -/
theorem Model.link_reordered (h : Reordered definitions others) :
    ((∃ model, Model.link policy definitions = .ok model) ↔
      ∃ model, Model.link policy others = .ok model) ∧
    ∀ model other, Model.link policy definitions = .ok model →
      Model.link policy others = .ok other →
      ∀ name, model.get? name = other.get? name ∧
        (name ∈ model.globals ↔ name ∈ other.globals) ∧
        (name ∈ model.consumedMixins ↔ name ∈ other.consumedMixins) := by
  refine ⟨⟨?_, ?_⟩, fun model other hmodel hother name => ?_⟩
  · rintro ⟨model, hmodel⟩
    exact (h.wellFormed (wellFormed_of_link hmodel).1).link
  · rintro ⟨model, hmodel⟩
    exact (h.symm.wellFormed (wellFormed_of_link hmodel).1).link
  · obtain ⟨hwell, hdefinitions, -⟩ := wellFormed_of_link hmodel
    have hperm : model.definitions.Perm other.definitions := by
      rw [hdefinitions, (wellFormed_of_link hother).2.1]
      exact h.folded hwell.distinct policy
    have hnodup : (model.definitions.map Definition.name).Nodup := by
      have hnames : model.definitions.map Definition.name
          = (declarations definitions).map Definition.name := by
        rw [hdefinitions, folded_eq_map, List.map_map]
        exact List.map_congr_left fun base hbase => (content_foldedOne hwell.fit hbase).name
      rw [hnames]
      exact hwell.distinct
    refine ⟨named?_perm hperm hnodup name, ?_, ?_⟩
    · simp only [mem_globals_of_link hmodel, mem_globals_of_link hother, hperm.mem_iff]
    · have hinclusions : (inclusions definitions).Perm (inclusions others) := h.perm.filter _
      simp only [mem_consumedMixins_of_link hmodel, mem_consumedMixins_of_link hother,
        hinclusions.mem_iff]

def emptyInterface : Definition := ⟨"A", .container ⟨.interface, false, none, []⟩, [], ⟨1, 2⟩⟩

def partialInterface : Definition :=
  ⟨"A", .container ⟨.interface, true, none, [⟨.stringifier, [], ⟨0, 1⟩⟩]⟩, [], ⟨0, 1⟩⟩

/-- A partial definition may stand before the interface that it belongs to. -/
theorem Model.link_reordered_partialInterface : ∃ model other,
    Model.link .default [partialInterface, emptyInterface] = .ok model ∧
    Model.link .default [emptyInterface, partialInterface] = .ok other ∧
    ∀ name, model.get? name = other.get? name ∧
      (name ∈ model.globals ↔ name ∈ other.globals) ∧
      (name ∈ model.consumedMixins ↔ name ∈ other.consumedMixins) := by
  have hreordered : Reordered [partialInterface, emptyInterface] [emptyInterface, partialInterface] :=
    ⟨List.Perm.swap _ _ _, fun _ => rfl, fun _ => rfl⟩
  exact ⟨_, _, rfl, rfl, (@Model.link_reordered .default _ _ hreordered).2 _ _ rfl rfl⟩

end IdlBindings
