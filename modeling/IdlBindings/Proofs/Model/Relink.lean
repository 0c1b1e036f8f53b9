import IdlBindings.Proofs.Model.ClosedForm
import IdlBindings.Proofs.Model.Sources
import IdlBindings.Proofs.Syntax.Unplaced

/-!
Linking what a model holds. Such definitions are declarations, so there is nothing to fold, and
their names stand for what they stood for before: linking them again changes nothing, also where they
have other places (`link_again`), and all that is lost is which mixins were included
(`Model.link_definitions`).
-/

namespace IdlBindings

open Definition Linked

namespace Definition

variable {policy : Policy} {definitions others : List Definition} {d e : Definition}

/-! ### Declarations only -/

section Declarations

variable (h : ∀ d ∈ definitions, d.isDeclaration = true)

include h

theorem declarations_eq_self : declarations definitions = definitions :=
  List.filter_eq_self.2 h

theorem partials_eq_nil : partials definitions = [] := by
  refine List.filter_eq_nil_iff.2 fun d hd hpartial => ?_
  have hdeclaration := h d hd
  rw [isDeclaration, hpartial] at hdeclaration
  cases hdeclaration

theorem inclusions_eq_nil : inclusions definitions = [] := by
  refine List.filter_eq_nil_iff.2 fun d hd hincludes => ?_
  have hdeclaration := h d hd
  rw [isDeclaration, hincludes, Bool.not_true, Bool.and_false] at hdeclaration
  cases hdeclaration

/-- Without partial definitions and includes statements nothing is added. -/
theorem folded_eq_self (policy : Policy) : folded policy definitions = definitions := by
  have hnone : foldedOne policy definitions = id := by
    funext base
    rw [foldedOne, partials_eq_nil h, inclusions_eq_nil h, addPartials_nil, addIncludes_nil]
    rfl
  rw [folded_eq_map, hnone, List.map_id, declarations_eq_self h]

theorem incomingMembers_eq_nil_of_declarations (policy : Policy) (name : String) :
    incomingMembers policy definitions name = [] := by
  rw [incomingMembers, partials_eq_nil h, inclusions_eq_nil h]
  rfl

end Declarations

/-! ### Places do not matter -/

theorem container?_unplaced (d : Definition) : d.unplaced.container?
    = d.container?.map fun c => { c with members := c.members.map Member.unplaced } := by
  obtain ⟨name, body, extAttrs, span⟩ := d
  cases body <;> rfl

theorem symbolKind?_unplaced (d : Definition) : d.unplaced.symbolKind? = d.symbolKind? := by
  obtain ⟨name, body, extAttrs, span⟩ := d
  cases body <;> rfl

theorem isDeclaration_unplaced (d : Definition) : d.unplaced.isDeclaration = d.isDeclaration := by
  obtain ⟨name, body, extAttrs, span⟩ := d
  cases body <;> rfl

/-- The names that the types of a definition refer to. -/
theorem map_fst_references (d : Definition) :
    d.references.map Prod.fst = (d.types.map Prod.fst).flatMap IdlType.references := by
  rw [references, List.map_flatMap, List.flatMap_map]
  congr 1
  funext found
  rw [List.map_map]
  exact List.map_id _

theorem map_fst_types_unplaced (d : Definition) :
    d.unplaced.types.map Prod.fst = d.types.map Prod.fst := by
  obtain ⟨name, body, extAttrs, span⟩ := d
  cases body with
  | container c =>
      simp only [unplaced, DefinitionBody.unplaced, types, List.map_flatMap, List.flatMap_map,
        List.map_map]
      rfl
  | callback result args =>
      simp only [unplaced, DefinitionBody.unplaced, types, List.map_cons, List.map_map]
      rfl
  | _ => rfl

theorem exists_of_map_unplaced (hsame : others.map unplaced = definitions.map unplaced)
    (hd : d ∈ others) : ∃ e ∈ definitions, e.unplaced = d.unplaced := by
  have hmem : d.unplaced ∈ others.map unplaced := List.mem_map_of_mem hd
  rw [hsame] at hmem
  exact List.mem_map.1 hmem

theorem map_name_of_unplaced (hsame : others.map unplaced = definitions.map unplaced) :
    others.map name = definitions.map name := by
  have hnames := congrArg (List.map name) hsame
  rwa [List.map_map, List.map_map] at hnames

theorem declares_of_unplaced (hsame : others.map unplaced = definitions.map unplaced)
    {name : String} {kind : SymbolKind} :
    Declares others name kind ↔ Declares definitions name kind := by
  rw [← declares_map (g := unplaced) (fun _ => rfl) symbolKind?_unplaced, hsame,
    declares_map (g := unplaced) (fun _ => rfl) symbolKind?_unplaced]

/-- The container in a definition of which only the places differ. -/
theorem container_of_unplaced (h : e.unplaced = d.unplaced) {c : Container}
    (hc : d.container? = some c) :
    ∃ other, e.container? = some other ∧ other.kind = c.kind ∧ other.parent = c.parent := by
  have hcontainers := congrArg container? h
  rw [container?_unplaced, container?_unplaced, hc] at hcontainers
  obtain ⟨other, hother, hsame⟩ := Option.map_eq_some_iff.1 hcontainers
  obtain ⟨hkind, -, hparent, -⟩ := Container.mk.inj hsame
  exact ⟨other, hother, hkind, hparent⟩

theorem reference_of_unplaced (h : e.unplaced = d.unplaced) {reference : String × Span}
    (hreference : reference ∈ d.references) : ∃ other ∈ e.references, other.1 = reference.1 := by
  have hnames : e.references.map Prod.fst = d.references.map Prod.fst := by
    rw [map_fst_references, map_fst_references, ← map_fst_types_unplaced e, h,
      map_fst_types_unplaced]
  have hmem : reference.1 ∈ d.references.map Prod.fst := List.mem_map_of_mem hreference
  rw [← hnames] at hmem
  exact List.mem_map.1 hmem

/-! ### The definitions of a model -/

theorem names_folded (policy : Policy) (definitions : List Definition) :
    (folded policy definitions).map name = (declarations definitions).map name := by
  rw [folded, List.map_map, ← names_withPartials policy definitions]
  exact List.map_congr_left fun d _ => addIncludes_name policy _ _ d

theorem declares_folded {name : String} {kind : SymbolKind} :
    Declares (folded policy definitions) name kind ↔
      Declares (declarations definitions) name kind := by
  rw [folded, declares_map (addIncludes_name policy _ _) (addIncludes_symbolKind? policy _ _),
    withPartials, declares_map (addPartials_name policy _) (addPartials_symbolKind? policy _)]

section Again

variable (hsame : others.map unplaced = (folded policy definitions).map unplaced)
  (hothers : ∀ d ∈ others, d.isDeclaration = true)

include hsame hothers

/-- A name stands for what it stood for before. -/
theorem Resolves.again {name : String} {fits : SymbolKind → Prop}
    (h : Resolves policy definitions name fits) : Resolves policy others name fits := by
  unfold Resolves
  rw [declarations_eq_self hothers]
  rcases h with ⟨kind, hdeclared, hfits⟩ | ⟨hnone, hexternal⟩
  · exact .inl ⟨kind, (declares_of_unplaced hsame).2 (declares_folded.2 hdeclared), hfits⟩
  · refine .inr ⟨fun d hd heq => ?_, hexternal⟩
    have hmem : d.name ∈ others.map Definition.name := List.mem_map_of_mem hd
    rw [map_name_of_unplaced hsame, names_folded] at hmem
    obtain ⟨base, hbase, hname⟩ := List.mem_map.1 hmem
    exact hnone base hbase (hname.trans heq)

theorem WellFormed.again (h : WellFormed policy definitions) : WellFormed policy others where
  distinct := by
    rw [declarations_eq_self hothers, map_name_of_unplaced hsame, names_folded]
    exact h.distinct
  partials := by
    intro d hd c hc hpartial
    have hmem : d ∈ Definition.partials others :=
      List.mem_filter.2 ⟨hd, isPartial_iff.2 ⟨c, hc, hpartial⟩⟩
    rw [partials_eq_nil hothers] at hmem
    cases hmem
  includes := by
    intro d hd mixin hmixin
    have hmem : d ∈ inclusions others := by
      refine List.mem_filter.2 ⟨hd, isIncludes_iff.2 ?_⟩
      rw [show d.mixin? = some mixin from hmixin]
      simp
    rw [inclusions_eq_nil hothers] at hmem
    cases hmem
  collisions := by
    intro _ base _
    rw [incomingMembers_eq_nil_of_declarations hothers]
    exact Member.clean_nil
  parents := by
    rw [folded_eq_self hothers]
    intro d hd c hc parent hparent
    obtain ⟨e, he, hunplaced⟩ := exists_of_map_unplaced hsame hd
    obtain ⟨other, hother, hkind, hparents⟩ := container_of_unplaced hunplaced hc
    rw [← hkind]
    exact (h.parents e he other hother parent (hparents ▸ hparent)).again hsame hothers
  references := by
    rw [folded_eq_self hothers]
    intro d hd reference hreference
    obtain ⟨e, he, hunplaced⟩ := exists_of_map_unplaced hsame hd
    obtain ⟨other, hother, hname⟩ := reference_of_unplaced hunplaced hreference
    rw [← hname]
    exact (h.references e he other hother).again hsame hothers

end Again

end Definition

/-- Linking what a model holds changes nothing. -/
theorem link_again {policy : Policy} {definitions others : List Definition} {model : Model}
    (h : Model.link policy definitions = .ok model)
    (hsame : others.map unplaced = model.definitions.map unplaced) :
    ∃ again, Model.link policy others = .ok again ∧ again.definitions = others := by
  obtain ⟨hwell, hfolded, -⟩ := wellFormed_of_link h
  have hothers : ∀ d ∈ others, d.isDeclaration = true := by
    intro d hd
    obtain ⟨e, he, hunplaced⟩ := exists_of_map_unplaced hsame hd
    rw [← isDeclaration_unplaced, ← hunplaced, isDeclaration_unplaced]
    exact isDeclaration_of_link h e he
  rw [hfolded] at hsame
  obtain ⟨again, hagain⟩ := (hwell.again hsame hothers).link
  refine ⟨again, hagain, ?_⟩
  rw [(wellFormed_of_link hagain).2.1, folded_eq_self hothers]

namespace Model

/-- A model has no partial definitions and no includes statements, and what it holds is linked to
the model without its consumed mixins. -/
theorem link_definitions {policy : Policy} {definitions : List Definition} {model : Model}
    (h : link policy definitions = .ok model) :
    (∀ d ∈ model.definitions, d.isPartial = false ∧ d.isIncludes = false) ∧
      link policy model.definitions = .ok { model with consumedMixins := [] } := by
  have hdeclarations := isDeclaration_of_link h
  constructor
  · intro d hd
    simpa [isDeclaration] using hdeclarations d hd
  · obtain ⟨hwell, hfolded, hglobals⟩ := wellFormed_of_link h
    rw [link_eq_ok]
    constructor
    · apply hwell.again _ hdeclarations
      rw [hfolded]
    · rw [ofFolds, folded_eq_self hdeclarations, includedMixins, inclusions_eq_nil hdeclarations,
        globalNames, hglobals]
      rfl

/-- A mixin with a type declared elsewhere goes into an interface that a partial definition makes
global. -/
def mixedIn : List Definition :=
  [⟨"A", .container ⟨.interface, true, none, [⟨.stringifier, [], ⟨1, 2⟩⟩]⟩,
      [⟨"Exposed", some .wildcard, none⟩], ⟨0, 3⟩⟩,
    ⟨"A", .includes "M", [], ⟨3, 4⟩⟩,
    ⟨"M", .container ⟨.mixin, false, none,
      [⟨.attribute ⟨"b", .named "BufferSource", false, false, false, false⟩, [], ⟨5, 6⟩⟩]⟩,
      [], ⟨4, 7⟩⟩,
    ⟨"A", .container ⟨.interface, false, none, []⟩, [], ⟨7, 8⟩⟩]

theorem link_definitions_mixedIn : ∃ model, link .default mixedIn = .ok model ∧
    model.globals = ["A"] ∧ model.consumedMixins = ["M"] ∧
    model.definitions.map Definition.members =
      [[⟨.attribute ⟨"b", .named "BufferSource", false, false, false, false⟩, [], ⟨5, 6⟩⟩],
        [⟨.stringifier, [], ⟨1, 2⟩⟩,
          ⟨.attribute ⟨"b", .named "BufferSource", false, false, false, false⟩, [], ⟨5, 6⟩⟩]] ∧
    (∀ d ∈ model.definitions, d.isPartial = false ∧ d.isIncludes = false) ∧
    link .default model.definitions = .ok { model with consumedMixins := [] } := by
  have hlink : link .default mixedIn = .ok _ := rfl
  exact ⟨_, hlink, rfl, rfl, rfl, link_definitions hlink⟩

end Model

end IdlBindings
