import IdlBindings.Proofs.Model.WellFormed

/-!
What the linked model holds: every declaration once and in order, its members with those that come in,
its extended attributes with the new ones, and the global names.
-/

namespace IdlBindings

open Definition Linked

/-- The extended attributes whose text is neither among `texts` nor that of an earlier one. -/
def ExtendedAttribute.unseen (texts : List String) : List ExtendedAttribute → List ExtendedAttribute
  | [] => []
  | attr :: rest =>
    if texts.contains attr.text then unseen texts rest
    else attr :: unseen (texts ++ [attr.text]) rest

/-- The extended attributes of the partial definitions of a name, in order. -/
def Definition.incomingExtAttrs (definitions : List Definition) (name : String) :
    List ExtendedAttribute :=
  (ofName (partials definitions) name).flatMap extAttrs

/-- What a declaration becomes in a linked model. -/
structure Linked.Content (policy : Policy) (definitions : List Definition)
    (base result : Definition) : Prop where
  name : result.name = base.name
  /-- What holds no members stays as it is. -/
  unchanged : base.container? = none → result = base
  /-- Only the members of a container change. -/
  container : ∀ c ∈ base.container?,
    result.container? = some { c with members := result.members }
  extAttrs : result.extAttrs = base.extAttrs
    ++ ExtendedAttribute.unseen (base.extAttrs.map ExtendedAttribute.text)
      (incomingExtAttrs definitions base.name)
  /-- Where members replace others, those are left that no later incoming member collides with. -/
  replaced : policy.collision = .replace → result.members.Perm
    (Member.kept (incomingMembers policy definitions base.name) base.members
      ++ Member.lasting (incomingMembers policy definitions base.name))
  ordered : policy.collision = .replace →
    (Member.kept (incomingMembers policy definitions base.name) base.members).Sublist result.members
  rejected : policy.collision = .reject →
    result.members = base.members ++ incomingMembers policy definitions base.name

variable {policy : Policy} {definitions : List Definition}

theorem foldl_insertExtAttr (extAttrs attrs : List ExtendedAttribute) :
    attrs.foldl insertExtAttr extAttrs
      = extAttrs ++ ExtendedAttribute.unseen (extAttrs.map ExtendedAttribute.text) attrs := by
  induction attrs generalizing extAttrs with
  | nil => rw [List.foldl_nil, ExtendedAttribute.unseen, List.append_nil]
  | cons attr rest ih =>
      have hany : (extAttrs.any fun other => other.text == attr.text)
          = (extAttrs.map ExtendedAttribute.text).contains attr.text := by
        rw [List.contains_eq_any_beq, List.any_map]
        congr 1
        funext other
        exact Bool.beq_comm ..
      rw [List.foldl_cons, ExtendedAttribute.unseen, insertExtAttr, hany]
      split
      · exact ih extAttrs
      · rw [ih, List.map_append, List.append_assoc]
        rfl

/-- What a declaration becomes. -/
def Definition.foldedOne (policy : Policy) (definitions : List Definition) (base : Definition) :
    Definition :=
  addIncludes policy (withPartials policy definitions) (inclusions definitions)
    (addPartials policy (partials definitions) base)

theorem folded_eq_map (policy : Policy) (definitions : List Definition) :
    folded policy definitions = (declarations definitions).map (foldedOne policy definitions) :=
  List.map_map

section Fit

variable (h : Fit policy definitions) {base : Definition} (hbase : base ∈ declarations definitions)

include h hbase

/-- Nothing comes to what holds no members. -/
theorem incomingMembers_eq_nil (hcontainer : base.container? = none) :
    incomingMembers policy definitions base.name = [] := by
  have hkind : (addPartials policy (partials definitions) base).symbolKind?
      ≠ some (.container .interface) := by
    intro hkind
    rw [addPartials_symbolKind?] at hkind
    obtain ⟨_, hsome, -⟩ := container?_of_symbolKind? hkind
    rw [hcontainer] at hsome
    cases hsome
  have hincluded := includedMembers_eq_nil (names_withPartials policy definitions ▸ h.distinct)
    h.includes (List.mem_map_of_mem hbase) hkind
  rw [addPartials_name] at hincluded
  rw [incomingMembers, ofName_partials_eq_nil h.distinct h.partials hbase hcontainer, hincluded]
  rfl

theorem foldedOne_of_container?_eq_none (hcontainer : base.container? = none) :
    foldedOne policy definitions base = base := by
  rw [foldedOne, addPartials_of_container?_eq_none h.distinct h.partials hbase hcontainer,
    addIncludes, setMembers_of_container?_eq_none _ _ hcontainer]

/-- The folds merge all members that come to a name in one list. -/
theorem members_foldedOne : (foldedOne policy definitions base).members
    = Member.merged policy.collision base.members (incomingMembers policy definitions base.name) := by
  by_cases hcontainer : base.container? = none
  · rw [foldedOne_of_container?_eq_none h hbase hcontainer,
      incomingMembers_eq_nil h hbase hcontainer, Member.merged_nil]
  · have hpartials : (addPartials policy (partials definitions) base).container? ≠ none := by
      rw [container?_addPartials]
      simpa using hcontainer
    rw [foldedOne, members_addIncludes hpartials, members_addPartials hcontainer, addPartials_name,
      incomingMembers, Member.merged_append]

theorem content_foldedOne : Content policy definitions base (foldedOne policy definitions base) where
  name := by rw [foldedOne, addIncludes_name, addPartials_name]
  unchanged := foldedOne_of_container?_eq_none h hbase
  container := by
    intro c hc
    obtain ⟨members, hresult⟩ : ∃ members,
        (foldedOne policy definitions base).container? = some { c with members } := by
      rw [foldedOne, addIncludes, container?_setMembers, container?_addPartials,
        show base.container? = some c from hc]
      exact ⟨_, rfl⟩
    have hmembers : (foldedOne policy definitions base).members = members := by
      rw [Definition.members, hresult]
    rw [hresult, hmembers]
  extAttrs := by
    rw [foldedOne, addIncludes, setMembers_extAttrs, addPartials, setMembers_extAttrs]
    exact foldl_insertExtAttr ..
  replaced := by
    intro hreplace
    rw [members_foldedOne h hbase, hreplace]
    exact Member.merged_replace_perm ..
  ordered := by
    intro hreplace
    rw [members_foldedOne h hbase, hreplace]
    exact Member.kept_sublist_merged ..
  rejected := by
    intro hreject
    rw [members_foldedOne h hbase, hreject]
    exact Member.merged_reject (h.clean hreject hbase)

end Fit

/-- A linked model holds the declarations in order, each with what comes to it, and its global names
are those of the definitions with an exposing attribute. -/
theorem Model.content_of_link {model : Model} (h : Model.link policy definitions = .ok model) :
    model.names = (declarations definitions).map Definition.name ∧
    (∃ result : Definition → Definition,
      model.definitions = (declarations definitions).map result ∧
        ∀ base ∈ declarations definitions, Content policy definitions base (result base)) ∧
    ∀ name, name ∈ model.globals ↔ ∃ d ∈ model.definitions, d.name = name ∧
      ∃ attr ∈ d.extAttrs, attr.name ∈ policy.exposure := by
  obtain ⟨hwell, hfolded, hglobals⟩ := wellFormed_of_link h
  have hdefinitions : model.definitions
      = (declarations definitions).map (foldedOne policy definitions) := by
    rw [hfolded, folded_eq_map]
  have hcontent : ∀ base ∈ declarations definitions,
      Content policy definitions base (foldedOne policy definitions base) :=
    fun _ hbase => content_foldedOne hwell.fit hbase
  refine ⟨?_, ⟨foldedOne policy definitions, hdefinitions, hcontent⟩, fun name => ?_⟩
  · rw [names, hdefinitions, List.map_map]
    exact List.map_congr_left fun base hbase => (hcontent base hbase).name
  · rw [hglobals]
    simp only [List.mem_map, List.mem_filter, Policy.isGlobal, List.any_eq_true,
      List.contains_iff_mem]
    constructor
    · rintro ⟨d, ⟨hd, hattr⟩, hname⟩
      exact ⟨d, hd, hname, hattr⟩
    · rintro ⟨d, hd, hname, hattr⟩
      exact ⟨d, ⟨hd, hattr⟩, hname⟩

/-- A body with two members that collide and two others, and a partial definition that brings a
member in the place of both. -/
def displacedTwins : List Definition :=
  [⟨"A", .container ⟨.interface, false, none,
      [⟨.stringifier, [], ⟨0, 1⟩⟩, ⟨.iteration ⟨.iterable, false, none, .any, []⟩, [], ⟨1, 2⟩⟩,
        ⟨.stringifier, [], ⟨2, 3⟩⟩, ⟨.constructor [], [], ⟨3, 4⟩⟩]⟩, [], ⟨0, 4⟩⟩,
    ⟨"A", .container ⟨.interface, true, none, [⟨.stringifier, [], ⟨4, 5⟩⟩]⟩, [], ⟨4, 5⟩⟩]

theorem Model.content_of_link_displacedTwins : ∃ model,
    Model.link .default displacedTwins = .ok model ∧ model.names = ["A"] ∧
    ∀ d ∈ model.definitions, d.members.Perm
      [⟨.iteration ⟨.iterable, false, none, .any, []⟩, [], ⟨1, 2⟩⟩, ⟨.constructor [], [], ⟨3, 4⟩⟩,
        ⟨.stringifier, [], ⟨4, 5⟩⟩] := by
  have hlink : Model.link .default displacedTwins = .ok _ := rfl
  obtain ⟨hnames, ⟨result, hdefinitions, hcontent⟩, -⟩ := Model.content_of_link hlink
  refine ⟨_, hlink, hnames, ?_⟩
  rw [hdefinitions]
  rintro _ hd
  obtain ⟨base, hbase, rfl⟩ := List.mem_map.1 hd
  obtain rfl := List.mem_singleton.1 hbase
  exact (hcontent _ hbase).replaced rfl

end IdlBindings
