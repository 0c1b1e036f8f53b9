import IdlBindings.Proofs.Model.Passes

/-!
Linking succeeds exactly on well-formed definitions. `WellFormed` says what that is without the folds
of linking: of the definitions themselves, of the lists of members that belong to one name, and of the
declarations with all that is added to them.
-/

namespace IdlBindings

open Definition Linked

namespace Definition

/-- The members that come to a name in order: those of its partial definitions, then those of the
mixins that it includes. -/
def incomingMembers (policy : Policy) (definitions : List Definition) (name : String) :
    List Member :=
  (ofName (partials definitions) name).flatMap members
    ++ includedMembers (withPartials policy definitions) (inclusions definitions) name

/-- A name is declared with a kind that fits, or it is declared elsewhere. -/
def Resolves (policy : Policy) (definitions : List Definition) (name : String)
    (fits : SymbolKind → Prop) : Prop :=
  (∃ kind, Declares (declarations definitions) name kind ∧ fits kind) ∨
    ((∀ d ∈ declarations definitions, d.name ≠ name) ∧ policy.isExternal name = true)

/-- What definitions have to be to make a model. -/
structure WellFormed (policy : Policy) (definitions : List Definition) : Prop where
  distinct : ((declarations definitions).map name).Nodup
  partials : ∀ d ∈ definitions, ∀ c ∈ d.container?, c.isPartial = true →
    Declares (declarations definitions) d.name (.container c.kind)
  includes : ∀ d ∈ definitions, ∀ mixin ∈ d.mixin?,
    Declares (declarations definitions) d.name (.container .interface) ∧
      Declares (declarations definitions) mixin (.container .mixin)
  /-- No member that comes in collides with one that is there before it. -/
  collisions : policy.collision = .reject → ∀ base ∈ declarations definitions,
    Member.Clean base.members (incomingMembers policy definitions base.name)
  parents : ∀ d ∈ folded policy definitions, ∀ c ∈ d.container?, ∀ parent ∈ c.parent,
    Resolves policy definitions parent fun kind => kind = .container c.kind
  references : ∀ d ∈ folded policy definitions, ∀ reference ∈ d.references,
    Resolves policy definitions reference.1 fun kind => kind.isType = true

end Definition

variable {policy : Policy} {definitions : List Definition}

/-! ### The folds -/

theorem symbolKind?_of_declaration {d : Definition} (hd : d ∈ declarations definitions) :
    d.symbolKind? ≠ none := by
  obtain ⟨-, hd⟩ := List.mem_filter.1 hd
  obtain ⟨name, body, extAttrs, span⟩ := d
  cases body with
  | includes mixin => simp [isDeclaration, isIncludes] at hd
  | _ => exact fun h => by cases h

theorem names_withPartials (policy : Policy) (definitions : List Definition) :
    (withPartials policy definitions).map name = (declarations definitions).map name := by
  rw [withPartials, List.map_map]
  exact List.map_congr_left fun d _ => addPartials_name policy _ d

theorem mixin?_of_inclusion {d : Definition} (hd : d ∈ inclusions definitions) : d.mixin? ≠ none := by
  obtain ⟨-, hd⟩ := List.mem_filter.1 hd
  obtain ⟨name, body, extAttrs, span⟩ := d
  cases body with
  | includes mixin => exact fun h => by cases h
  | _ => cases hd

/-- The definitions fit together, pass by pass. -/
structure Fit (policy : Policy) (definitions : List Definition) : Prop where
  distinct : ((declarations definitions).map name).Nodup
  partials : PartialsFit policy (declarations definitions) (partials definitions)
  includes : IncludesFit policy (withPartials policy definitions) (inclusions definitions)

theorem ofDefinitions_eq_foldl (policy : Policy) (definitions : List Definition) :
    Linked.ofDefinitions policy definitions
      = (inclusions definitions).foldl (applyIncludes policy)
        ((partials definitions).foldl (foldPartial policy)
          ((declarations definitions).foldl register empty)) :=
  rfl

theorem ofDefinitions_eq (h : Fit policy definitions) :
    Linked.ofDefinitions policy definitions
      = afterIncludes policy (withPartials policy definitions) (inclusions definitions) := by
  have hregister := (register_all _ fun _ => symbolKind?_of_declaration).2 h.distinct
  have hpartials := (foldPartial_all policy (Definition.partials definitions) h.distinct
    fun _ hd => (List.mem_filter.1 hd).2).2 h.partials
  have hincludes := (applyIncludes_all policy _ (names_withPartials policy definitions ▸ h.distinct)
    fun _ => mixin?_of_inclusion).2 h.includes
  rw [ofDefinitions_eq_foldl, hregister, hpartials]
  exact hincludes

/-- The folds find no fault exactly when the definitions fit together. -/
theorem ofDefinitions_iff :
    (Linked.ofDefinitions policy definitions).diagnostics = [] ↔ Fit policy definitions := by
  constructor
  · intro h
    -- a fold without faults starts without faults, so each pass is known in turn
    rw [ofDefinitions_eq_foldl] at h
    have hfolded := diagnostics_of_foldl (applyIncludes_diagnostics policy) h
    have hregistered := diagnostics_of_foldl (foldPartial_diagnostics policy) hfolded
    have hregister := register_all (declarations definitions) fun _ => symbolKind?_of_declaration
    have hdistinct := hregister.1.1 hregistered
    rw [hregister.2 hdistinct] at h hfolded
    have hpartials := foldPartial_all policy (partials definitions) hdistinct
      fun _ hd => (List.mem_filter.1 hd).2
    have hfit := hpartials.1.1 hfolded
    rw [hpartials.2 hfit] at h
    have hincludes := applyIncludes_all policy (inclusions definitions)
      (names_withPartials policy definitions ▸ hdistinct) fun _ => mixin?_of_inclusion
    exact ⟨hdistinct, hfit, hincludes.1.1 h⟩
  · intro h
    rw [ofDefinitions_eq h]
    rfl

/-! ### Well-formed definitions -/

theorem hasBase_iff {d : Definition} : HasBase (declarations definitions) d ↔
    d.container? ≠ none ∧ ∀ c ∈ d.container?, Declares (declarations definitions) d.name
      (.container c.kind) := by
  unfold HasBase
  cases d.container? with
  | none => simp
  | some c => simp

theorem hasMixin_iff {d : Definition} : HasMixin (withPartials policy definitions) d ↔
    d.mixin? ≠ none ∧ ∀ mixin ∈ d.mixin?,
      Declares (declarations definitions) d.name (.container .interface) ∧
        Declares (declarations definitions) mixin (.container .mixin) := by
  unfold HasMixin withPartials
  simp only [declares_map (addPartials_name policy _) (addPartials_symbolKind? policy _)]
  cases d.mixin? with
  | none => simp
  | some mixin => simp

theorem isPartial_iff {d : Definition} :
    d.isPartial = true ↔ ∃ c ∈ d.container?, c.isPartial = true := by
  unfold isPartial
  cases d.container? <;> simp

theorem isIncludes_iff {d : Definition} : d.isIncludes = true ↔ d.mixin? ≠ none := by
  obtain ⟨name, body, extAttrs, span⟩ := d
  cases body <;> simp [isIncludes, mixin?]

theorem partials_declared_iff :
    (∀ d ∈ partials definitions, HasBase (declarations definitions) d) ↔
      ∀ d ∈ definitions, ∀ c ∈ d.container?, c.isPartial = true →
        Declares (declarations definitions) d.name (.container c.kind) := by
  constructor
  · intro h d hd c hc hpartial
    have hmem : d ∈ partials definitions :=
      List.mem_filter.2 ⟨hd, isPartial_iff.2 ⟨c, hc, hpartial⟩⟩
    exact (hasBase_iff.1 (h d hmem)).2 c hc
  · intro h d hd
    obtain ⟨hmem, hpartial⟩ := List.mem_filter.1 hd
    obtain ⟨c, hc, hpartial⟩ := isPartial_iff.1 hpartial
    exact ⟨c, hc, h d hmem c hc hpartial⟩

theorem includes_declared_iff :
    (∀ d ∈ inclusions definitions, HasMixin (withPartials policy definitions) d) ↔
      ∀ d ∈ definitions, ∀ mixin ∈ d.mixin?,
        Declares (declarations definitions) d.name (.container .interface) ∧
          Declares (declarations definitions) mixin (.container .mixin) := by
  constructor
  · intro h d hd mixin hmixin
    have hmem : d ∈ inclusions definitions := by
      refine List.mem_filter.2 ⟨hd, isIncludes_iff.2 ?_⟩
      rw [show d.mixin? = some mixin from hmixin]
      simp
    exact (hasMixin_iff.1 (h d hmem)).2 mixin hmixin
  · intro h d hd
    exact hasMixin_iff.2 ⟨mixin?_of_inclusion hd, h d ((List.mem_filter.1 hd).1)⟩

section Fit

variable {base : Definition}

/-- What holds no members has no partial definition. -/
theorem ofName_partials_eq_nil (hdistinct : ((declarations definitions).map name).Nodup)
    (hfit : PartialsFit policy (declarations definitions) (partials definitions))
    (hbase : base ∈ declarations definitions) (hcontainer : base.container? = none) :
    ofName (partials definitions) base.name = [] := by
  rw [ofName, List.filter_eq_nil_iff]
  intro d hd hname
  obtain ⟨c, -, other, hother, hsame, hkind⟩ := hfit.declared d hd
  obtain rfl := eq_of_name hdistinct hother hbase (hsame.trans (beq_iff_eq.1 hname))
  obtain ⟨_, hsome, -⟩ := container?_of_symbolKind? hkind
  rw [hcontainer] at hsome
  cases hsome

theorem addPartials_of_container?_eq_none (hdistinct : ((declarations definitions).map name).Nodup)
    (hfit : PartialsFit policy (declarations definitions) (partials definitions))
    (hbase : base ∈ declarations definitions) (hcontainer : base.container? = none) :
    addPartials policy (partials definitions) base = base := by
  rw [addPartials, ofName_partials_eq_nil hdistinct hfit hbase hcontainer]
  exact setMembers_self base

/-- The members of a declaration and of its partial definitions, where none collides. -/
theorem members_addPartials_of_fit (hdistinct : ((declarations definitions).map name).Nodup)
    (hfit : PartialsFit policy (declarations definitions) (partials definitions))
    (hreject : policy.collision = .reject) (hbase : base ∈ declarations definitions) :
    (addPartials policy (partials definitions) base).members
      = base.members ++ (ofName (partials definitions) base.name).flatMap members := by
  by_cases hcontainer : base.container? = none
  · rw [addPartials_of_container?_eq_none hdistinct hfit hbase hcontainer,
      ofName_partials_eq_nil hdistinct hfit hbase hcontainer, List.flatMap_nil, List.append_nil]
  · exact members_addPartials_reject hcontainer hreject (hfit.clean hreject base hbase)

/-- The lists of members that are merged one after the other are clean exactly when what comes to a
name in all is. -/
theorem clean_incomingMembers_iff (hdistinct : ((declarations definitions).map name).Nodup)
    (hfit : PartialsFit policy (declarations definitions) (partials definitions))
    (hreject : policy.collision = .reject) (hbase : base ∈ declarations definitions) :
    Member.Clean base.members (incomingMembers policy definitions base.name) ↔
      Member.Clean (addPartials policy (partials definitions) base).members
        (includedMembers (withPartials policy definitions) (inclusions definitions) base.name) := by
  rw [incomingMembers, Member.clean_append, members_addPartials_of_fit hdistinct hfit hreject hbase]
  exact and_iff_right (hfit.clean hreject base hbase)

end Fit

theorem Definition.WellFormed.fit (h : WellFormed policy definitions) : Fit policy definitions := by
  have hpartials : PartialsFit policy (declarations definitions) (Definition.partials definitions) :=
    ⟨partials_declared_iff.2 h.partials, fun hreject base hbase =>
      (Member.clean_append.1 (h.collisions hreject base hbase)).1⟩
  refine ⟨h.distinct, hpartials, includes_declared_iff.2 h.includes, fun hreject => ?_⟩
  refine List.forall_mem_map.2 fun base hbase => ?_
  rw [addPartials_name]
  exact (clean_incomingMembers_iff h.distinct hpartials hreject hbase).1
    (h.collisions hreject base hbase)

/-- No member that comes in collides, where the passes fit together. -/
theorem Fit.clean (h : Fit policy definitions) (hreject : policy.collision = .reject)
    {base : Definition} (hbase : base ∈ declarations definitions) :
    Member.Clean base.members (incomingMembers policy definitions base.name) := by
  rw [clean_incomingMembers_iff h.distinct h.partials hreject hbase,
    ← addPartials_name policy (Definition.partials definitions) base]
  exact h.includes.clean hreject _ (List.mem_map_of_mem hbase)

/-! ### References -/

theorem declared?_folded (policy : Policy) (definitions : List Definition) (name : String) :
    (declared? (folded policy definitions) name).map Prod.snd
      = (declared? (declarations definitions) name).map Prod.snd := by
  rw [folded, withPartials, declared?_map (addIncludes_name policy _ _)
      (addIncludes_symbolKind? policy _ _),
    declared?_map (addPartials_name policy _) (addPartials_symbolKind? policy _), Option.map_map,
    Option.map_map]
  rfl

theorem resolves_iff (hdistinct : ((declarations definitions).map name).Nodup) {name : String}
    {fits : SymbolKind → Prop} :
    Resolves policy definitions name fits ↔
      match (declared? (folded policy definitions) name).map Prod.snd with
      | some kind => fits kind
      | none => policy.isExternal name = true := by
  unfold Resolves
  simp only [declares_iff hdistinct, declared?_folded]
  cases hdeclared : declared? (declarations definitions) name with
  | some found =>
      obtain ⟨hmem, hname, -⟩ := (declared?_eq_some hdistinct).1 hdeclared
      simp only [Option.map_some, Option.some.injEq, exists_eq_left']
      exact or_iff_left fun h => h.1 found.1 hmem hname
  | none =>
      have hnone : ∀ d ∈ declarations definitions, d.name ≠ name := by
        intro d hd hname
        obtain ⟨kind, hkind⟩ := Option.ne_none_iff_exists'.1 (symbolKind?_of_declaration hd)
        rw [(declared?_eq_some hdistinct).2 ⟨hd, hname, hkind⟩] at hdeclared
        cases hdeclared
      simp only [Option.map_none]
      constructor
      · rintro (⟨_, h, -⟩ | h)
        · cases h
        · exact h.2
      · exact fun h => .inr ⟨hnone, h⟩

theorem referenceFault?_eq_none (hdistinct : ((declarations definitions).map name).Nodup)
    (name : String) (span : Span) :
    referenceFault? policy (folded policy definitions) name span = none ↔
      Resolves policy definitions name fun kind => kind.isType = true := by
  rw [resolves_iff hdistinct]
  unfold referenceFault?
  cases declared? (folded policy definitions) name with
  | none =>
      dsimp only [Option.map_none]
      split <;> simp_all
  | some found =>
      dsimp only [Option.map_some]
      split <;> simp_all

theorem parentFault?_eq_none (hdistinct : ((declarations definitions).map name).Nodup)
    (d : Definition) :
    parentFault? policy (folded policy definitions) d = none ↔
      ∀ c ∈ d.container?, ∀ parent ∈ c.parent,
        Resolves policy definitions parent fun kind => kind = .container c.kind := by
  simp only [resolves_iff hdistinct]
  unfold parentFault?
  cases d.container? with
  | none => simp
  | some c =>
      cases hparent : c.parent with
      | none => simp [hparent]
      | some parent =>
          simp only [Option.mem_def, Option.some.injEq, forall_eq', hparent, Option.bind_eq_bind,
            Option.bind_some]
          cases declared? (folded policy definitions) parent with
          | none =>
              dsimp only [Option.map_none]
              split <;> simp_all
          | some found =>
              dsimp only [Option.map_some]
              split <;> simp_all

theorem resolutionFaults_eq_nil (hdistinct : ((declarations definitions).map name).Nodup) :
    resolutionFaults policy (folded policy definitions) = [] ↔
      (∀ d ∈ folded policy definitions, ∀ c ∈ d.container?, ∀ parent ∈ c.parent,
        Resolves policy definitions parent fun kind => kind = .container c.kind) ∧
      ∀ d ∈ folded policy definitions, ∀ reference ∈ d.references,
        Resolves policy definitions reference.1 fun kind => kind.isType = true := by
  rw [resolutionFaults, List.append_eq_nil_iff, List.filterMap_eq_nil_iff,
    List.filterMap_eq_nil_iff]
  simp only [List.mem_eraseDups, parentFault?_eq_none hdistinct, referenceFault?_eq_none hdistinct,
    List.forall_mem_flatMap]

/-! ### Linking -/

/-- A model is linked from well-formed definitions, and it holds what the folds make of them. -/
theorem wellFormed_of_link {model : Model} (h : Model.link policy definitions = .ok model) :
    WellFormed policy definitions ∧ model.definitions = folded policy definitions ∧
      model.globals = (model.definitions.filter fun d => policy.isGlobal d.extAttrs).map name := by
  rw [Model.link] at h
  split at h
  · rename_i hempty
    obtain ⟨hfolds, hresolved⟩ := List.append_eq_nil_iff.1 (List.isEmpty_iff.1 hempty)
    have hfit := ofDefinitions_iff.1 hfolds
    rw [ofDefinitions_eq hfit] at h hresolved
    obtain ⟨hparents, hreferences⟩ := (resolutionFaults_eq_nil hfit.distinct).1 hresolved
    obtain rfl := Except.ok.inj h
    refine ⟨?_, rfl, rfl⟩
    exact
      { distinct := hfit.distinct
        partials := partials_declared_iff.1 hfit.partials.declared
        includes := includes_declared_iff.1 hfit.includes.declared
        collisions := fun hreject _ hbase => hfit.clean hreject hbase
        parents := hparents
        references := hreferences }
  · cases h

/-- Well-formed definitions are linked. -/
theorem Definition.WellFormed.link (h : WellFormed policy definitions) :
    ∃ model, Model.link policy definitions = .ok model := by
  have hresolved : resolutionFaults policy (folded policy definitions) = [] :=
    (resolutionFaults_eq_nil h.distinct).2 ⟨h.parents, h.references⟩
  rw [Model.link, ofDefinitions_eq h.fit]
  refine ⟨_, if_pos ?_⟩
  rw [List.isEmpty_iff]
  exact hresolved

/-- Linking gives a model exactly when the definitions are well-formed. -/
theorem Model.link_eq_ok_iff (policy : Policy) (definitions : List Definition) :
    (∃ model, Model.link policy definitions = .ok model) ↔ WellFormed policy definitions := by
  constructor
  · rintro ⟨model, h⟩
    exact (wellFormed_of_link h).1
  · exact WellFormed.link

end IdlBindings
