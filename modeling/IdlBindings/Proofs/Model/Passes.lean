import IdlBindings.Proofs.Model.Folding

/-!
The passes of linking one by one: registering the declarations, folding partial definitions into them
and applying includes statements. Each has its condition and its closed form.
-/

namespace IdlBindings

open Definition

namespace Linked

/-! ### Registering -/

theorem register_diagnostics (linked : Linked) (d : Definition)
    (h : (register linked d).diagnostics = []) : linked.diagnostics = [] := by
  unfold register at h
  split at h
  · exact h
  split at h
  · exact (List.append_eq_nil_iff.1 h).1
  · exact h

/-- Distinct names, of definitions that declare them. -/
def Distinct (items : List Definition) : Prop :=
  (items.map Definition.name).Nodup ∧ ∀ d ∈ items, d.symbolKind? ≠ none

/-- A name that is declared is not declared once more. -/
theorem register_of_mem {items : List Definition} (hitems : Distinct items) {d : Definition}
    (hd : d.symbolKind? ≠ none) (hmem : d.name ∈ items.map Definition.name) :
    (register ⟨items, [], []⟩ d).diagnostics ≠ [] := by
  obtain ⟨kind, hkind⟩ := Option.ne_none_iff_exists'.1 hd
  obtain ⟨other, hother, hname⟩ := List.mem_map.1 hmem
  obtain ⟨otherKind, hotherKind⟩ := Option.ne_none_iff_exists'.1 (hitems.2 other hother)
  unfold register
  rw [hkind]
  dsimp only
  rw [(declared?_eq_some hitems.1).2 ⟨hother, hname, hotherKind⟩]
  exact List.cons_ne_nil _ _

theorem register_of_not_mem {items : List Definition} (hitems : Distinct items) {d : Definition}
    (hd : d.symbolKind? ≠ none) (hmem : d.name ∉ items.map Definition.name) :
    register ⟨items, [], []⟩ d = ⟨items ++ [d], [], []⟩ := by
  obtain ⟨kind, hkind⟩ := Option.ne_none_iff_exists'.1 hd
  unfold register
  rw [hkind]
  dsimp only
  cases hdeclared : declared? items d.name with
  | none => rfl
  | some found =>
      obtain ⟨hother, hname, -⟩ := (declared?_eq_some hitems.1).1 hdeclared
      exact absurd (hname ▸ List.mem_map_of_mem hother) hmem

theorem distinct_append {items : List Definition} {d : Definition} :
    Distinct (items ++ [d]) ↔ Distinct items ∧ d.symbolKind? ≠ none ∧
      d.name ∉ items.map Definition.name := by
  unfold Distinct
  rw [List.map_append, List.nodup_append, List.forall_mem_append]
  constructor
  · rintro ⟨⟨hnodup, -, hother⟩, hkinds, hd⟩
    refine ⟨⟨hnodup, hkinds⟩, hd d List.mem_cons_self, fun hmem => ?_⟩
    exact hother _ hmem _ List.mem_cons_self rfl
  · rintro ⟨⟨hnodup, hkinds⟩, hd, hmem⟩
    refine ⟨⟨hnodup, by simp, fun name hname other hother heq => ?_⟩, hkinds, by simpa using hd⟩
    obtain rfl : other = d.name := by simpa using hother
    exact hmem (heq ▸ hname)

/-- All declarations are registered exactly when no two have one name. -/
theorem register_all (items : List Definition) (hitems : ∀ d ∈ items, d.symbolKind? ≠ none) :
    ((items.foldl register empty).diagnostics = [] ↔ (items.map Definition.name).Nodup) ∧
      ((items.map Definition.name).Nodup → items.foldl register empty = ⟨items, [], []⟩) := by
  have hfold := foldl_iff register (fun items => ⟨items, [], []⟩) Distinct
    (fun d => d.symbolKind? ≠ none) register_diagnostics (fun _ => rfl)
    (fun items more h => ?_) (fun items d hd hfits h => ?_) (fun items d hd hfits => ?_)
    [] ⟨List.nodup_nil, by simp⟩ hitems
  · have hdistinct : Distinct items ↔ (items.map Definition.name).Nodup :=
      ⟨fun h => h.1, fun h => ⟨h, hitems⟩⟩
    rw [List.nil_append, hdistinct] at hfold
    exact hfold
  · refine ⟨?_, fun d hd => h.2 d (List.mem_append_left _ hd)⟩
    have hnodup := h.1
    rw [List.map_append, List.nodup_append] at hnodup
    exact hnodup.1
  · rw [distinct_append]
    exact ⟨hfits, hd, fun hmem => register_of_mem hfits hd hmem h⟩
  · rw [distinct_append] at hfits
    exact register_of_not_mem hfits.1 hd hfits.2.2

/-! ### Partial definitions -/

theorem addMembers_diagnostics (policy : Policy) (linked : Linked) (d : Definition)
    (incoming : List Member) :
    (addMembers policy linked d incoming).diagnostics = [] ↔ linked.diagnostics = [] ∧
      (policy.collision = .reject → Member.Clean d.members incoming) := by
  rw [← Member.merge_snd_eq_nil d.name]
  exact List.append_eq_nil_iff

theorem foldPartial_diagnostics (policy : Policy) (linked : Linked) (d : Definition)
    (h : (foldPartial policy linked d).diagnostics = []) : linked.diagnostics = [] := by
  unfold foldPartial at h
  split at h
  · exact h
  split at h
  · exact (List.append_eq_nil_iff.1 h).1
  split at h
  · exact ((addMembers_diagnostics ..).1 h).1
  · exact (List.append_eq_nil_iff.1 h).1

section Conditions

variable (policy : Policy) (bases : List Definition)

/-- A partial definition belongs to a declaration of its kind. -/
def HasBase (d : Definition) : Prop :=
  ∃ c ∈ d.container?, Declares bases d.name (.container c.kind)

/-- An includes statement names an interface and a mixin. -/
def HasMixin (d : Definition) : Prop :=
  ∃ mixin ∈ d.mixin?, Declares bases d.name (.container .interface) ∧
    Declares bases mixin (.container .mixin)

/-- The partial definitions belong to the declarations, and their members collide with none where
that is an error. -/
structure PartialsFit (items : List Definition) : Prop where
  declared : ∀ d ∈ items, HasBase bases d
  clean : policy.collision = .reject →
    ∀ base ∈ bases, Member.Clean base.members ((ofName items base.name).flatMap members)

/-- The includes statements name interfaces and mixins, and the members that they bring collide with
none where that is an error. -/
structure IncludesFit (items : List Definition) : Prop where
  declared : ∀ d ∈ items, HasMixin bases d
  clean : policy.collision = .reject →
    ∀ base ∈ bases, Member.Clean base.members (includedMembers bases items base.name)

end Conditions

variable {policy : Policy} {bases items : List Definition} {d : Definition}

theorem PartialsFit.of_append {more : List Definition}
    (h : PartialsFit policy bases (items ++ more)) : PartialsFit policy bases items := by
  refine ⟨fun d hd => h.declared d (List.mem_append_left _ hd), fun hreject base hbase => ?_⟩
  have hclean := h.clean hreject base hbase
  rw [ofName_append, List.flatMap_append, Member.clean_append] at hclean
  exact hclean.1

theorem partialsFit_append : PartialsFit policy bases (items ++ [d]) ↔
    PartialsFit policy bases items ∧ HasBase bases d ∧ (policy.collision = .reject →
      ∀ base ∈ bases, base.name = d.name →
        Member.Clean (base.members ++ (ofName items base.name).flatMap members) d.members) := by
  constructor
  · intro h
    refine ⟨h.of_append, h.declared d (by simp), fun hreject base hbase hname => ?_⟩
    have hclean := h.clean hreject base hbase
    rw [ofName_append, List.flatMap_append, Member.clean_append, ofName_singleton hname.symm] at hclean
    simpa using hclean.2
  · rintro ⟨hitems, hd, hmembers⟩
    refine ⟨?_, fun hreject base hbase => ?_⟩
    · rw [List.forall_mem_append]
      exact ⟨hitems.declared, by simpa using hd⟩
    · rw [ofName_append, List.flatMap_append, Member.clean_append]
      refine ⟨hitems.clean hreject base hbase, ?_⟩
      by_cases hname : base.name = d.name
      · rw [ofName_singleton hname.symm]
        simpa using hmembers hreject base hbase hname
      · rw [ofName_singleton_ne fun h => hname h.symm]
        exact Member.clean_nil

theorem addPartials_name (policy : Policy) (items : List Definition) (base : Definition) :
    (addPartials policy items base).name = base.name := by
  rw [addPartials, setMembers_name]

theorem addPartials_symbolKind? (policy : Policy) (items : List Definition) (base : Definition) :
    (addPartials policy items base).symbolKind? = base.symbolKind? := by
  rw [addPartials, setMembers_symbolKind?]
  rfl

theorem container?_addPartials (policy : Policy) (items : List Definition) (base : Definition) :
    (addPartials policy items base).container? = base.container?.map fun c =>
      { c with
        members := Member.merged policy.collision base.members
          ((ofName items base.name).flatMap members) } :=
  container?_setMembers ..

theorem addPartials_nil (policy : Policy) (base : Definition) : addPartials policy [] base = base :=
  setMembers_self base

theorem addPartials_append_of_ne {base : Definition} (h : base.name ≠ d.name) :
    addPartials policy (items ++ [d]) base = addPartials policy items base := by
  rw [addPartials, addPartials, ofName_append, ofName_singleton_ne fun heq => h heq.symm,
    List.append_nil]

/-- One more partial definition of a declaration. -/
theorem addPartials_append {base : Definition} (h : base.name = d.name) :
    addPartials policy (items ++ [d]) base =
      setMembers
        { addPartials policy items base with
          extAttrs := d.extAttrs.foldl insertExtAttr (addPartials policy items base).extAttrs }
        (Member.merged policy.collision (addPartials policy items base).members d.members) := by
  have hlast {β : Type} (f : Definition → List β) :
      (ofName (items ++ [d]) base.name).flatMap f = (ofName items base.name).flatMap f ++ f d := by
    rw [ofName_append, List.flatMap_append, ofName_singleton h.symm]
    simp
  rw [addPartials, hlast, hlast, List.foldl_append, Member.merged_append]
  obtain ⟨name, body, extAttrs, span⟩ := base
  cases body <;> rfl

theorem container?_of_isPartial (hd : d.isPartial = true) : ∃ c, d.container? = some c := by
  rw [isPartial] at hd
  cases hc : d.container? with
  | none =>
      rw [hc] at hd
      cases hd
  | some c => exact ⟨c, rfl⟩

/-- What folding one partial definition does. -/
theorem foldPartial_cases (policy : Policy) (items : List Definition)
    (hnodup : (bases.map Definition.name).Nodup) (hd : d.isPartial = true) :
    (¬ HasBase bases d ∧
      (foldPartial policy ⟨bases.map (addPartials policy items), [], []⟩ d).diagnostics ≠ []) ∨
    ∃ base ∈ bases, base.name = d.name ∧ base.container? ≠ none ∧ HasBase bases d ∧
      foldPartial policy ⟨bases.map (addPartials policy items), [], []⟩ d
        = addMembers policy ⟨update (bases.map (addPartials policy items)) d.name fun base =>
            { base with extAttrs := d.extAttrs.foldl insertExtAttr base.extAttrs }, [], []⟩
          (addPartials policy items base) d.members := by
  obtain ⟨c, hc⟩ := container?_of_isPartial hd
  have hmembers : d.members = c.members := by rw [Definition.members, hc]
  unfold foldPartial
  rw [hc]
  dsimp only
  rw [declared?_map (addPartials_name policy items) (addPartials_symbolKind? policy items)]
  have hbase : HasBase bases d ↔
      (declared? bases d.name).map Prod.snd = some (.container c.kind) := by
    rw [← declares_iff hnodup]
    constructor
    · rintro ⟨other, hother, hdeclares⟩
      obtain rfl : other = c := Option.some.inj (hother.symm.trans hc)
      exact hdeclares
    · exact fun hdeclares => ⟨c, hc, hdeclares⟩
  cases hdeclared : declared? bases d.name with
  | none =>
      rw [hdeclared] at hbase
      exact .inl ⟨fun h => absurd (hbase.1 h) (by simp), List.cons_ne_nil _ _⟩
  | some found =>
      obtain ⟨base, kind⟩ := found
      rw [hdeclared] at hbase
      obtain ⟨hmem, hname, hkind⟩ := (declared?_eq_some hnodup).1 hdeclared
      simp only [Option.map_some, Option.some.injEq] at hbase ⊢
      by_cases hsame : kind = .container c.kind
      · refine .inr ⟨base, hmem, hname, ?_, hbase.2 hsame, ?_⟩
        · obtain ⟨_, hcontainer, -⟩ := container?_of_symbolKind? (hsame ▸ hkind)
          rw [hcontainer]
          simp
        · rw [if_pos hsame, hmembers]
      · left
        rw [if_neg hsame]
        exact ⟨fun h => hsame (hbase.1 h), List.cons_ne_nil _ _⟩

/-- The members of a declaration with those of its partial definitions. -/
theorem members_addPartials {base : Definition} (h : base.container? ≠ none) :
    (addPartials policy items base).members
      = Member.merged policy.collision base.members ((ofName items base.name).flatMap members) :=
  members_setMembers _ _ h

theorem members_addPartials_reject {base : Definition} (h : base.container? ≠ none)
    (hreject : policy.collision = .reject)
    (hclean : Member.Clean base.members ((ofName items base.name).flatMap members)) :
    (addPartials policy items base).members
      = base.members ++ (ofName items base.name).flatMap members := by
  rw [members_addPartials h, hreject, Member.merged_reject hclean]

theorem foldPartial_fits (hnodup : (bases.map Definition.name).Nodup) (hd : d.isPartial = true)
    (hitems : PartialsFit policy bases items)
    (h : (foldPartial policy ⟨bases.map (addPartials policy items), [], []⟩ d).diagnostics = []) :
    PartialsFit policy bases (items ++ [d]) := by
  rcases foldPartial_cases policy items hnodup hd with
    ⟨-, hne⟩ | ⟨base, hbase, hname, hcontainer, hd, heq⟩
  · exact absurd h hne
  · rw [heq, addMembers_diagnostics] at h
    refine partialsFit_append.2 ⟨hitems, hd, fun hreject other hother hother' => ?_⟩
    obtain rfl := eq_of_name hnodup hbase hother (hname.trans hother'.symm)
    rw [← members_addPartials_reject hcontainer hreject (hitems.clean hreject base hbase)]
    exact h.2 hreject

theorem foldPartial_eq (hnodup : (bases.map Definition.name).Nodup) (hd : d.isPartial = true)
    (h : PartialsFit policy bases (items ++ [d])) :
    foldPartial policy ⟨bases.map (addPartials policy items), [], []⟩ d
      = ⟨bases.map (addPartials policy (items ++ [d])), [], []⟩ := by
  obtain ⟨hitems, hbase, hclean⟩ := partialsFit_append.1 h
  rcases foldPartial_cases policy items hnodup hd with
    ⟨hnone, -⟩ | ⟨base, hmem, hname, hcontainer, -, heq⟩
  · exact absurd hbase hnone
  rw [heq, addMembers]
  have hfaults : (Member.merge (addPartials policy items base).name policy.collision
      (addPartials policy items base).members d.members).2 = [] := by
    rw [Member.merge_snd_eq_nil]
    intro hreject
    rw [members_addPartials_reject hcontainer hreject (hitems.clean hreject base hmem)]
    exact hclean hreject base hmem hname
  dsimp only
  rw [hfaults, Member.merge_fst, addPartials_name, List.nil_append, update, update, List.map_map,
    List.map_map]
  congr 1
  apply List.map_congr_left
  intro other hother
  dsimp only [Function.comp_apply]
  by_cases hsame : other.name = d.name
  · obtain rfl := eq_of_name hnodup hother hmem (hsame.trans hname.symm)
    have hother := addPartials_name policy items other
    rw [addPartials_append hsame, if_pos (beq_iff_eq.2 (hother.trans hsame))]
    exact if_pos (beq_iff_eq.2 hother)
  · have hne : ¬ (addPartials policy items other).name == d.name := by
      rw [addPartials_name, beq_iff_eq]
      exact hsame
    rw [addPartials_append_of_ne hsame, if_neg hne, hname, if_neg hne]

/-- All partial definitions. -/
theorem foldPartial_all (policy : Policy) (items : List Definition)
    (hnodup : (bases.map Definition.name).Nodup)
    (hitems : ∀ d ∈ items, d.isPartial = true) :
    ((items.foldl (foldPartial policy) ⟨bases, [], []⟩).diagnostics = []
        ↔ PartialsFit policy bases items) ∧
      (PartialsFit policy bases items → items.foldl (foldPartial policy) ⟨bases, [], []⟩
        = ⟨bases.map (addPartials policy items), [], []⟩) := by
  have hnil : ⟨bases, [], []⟩ = (⟨bases.map (addPartials policy []), [], []⟩ : Linked) := by
    have hid : addPartials policy [] = id := funext (addPartials_nil policy)
    rw [hid, List.map_id]
  rw [hnil]
  exact foldl_iff (foldPartial policy)
    (fun items => ⟨bases.map (addPartials policy items), [], []⟩) (PartialsFit policy bases)
    (fun d => d.isPartial = true) (foldPartial_diagnostics policy) (fun _ => rfl)
    (fun _ _ => PartialsFit.of_append) (fun _ _ hd hfits h => foldPartial_fits hnodup hd hfits h)
    (fun _ _ hd hfits => foldPartial_eq hnodup hd hfits) []
    ⟨by simp, fun _ _ _ => Member.clean_nil⟩ hitems

/-! ### Includes statements -/

theorem applyIncludes_diagnostics (policy : Policy) (linked : Linked) (d : Definition)
    (h : (applyIncludes policy linked d).diagnostics = []) : linked.diagnostics = [] := by
  unfold applyIncludes at h
  split at h
  · dsimp only at h
    split at h
    · exact ((addMembers_diagnostics ..).1 h).1
    · exact (List.append_eq_nil_iff.1 h).1
  · exact h

theorem addIncludes_name (policy : Policy) (bases items : List Definition) (base : Definition) :
    (addIncludes policy bases items base).name = base.name :=
  setMembers_name ..

theorem addIncludes_symbolKind? (policy : Policy) (bases items : List Definition)
    (base : Definition) : (addIncludes policy bases items base).symbolKind? = base.symbolKind? :=
  setMembers_symbolKind? ..

theorem addIncludes_nil (policy : Policy) (bases : List Definition) (base : Definition) :
    addIncludes policy bases [] base = base :=
  setMembers_self base

theorem includedMembers_append (bases items : List Definition) (d : Definition) (name : String) :
    includedMembers bases (items ++ [d]) name
      = includedMembers bases items name ++ includedMembers bases [d] name := by
  rw [includedMembers, ofName_append, List.flatMap_append]
  rfl

theorem includedMembers_singleton {name : String} (hname : d.name = name) {mixin : String}
    (hmixin : d.mixin? = some mixin) : includedMembers bases [d] name = membersOf bases mixin := by
  rw [includedMembers, ofName_singleton hname]
  simp [hmixin]

theorem includedMembers_singleton_ne {name : String} (hname : d.name ≠ name) :
    includedMembers bases [d] name = [] := by
  rw [includedMembers, ofName_singleton_ne hname]
  rfl

theorem membersOf_of_mem (hnodup : (bases.map Definition.name).Nodup) {base : Definition}
    (hbase : base ∈ bases) : membersOf bases base.name = base.members := by
  rw [membersOf, (named?_eq_some hnodup).2 ⟨hbase, rfl⟩]
  simp

theorem IncludesFit.of_append {more : List Definition}
    (h : IncludesFit policy bases (items ++ more)) : IncludesFit policy bases items := by
  refine ⟨fun d hd => h.declared d (List.mem_append_left _ hd), fun hreject base hbase => ?_⟩
  have hclean := h.clean hreject base hbase
  rw [includedMembers, ofName_append, List.flatMap_append, Member.clean_append] at hclean
  exact hclean.1

theorem includesFit_append {mixin : String} (hmixin : d.mixin? = some mixin) :
    IncludesFit policy bases (items ++ [d]) ↔
      IncludesFit policy bases items ∧ HasMixin bases d ∧ (policy.collision = .reject →
        ∀ base ∈ bases, base.name = d.name → Member.Clean
          (base.members ++ includedMembers bases items base.name) (membersOf bases mixin)) := by
  constructor
  · intro h
    refine ⟨h.of_append, h.declared d (by simp), fun hreject base hbase hname => ?_⟩
    have hclean := h.clean hreject base hbase
    rw [includedMembers_append, Member.clean_append,
      includedMembers_singleton hname.symm hmixin] at hclean
    exact hclean.2
  · rintro ⟨hitems, hd, hmembers⟩
    refine ⟨?_, fun hreject base hbase => ?_⟩
    · rw [List.forall_mem_append]
      exact ⟨hitems.declared, by simpa using hd⟩
    · rw [includedMembers_append, Member.clean_append]
      refine ⟨hitems.clean hreject base hbase, ?_⟩
      by_cases hname : base.name = d.name
      · rw [includedMembers_singleton hname.symm hmixin]
        exact hmembers hreject base hbase hname
      · rw [includedMembers_singleton_ne fun h => hname h.symm]
        exact Member.clean_nil

/-- Nothing is included into what is no interface. -/
theorem includedMembers_eq_nil (hnodup : (bases.map Definition.name).Nodup)
    (hitems : IncludesFit policy bases items) {base : Definition} (hbase : base ∈ bases)
    (hkind : base.symbolKind? ≠ some (.container .interface)) :
    includedMembers bases items base.name = [] := by
  have hnone : ofName items base.name = [] := by
    rw [ofName, List.filter_eq_nil_iff]
    intro d hd hname
    obtain ⟨_, -, ⟨target, htarget, hsame, hinterface⟩, -⟩ := hitems.declared d hd
    obtain rfl := eq_of_name hnodup htarget hbase (hsame.trans (beq_iff_eq.1 hname))
    exact hkind hinterface
  rw [includedMembers, hnone]
  rfl

theorem containerFault?_eq_none_iff {definitions : List Definition} {kind : ContainerKind}
    {name : String} {span : Span} : containerFault? definitions kind name span = none ↔
      (declared? definitions name).map Prod.snd = some (.container kind) := by
  unfold containerFault?
  cases declared? definitions name with
  | none => simp
  | some found => simp

theorem containerFault?_eq_none (hnodup : (bases.map Definition.name).Nodup)
    {kind : ContainerKind} {name : String} {span : Span} :
    containerFault? (bases.map (addIncludes policy bases items)) kind name span = none ↔
      Declares bases name (.container kind) := by
  rw [containerFault?_eq_none_iff, declares_iff hnodup,
    declared?_map (addIncludes_name policy bases items)
      (addIncludes_symbolKind? policy bases items), Option.map_map]
  rfl

theorem mixin?_eq_some {mixin : String} : d.mixin? = some mixin ↔ d.body = .includes mixin := by
  obtain ⟨name, body, extAttrs, span⟩ := d
  cases body <;> simp [mixin?]

/-- The state after the includes statements `items`, without faults. -/
def afterIncludes (policy : Policy) (bases items : List Definition) : Linked :=
  ⟨bases.map (addIncludes policy bases items), (items.filterMap mixin?).foldl insertName [], []⟩

/-- What applying one includes statement does. -/
theorem applyIncludes_cases (hnodup : (bases.map Definition.name).Nodup)
    (hitems : IncludesFit policy bases items) {mixin : String} (hmixin : d.mixin? = some mixin) :
    (¬ HasMixin bases d ∧
      (applyIncludes policy (afterIncludes policy bases items) d).diagnostics ≠ []) ∨
    ∃ target ∈ bases, target.name = d.name ∧ target.container? ≠ none ∧ HasMixin bases d ∧
      applyIncludes policy (afterIncludes policy bases items) d
        = { addMembers policy (afterIncludes policy bases items)
              (addIncludes policy bases items target) (membersOf bases mixin) with
            consumedMixins := insertName ((items.filterMap mixin?).foldl insertName []) mixin } := by
  have hfaults : (containerFault? (bases.map (addIncludes policy bases items)) .interface d.name
        d.span).toList
      ++ (containerFault? (bases.map (addIncludes policy bases items)) .mixin mixin d.span).toList = []
      ↔ HasMixin bases d := by
    rw [List.append_eq_nil_iff, Option.toList_eq_nil_iff, Option.toList_eq_nil_iff,
      containerFault?_eq_none hnodup, containerFault?_eq_none hnodup]
    constructor
    · exact fun h => ⟨mixin, hmixin, h⟩
    · rintro ⟨other, hother, h⟩
      obtain rfl : other = mixin := Option.some.inj (hother.symm.trans hmixin)
      exact h
  unfold applyIncludes
  rw [mixin?_eq_some.1 hmixin]
  dsimp only [afterIncludes]
  by_cases hd : HasMixin bases d
  · obtain ⟨other, hother, ⟨target, htarget, hname, hkind⟩, ⟨source, hsource, hname', hkind'⟩⟩ := hd
    obtain rfl : other = mixin := Option.some.inj (hother.symm.trans hmixin)
    have hmixin : source.symbolKind? ≠ some (.container .interface) := by
      rw [hkind']
      simp
    have hmembers : (addIncludes policy bases items source).members = membersOf bases other := by
      rw [addIncludes, includedMembers_eq_nil hnodup hitems hsource hmixin, Member.merged_nil,
        setMembers_self, ← hname', membersOf_of_mem hnodup hsource]
    have hfound (n : String) : named? (bases.map (addIncludes policy bases items)) n
        = (named? bases n).map (addIncludes policy bases items) :=
      named?_map (addIncludes_name policy bases items) bases n
    refine .inr ⟨target, htarget, hname, ?_, ⟨other, hother, ⟨target, htarget, hname, hkind⟩,
      ⟨source, hsource, hname', hkind'⟩⟩, ?_⟩
    · obtain ⟨_, hcontainer, -⟩ := container?_of_symbolKind? hkind
      rw [hcontainer]
      simp
    · rw [hfaults.2 ⟨other, hother, ⟨target, htarget, hname, hkind⟩,
          ⟨source, hsource, hname', hkind'⟩⟩, hfound, hfound,
        (named?_eq_some hnodup).2 ⟨htarget, hname⟩, (named?_eq_some hnodup).2 ⟨hsource, hname'⟩]
      dsimp only [Option.map_some]
      rw [hmembers]
      rfl
  · left
    refine ⟨hd, ?_⟩
    obtain ⟨fault, rest, hnone⟩ := List.exists_cons_of_ne_nil (mt hfaults.1 hd)
    rw [hnone]
    exact List.cons_ne_nil _ _

theorem addIncludes_append_of_ne {base : Definition} (h : base.name ≠ d.name) :
    addIncludes policy bases (items ++ [d]) base = addIncludes policy bases items base := by
  rw [addIncludes, addIncludes, includedMembers_append,
    includedMembers_singleton_ne fun heq => h heq.symm, List.append_nil]

theorem addIncludes_append {base : Definition} (h : base.name = d.name) {mixin : String}
    (hmixin : d.mixin? = some mixin) :
    addIncludes policy bases (items ++ [d]) base =
      setMembers (addIncludes policy bases items base)
        (Member.merged policy.collision (addIncludes policy bases items base).members
          (membersOf bases mixin)) := by
  rw [addIncludes, includedMembers_append, includedMembers_singleton h.symm hmixin,
    Member.merged_append]
  obtain ⟨name, body, extAttrs, span⟩ := base
  cases body <;> rfl

/-- The members of a declaration with those of the mixins that it includes. -/
theorem members_addIncludes {base : Definition} (h : base.container? ≠ none) :
    (addIncludes policy bases items base).members
      = Member.merged policy.collision base.members (includedMembers bases items base.name) :=
  members_setMembers _ _ h

theorem members_addIncludes_reject {base : Definition} (h : base.container? ≠ none)
    (hreject : policy.collision = .reject)
    (hclean : Member.Clean base.members (includedMembers bases items base.name)) :
    (addIncludes policy bases items base).members
      = base.members ++ includedMembers bases items base.name := by
  rw [members_addIncludes h, hreject, Member.merged_reject hclean]

theorem applyIncludes_fits (hnodup : (bases.map Definition.name).Nodup) (hd : d.mixin? ≠ none)
    (hitems : IncludesFit policy bases items)
    (h : (applyIncludes policy (afterIncludes policy bases items) d).diagnostics = []) :
    IncludesFit policy bases (items ++ [d]) := by
  obtain ⟨mixin, hmixin⟩ := Option.ne_none_iff_exists'.1 hd
  rcases applyIncludes_cases hnodup hitems hmixin with
    ⟨-, hne⟩ | ⟨target, htarget, hname, hcontainer, hd, heq⟩
  · exact absurd h hne
  · rw [heq] at h
    have hclean := ((addMembers_diagnostics ..).1 h).2
    refine (includesFit_append hmixin).2 ⟨hitems, hd, fun hreject other hother hother' => ?_⟩
    obtain rfl := eq_of_name hnodup htarget hother (hname.trans hother'.symm)
    rw [← members_addIncludes_reject hcontainer hreject (hitems.clean hreject target htarget)]
    exact hclean hreject

theorem applyIncludes_eq (hnodup : (bases.map Definition.name).Nodup) (hd : d.mixin? ≠ none)
    (h : IncludesFit policy bases (items ++ [d])) :
    applyIncludes policy (afterIncludes policy bases items) d
      = afterIncludes policy bases (items ++ [d]) := by
  obtain ⟨mixin, hmixin⟩ := Option.ne_none_iff_exists'.1 hd
  obtain ⟨hitems, hhas, hclean⟩ := (includesFit_append hmixin).1 h
  rcases applyIncludes_cases hnodup hitems hmixin with
    ⟨hnone, -⟩ | ⟨target, htarget, hname, hcontainer, -, heq⟩
  · exact absurd hhas hnone
  rw [heq, addMembers]
  have hfaults : (Member.merge (addIncludes policy bases items target).name policy.collision
      (addIncludes policy bases items target).members (membersOf bases mixin)).2 = [] := by
    rw [Member.merge_snd_eq_nil]
    intro hreject
    rw [members_addIncludes_reject hcontainer hreject (hitems.clean hreject target htarget)]
    exact hclean hreject target htarget hname
  dsimp only [afterIncludes]
  rw [hfaults, Member.merge_fst, addIncludes_name, List.nil_append, update, List.map_map,
    List.filterMap_append, List.foldl_append]
  have hlast : [d].filterMap mixin? = [mixin] := by
    rw [List.filterMap_cons, hmixin]
    rfl
  rw [hlast]
  congr 1
  apply List.map_congr_left
  intro other hother
  dsimp only [Function.comp_apply]
  have hkeep := addIncludes_name policy bases items other
  by_cases hsame : other.name = d.name
  · obtain rfl := eq_of_name hnodup hother htarget (hsame.trans hname.symm)
    rw [addIncludes_append hsame hmixin]
    exact if_pos (beq_iff_eq.2 hkeep)
  · rw [addIncludes_append_of_ne hsame, hname]
    have hne : ¬ (addIncludes policy bases items other).name == d.name := by
      rw [hkeep, beq_iff_eq]
      exact hsame
    exact if_neg hne

/-- All includes statements. -/
theorem applyIncludes_all (policy : Policy) (items : List Definition)
    (hnodup : (bases.map Definition.name).Nodup)
    (hitems : ∀ d ∈ items, d.mixin? ≠ none) :
    ((items.foldl (applyIncludes policy) ⟨bases, [], []⟩).diagnostics = []
        ↔ IncludesFit policy bases items) ∧
      (IncludesFit policy bases items → items.foldl (applyIncludes policy) ⟨bases, [], []⟩
        = afterIncludes policy bases items) := by
  have hnil : ⟨bases, [], []⟩ = afterIncludes policy bases [] := by
    have hid : addIncludes policy bases [] = id := funext (addIncludes_nil policy bases)
    rw [afterIncludes, hid, List.map_id]
    rfl
  rw [hnil]
  exact foldl_iff (applyIncludes policy) (afterIncludes policy bases) (IncludesFit policy bases)
    (fun d => d.mixin? ≠ none) (applyIncludes_diagnostics policy) (fun _ => rfl)
    (fun _ _ => IncludesFit.of_append) (fun _ _ hd hfits h => applyIncludes_fits hnodup hd hfits h)
    (fun _ _ hd hfits => applyIncludes_eq hnodup hd hfits) []
    ⟨by simp, fun _ _ _ => Member.clean_nil⟩ hitems

end Linked

end IdlBindings
