import IdlBindings.Proofs.Model.Content
import IdlBindings.Proofs.Syntax.Readable

/-!
Where the parts of a linked model come from. Its definitions are the declarations, with members and
extended attributes that some given definition has (`sourced_of_link`). So what holds of all the
parts that were given holds of those of the model, and linking keeps definitions that can be printed
and read again.
-/

namespace IdlBindings

open Definition Linked Glyph

/-- Some definition of this kind has the member. -/
def Definition.Offers (definitions : List Definition) (kind : ContainerKind) (m : Member) : Prop :=
  ∃ source ∈ definitions, ∃ c ∈ source.container?, c.kind = kind ∧ m ∈ c.members

/-- All parts of `result` come from `base` or from other definitions. -/
structure Linked.Sourced (definitions : List Definition) (base result : Definition) : Prop where
  name : result.name = base.name
  unchanged : base.container? = none → result = base
  /-- Members come from containers of the same kind, and those of an interface from mixins too. -/
  container : ∀ c ∈ base.container?, ∃ members, result.body = .container { c with members } ∧
    ∀ m ∈ members, Offers definitions c.kind m ∨
      (c.kind = .interface ∧ Offers definitions .mixin m)
  extAttrs : ∀ attr ∈ result.extAttrs, ∃ source ∈ definitions, attr ∈ source.extAttrs

variable {policy : Policy} {definitions : List Definition} {d : Definition}

theorem Definition.container?_eq_some {c : Container} :
    d.container? = some c ↔ d.body = .container c := by
  obtain ⟨name, body, extAttrs, span⟩ := d
  cases body with
  | container other =>
      constructor
      · rintro h
        exact congrArg _ (Option.some.inj h)
      · rintro h
        cases h
        rfl
  | _ => exact iff_of_false (fun h => by cases h) (by simp)

theorem Definition.exists_container_of_mem {m : Member} (h : m ∈ d.members) :
    ∃ c, d.container? = some c ∧ m ∈ c.members := by
  unfold members at h
  split at h
  · rename_i c hc
    exact ⟨c, hc, h⟩
  · cases h

theorem ExtendedAttribute.mem_of_mem_unseen {texts : List String} {attrs : List ExtendedAttribute}
    {attr : ExtendedAttribute} (h : attr ∈ unseen texts attrs) : attr ∈ attrs := by
  induction attrs generalizing texts with
  | nil => cases h
  | cons first rest ih =>
      rw [unseen] at h
      split at h
      · exact List.mem_cons_of_mem first (ih h)
      · rcases List.mem_cons.1 h with rfl | hrest
        · exact List.mem_cons_self
        · exact List.mem_cons_of_mem first (ih hrest)

section Fit

variable (h : Fit policy definitions) {base : Definition} (hbase : base ∈ declarations definitions)
  {c : Container} (hc : base.container? = some c) {m : Member}

include hbase hc

theorem offers_of_mem_base (hm : m ∈ base.members) : Offers definitions c.kind m := by
  rw [members, hc] at hm
  exact ⟨base, (List.mem_filter.1 hbase).1, c, hc, rfl, hm⟩

include h

/-- The members of partial definitions. -/
theorem offers_of_mem_partials (hm : m ∈ (ofName (partials definitions) base.name).flatMap members) :
    Offers definitions c.kind m := by
  obtain ⟨d, hd, hmem⟩ := List.mem_flatMap.1 hm
  obtain ⟨hpartial, hname⟩ := List.mem_filter.1 hd
  obtain ⟨own, hown, hmem⟩ := exists_container_of_mem hmem
  obtain ⟨_, hsame, other, hother, heq, hkind⟩ := h.partials.declared d hpartial
  obtain rfl := Option.some.inj (hown.symm.trans hsame)
  obtain rfl := eq_of_name h.distinct hother hbase (heq.trans (beq_iff_eq.1 hname))
  obtain ⟨_, hbody, hkind⟩ := container?_of_symbolKind? hkind
  obtain rfl := Option.some.inj (hc.symm.trans hbody)
  exact ⟨d, (List.mem_filter.1 hpartial).1, own, hown, hkind.symm, hmem⟩

theorem offers_of_mem_addPartials
    (hm : m ∈ (addPartials policy (partials definitions) base).members) :
    Offers definitions c.kind m := by
  rw [members_addPartials (by simp [hc])] at hm
  rcases Member.mem_merged hm with hown | hpartials
  · exact offers_of_mem_base hbase hc hown
  · exact offers_of_mem_partials h hbase hc hpartials

omit hbase hc

/-- The members of mixins. -/
theorem offers_of_mem_mixin {mixin : String}
    (hmixin : Declares (withPartials policy definitions) mixin (.container .mixin))
    (hm : m ∈ membersOf (withPartials policy definitions) mixin) : Offers definitions .mixin m := by
  have hdistinct := names_withPartials policy definitions ▸ h.distinct
  obtain ⟨source, hsource, rfl, hkind⟩ := hmixin
  rw [membersOf_of_mem hdistinct hsource] at hm
  obtain ⟨base, hbase, rfl⟩ := List.mem_map.1 hsource
  rw [addPartials_symbolKind?] at hkind
  obtain ⟨c, hc, hkind⟩ := container?_of_symbolKind? hkind
  exact hkind ▸ offers_of_mem_addPartials h hbase hc hm

include hbase hc

theorem offers_of_mem_included (hm : m ∈ includedMembers (withPartials policy definitions)
    (inclusions definitions) base.name) :
    c.kind = .interface ∧ Offers definitions .mixin m := by
  obtain ⟨d, hd, hmem⟩ := List.mem_flatMap.1 hm
  obtain ⟨hinclusion, hname⟩ := List.mem_filter.1 hd
  obtain ⟨mixin, hmixin, hmem⟩ := List.mem_flatMap.1 hmem
  obtain ⟨_, hsame, htarget, hdeclared⟩ := h.includes.declared d hinclusion
  obtain rfl := Option.some.inj ((Option.mem_toList.1 hmixin).symm.trans hsame)
  refine ⟨?_, offers_of_mem_mixin h hdeclared hmem⟩
  rw [withPartials, declares_map (addPartials_name policy _) (addPartials_symbolKind? policy _)]
    at htarget
  obtain ⟨other, hother, heq, hkind⟩ := htarget
  obtain rfl := eq_of_name h.distinct hother hbase (heq.trans (beq_iff_eq.1 hname))
  obtain ⟨_, hbody, hkind⟩ := container?_of_symbolKind? hkind
  obtain rfl := Option.some.inj (hc.symm.trans hbody)
  exact hkind

omit hc

theorem sourced_foldedOne : Sourced definitions base (foldedOne policy definitions base) where
  name := (content_foldedOne h hbase).name
  unchanged := (content_foldedOne h hbase).unchanged
  container := by
    intro c hc
    refine ⟨_, container?_eq_some.1 ((content_foldedOne h hbase).container c hc), fun m hm => ?_⟩
    rw [members_foldedOne h hbase] at hm
    rcases Member.mem_merged hm with hown | hincoming
    · exact .inl (offers_of_mem_base hbase hc hown)
    · rcases List.mem_append.1 hincoming with hpartials | hincluded
      · exact .inl (offers_of_mem_partials h hbase hc hpartials)
      · exact .inr (offers_of_mem_included h hbase hc hincluded)
  extAttrs := by
    intro attr hattr
    rw [(content_foldedOne h hbase).extAttrs] at hattr
    rcases List.mem_append.1 hattr with hown | hnew
    · exact ⟨base, (List.mem_filter.1 hbase).1, hown⟩
    · obtain ⟨source, hsource, hmem⟩ :=
        List.mem_flatMap.1 (ExtendedAttribute.mem_of_mem_unseen hnew)
      have hpartial := (List.mem_filter.1 hsource).1
      exact ⟨source, (List.mem_filter.1 hpartial).1, hmem⟩

end Fit

theorem sourced_of_link {model : Model} (h : Model.link policy definitions = .ok model)
    (hd : d ∈ model.definitions) :
    ∃ base ∈ definitions, base.isDeclaration = true ∧ Sourced definitions base d := by
  obtain ⟨hwell, hfolded, -⟩ := wellFormed_of_link h
  rw [hfolded, folded_eq_map] at hd
  obtain ⟨base, hbase, rfl⟩ := List.mem_map.1 hd
  obtain ⟨hmem, hdeclaration⟩ := List.mem_filter.1 hbase
  exact ⟨base, hmem, hdeclaration, sourced_foldedOne hwell.fit hbase⟩

/-! ### What linking keeps -/

section Keeps

variable {model : Model} (h : Model.link policy definitions = .ok model)

include h

/-- The definitions of a model declare their names. -/
theorem isDeclaration_of_link : ∀ d ∈ model.definitions, d.isDeclaration = true := by
  intro d hd
  obtain ⟨base, -, hdeclaration, hsourced⟩ := sourced_of_link h hd
  cases hcontainer : base.container? with
  | none => rwa [hsourced.unchanged hcontainer]
  | some c =>
      obtain ⟨members, hbody, -⟩ := hsourced.container c hcontainer
      have hpartial : c.isPartial = false := by
        simpa [isDeclaration, isPartial, hcontainer, isIncludes,
          container?_eq_some.1 hcontainer] using hdeclaration
      simp [isDeclaration, isPartial, container?_eq_some.2 hbody, hpartial, isIncludes, hbody]

theorem readable_of_link (hreadable : ∀ d ∈ definitions, d.Readable) :
    ∀ d ∈ model.definitions, d.Readable := by
  have hmember : ∀ kind m, Offers definitions kind m → m.Readable (kind == .dictionary) := by
    rintro kind m ⟨source, hsource, c, hc, rfl, hm⟩
    have hbody := (hreadable source hsource).body
    rw [container?_eq_some.1 hc] at hbody
    cases hbody with
    | container hcontainer => exact hcontainer.members m hm
  intro d hd
  obtain ⟨base, hbase, -, hsourced⟩ := sourced_of_link h hd
  refine ⟨?_, fun attr hattr => ?_⟩
  · have hbody := (hreadable base hbase).body
    cases hcontainer : base.container? with
    | none => rwa [hsourced.unchanged hcontainer]
    | some c =>
        obtain ⟨members, hresult, hmembers⟩ := hsourced.container c hcontainer
        rw [container?_eq_some.1 hcontainer] at hbody
        cases hbody with
        | container hreadable =>
            rw [hresult, hsourced.name]
            refine .container ⟨fun m hm => ?_, hreadable.parent, hreadable.partials,
              hreadable.interface⟩
            rcases hmembers m hm with hoffers | ⟨hinterface, hoffers⟩
            · exact hmember c.kind m hoffers
            · rw [show (c.kind == .dictionary) = false by rw [hinterface]; rfl]
              exact hmember .mixin m hoffers
  · obtain ⟨source, hsource, hmem⟩ := hsourced.extAttrs attr hattr
    exact (hreadable source hsource).extAttrs attr hmem

/-- What is printed for a model has no escaped name when nothing given has. -/
theorem allProper_of_link (hproper : ∀ d ∈ definitions, AllProper d.glyphs) :
    ∀ d ∈ model.definitions, AllProper d.glyphs := by
  have hmember : ∀ kind m, Offers definitions kind m → AllProper m.glyphs := by
    rintro kind m ⟨source, hsource, c, hc, -, hm⟩
    have hbody := (allProper_append.1 (hproper source hsource)).2
    rw [container?_eq_some.1 hc, DefinitionBody.allProper_container] at hbody
    exact hbody.2 m hm
  intro d hd
  obtain ⟨base, hbase, -, hsourced⟩ := sourced_of_link h hd
  refine allProper_append.2 ⟨?_, ?_⟩
  · refine allProper_inBrackets.2 (List.forall_mem_map.2 fun attr hattr => ?_)
    obtain ⟨source, hsource, hmem⟩ := hsourced.extAttrs attr hattr
    have hattrs := allProper_inBrackets.1 (allProper_append.1 (hproper source hsource)).1
    exact hattrs _ (List.mem_map_of_mem hmem)
  · have hbody := (allProper_append.1 (hproper base hbase)).2
    cases hcontainer : base.container? with
    | none => rwa [hsourced.unchanged hcontainer]
    | some c =>
        obtain ⟨members, hresult, hmembers⟩ := hsourced.container c hcontainer
        rw [container?_eq_some.1 hcontainer, DefinitionBody.allProper_container] at hbody
        rw [hresult, hsourced.name, DefinitionBody.allProper_container]
        refine ⟨hbody.1, fun m hm => ?_⟩
        rcases hmembers m hm with hoffers | ⟨-, hoffers⟩
        · exact hmember _ m hoffers
        · exact hmember _ m hoffers

end Keeps

end IdlBindings
