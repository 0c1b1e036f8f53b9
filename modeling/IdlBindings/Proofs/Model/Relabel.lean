import Mathlib.Data.Prod.Basic
import IdlBindings.Proofs.Distinct
import IdlBindings.Proofs.Model.Folding
import IdlBindings.Proofs.Syntax.Relabel

/-!
Linking definitions that stand elsewhere. Linking looks at places only to tell whether two
references have one owner, so a change of places that keeps different places apart changes the
places of the model and of the faults and nothing else (`Model.link_relabel`).
-/

namespace IdlBindings

open Definition

def Linked.relabel (g : Span → Span) (linked : Linked) : Linked :=
  ⟨linked.definitions.map (Definition.relabel g), linked.consumedMixins,
    linked.diagnostics.map (Diagnostic.relabel g)⟩

def Model.relabel (g : Span → Span) (model : Model) : Model :=
  { model with definitions := model.definitions.map (Definition.relabel g) }

variable (g : Span → Span)

/-! ### Members -/

namespace Member

theorem insert_relabel (m : Member) (members : List Member) :
    (m.relabel g).insert (members.map (relabel g)) = (m.insert members).map (relabel g) := by
  have hcollides (first : Member) : (first.relabel g).collides (m.relabel g) = first.collides m :=
    rfl
  induction members with
  | nil => rfl
  | cons first rest ih =>
      rw [List.map_cons, insert, insert, hcollides, ih, List.filter_map]
      split <;> rfl

theorem find?_collides_relabel (m : Member) (target : List Member) :
    (target.map (relabel g)).find? (·.collides (m.relabel g))
      = (target.find? (·.collides m)).map (relabel g) := by
  rw [List.find?_map]
  rfl

theorem merge_relabel (owner : String) (collision : Collision) (target incoming : List Member) :
    merge owner collision (target.map (relabel g)) (incoming.map (relabel g))
      = ((merge owner collision target incoming).1.map (relabel g),
          (merge owner collision target incoming).2.map (Diagnostic.relabel g)) := by
  induction incoming generalizing target with
  | nil => rfl
  | cons m rest ih =>
      rw [List.map_cons]
      rcases goes_in_or_collides collision target m with hclean | ⟨rfl, other, hfind⟩
      · rw [merge_cons owner collision _ hclean, ← ih, ← insert_relabel]
        exact merge_cons owner collision _ fun hreject => List.forall_mem_map.2 (hclean hreject)
      · have hmoved := find?_collides_relabel g m target
        rw [hfind, Option.map_some] at hmoved
        rw [merge_cons_of_collides owner _ hfind, merge_cons_of_collides owner _ hmoved, ih]
        simp only [collisionFault, List.map_cons, Diagnostic.relabel_withRelated,
          Diagnostic.relabel_report]
        rfl

end Member

namespace Linked

variable (policy : Policy) (linked : Linked) (d : Definition)

/-! ### Definitions by name -/

@[simp] theorem named?_relabel (definitions : List Definition) (name : String) :
    named? (definitions.map (Definition.relabel g)) name
      = (named? definitions name).map (Definition.relabel g) :=
  named?_map (name_relabel g) definitions name

@[simp] theorem declared?_relabel (definitions : List Definition) (name : String) :
    declared? (definitions.map (Definition.relabel g)) name
      = (declared? definitions name).map fun found => (found.1.relabel g, found.2) :=
  declared?_map (name_relabel g) (symbolKind?_relabel g) definitions name

theorem update_relabel {f f' : Definition → Definition}
    (hf : ∀ d, f' (d.relabel g) = (f d).relabel g) (definitions : List Definition)
    (name : String) :
    update (definitions.map (Definition.relabel g)) name f'
      = (update definitions name f).map (Definition.relabel g) := by
  rw [update, update, List.map_map, List.map_map]
  refine List.map_congr_left fun d _ => ?_
  rw [Function.comp_apply, Function.comp_apply, hf, name_relabel]
  split <;> rfl

theorem setMembers_relabel (members : List Member) :
    setMembers (d.relabel g) (members.map (Member.relabel g))
      = (setMembers d members).relabel g := by
  obtain ⟨name, body, extAttrs, span⟩ := d
  cases body <;> rfl

/-! ### The steps of linking -/

@[simp] theorem definitions_relabel :
    (linked.relabel g).definitions = linked.definitions.map (Definition.relabel g) := rfl

theorem report_relabel (fault : Diagnostic) :
    (linked.relabel g).report (fault.relabel g) = (linked.report fault).relabel g := by
  simp [report, relabel]

theorem redeclared_relabel (kind : SymbolKind) (first : Definition) (firstKind : SymbolKind) :
    redeclared (d.relabel g) kind (first.relabel g) firstKind
      = (redeclared d kind first firstKind).relabel g := by
  unfold redeclared
  split
  · simp only [Diagnostic.relabel_withRelated, Diagnostic.relabel_report, name_relabel,
      span_relabel]
  · simp only [Diagnostic.relabel_withRelated, Diagnostic.relabel_report, name_relabel,
      span_relabel]

theorem register_relabel :
    (linked.relabel g).register (d.relabel g) = (linked.register d).relabel g := by
  rw [register, register, symbolKind?_relabel]
  cases d.symbolKind? with
  | none => rfl
  | some kind =>
      simp only [definitions_relabel, declared?_relabel, name_relabel]
      cases declared? linked.definitions d.name with
      | none => simp [relabel]
      | some found =>
          simp only [Option.map_some, redeclared_relabel]
          exact report_relabel g linked _

theorem addMembers_relabel (incoming : List Member) :
    addMembers policy (linked.relabel g) (d.relabel g) (incoming.map (Member.relabel g))
      = (addMembers policy linked d incoming).relabel g := by
  simp only [addMembers, relabel, name_relabel, members_relabel, Member.merge_relabel,
    List.map_append]
  rw [update_relabel g fun base => setMembers_relabel g base _]

theorem partialWithoutBase_relabel (c : Container) :
    partialWithoutBase (d.relabel g) (c.relabel g) = (partialWithoutBase d c).relabel g := by
  simp only [partialWithoutBase, Diagnostic.relabel_withHint, Diagnostic.relabel_report,
    name_relabel, span_relabel]
  rfl

theorem partialConflict_relabel (c : Container) (base : Definition) (baseKind : SymbolKind) :
    partialConflict (d.relabel g) (c.relabel g) (base.relabel g) baseKind
      = (partialConflict d c base baseKind).relabel g := by
  simp only [partialConflict, Diagnostic.relabel_withRelated, Diagnostic.relabel_report,
    name_relabel, span_relabel]
  rfl

theorem foldPartial_relabel :
    foldPartial policy (linked.relabel g) (d.relabel g)
      = (foldPartial policy linked d).relabel g := by
  rw [foldPartial, foldPartial, container?_relabel]
  cases d.container? with
  | none => rfl
  | some c =>
      simp only [Option.map_some, definitions_relabel, declared?_relabel, name_relabel]
      cases declared? linked.definitions d.name with
      | none =>
          simp only [Option.map_none, partialWithoutBase_relabel]
          exact report_relabel g linked _
      | some found =>
          obtain ⟨base, baseKind⟩ := found
          simp only [Option.map_some, partialConflict_relabel]
          rw [show (c.relabel g).kind = c.kind from rfl]
          split
          · have hattrs := @update_relabel g
              (fun base => { base with extAttrs := d.extAttrs.foldl insertExtAttr base.extAttrs })
              (fun base => { base with extAttrs := d.extAttrs.foldl insertExtAttr base.extAttrs })
              (fun _ => rfl) linked.definitions d.name
            rw [← addMembers_relabel]
            simp only [relabel, ← hattrs]
            rfl
          · exact report_relabel g linked _

theorem containerFault?_relabel (definitions : List Definition) (kind : ContainerKind)
    (name : String) (span : Span) :
    containerFault? (definitions.map (Definition.relabel g)) kind name (g span)
      = (containerFault? definitions kind name span).map (Diagnostic.relabel g) := by
  rw [containerFault?, containerFault?, declared?_relabel]
  cases declared? definitions name with
  | none => rfl
  | some found =>
      simp only [Option.map_some]
      split
      · rfl
      · simp

theorem applyIncludes_relabel :
    applyIncludes policy (linked.relabel g) (d.relabel g)
      = (applyIncludes policy linked d).relabel g := by
  obtain ⟨name, body, extAttrs, span⟩ := d
  cases body with
  | includes mixin =>
      have htarget := containerFault?_relabel g linked.definitions .interface name span
      have hmixin := containerFault?_relabel g linked.definitions .mixin mixin span
      simp only [applyIncludes, Definition.relabel, DefinitionBody.relabel, definitions_relabel,
        named?_relabel, htarget, hmixin, Option.toList_map, ← List.map_append]
      generalize (containerFault? linked.definitions .interface name span).toList
        ++ (containerFault? linked.definitions .mixin mixin span).toList = faults
      cases faults with
      | cons fault rest => simp [relabel]
      | nil =>
          cases named? linked.definitions name with
          | none => simp [relabel]
          | some target =>
              cases named? linked.definitions mixin with
              | none => simp [relabel]
              | some source =>
                  simp only [List.map_nil, Option.map_some, members_relabel, addMembers_relabel]
                  rfl
  | _ => rfl

/-! ### Names -/

theorem parentFault?_relabel (definitions : List Definition) :
    parentFault? policy (definitions.map (Definition.relabel g)) (d.relabel g)
      = (parentFault? policy definitions d).map (Diagnostic.relabel g) := by
  rw [parentFault?, parentFault?, container?_relabel]
  cases d.container? with
  | none => rfl
  | some c =>
      cases hparent : c.parent with
      | none => simp [Container.relabel, hparent]
      | some parent =>
          simp only [Option.map_some, Container.relabel, hparent, Option.bind_eq_bind,
            Option.bind_some, declared?_relabel]
          cases declared? definitions parent with
          | none => simp only [Option.map_none]; split <;> rfl
          | some found =>
              simp only [Option.map_some]
              split
              · rfl
              · simp

theorem referenceFault?_relabel (definitions : List Definition) (name : String) (span : Span) :
    referenceFault? policy (definitions.map (Definition.relabel g)) name (g span)
      = (referenceFault? policy definitions name span).map (Diagnostic.relabel g) := by
  rw [referenceFault?, referenceFault?, declared?_relabel]
  cases declared? definitions name with
  | none => simp only [Option.map_none]; split <;> rfl
  | some found =>
      simp only [Option.map_some]
      split
      · rfl
      · simp

/-- References with one owner keep one owner, and no others get one. -/
theorem resolutionFaults_relabel {g : Span → Span} (hg : Function.Injective g)
    (definitions : List Definition) :
    resolutionFaults policy (definitions.map (Definition.relabel g))
      = (resolutionFaults policy definitions).map (Diagnostic.relabel g) := by
  have hpairs : Function.Injective (Prod.map id g : String × Span → String × Span) :=
    Function.injective_id.prodMap hg
  have hreferences : (definitions.map (Definition.relabel g)).flatMap references
      = (definitions.flatMap references).map (Prod.map id g) := by
    simp only [List.flatMap_map, List.map_flatMap, references_relabel]
  have hfault : ∀ reference : String × Span,
      referenceFault? policy (definitions.map (Definition.relabel g)) reference.1 (g reference.2)
        = (referenceFault? policy definitions reference.1 reference.2).map
            (Diagnostic.relabel g) :=
    fun reference => referenceFault?_relabel g policy definitions reference.1 reference.2
  simp only [resolutionFaults, hreferences, eraseDups_map hpairs, List.map_append,
    List.filterMap_map, List.map_filterMap, Function.comp_def, parentFault?_relabel, Prod.map_fst,
    Prod.map_snd, id_eq, hfault]

/-! ### The whole link -/

theorem isIncludes_relabel : (d.relabel g).isIncludes = d.isIncludes := by
  obtain ⟨name, body, extAttrs, span⟩ := d
  cases body <;> rfl

theorem isDeclaration_relabel : (d.relabel g).isDeclaration = d.isDeclaration := by
  rw [isDeclaration, isDeclaration, isPartial_relabel, isIncludes_relabel]

theorem foldl_relabel {f : Linked → Definition → Linked}
    (hf : ∀ linked d, f (linked.relabel g) (d.relabel g) = (f linked d).relabel g)
    (items : List Definition) :
    (items.map (Definition.relabel g)).foldl f (linked.relabel g)
      = (items.foldl f linked).relabel g := by
  induction items generalizing linked with
  | nil => rfl
  | cons d rest ih => rw [List.map_cons, List.foldl_cons, List.foldl_cons, hf, ih]

theorem ofDefinitions_relabel (definitions : List Definition) :
    ofDefinitions policy (definitions.map (Definition.relabel g))
      = (ofDefinitions policy definitions).relabel g := by
  have hfilter {p : Definition → Bool} (hp : ∀ d, p (d.relabel g) = p d) :
      (definitions.map (Definition.relabel g)).filter p
        = (definitions.filter p).map (Definition.relabel g) := by
    rw [List.filter_map]
    exact congrArg _ (List.filter_congr fun d _ => hp d)
  rw [ofDefinitions, ofDefinitions, hfilter (isDeclaration_relabel g),
    hfilter (isPartial_relabel g), hfilter (isIncludes_relabel g),
    ← foldl_relabel g _ (applyIncludes_relabel g policy),
    ← foldl_relabel g _ (foldPartial_relabel g policy), ← foldl_relabel g _ (register_relabel g)]
  rfl

end Linked

/-- Linking the same definitions at other places gives the same model, or the same faults, at other
places. -/
theorem Model.link_relabel {g : Span → Span} (hg : Function.Injective g) (policy : Policy)
    (definitions : List Definition) :
    link policy (definitions.map (Definition.relabel g)) = match link policy definitions with
      | .ok model => .ok (model.relabel g)
      | .error faults => .error (faults.map (Diagnostic.relabel g)) := by
  have hglobals (items : List Definition) :
      ((items.map (Definition.relabel g)).filter fun d => policy.isGlobal d.extAttrs).map
          Definition.name
        = (items.filter fun d => policy.isGlobal d.extAttrs).map Definition.name := by
    rw [List.filter_map, List.map_map]
    rfl
  simp only [link, Linked.ofDefinitions_relabel, Linked.relabel,
    Linked.resolutionFaults_relabel policy hg, ← List.map_append, List.isEmpty_map, hglobals]
  split <;> rfl

end IdlBindings
