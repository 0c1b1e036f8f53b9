import IdlBindings.Proofs.Model.Folding
import IdlBindings.Proofs.Syntax.Owners

/-!
The places that linking reports. They are those of the definitions and members that it is given:
whatever holds of their spans holds of every span of a fault (`Model.links_of_link`), since no step
makes up a place.
-/

namespace IdlBindings

variable {S : Span → Prop}

/-- The places of the definition and its members are in `S`. -/
structure Definition.Within (S : Span → Prop) (d : Definition) : Prop where
  span : S d.span
  members : ∀ m ∈ d.members, S m.span

/-- A fault of linking, with its places in `S`. -/
structure Diagnostic.Links (S : Span → Prop) (e : Diagnostic) : Prop where
  stage : e.kind.stage = .linking
  span : S e.span
  related : ∀ r ∈ e.related, S r.span

namespace Diagnostic.Links

variable {e : Diagnostic} {span : Span} {detail message : String}

theorem report {kind : FaultKind} (hkind : kind.stage = .linking) (hspan : S span) :
    (Diagnostic.report kind span detail).Links S :=
  ⟨hkind, hspan, fun _ hmem => by cases hmem⟩

theorem withRelated (h : e.Links S) (hspan : S span) : (e.withRelated message span).Links S := by
  refine ⟨h.stage, h.span, fun r hmem => ?_⟩
  rcases List.mem_append.1 hmem with hbefore | hnew
  · exact h.related r hbefore
  · obtain rfl := List.mem_singleton.1 hnew
    exact hspan

theorem withHint (h : e.Links S) : (e.withHint message).Links S := ⟨h.stage, h.span, h.related⟩

end Diagnostic.Links

open Diagnostic

/-! ### Members -/

/-- Merging reports members that it was given. -/
theorem Member.links_of_merge {owner : String} {collision : Collision}
    {target incoming : List Member} (htarget : ∀ m ∈ target, S m.span)
    (hincoming : ∀ m ∈ incoming, S m.span) :
    ∀ e ∈ (merge owner collision target incoming).2, e.Links S := by
  induction incoming generalizing target with
  | nil => simp [merge]
  | cons m rest ih =>
      obtain ⟨hm, hrest⟩ := List.forall_mem_cons.1 hincoming
      rcases goes_in_or_collides collision target m with hclean | ⟨rfl, other, hfind⟩
      · rw [merge_cons owner collision rest hclean]
        refine ih (fun other hother => ?_) hrest
        rcases mem_insert hother with hother | rfl
        · exact htarget other hother
        · exact hm
      · rw [merge_cons_of_collides owner rest hfind]
        refine List.forall_mem_cons.2 ⟨?_, ih htarget hrest⟩
        exact (Links.report rfl hm).withRelated (htarget other (List.mem_of_find?_eq_some hfind))

namespace Linked

open Definition

/-- The places of all definitions and faults are in `S`. -/
structure Within (S : Span → Prop) (linked : Linked) : Prop where
  definitions : ∀ d ∈ linked.definitions, d.Within S
  diagnostics : ∀ e ∈ linked.diagnostics, e.Links S

variable {policy : Policy} {linked : Linked} {definitions : List Definition} {d : Definition}
  {name : String} {span : Span} {e : Diagnostic}

theorem mem_of_declared? {found : Definition} {kind : SymbolKind}
    (h : declared? definitions name = some (found, kind)) : found ∈ definitions := by
  obtain ⟨d, hd, hkind⟩ := Option.bind_eq_some_iff.1 h
  obtain ⟨_, -, heq⟩ := Option.map_eq_some_iff.1 hkind
  cases heq
  exact List.mem_of_find?_eq_some hd

theorem Within.report (h : linked.Within S) (he : e.Links S) : (linked.report e).Within S := by
  refine ⟨h.definitions, fun other hmem => ?_⟩
  rcases List.mem_append.1 hmem with hbefore | hnew
  · exact h.diagnostics other hbefore
  · obtain rfl := List.mem_singleton.1 hnew
    exact he

/-! ### Declarations -/

theorem links_redeclared {first : Definition} {kind firstKind : SymbolKind} (hd : S d.span)
    (hfirst : S first.span) : (redeclared d kind first firstKind).Links S := by
  unfold redeclared
  split
  · exact (Links.report rfl hd).withRelated hfirst
  · exact (Links.report rfl hd).withRelated hfirst

theorem within_register (h : linked.Within S) (hd : d.Within S) : (register linked d).Within S := by
  unfold register
  split
  · exact h
  split
  · rename_i hfirst
    exact h.report (links_redeclared hd.span (h.definitions _ (mem_of_declared? hfirst)).span)
  · refine ⟨fun other hmem => ?_, h.diagnostics⟩
    rcases List.mem_append.1 hmem with hbefore | hnew
    · exact h.definitions other hbefore
    · obtain rfl := List.mem_singleton.1 hnew
      exact hd

/-! ### Partial definitions and includes statements -/

theorem within_update {f : Definition → Definition} (h : ∀ d ∈ definitions, d.Within S)
    (hf : ∀ d, d.Within S → (f d).Within S) : ∀ d ∈ update definitions name f, d.Within S := by
  intro d hmem
  obtain ⟨other, hother, rfl⟩ := List.mem_map.1 hmem
  split
  · exact hf other (h other hother)
  · exact h other hother

theorem within_setMembers {members : List Member} (hd : d.Within S)
    (hmembers : ∀ m ∈ members, S m.span) : (setMembers d members).Within S := by
  obtain ⟨name, body, extAttrs, span⟩ := d
  cases body with
  | container c => exact ⟨hd.span, hmembers⟩
  | _ => exact hd

theorem within_addMembers {incoming : List Member} (h : linked.Within S) (hd : d.Within S)
    (hincoming : ∀ m ∈ incoming, S m.span) : (addMembers policy linked d incoming).Within S := by
  refine ⟨within_update h.definitions fun other hother => within_setMembers hother ?_, ?_⟩
  · intro m hm
    rw [Member.merge_fst] at hm
    rcases Member.mem_merged hm with hm | hm
    · exact hd.members m hm
    · exact hincoming m hm
  · intro e hmem
    rcases List.mem_append.1 hmem with hbefore | hnew
    · exact h.diagnostics e hbefore
    · exact Member.links_of_merge hd.members hincoming e hnew

theorem members_of_container? {c : Container} (h : d.container? = some c) :
    d.members = c.members := by
  rw [Definition.members, h]

theorem within_foldPartial (h : linked.Within S) (hd : d.Within S) :
    (foldPartial policy linked d).Within S := by
  unfold foldPartial
  split
  · exact h
  rename_i c hc
  split
  · exact h.report (Links.report rfl hd.span).withHint
  rename_i base baseKind hbase
  have hbaseWithin := h.definitions base (mem_of_declared? hbase)
  split
  · refine within_addMembers ⟨within_update h.definitions fun other hother => ?_, h.diagnostics⟩
      hbaseWithin ?_
    · exact ⟨hother.span, hother.members⟩
    · rw [← members_of_container? hc]
      exact hd.members
  · exact h.report ((Links.report rfl hd.span).withRelated hbaseWithin.span)

theorem links_containerFault? {kind : ContainerKind} (h : ∀ d ∈ definitions, d.Within S)
    (hspan : S span) (he : containerFault? definitions kind name span = some e) : e.Links S := by
  unfold containerFault? at he
  split at he
  · cases he
    exact .report rfl hspan
  · rename_i hfound
    split at he
    · cases he
    · cases he
      exact (Links.report rfl hspan).withRelated (h _ (mem_of_declared? hfound)).span

theorem within_applyIncludes (h : linked.Within S) (hd : d.Within S) :
    (applyIncludes policy linked d).Within S := by
  unfold applyIncludes
  split
  · dsimp only
    split
    · rename_i htarget hsource
      have hmerged : (addMembers policy linked _ _).Within S := within_addMembers h
        (h.definitions _ (List.mem_of_find?_eq_some htarget))
        (h.definitions _ (List.mem_of_find?_eq_some hsource)).members
      exact ⟨hmerged.definitions, hmerged.diagnostics⟩
    · refine ⟨h.definitions, fun e hmem => ?_⟩
      rcases List.mem_append.1 hmem with hbefore | hnew
      · exact h.diagnostics e hbefore
      · rcases List.mem_append.1 hnew with htarget | hmixin
        · exact links_containerFault? h.definitions hd.span (Option.mem_toList.1 htarget)
        · exact links_containerFault? h.definitions hd.span (Option.mem_toList.1 hmixin)
  · exact h

/-! ### Names -/

theorem links_parentFault? (h : ∀ d ∈ definitions, d.Within S) (hd : S d.span)
    (he : parentFault? policy definitions d = some e) : e.Links S := by
  unfold parentFault? at he
  obtain ⟨c, -, he⟩ := Option.bind_eq_some_iff.1 he
  obtain ⟨parent, -, he⟩ := Option.bind_eq_some_iff.1 he
  split at he
  · split at he
    · cases he
    · cases he
      exact .report rfl hd
  · rename_i hfound
    dsimp only at he
    split at he
    · cases he
    · cases he
      exact (Links.report rfl hd).withRelated (h _ (mem_of_declared? hfound)).span

theorem links_referenceFault? (h : ∀ d ∈ definitions, d.Within S) (hspan : S span)
    (he : referenceFault? policy definitions name span = some e) : e.Links S := by
  unfold referenceFault? at he
  split at he
  · split at he
    · cases he
    · cases he
      exact .report rfl hspan
  · rename_i hfound
    split at he
    · cases he
    · cases he
      exact (Links.report rfl hspan).withRelated (h _ (mem_of_declared? hfound)).span

theorem within_references (hd : d.Within S) : ∀ reference ∈ d.references, S reference.2 := by
  intro reference hmem
  obtain ⟨owner, howner, hreference, -⟩ := mem_references_iff.1 hmem
  rw [← hreference]
  rcases owner_cases howner with ⟨m, hm, rfl⟩ | hspan
  · exact hd.members m hm
  · rw [hspan]
    exact hd.span

theorem links_resolutionFaults (h : ∀ d ∈ definitions, d.Within S) :
    ∀ e ∈ resolutionFaults policy definitions, e.Links S := by
  intro e hmem
  rcases List.mem_append.1 hmem with hparent | hreference
  · obtain ⟨d, hd, he⟩ := List.mem_filterMap.1 hparent
    exact links_parentFault? h (h d hd).span he
  · obtain ⟨⟨name, span⟩, hin, he⟩ := List.mem_filterMap.1 hreference
    obtain ⟨d, hd, hin⟩ := List.mem_flatMap.1 (List.mem_eraseDups.1 hin)
    exact links_referenceFault? h (within_references (h d hd) _ hin) he

/-! ### All definitions -/

theorem within_ofDefinitions (h : ∀ d ∈ definitions, d.Within S) :
    (ofDefinitions policy definitions).Within S := by
  refine ofDefinitions_induction policy definitions ⟨?_, ?_⟩ ?_ ?_ ?_
  · exact List.forall_mem_nil _
  · exact List.forall_mem_nil _
  · exact fun linked hlinked d hd => within_register hlinked (h d hd)
  · exact fun linked hlinked d hd => within_foldPartial hlinked (h d hd)
  · exact fun linked hlinked d hd => within_applyIncludes hlinked (h d hd)

end Linked

/-- When linking fails, its faults are at places of the definitions and members. -/
theorem Model.links_of_link {policy : Policy} {definitions : List Definition}
    (h : ∀ d ∈ definitions, d.Within S) {diagnostics : List Diagnostic}
    (hlink : Model.link policy definitions = .error diagnostics) :
    diagnostics ≠ [] ∧ ∀ e ∈ diagnostics, e.Links S := by
  have hwithin : (Linked.ofDefinitions policy definitions).Within S := Linked.within_ofDefinitions h
  unfold Model.link at hlink
  dsimp only at hlink
  split at hlink
  · cases hlink
  · rename_i hnone
    cases hlink
    refine ⟨fun hnil => hnone (by rw [hnil]; rfl), fun e hmem => ?_⟩
    rcases List.mem_append.1 hmem with hlinked | hresolution
    · exact hwithin.diagnostics e hlinked
    · exact Linked.links_resolutionFaults hwithin.definitions e hresolution

end IdlBindings
