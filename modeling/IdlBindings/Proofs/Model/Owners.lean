import IdlBindings.Proofs.Model.Reported
import IdlBindings.Proofs.Model.WellFormed
import Mathlib.Data.List.Induction

/-!
What owns types once definitions are folded, and what names stand for, whatever faults linking
finds. The folds only put members of one definition into another (`Linked.Grows`), so every owner
was one before (`Linked.owner_ofDefinitions`), and a name stands for its first declaration
(`Linked.place?_ofDefinitions`).
-/

namespace IdlBindings

namespace Definition

/-- The definition keeps its name, its kind and its place. What it owns it owned before, or it is in
`P`. -/
structure Extended (P : Owner → Prop) (d e : Definition) : Prop where
  name : e.name = d.name
  symbolKind : e.symbolKind? = d.symbolKind?
  span : e.span = d.span
  owners : ∀ owner ∈ e.owners, owner ∈ d.owners ∨ P owner

namespace Extended

variable {P : Owner → Prop} {d e f : Definition}

theorem refl : d.Extended P d := ⟨rfl, rfl, rfl, fun _ => Or.inl⟩

theorem trans (h : d.Extended P e) (h' : e.Extended P f) : d.Extended P f := by
  refine ⟨h'.name.trans h.name, h'.symbolKind.trans h.symbolKind, h'.span.trans h.span,
    fun owner howner => ?_⟩
  rcases h'.owners owner howner with hold | hnew
  · exact h.owners owner hold
  · exact .inr hnew

end Extended

end Definition

namespace Linked

open Definition

/-- Every definition goes on as one that extends it. -/
def Grows (P : Owner → Prop) (before after : List Definition) : Prop :=
  ∃ g : Definition → Definition, after = before.map g ∧ ∀ d : Definition, d.Extended P (g d)

/-- Where a name is declared first, and as what. -/
def place? (definitions : List Definition) (name : String) : Option (Span × SymbolKind) :=
  (declared? definitions name).map fun found => (found.1.span, found.2)

variable {P : Owner → Prop} {policy : Policy} {linked : Linked}
  {before between after definitions : List Definition} {d : Definition} {name : String}

namespace Grows

theorem refl : Grows P before before := ⟨id, (List.map_id before).symm, fun _ => .refl⟩

theorem trans (h : Grows P before between) (h' : Grows P between after) : Grows P before after := by
  obtain ⟨f, rfl, hf⟩ := h
  obtain ⟨g, rfl, hg⟩ := h'
  exact ⟨g ∘ f, List.map_map, fun d => (hf d).trans (hg (f d))⟩

theorem update {f : Definition → Definition} (hf : ∀ d : Definition, d.Extended P (f d)) :
    Grows P before (Linked.update before name f) := by
  refine ⟨_, rfl, fun d => ?_⟩
  split
  · exact hf d
  · exact .refl

theorem owners (h : Grows P before after) (hbefore : ∀ d ∈ before, ∀ owner ∈ d.owners, P owner) :
    ∀ d ∈ after, ∀ owner ∈ d.owners, P owner := by
  obtain ⟨g, rfl, hg⟩ := h
  intro _ hmem owner howner
  obtain ⟨d, hd, rfl⟩ := List.mem_map.1 hmem
  rcases (hg d).owners owner howner with hold | hnew
  · exact hbefore d hd owner hold
  · exact hnew

theorem place?_eq (h : Grows P before after) (name : String) :
    place? after name = place? before name := by
  obtain ⟨g, rfl, hg⟩ := h
  rw [place?, place?, declared?_map (fun d => (hg d).name) (fun d => (hg d).symbolKind),
    Option.map_map]
  congr 1
  funext found
  exact congrArg (·, found.2) (hg found.1).span

end Grows

/-! ### Steps -/

theorem grows_addMembers {incoming : List Member} (hown : ∀ m ∈ d.members, P (.member m))
    (hincoming : ∀ m ∈ incoming, P (.member m)) :
    Grows P linked.definitions (addMembers policy linked d incoming).definitions := by
  refine .update fun e => ?_
  rw [Member.merge_fst]
  obtain ⟨name, body, extAttrs, span⟩ := e
  cases body with
  | container c =>
      refine ⟨rfl, rfl, rfl, fun owner howner => .inr ?_⟩
      obtain ⟨m, hm, rfl⟩ := List.mem_map.1 howner
      exact (Member.mem_merged hm).elim (hown m) (hincoming m)
  | _ => exact .refl

section Steps

variable (h : ∀ e ∈ linked.definitions, ∀ owner ∈ e.owners, P owner)

include h

theorem owners_register (hd : ∀ owner ∈ d.owners, P owner) :
    ∀ e ∈ (register linked d).definitions, ∀ owner ∈ e.owners, P owner := by
  unfold register
  split
  · exact h
  · split
    · exact h
    · exact List.forall_mem_append.2 ⟨h, List.forall_mem_singleton.2 hd⟩

theorem grows_foldPartial (hd : ∀ owner ∈ d.owners, P owner) :
    Grows P linked.definitions (foldPartial policy linked d).definitions := by
  unfold foldPartial
  split
  · exact .refl
  rename_i c hc
  split
  · exact .refl
  rename_i base baseKind hbase
  split
  · have hattrs : Grows P linked.definitions (update linked.definitions d.name fun base =>
        { base with extAttrs := d.extAttrs.foldl insertExtAttr base.extAttrs }) :=
      .update fun _ => ⟨rfl, rfl, rfl, fun _ => Or.inl⟩
    apply hattrs.trans
    apply grows_addMembers
    · exact fun m hm => h base (mem_of_declared? hbase) _ (member_mem_owners hm)
    · exact fun m hm => hd _ (member_mem_owners (members_of_container? hc ▸ hm))
  · exact .refl

theorem grows_applyIncludes :
    Grows P linked.definitions (applyIncludes policy linked d).definitions := by
  unfold applyIncludes
  split
  · dsimp only
    split
    · rename_i htarget hsource
      have hmember {e : Definition} (he : e ∈ linked.definitions) :
          ∀ m ∈ e.members, P (.member m) := fun m hm => h e he _ (member_mem_owners hm)
      exact grows_addMembers (hmember (List.mem_of_find?_eq_some htarget))
        (hmember (List.mem_of_find?_eq_some hsource))
    · exact .refl
  · exact .refl

end Steps

/-! ### All definitions -/

/-- What owns types after the folds did so before. -/
theorem owner_ofDefinitions (policy : Policy) (definitions : List Definition) :
    ∀ d ∈ (ofDefinitions policy definitions).definitions, ∀ owner ∈ d.owners,
      ∃ source ∈ definitions, owner ∈ source.owners := by
  have hgiven (d : Definition) (hd : d ∈ definitions) : ∀ owner ∈ d.owners,
      ∃ source ∈ definitions, owner ∈ source.owners := fun _ howner => ⟨d, hd, howner⟩
  apply ofDefinitions_induction (motive := fun linked => ∀ d ∈ linked.definitions,
    ∀ owner ∈ d.owners, ∃ source ∈ definitions, owner ∈ source.owners) policy definitions
  · exact List.forall_mem_nil _
  · exact fun linked h d hd => owners_register h (hgiven d hd)
  · exact fun linked h d hd => (grows_foldPartial h (hgiven d hd)).owners h
  · exact fun linked h d _ => (grows_applyIncludes h).owners h

theorem declared?_append (h : ∀ d ∈ before, d.symbolKind? ≠ none) (after : List Definition)
    (name : String) :
    declared? (before ++ after) name = (declared? before name).or (declared? after name) := by
  rw [declared?, declared?, declared?, named?, named?, named?, List.find?_append]
  cases hfound : before.find? fun d => d.name == name with
  | none => rfl
  | some d =>
      obtain ⟨kind, hkind⟩ := Option.ne_none_iff_exists'.1 (h d (List.mem_of_find?_eq_some hfound))
      simp [hkind]

/-- A name stands for the first of its declarations. -/
theorem declared?_registered (items : List Definition) (h : ∀ d ∈ items, d.symbolKind? ≠ none) :
    (∀ d ∈ (items.foldl register empty).definitions, d.symbolKind? ≠ none) ∧
      ∀ name, declared? (items.foldl register empty).definitions name = declared? items name := by
  induction items using List.reverseRecOn with
  | nil => exact ⟨List.forall_mem_nil _, fun _ => rfl⟩
  | append_singleton items d ih =>
      obtain ⟨hitems, hd⟩ := List.forall_mem_append.1 h
      obtain ⟨hkinds, hnames⟩ := ih hitems
      obtain ⟨kind, hkind⟩ := Option.ne_none_iff_exists'.1 (hd d List.mem_cons_self)
      rw [List.foldl_append, List.foldl_cons, List.foldl_nil, register, hkind]
      dsimp only
      cases hfirst : declared? (items.foldl register empty).definitions d.name with
      | none =>
          refine ⟨List.forall_mem_append.2 ⟨hkinds, hd⟩, fun name => ?_⟩
          rw [declared?_append hkinds, declared?_append hitems, hnames]
      | some first =>
          refine ⟨hkinds, fun name => ?_⟩
          rw [declared?_append hitems, ← hnames]
          change declared? (items.foldl register empty).definitions name = _
          -- the name of `d` has a declaration, and `d` does not declare another name
          by_cases hname : d.name = name
          · rw [← hname, hfirst]
            rfl
          · simp [declared?, named?, hname]

theorem place?_ofDefinitions (policy : Policy) (definitions : List Definition) (name : String) :
    place? (ofDefinitions policy definitions).definitions name
      = place? (declarations definitions) name := by
  have hkeep {step : Linked → Definition → Linked} (items : List Definition) (linked : Linked)
      (hstep : ∀ linked d, Grows (fun _ => True) linked.definitions (step linked d).definitions) :
      place? (items.foldl step linked).definitions name = place? linked.definitions name := by
    induction items generalizing linked with
    | nil => rfl
    | cons d rest ih => rw [List.foldl_cons, ih, (hstep linked d).place?_eq]
  have hall (linked : Linked) : ∀ d ∈ linked.definitions, ∀ owner ∈ d.owners, True :=
    fun _ _ _ _ => trivial
  unfold ofDefinitions
  rw [hkeep _ _ fun linked d => grows_applyIncludes (hall linked),
    hkeep _ _ fun linked d => grows_foldPartial (hall linked) fun _ _ => trivial]
  exact congrArg (Option.map _)
    ((declared?_registered _ fun d hd => symbolKind?_of_declaration hd).2 name)

end Linked

end IdlBindings
