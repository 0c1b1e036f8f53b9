import IdlBindings.Proofs.Model.Order
import IdlBindings.Proofs.Model.Relink
import Mathlib.Data.List.Perm.Subperm
import Mathlib.Logic.Relation

/-!
What a definition refers to is declared before it, unless the reference closes a cycle
(`Model.emissionOrder_of_link`). Each definition that waits leads to the one that is visited, so a
reference to a definition that waits closes a cycle; any other reference has its place in the order
before the definition that makes it (`Model.Ordered`).
-/

namespace IdlBindings

open Definition Relation

/-- The definition names `name` as its parent or in a type. -/
def Definition.RefersTo (d : Definition) (name : String) : Prop :=
  d.container?.bind Container.parent = some name ∨ ∃ span, (name, span) ∈ d.references

theorem Definition.mem_dependencies {d : Definition} {name : String} :
    name ∈ d.dependencies ↔ d.RefersTo name := by
  rw [dependencies, List.mem_eraseDups, List.mem_append, Option.mem_toList, RefersTo]
  simp

namespace Model

variable {model : Model} {depth : Nat} {state : Visit} {waiting : List String} {d : Definition}

/-- A definition of this name is declared: it is in the model and is no mixin. -/
def Emits (model : Model) (name : String) : Prop :=
  ∃ d ∈ model.definitions, d.name = name ∧ d.isMixin = false

/-- The declaration of `name` refers to `other`, which is declared as well. -/
def Leads (model : Model) (name other : String) : Prop :=
  (∃ d ∈ model.definitions, d.name = name ∧ d.isMixin = false ∧ d.RefersTo other) ∧
    model.Emits other

/-- What is known between two visits. A name that is in order may still refer to a name that is not,
but only if that leads back to it. -/
structure Ordered (model : Model) (waiting : List String) (state : Visit) : Prop where
  settled : model.Settled waiting state
  nodup : (state.order ++ waiting).Nodup
  visited : ∀ name ∈ state.order ++ waiting, name ∈ state.visited
  emits : ∀ name ∈ state.order ++ waiting, model.Emits name
  closed : ∀ name ∈ state.order, ∀ other, model.Leads name other →
    other ∈ state.order ∨ TransGen model.Leads other name
  pairwise : state.order.Pairwise fun name other =>
    model.Leads name other → TransGen model.Leads other name

namespace Ordered

theorem empty : Ordered model [] ⟨[], []⟩ where
  settled := fun _ _ _ hvisited => by cases hvisited
  nodup := List.nodup_nil
  visited := List.forall_mem_nil _
  emits := List.forall_mem_nil _
  closed := List.forall_mem_nil _
  pairwise := List.Pairwise.nil

theorem enter (h : Ordered model waiting state) (hd : d ∈ model.definitions)
    (hmixin : d.isMixin = false) (hnew : d.name ∉ state.visited) :
    Ordered model (d.name :: waiting) (state.enter d) where
  settled := h.settled.enter d
  nodup := List.perm_middle.nodup_iff.2
    (List.nodup_cons.2 ⟨fun hmem => hnew (h.visited d.name hmem), h.nodup⟩)
  visited := by
    intro name hname
    rcases List.mem_cons.1 (List.perm_middle.mem_iff.1 hname) with rfl | hname
    · exact name_mem_enter
    · exact List.mem_append_left _ (h.visited name hname)
  emits := by
    intro name hname
    rcases List.mem_cons.1 (List.perm_middle.mem_iff.1 hname) with rfl | hname
    · exact ⟨d, hd, rfl, hmixin⟩
    · exact h.emits name hname
  closed := h.closed
  pairwise := h.pairwise

/-- The definition that waited last is put in order once all that it refers to has been met. -/
theorem leave {name : String} (h : Ordered model (name :: waiting) state)
    (hwaiting : ∀ other ∈ waiting, TransGen model.Leads other name)
    (hmet : ∀ other, model.Leads name other → other ∈ state.visited) :
    Ordered model waiting ⟨state.visited, state.order ++ [name]⟩ where
  settled := h.settled.leave
  nodup := by simpa using h.nodup
  visited := by simpa using h.visited
  emits := by simpa using h.emits
  closed := by
    intro first hfirst other hleads
    rcases List.mem_append.1 hfirst with hfirst | hlast
    · exact (h.closed first hfirst other hleads).imp_left (List.mem_append_left _)
    · obtain rfl := List.mem_singleton.1 hlast
      obtain ⟨e, he, rfl, hmixin⟩ := hleads.2
      rcases h.settled e he hmixin (hmet e.name hleads) with horder | hstill
      · exact .inl (List.mem_append_left _ horder)
      · rcases List.mem_cons.1 hstill with hself | hstill
        · exact .inl (List.mem_append_right _ (List.mem_singleton.2 hself))
        · exact .inr (hwaiting e.name hstill)
  pairwise := by
    refine List.pairwise_append.2 ⟨h.pairwise, List.pairwise_singleton _ _, ?_⟩
    intro first hfirst other hother hleads
    obtain rfl := List.mem_singleton.1 hother
    have hnew : other ∉ state.order := fun hmem =>
      (List.nodup_append.1 h.nodup).2.2 other hmem other List.mem_cons_self rfl
    exact (h.closed first hfirst other hleads).resolve_left hnew

/-- When as many wait as there are definitions, every definition has been met. -/
theorem name_mem_visited (h : Ordered model waiting state)
    (hlength : model.definitions.length ≤ waiting.length) (hd : d ∈ model.definitions) :
    d.name ∈ state.visited := by
  have hnodup : waiting.Nodup := (List.nodup_append.1 h.nodup).2.1
  have hsubset : waiting ⊆ model.definitions.map Definition.name := by
    intro name hname
    obtain ⟨e, he, rfl, -⟩ := h.emits name (List.mem_append_right _ hname)
    exact List.mem_map_of_mem he
  have hperm := (List.subperm_of_subset hnodup hsubset).perm_of_length_le (by rwa [List.length_map])
  exact h.visited _ (List.mem_append_right _ (hperm.mem_iff.2 (List.mem_map_of_mem hd)))

variable (hnodup : (model.definitions.map Definition.name).Nodup)

include hnodup

/-- A visit meets its definition, whatever the depth at which it begins. -/
theorem visit (h : Ordered model waiting state) (hd : d ∈ model.definitions)
    (hdepth : model.definitions.length ≤ waiting.length + depth)
    (hwaiting : d.isMixin = false → ∀ name ∈ waiting, TransGen model.Leads name d.name) :
    Ordered model waiting (Model.visit model depth state d) ∧
      d.name ∈ (Model.visit model depth state d).visited := by
  induction depth generalizing waiting state d with
  | zero => exact ⟨h, h.name_mem_visited hdepth hd⟩
  | succ depth ih =>
      refine ⟨?_, name_mem_visited_visit⟩
      by_cases hmet : d.name ∈ state.visited
      · rw [Model.visit, if_pos (List.contains_iff_mem.2 hmet)]
        exact h
      cases hmixin : d.isMixin with
      | true =>
          rw [Model.visit, if_neg (by simpa using hmet), if_pos hmixin]
          exact ⟨h.settled.enter_mixin hnodup hd hmixin, h.nodup,
            fun name hname => List.mem_append_left _ (h.visited name hname), h.emits, h.closed,
            h.pairwise⟩
      | false =>
          -- all that waits leads to the definition, and so to what it refers to
          have hlead : ∀ e ∈ model.definitions, e.name ∈ d.dependencies → e.isMixin = false →
              ∀ name ∈ d.name :: waiting, TransGen model.Leads name e.name := by
            intro e he hname hnot
            have hleads : model.Leads d.name e.name :=
              ⟨⟨d, hd, rfl, hmixin, mem_dependencies.1 hname⟩, e, he, rfl, hnot⟩
            exact List.forall_mem_cons.2
              ⟨.single hleads, fun name hmem => (hwaiting hmixin name hmem).tail hleads⟩
          have hlength : model.definitions.length ≤ (d.name :: waiting).length + depth := by
            rw [List.length_cons]
            omega
          have hvisit := fun state (hstate : Ordered model (d.name :: waiting) state) e he hname =>
            ih hstate he hlength (hlead e he hname)
          obtain ⟨hleft, hall⟩ := visitAll_meets d.dependencies hvisit (h.enter hd hmixin hmet)
          rw [Model.visit, if_neg (by simpa using hmet), if_neg (by simp [hmixin])]
          refine hleft.leave (hwaiting hmixin) fun other hleads => ?_
          obtain ⟨⟨e, he, hname, -, hrefers⟩, other, hother, rfl, -⟩ := hleads
          obtain rfl := eq_of_name hnodup he hd hname
          exact hall other hother (mem_dependencies.2 hrefers)

theorem foldl {items : List Definition} (h : Ordered model [] state)
    (hitems : ∀ d ∈ items, d ∈ model.definitions) :
    Ordered model [] (items.foldl (Model.visit model model.definitions.length) state) := by
  induction items generalizing state with
  | nil => exact h
  | cons d rest ih =>
      obtain ⟨hd, hrest⟩ := List.forall_mem_cons.1 hitems
      refine ih (h.visit hnodup hd ?_ ?_).1 hrest
      · simp
      · exact fun _ => List.forall_mem_nil _

end Ordered

section Order

variable (hnodup : (model.definitions.map Definition.name).Nodup)

include hnodup

theorem mem_emissionOrder {name : String} : name ∈ model.emissionOrder ↔ model.Emits name := by
  constructor
  · intro hname
    exact (Ordered.empty.foldl hnodup fun _ hd => hd).emits name (List.mem_append_left _ hname)
  · rintro ⟨d, hd, rfl, hmixin⟩
    exact mem_emissionOrder_of_mem hnodup hd hmixin

theorem nodup_emissionOrder : model.emissionOrder.Nodup := by
  have hordered := Ordered.empty.foldl hnodup fun _ hd => hd
  exact (List.nodup_append.1 hordered.nodup).1

/-- A name that stands before what it refers to is led back to. -/
theorem pairwise_emissionOrder : model.emissionOrder.Pairwise fun name other =>
    model.Leads name other → TransGen model.Leads other name :=
  (Ordered.empty.foldl hnodup fun _ hd => hd).pairwise

end Order

theorem nodup_names_of_link {policy : Policy} {definitions : List Definition}
    (h : Model.link policy definitions = .ok model) :
    (model.definitions.map Definition.name).Nodup := by
  obtain ⟨hwell, hdefinitions, -⟩ := wellFormed_of_link h
  rw [hdefinitions, names_folded]
  exact hwell.distinct

/-- Every definition of a linked model but the mixins stands once in the order of declarations, and
nothing else does. What a definition refers to stands before it, unless that leads back to it. -/
theorem emissionOrder_of_link {policy : Policy} {definitions : List Definition}
    (h : Model.link policy definitions = .ok model) :
    model.emissionOrder.Nodup ∧ (∀ name, name ∈ model.emissionOrder ↔ model.Emits name) ∧
      ∀ name ∈ model.emissionOrder, ∀ other ∈ model.emissionOrder, name ≠ other →
        (∃ d ∈ model.definitions, d.name = name ∧ d.RefersTo other) →
        ¬ TransGen model.Leads other name →
          model.emissionOrder.idxOf other < model.emissionOrder.idxOf name := by
  have hnodup := nodup_names_of_link h
  refine ⟨nodup_emissionOrder hnodup, fun name => mem_emissionOrder hnodup, ?_⟩
  intro name hname other hother hne hrefers hback
  obtain ⟨d, hd, rfl, hrefers⟩ := hrefers
  obtain ⟨e, he, hsame, hmixin⟩ := (mem_emissionOrder hnodup).1 hname
  obtain rfl := eq_of_name hnodup he hd hsame
  have hleads : model.Leads e.name other :=
    ⟨⟨e, he, rfl, hmixin, hrefers⟩, (mem_emissionOrder hnodup).1 hother⟩
  have hfirst := List.idxOf_lt_length_of_mem hname
  have hsecond := List.idxOf_lt_length_of_mem hother
  rcases Nat.lt_trichotomy (model.emissionOrder.idxOf other) (model.emissionOrder.idxOf e.name) with
    hlt | heq | hgt
  · exact hlt
  · exact absurd ((List.idxOf_inj hother).1 heq).symm hne
  · have hpair := List.pairwise_iff_getElem.1 (pairwise_emissionOrder hnodup) _ _ hfirst hsecond hgt
    rw [List.getElem_idxOf, List.getElem_idxOf] at hpair
    exact absurd (hpair hleads) hback

/-- The first two refer to each other, and the second to the third as well. -/
def cyclicPair : List Definition :=
  [⟨"A", .typedef (.named "B"), [], ⟨0, 1⟩⟩,
    ⟨"B", .typedef (.union [.named "A", .named "C"]), [], ⟨1, 2⟩⟩,
    ⟨"C", .typedef .any, [], ⟨2, 3⟩⟩]

theorem emissionOrder_of_link_cyclicPair : ∃ model,
    Model.link .default cyclicPair = .ok model ∧
    model.emissionOrder = ["C", "B", "A"] ∧ ¬ TransGen model.Leads "C" "B" ∧
    model.emissionOrder.idxOf "C" < model.emissionOrder.idxOf "B" := by
  obtain ⟨model, hmodel, hdefinitions, horder⟩ : ∃ model,
      Model.link .default cyclicPair = .ok model ∧ model.definitions = cyclicPair ∧
      model.emissionOrder = ["C", "B", "A"] := ⟨_, rfl, rfl, by decide +kernel⟩
  have hback : ¬ TransGen model.Leads "C" "B" := by
    intro hleads
    obtain ⟨other, ⟨⟨d, hd, hname, -, hrefers⟩, -⟩, -⟩ := TransGen.head'_iff.1 hleads
    rw [hdefinitions, cyclicPair] at hd
    have hnone : d.dependencies = [] := by
      simp only [List.mem_cons, List.not_mem_nil, or_false] at hd
      rcases hd with rfl | rfl | rfl
      · exact absurd hname (by decide)
      · exact absurd hname (by decide)
      · decide
    exact List.not_mem_nil (hnone ▸ mem_dependencies.2 hrefers)
  refine ⟨model, hmodel, horder, hback, ?_⟩
  refine (emissionOrder_of_link hmodel).2.2 "B" ?_ "C" ?_ (by decide) ?_ hback
  · simp [horder]
  · simp [horder]
  · rw [hdefinitions]
    exact ⟨_, List.mem_cons_of_mem _ List.mem_cons_self, rfl, mem_dependencies.1 (by decide)⟩

end Model

end IdlBindings
