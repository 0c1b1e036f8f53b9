import IdlBindings.Model.Order
import IdlBindings.Proofs.Model.Folding

/-!
No definition but the mixins is left out of the order of declarations
(`Model.mem_emissionOrder_of_mem`). A visit may leave definitions that wait for what they need;
`Model.Settled` names them, and at the end nothing waits.
-/

namespace IdlBindings

open Definition

namespace Model

variable {model : Model} {depth : Nat} {state : Visit} {d : Definition}

/-- Every definition that was met is a mixin, or it is in order, or it waits. -/
def Settled (model : Model) (waiting : List String) (state : Visit) : Prop :=
  ∀ d ∈ model.definitions, d.isMixin = false → d.name ∈ state.visited →
    d.name ∈ state.order ∨ d.name ∈ waiting

/-- The state when the definition `d` has been met. -/
def Visit.enter (state : Visit) (d : Definition) : Visit :=
  ⟨state.visited ++ [d.name], state.order⟩

/-- Visits to the definitions of these names. -/
def visitAll (model : Model) (depth : Nat) (names : List String) (state : Visit) : Visit :=
  names.foldl (fun state name =>
    match model.get? name with
    | some needed => visit model depth state needed
    | none => state) state

/-- What a visit does. -/
theorem visit_cases (model : Model) (depth : Nat) (state : Visit) (d : Definition) :
    (d.name ∈ state.visited ∧ visit model (depth + 1) state d = state) ∨
    (d.isMixin = true ∧ visit model (depth + 1) state d = state.enter d) ∨
    visit model (depth + 1) state d =
      ⟨(visitAll model depth d.dependencies (state.enter d)).visited,
        (visitAll model depth d.dependencies (state.enter d)).order ++ [d.name]⟩ := by
  rw [visit]
  by_cases hmet : state.visited.contains d.name = true
  · exact .inl ⟨List.contains_iff_mem.1 hmet, if_pos hmet⟩
  · rw [if_neg hmet]
    by_cases hmixin : d.isMixin = true
    · exact .inr (.inl ⟨hmixin, if_pos hmixin⟩)
    · exact .inr (.inr (if_neg hmixin))

theorem of_get?_eq_some {name : String} (h : model.get? name = some d) :
    d ∈ model.definitions ∧ d.name = name := by
  have hname : (d.name == name) = true :=
    @List.find?_some _ (fun d : Definition => d.name == name) _ _ h
  exact ⟨List.mem_of_find?_eq_some h, beq_iff_eq.1 hname⟩

/-- What every visit keeps is kept by many. -/
theorem visitAll_induction {P : Visit → Prop} (names : List String)
    (hvisit : ∀ state, P state → ∀ d ∈ model.definitions, d.name ∈ names →
      P (visit model depth state d))
    (hstate : P state) : P (visitAll model depth names state) := by
  induction names generalizing state with
  | nil => exact hstate
  | cons name rest ih =>
      have hrest := fun state hstate d hd hname =>
        hvisit state hstate d hd (List.mem_cons_of_mem name hname)
      rw [visitAll, List.foldl_cons]
      cases hneeded : model.get? name with
      | none => exact ih hrest hstate
      | some needed =>
          obtain ⟨hmem, rfl⟩ := of_get?_eq_some hneeded
          exact ih hrest (hvisit state hstate needed hmem List.mem_cons_self)

/-! ### What was met -/

theorem name_mem_enter : d.name ∈ (state.enter d).visited :=
  List.mem_append_right _ (List.mem_singleton_self d.name)

theorem mem_visited_visit {name : String} (hname : name ∈ state.visited) :
    name ∈ (visit model depth state d).visited := by
  induction depth generalizing state d with
  | zero => exact hname
  | succ depth ih =>
      have hentered : name ∈ (state.enter d).visited := List.mem_append_left _ hname
      rcases visit_cases model depth state d with ⟨-, heq⟩ | ⟨-, heq⟩ | heq
      · rw [heq]
        exact hname
      · rw [heq]
        exact hentered
      · rw [heq]
        exact visitAll_induction (P := fun state => name ∈ state.visited) _
          (fun _ hvisited _ _ _ => ih hvisited) hentered

/-- A definition that is visited has been met. -/
theorem name_mem_visited_visit : d.name ∈ (visit model (depth + 1) state d).visited := by
  rcases visit_cases model depth state d with ⟨hmet, heq⟩ | ⟨-, heq⟩ | heq
  · rw [heq]
    exact hmet
  · rw [heq]
    exact name_mem_enter
  · rw [heq]
    exact visitAll_induction (P := fun state => d.name ∈ state.visited) _
      (fun _ hvisited _ _ _ => mem_visited_visit hvisited) name_mem_enter

/-- Where each visit meets its definition, many visits meet all of theirs. -/
theorem visitAll_meets {P : Visit → Prop} (names : List String)
    (hvisit : ∀ state, P state → ∀ d ∈ model.definitions, d.name ∈ names →
      P (visit model depth state d) ∧ d.name ∈ (visit model depth state d).visited)
    (hstate : P state) : P (visitAll model depth names state) ∧
      ∀ d ∈ model.definitions, d.name ∈ names →
        d.name ∈ (visitAll model depth names state).visited := by
  refine ⟨visitAll_induction names (fun state hstate d hd hname =>
    (hvisit state hstate d hd hname).1) hstate, fun d hd hname => ?_⟩
  induction names generalizing state with
  | nil => cases hname
  | cons name rest ih =>
      have hrest := fun state hstate d hd hname =>
        hvisit state hstate d hd (List.mem_cons_of_mem name hname)
      rw [visitAll, List.foldl_cons]
      cases hneeded : model.get? name with
      | none =>
          rcases List.mem_cons.1 hname with rfl | hname
          · have hnone := List.find?_eq_none.1 hneeded d hd
            exact absurd (beq_self_eq_true d.name) hnone
          · exact ih hrest hstate hname
      | some needed =>
          obtain ⟨hmem, rfl⟩ := of_get?_eq_some hneeded
          have hmet := hvisit state hstate needed hmem List.mem_cons_self
          rcases List.mem_cons.1 hname with hself | hname
          · rw [hself]
            exact visitAll_induction (P := fun state => needed.name ∈ state.visited) rest
              (fun _ hvisited _ _ _ => mem_visited_visit hvisited) hmet.2
          · exact ih hrest hmet.1 hname

theorem mem_visited_foldl {name : String} (items : List Definition)
    (hname : name ∈ state.visited) : name ∈ (items.foldl (visit model depth) state).visited := by
  induction items generalizing state with
  | nil => exact hname
  | cons d rest ih => exact ih (mem_visited_visit hname)

theorem name_mem_visited_foldl {items : List Definition} (hd : d ∈ items) :
    d.name ∈ (items.foldl (visit model (depth + 1)) state).visited := by
  induction items generalizing state with
  | nil => cases hd
  | cons first rest ih =>
      rcases List.mem_cons.1 hd with rfl | hrest
      · exact mem_visited_foldl rest name_mem_visited_visit
      · exact ih hrest

/-! ### What waits -/

section Settled

variable (hnodup : (model.definitions.map Definition.name).Nodup) {waiting : List String}

include hnodup

theorem Settled.enter_mixin (h : Settled model waiting state) (hd : d ∈ model.definitions)
    (hmixin : d.isMixin = true) : Settled model waiting (state.enter d) := by
  intro e he hnot hvisited
  rcases List.mem_append.1 hvisited with hbefore | hnew
  · exact h e he hnot hbefore
  · obtain rfl := eq_of_name hnodup he hd (List.mem_singleton.1 hnew)
    rw [hmixin] at hnot
    cases hnot

omit hnodup

/-- A definition that has been met waits for what it needs. -/
theorem Settled.enter (h : Settled model waiting state) (d : Definition) :
    Settled model (d.name :: waiting) (state.enter d) := by
  intro e he hnot hvisited
  rcases List.mem_append.1 hvisited with hbefore | hnew
  · exact (h e he hnot hbefore).imp_right (List.mem_cons_of_mem _)
  · exact .inr (List.mem_singleton.1 hnew ▸ List.mem_cons_self)

/-- What waited last is put in order. -/
theorem Settled.leave {name : String} (h : Settled model (name :: waiting) state) :
    Settled model waiting ⟨state.visited, state.order ++ [name]⟩ := by
  intro e he hnot hvisited
  rcases h e he hnot hvisited with horder | hwaiting
  · exact .inl (List.mem_append_left _ horder)
  · rcases List.mem_cons.1 hwaiting with hself | hwaiting
    · exact .inl (List.mem_append_right _ (List.mem_singleton.2 hself))
    · exact .inr hwaiting

include hnodup

/-- After a visit, what waits is what waited before it. -/
theorem Settled.visit (h : Settled model waiting state) (hd : d ∈ model.definitions) :
    Settled model waiting (visit model depth state d) := by
  induction depth generalizing waiting state d with
  | zero => exact h
  | succ depth ih =>
      rcases visit_cases model depth state d with ⟨-, heq⟩ | ⟨hmixin, heq⟩ | heq
      · rw [heq]
        exact h
      · rw [heq]
        exact h.enter_mixin hnodup hd hmixin
      · rw [heq]
        exact (visitAll_induction d.dependencies
          (fun _ hsettled _ hneeded _ => ih hsettled hneeded) (h.enter d)).leave

theorem Settled.foldl {items : List Definition} (h : Settled model waiting state)
    (hitems : ∀ d ∈ items, d ∈ model.definitions) :
    Settled model waiting (items.foldl (Model.visit model depth) state) := by
  induction items generalizing state with
  | nil => exact h
  | cons d rest ih =>
      obtain ⟨hd, hrest⟩ := List.forall_mem_cons.1 hitems
      exact ih (h.visit hnodup hd) hrest

/-- Definitions that have all been visited are in order, but for the mixins. -/
theorem name_mem_order_foldl {items : List Definition} (hitems : ∀ d ∈ items, d ∈ model.definitions)
    (hd : d ∈ items) (hmixin : d.isMixin = false) :
    d.name ∈ (items.foldl (Model.visit model model.definitions.length) ⟨[], []⟩).order := by
  have hempty : Settled model [] ⟨[], []⟩ := fun _ _ _ hvisited => by cases hvisited
  have hsettled : Settled model [] (items.foldl
      (Model.visit model model.definitions.length) ⟨[], []⟩) := hempty.foldl hnodup hitems
  have hmet : d.name ∈ (items.foldl
      (Model.visit model model.definitions.length) ⟨[], []⟩).visited := by
    obtain ⟨n, hn⟩ := Nat.exists_eq_add_one.2 (List.length_pos_of_mem (hitems d hd))
    rw [hn]
    exact name_mem_visited_foldl hd
  rcases hsettled d (hitems d hd) hmixin hmet with horder | hwaiting
  · exact horder
  · cases hwaiting

/-- Every definition but the mixins has its place in the order of declarations. -/
theorem mem_emissionOrder_of_mem (hd : d ∈ model.definitions) (hmixin : d.isMixin = false) :
    d.name ∈ model.emissionOrder :=
  name_mem_order_foldl hnodup (fun _ he => he) hd hmixin

end Settled

end Model

end IdlBindings
