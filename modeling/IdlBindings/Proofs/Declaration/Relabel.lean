import IdlBindings.Declaration.File
import IdlBindings.Proofs.Model.Order
import IdlBindings.Proofs.Model.Relabel
import Mathlib.Data.List.Basic

/-!
What is written for a model does not depend on where its parts stand: neither its own text nor its
declaration file.
-/

namespace IdlBindings

open Definition

variable (g : Span → Span) (model : Model)

namespace Model

@[simp] theorem get?_relabel (name : String) :
    (model.relabel g).get? name = (model.get? name).map (Definition.relabel g) :=
  Linked.named?_relabel g model.definitions name

theorem text_relabel (indent : Nat) : (model.relabel g).text indent = model.text indent := by
  refine listText_congr ?_ indent
  rw [relabel, List.map_map]
  exact List.map_congr_left fun d _ => unplaced_relabel g d

/-! ### The order of declarations -/

theorem dependencies_relabel (d : Definition) : (d.relabel g).dependencies = d.dependencies := by
  have hparent : (d.container?.map (Container.relabel g)).bind Container.parent
      = d.container?.bind Container.parent := by
    cases d.container? <;> rfl
  rw [dependencies, dependencies, container?_relabel, hparent, references_relabel, List.map_map]
  rfl

theorem visit_relabel (depth : Nat) (state : Visit) (d : Definition) :
    visit (model.relabel g) depth state (d.relabel g) = visit model depth state d := by
  induction depth generalizing state d with
  | zero => rfl
  | succ depth ih =>
      have hall (names : List String) (state : Visit) :
          visitAll (model.relabel g) depth names state = visitAll model depth names state := by
        refine congrArg (fun step => names.foldl step state) ?_
        funext state name
        rw [get?_relabel]
        cases model.get? name with
        | none => rfl
        | some needed => exact ih state needed
      have hstep (model : Model) (d : Definition) : visit model (depth + 1) state d =
          if state.visited.contains d.name then state
          else if d.isMixin then state.enter d
          else
            ⟨(visitAll model depth d.dependencies (state.enter d)).visited,
              (visitAll model depth d.dependencies (state.enter d)).order ++ [d.name]⟩ := rfl
      rw [hstep, hstep, name_relabel, isMixin_relabel, dependencies_relabel, hall]
      rfl

theorem emissionOrder_relabel : (model.relabel g).emissionOrder = model.emissionOrder := by
  have hfold (items : List Definition) (depth : Nat) (state : Visit) :
      (items.map (Definition.relabel g)).foldl (visit (model.relabel g) depth) state
        = items.foldl (visit model depth) state := by
    rw [List.foldl_map]
    simp only [visit_relabel]
  have hlength : (model.relabel g).definitions.length = model.definitions.length :=
    List.length_map ..
  rw [emissionOrder, emissionOrder, hlength]
  exact congrArg Visit.order (hfold model.definitions _ _)

end Model

/-! ### Declarations -/

namespace Style

variable (style : Style)

theorem blocks_relabel (d : Definition) :
    style.blocks (model.relabel g) (d.relabel g) = style.blocks model d := by
  obtain ⟨name, body, extAttrs, span⟩ := d
  cases body with
  | container c =>
      have hlines (lines : MemberBody → List String) :
          (c.relabel g).members.flatMap (fun m => lines m.body)
            = c.members.flatMap fun m => lines m.body :=
        List.flatMap_map ..
      simp only [blocks, Definition.relabel, DefinitionBody.relabel, interfaceBlock, objectBlock,
        namespaceBlock, hlines]
      rfl
  | _ => rfl

theorem blockTexts_relabel (scope : Scope) (names : List String) :
    style.blockTexts (model.relabel g) scope names = style.blockTexts model scope names := by
  have hfound : names.filterMap (model.relabel g).get?
      = (names.filterMap model.get?).map (Definition.relabel g) := by
    rw [List.map_filterMap]
    exact List.filterMap_congr fun name _ => Model.get?_relabel g model name
  rw [blockTexts, blockTexts, hfound, List.flatMap_map]
  simp only [blocks_relabel]

theorem declarations_relabel :
    style.declarations (model.relabel g) = style.declarations model := by
  have hplaced : style.isPlacedGlobal (model.relabel g) = style.isPlacedGlobal model := rfl
  simp only [declarations, bodyText, Model.emissionOrder_relabel, blockTexts_relabel, hplaced]

end Style

end IdlBindings
