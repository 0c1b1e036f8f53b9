import IdlBindings.Declaration.File
import IdlBindings.Proofs.Declaration.Style
import IdlBindings.Proofs.Model.Dependencies
import IdlBindings.Proofs.Text.Key
import Mathlib.Data.List.Nodup

/-!
Where declarations stand. A file is made of parts, each in a scope of its own, and every definition
but the mixins is in one of them (`Style.placed_of_link`). A scope adds words before a declaration,
which `Text.withoutLead` takes away again; what is left is the same in every scope.
-/

namespace IdlBindings

open Definition

/-! ### The words of a scope -/

/-- The text without the words that a scope may put before it: `export`, `declare` or both. -/
def Text.withoutLead (text : String) : String :=
  dropWord "declare " (dropWord "export " text)

/-- The words that begin a declaration of some kind. -/
def BlockKind.words : BlockKind → List String
  | .type => ["interface ", "type "]
  | .value => ["var ", "namespace "]

namespace Text

/-- A declaration begins with no word of a scope. -/
theorem head?_of_mem_words {kind : BlockKind} {word : String} (hword : word ∈ kind.words)
    (rest : String) : (word ++ rest).toList.head? ≠ some 'e' ∧
      (word ++ rest).toList.head? ≠ some 'd' := by
  rw [String.toList_append]
  cases kind <;>
    simp only [BlockKind.words, List.mem_cons, List.not_mem_nil, or_false] at hword <;>
    rcases hword with rfl | rfl <;> simp

/-- What a scope puts before a declaration is taken away. -/
theorem withoutLead_lead (scope : Scope) {kind : BlockKind} {word : String}
    (hword : word ∈ kind.words) (rest : String) :
    withoutLead (scope.lead kind ++ (word ++ rest)) = word ++ rest := by
  obtain ⟨hexport, hdeclare⟩ := head?_of_mem_words hword rest
  have hunexported : dropWord "export " (word ++ rest) = word ++ rest :=
    dropWord_of_head fun h => hexport h.symm
  have hundeclared : dropWord "declare " (word ++ rest) = word ++ rest :=
    dropWord_of_head fun h => hdeclare h.symm
  have hleads : scope.lead kind = "" ∨ scope.lead kind = "export " ∨ scope.lead kind = "declare " ∨
      scope.lead kind = "export " ++ "declare " := by
    cases scope <;> cases kind <;> simp [Scope.lead]
  rw [withoutLead]
  rcases hleads with h | h | h | h
  · rw [h, String.empty_append, hunexported, hundeclared]
  · rw [h, dropWord_append, hundeclared]
  · have hfirst : dropWord "export " ("declare " ++ (word ++ rest)) = "declare " ++ (word ++ rest) :=
      dropWord_of_head (by rw [String.toList_append]; simp)
    rw [h, hfirst, dropWord_append]
  · rw [h, String.append_assoc, dropWord_append, dropWord_append]

end Text

/-! ### The declarations of a definition -/

namespace Style

variable (style : Style) {model : Model} {d : Definition}

/-- The texts that declare a definition in a scope. -/
def declared (model : Model) (scope : Scope) (d : Definition) : List String :=
  (style.blocks model d).map (Block.text style.indent scope)

/-- The blocks of a definition: an interface and its object, a namespace, or a type with a name. -/
theorem cases_of_mem_blocks {block : Block} (h : block ∈ style.blocks model d) :
    (∃ c, d.body = .container c ∧ c.kind ≠ .nameSpace ∧
      (block = style.interfaceBlock d.name c ∨ block = style.objectBlock d.name c)) ∨
    (∃ c, d.body = .container c ∧ c.kind = .nameSpace ∧ block = style.namespaceBlock d.name c) ∨
    d.container? = none ∧ ∃ type, block = aliasBlock d.name type := by
  have halias (hbody : d.container? = none) {type : TypeExpr}
      (hblock : block ∈ [aliasBlock d.name type]) :
      d.container? = none ∧ ∃ type, block = aliasBlock d.name type :=
    ⟨hbody, type, List.mem_singleton.1 hblock⟩
  unfold blocks at h
  split at h
  · rename_i c hbody
    split at h
    · rename_i hkind
      refine .inl ⟨c, hbody, by simp [hkind], ?_⟩
      rcases List.mem_cons.1 h with rfl | hobject
      · exact .inl rfl
      · split at hobject
        · exact .inr (List.mem_singleton.1 hobject)
        · cases hobject
    · rename_i hkind
      exact .inl ⟨c, hbody, by simp [hkind], .inl (List.mem_singleton.1 h)⟩
    · rename_i hkind
      exact .inl ⟨c, hbody, by simp [hkind], .inl (List.mem_singleton.1 h)⟩
    · rename_i hkind
      exact .inr (.inl ⟨c, hbody, hkind, List.mem_singleton.1 h⟩)
    · cases h
  · rename_i hbody
    exact .inr (.inr (halias (by rw [container?, hbody]) h))
  · rename_i hbody
    exact .inr (.inr (halias (by rw [container?, hbody]) h))
  · rename_i hbody
    exact .inr (.inr (halias (by rw [container?, hbody]) h))
  · cases h

theorem head_of_mem_blocks {block : Block} (h : block ∈ style.blocks model d) :
    ∃ word ∈ block.kind.words, ∃ rest, block.head = word ++ rest := by
  rcases style.cases_of_mem_blocks h with ⟨c, -, -, rfl | rfl⟩ | ⟨c, -, -, rfl⟩ | ⟨-, type, rfl⟩
  · exact ⟨"interface ", List.mem_cons_self, _, String.append_assoc ..⟩
  · exact ⟨"var ", List.mem_cons_self, _, String.append_assoc ..⟩
  · exact ⟨"namespace ", List.mem_cons_of_mem _ List.mem_cons_self, d.name, rfl⟩
  · exact ⟨"type ", List.mem_cons_of_mem _ List.mem_cons_self, d.name ++ (" = " ++ type.text),
      by simp only [aliasBlock, String.append_assoc]⟩

/-- Whatever is in a model and no mixin has a declaration. -/
theorem declared_ne_nil (hd : d.isDeclaration = true) (hmixin : d.isMixin = false) (scope : Scope) :
    style.declared model scope d ≠ [] := by
  rw [declared, ne_eq, List.map_eq_nil_iff]
  obtain ⟨name, body, extAttrs, span⟩ := d
  cases body with
  | container c =>
      cases hkind : c.kind with
      | mixin => simp [isMixin, container?, hkind] at hmixin
      | _ => simp [blocks, hkind]
  | includes mixin => simp [isDeclaration, isIncludes] at hd
  | _ => exact List.cons_ne_nil _ _

/-- A declaration is the words of its scope and a text that does not depend on the scope. -/
theorem text_of_mem_blocks {block : Block} (h : block ∈ style.blocks model d) :
    ∃ word ∈ block.kind.words, ∃ rest, ∀ scope,
      block.text style.indent scope = scope.lead block.kind ++ (word ++ rest) := by
  obtain ⟨word, hword, rest, hhead⟩ := style.head_of_mem_blocks h
  refine ⟨word, hword, rest ++ (Block.bodyText style.indent block.body ++ block.close),
    fun scope => ?_⟩
  rw [Block.text, hhead]
  simp only [String.append_assoc]

/-- Without the words of the scope a definition is declared in the same way everywhere, whether or not
everything is put in the global scope. -/
theorem map_withoutLead_declared (forceGlobal : Bool) (scope other : Scope) :
    (style.declared model scope d).map Text.withoutLead
      = (Style.declared { style with forceGlobal } model other d).map Text.withoutLead := by
  have hblocks : Style.blocks { style with forceGlobal } model d = style.blocks model d :=
    @blocks_congr { style with forceGlobal } style rfl rfl rfl model d
  rw [declared, declared, hblocks, List.map_map, List.map_map]
  refine List.map_congr_left fun block hblock => ?_
  obtain ⟨word, hword, rest, htext⟩ := style.text_of_mem_blocks hblock
  rw [Function.comp_apply, Function.comp_apply, htext, htext, Text.withoutLead_lead scope hword,
    Text.withoutLead_lead other hword]

/-- In a script no declaration is exported. -/
theorem begins_of_mem_declared {text : String} (h : text ∈ style.declared model .script d) :
    ∃ word ∈ ["interface ", "type ", "declare var ", "declare namespace "], ∃ rest,
      text = word ++ rest := by
  obtain ⟨block, hblock, rfl⟩ := List.mem_map.1 h
  obtain ⟨word, hword, rest, htext⟩ := style.text_of_mem_blocks hblock
  rw [htext, ← String.append_assoc]
  refine ⟨_, ?_, rest, rfl⟩
  cases hkind : block.kind <;> rw [hkind, BlockKind.words] at hword <;>
    simp only [List.mem_cons, List.not_mem_nil, or_false] at hword <;>
    rcases hword with rfl | rfl <;> simp [Scope.lead]

end Style

/-! ### The parts of a file -/

namespace Model

/-- The definitions in the order of their declarations. -/
def ordered (model : Model) : List Definition := model.emissionOrder.filterMap model.get?

variable {model : Model} {d : Definition}
  (hnodup : (model.definitions.map Definition.name).Nodup)

include hnodup

theorem filterMap_get?_map_name {items : List Definition} (h : ∀ d ∈ items, d ∈ model.definitions) :
    (items.map Definition.name).filterMap model.get? = items := by
  rw [List.filterMap_map]
  have hsome : ∀ d ∈ items, (model.get? ∘ Definition.name) d = some d := fun d hd =>
    (named?_eq_some hnodup).2 ⟨h d hd, rfl⟩
  rw [List.filterMap_congr hsome, List.filterMap_some]

theorem mem_ordered : d ∈ model.ordered ↔ d ∈ model.definitions ∧ d.isMixin = false := by
  rw [ordered, List.mem_filterMap]
  constructor
  · rintro ⟨name, hname, hget⟩
    obtain ⟨hd, rfl⟩ := of_get?_eq_some hget
    obtain ⟨e, he, hsame, hmixin⟩ := (mem_emissionOrder hnodup).1 hname
    obtain rfl := eq_of_name hnodup he hd hsame
    exact ⟨hd, hmixin⟩
  · rintro ⟨hd, hmixin⟩
    exact ⟨d.name, mem_emissionOrder_of_mem hnodup hd hmixin, (named?_eq_some hnodup).2 ⟨hd, rfl⟩⟩

theorem map_name_ordered : model.ordered.map Definition.name = model.emissionOrder := by
  have hsome : ∀ name ∈ model.emissionOrder,
      (model.get? name).map Definition.name = some name := by
    intro name hname
    obtain ⟨d, hd, rfl, -⟩ := (mem_emissionOrder hnodup).1 hname
    rw [Model.get?, (named?_eq_some hnodup).2 ⟨hd, rfl⟩, Option.map_some]
  rw [ordered, List.map_filterMap, List.filterMap_congr hsome, List.filterMap_some]

theorem ordered_perm :
    model.ordered.Perm (model.definitions.filter fun d => !d.isMixin) := by
  have hordered : model.ordered.Nodup := by
    refine List.Nodup.of_map Definition.name ?_
    rw [map_name_ordered hnodup]
    exact nodup_emissionOrder hnodup
  refine (List.perm_ext_iff_of_nodup hordered ((List.Nodup.of_map _ hnodup).filter _)).2 fun d => ?_
  rw [mem_ordered hnodup, List.mem_filter, Bool.not_eq_true']

end Model

/-- Definitions that are declared in one scope. -/
structure Part where
  scope : Scope
  definitions : List Definition

/-- The text of a part of a file. -/
def Part.text (style : Style) (model : Model) (part : Part) : String :=
  let texts := part.definitions.flatMap (style.declared model part.scope)
  if part.scope = .global then
    "\ndeclare global \x7b\n" ++ blockText style.indent texts ++ "\x7d\n"
  else blockText "" texts

namespace Style

variable (style : Style) {model : Model}

/-- The parts of a file: a script, or a module with a global part if anything is global. -/
def parts (model : Model) : List Part :=
  let globals := model.ordered.filter fun d => style.isPlacedGlobal model d.name
  let exported := model.ordered.filter fun d => !style.isPlacedGlobal model d.name
  if exported.isEmpty then [⟨.script, globals⟩]
  else ⟨.module, exported⟩ :: if globals.isEmpty then [] else [⟨.global, globals⟩]

theorem blockTexts_map_name (hnodup : (model.definitions.map Definition.name).Nodup) (scope : Scope)
    {items : List Definition} (h : ∀ d ∈ items, d ∈ model.definitions) :
    style.blockTexts model scope (items.map Definition.name)
      = items.flatMap (style.declared model scope) := by
  rw [blockTexts, Model.filterMap_get?_map_name hnodup h, List.map_flatMap]
  rfl

theorem bodyText_eq (hnodup : (model.definitions.map Definition.name).Nodup) :
    style.bodyText model = String.join ((style.parts model).map (Part.text style model)) := by
  have hfilter (p : String → Bool) : model.emissionOrder.filter p
      = (model.ordered.filter fun d => p d.name).map Definition.name := by
    rw [← Model.map_name_ordered hnodup, List.filter_map]
    rfl
  have htexts (p : Definition → Bool) (scope : Scope) :
      style.blockTexts model scope ((model.ordered.filter p).map Definition.name)
        = (model.ordered.filter p).flatMap (style.declared model scope) :=
    style.blockTexts_map_name hnodup scope fun d hd =>
      ((Model.mem_ordered hnodup).1 (List.mem_filter.1 hd).1).1
  simp only [bodyText, parts, hfilter, htexts, List.isEmpty_map]
  generalize (model.ordered.filter fun d => style.isPlacedGlobal model d.name) = globals
  generalize (model.ordered.filter fun d => !style.isPlacedGlobal model d.name) = exported
  cases exported.isEmpty <;> cases globals.isEmpty <;> simp [Part.text]

section Parts

variable (hnodup : (model.definitions.map Definition.name).Nodup)

include hnodup

/-- Everything is in the global scope, so the file is a script. -/
theorem parts_script (h : style.forceGlobal = true ∨
    ∀ d ∈ model.definitions, d.isMixin = false → model.isGlobal d.name = true) :
    style.parts model = [⟨.script, model.ordered⟩] := by
  have hplaced : ∀ d ∈ model.ordered, style.isPlacedGlobal model d.name = true := by
    intro d hd
    obtain ⟨hmem, hmixin⟩ := (Model.mem_ordered hnodup).1 hd
    rw [isPlacedGlobal, Bool.or_eq_true]
    exact h.imp_right fun h => h d hmem hmixin
  have hexported : (model.ordered.filter fun d => !style.isPlacedGlobal model d.name) = [] :=
    List.filter_eq_nil_iff.2 fun d hd => by simp [hplaced d hd]
  simp only [parts, hexported, List.filter_eq_self.2 hplaced, List.isEmpty_nil, if_pos]

/-- Something is not global, so the file is a module. -/
theorem parts_module (hforce : style.forceGlobal = false) {d : Definition}
    (hd : d ∈ model.definitions) (hmixin : d.isMixin = false)
    (hglobal : model.isGlobal d.name = false) :
    style.parts model =
      ⟨.module, model.ordered.filter fun d => !model.isGlobal d.name⟩ ::
        if (model.ordered.filter fun d => model.isGlobal d.name).isEmpty then []
        else [⟨.global, model.ordered.filter fun d => model.isGlobal d.name⟩] := by
  have hplaced (name : String) : style.isPlacedGlobal model name = model.isGlobal name := by
    rw [isPlacedGlobal, hforce, Bool.false_or]
  have hmem : d ∈ model.ordered.filter fun d => !model.isGlobal d.name :=
    List.mem_filter.2 ⟨(Model.mem_ordered hnodup).2 ⟨hd, hmixin⟩, by simp [hglobal]⟩
  have hexported : (model.ordered.filter fun d => !model.isGlobal d.name).isEmpty = false :=
    List.isEmpty_eq_false_iff_exists_mem.2 ⟨d, hmem⟩
  simp only [parts, hplaced, hexported, if_neg Bool.false_ne_true]

/-- Each definition but the mixins is in one part, and only there. -/
theorem flatMap_parts_perm : ((style.parts model).flatMap Part.definitions).Perm
    (model.definitions.filter fun d => !d.isMixin) := by
  refine List.Perm.trans ?_ (Model.ordered_perm hnodup)
  have hsplit := List.filter_append_perm (fun d => !style.isPlacedGlobal model d.name) model.ordered
  simp only [Bool.not_not] at hsplit
  refine List.Perm.trans (List.Perm.of_eq ?_) hsplit
  simp only [parts]
  generalize (model.ordered.filter fun d => style.isPlacedGlobal model d.name) = globals
  generalize (model.ordered.filter fun d => !style.isPlacedGlobal model d.name) = exported
  cases exported <;> cases globals <;> simp

end Parts

/-- The file of a linked model declares every definition but the mixins in one scope: all in a script
if everything is global or made so, and else those that are not global in a module and the others in
one global part of it. The text of a declaration depends on its scope for its first words only. -/
theorem placed_of_link {policy : Policy} {definitions : List Definition}
    (h : Model.link policy definitions = .ok model) (style : Style) : ∃ parts : List Part,
    style.declarations model
      = Text.trimEnd (style.headerText ++ String.join (parts.map (Part.text style model))) ++ "\n" ∧
    (parts.flatMap Part.definitions).Perm (model.definitions.filter fun d => !d.isMixin) ∧
    ((parts.flatMap Part.definitions).map Definition.name).Nodup ∧
    model.ordered.map Definition.name = model.emissionOrder ∧
    (style.forceGlobal = true ∨
        (∀ d ∈ model.definitions, d.isMixin = false → model.isGlobal d.name = true) →
      parts = [⟨.script, model.ordered⟩] ∧
        ∀ d ∈ model.ordered, ∀ text ∈ style.declared model .script d,
          ∃ word ∈ ["interface ", "type ", "declare var ", "declare namespace "], ∃ rest,
            text = word ++ rest) ∧
    (style.forceGlobal = false →
        (∃ d ∈ model.definitions, d.isMixin = false ∧ model.isGlobal d.name = false) →
      parts = ⟨.module, model.ordered.filter fun d => !model.isGlobal d.name⟩ ::
        if (model.ordered.filter fun d => model.isGlobal d.name).isEmpty then []
        else [⟨.global, model.ordered.filter fun d => model.isGlobal d.name⟩]) ∧
    (∀ d ∈ model.definitions, d.isMixin = false → ∀ scope, style.declared model scope d ≠ []) ∧
    ∀ d ∈ model.definitions, ∀ forceGlobal scope other,
      (style.declared model scope d).map Text.withoutLead
        = (Style.declared { style with forceGlobal } model other d).map Text.withoutLead := by
  have hnodup := Model.nodup_names_of_link h
  have hperm := style.flatMap_parts_perm hnodup
  refine ⟨style.parts model, ?_, hperm, ?_, Model.map_name_ordered hnodup, ?_, ?_, ?_, ?_⟩
  · rw [declarations, style.bodyText_eq hnodup]
  · exact (hperm.map Definition.name).nodup_iff.2 (hnodup.sublist (List.filter_sublist.map _))
  · exact fun hall => ⟨style.parts_script hnodup hall, fun _ _ _ => style.begins_of_mem_declared⟩
  · rintro hforce ⟨d, hd, hmixin, hglobal⟩
    exact style.parts_module hnodup hforce hd hmixin hglobal
  · exact fun d hd hmixin => style.declared_ne_nil (isDeclaration_of_link h d hd) hmixin
  · exact fun _ _ forceGlobal scope other => style.map_withoutLead_declared forceGlobal scope other

/-- An exposed interface, a type that is not, and a mixin. -/
def exposedInterface : List Definition :=
  [⟨"A", .container ⟨.interface, false, none, []⟩, [⟨"Exposed", none, none⟩], ⟨0, 1⟩⟩,
    ⟨"B", .typedef .any, [], ⟨1, 2⟩⟩, ⟨"M", .container ⟨.mixin, false, none, []⟩, [], ⟨2, 3⟩⟩]

theorem placed_of_link_exposedInterface : ∃ (model : Model) (parts : List Part),
    Model.link .default exposedInterface = .ok model ∧
    Style.default.declarations model = "export type B = any;\n\ndeclare global \x7b\n"
      ++ "  interface A \x7b\x7d\n\n  var A: \x7b\n    prototype: A;\n  \x7d;\n\x7d\n" ∧
    Style.default.declarations model
      = Text.trimEnd (String.join (parts.map (Part.text .default model))) ++ "\n" ∧
    parts.map (fun part => (part.scope, part.definitions.map Definition.name))
      = [(.module, ["B"]), (.global, ["A"])] := by
  have hlink : Model.link .default exposedInterface = .ok _ := rfl
  obtain ⟨parts, hparts, -, -, -, -, hscopes, -⟩ := placed_of_link hlink .default
  refine ⟨_, parts, hlink, by decide, hparts, ?_⟩
  rw [hscopes rfl ⟨_, List.mem_cons_of_mem _ List.mem_cons_self, by decide, by decide⟩]
  decide

end Style

end IdlBindings
