import IdlBindings.Proofs.Declaration.Lines
import IdlBindings.Proofs.Declaration.Names
import IdlBindings.Proofs.Model.Order
import IdlBindings.Proofs.Pipeline.Idempotence

/-!
No type name in a declaration file is left without a meaning. The declarations print no names but
those that the resolver has gone over (`Style.prints_of_mem_names`), every type of the model has its
place in the order of declarations (`Model.mem_emissionOrder_of_mem`), and what is in that order has
a line of the file that declares it (`Style.declaresType_declarations`).
-/

namespace IdlBindings

open Definition Glyph

/-- What a type name in the file `text` stands for: something that is declared elsewhere, and not in
the model, or a type of the model that the file declares. -/
def Style.Resolved (style : Style) (policy : Policy) (model : Model) (text name : String) : Prop :=
  (model.get? name = none ∧ policy.isExternal name = true) ∨
    ∃ d kind, model.get? name = some d ∧ d.symbolKind? = some kind ∧ kind.isType = true ∧
      style.DeclaresType text name

theorem Definition.word_name_mem_glyphs (d : Definition) : word d.name ∈ d.glyphs := by
  obtain ⟨name, body, extAttrs, span⟩ := d
  cases body <;> simp [Definition.glyphs, DefinitionBody.glyphs]

theorem SymbolKind.isMixin_of_isType {d : Definition} {kind : SymbolKind}
    (hkind : d.symbolKind? = some kind) (htype : kind.isType = true) : d.isMixin = false := by
  obtain ⟨name, body, extAttrs, span⟩ := d
  cases body with
  | container c =>
      obtain rfl := Option.some.inj hkind
      cases hc : c.kind with
      | mixin =>
          rw [hc] at htype
          cases htype
      | _ => simp [isMixin, container?, hc]
  | _ => rfl

namespace Pipeline

variable {policy : Policy} {style : Style} {doc text : String} {m : Model}

theorem proper_name (h : model policy doc = .ok m) {d : Definition} (hd : d ∈ m.definitions) :
    (word d.name).Proper :=
  allProper_of_model h d hd (word d.name) d.word_name_mem_glyphs

/-- A type of the model is declared in its file. -/
theorem resolved_of_isType (h : model policy doc = .ok m) {d : Definition} (hd : d ∈ m.definitions)
    (hnodup : (m.definitions.map Definition.name).Nodup) {kind : SymbolKind}
    (hkind : d.symbolKind? = some kind) (htype : kind.isType = true) :
    style.Resolved policy m (style.declarations m) d.name := by
  have hget : m.get? d.name = some d := (named?_eq_some hnodup).2 ⟨hd, rfl⟩
  have horder := Model.mem_emissionOrder_of_mem hnodup hd (SymbolKind.isMixin_of_isType hkind htype)
  exact .inr ⟨d, kind, hget, hkind, htype,
    style.declaresType_declarations hget horder hkind htype (proper_name h hd).1.isBlank_eq_false⟩

/-- A name that the linker has resolved to a type stands for one in the file. -/
theorem resolved_of_resolves (h : model policy doc = .ok m) {definitions : List Definition}
    (hlink : Model.link policy definitions = .ok m) {name : String} {fits : SymbolKind → Prop}
    (hfits : ∀ kind, fits kind → kind.isType = true)
    (hname : Resolves policy definitions name fits) :
    style.Resolved policy m (style.declarations m) name := by
  obtain ⟨hwell, hdefinitions, -⟩ := wellFormed_of_link hlink
  have hnodup : (m.definitions.map Definition.name).Nodup := by
    rw [hdefinitions, names_folded]
    exact hwell.distinct
  rcases hname with ⟨kind, hdeclared, hfit⟩ | ⟨hnone, hexternal⟩
  · obtain ⟨d, hd, rfl, hkind⟩ := declares_folded.2 hdeclared
    exact resolved_of_isType h (hdefinitions ▸ hd) hnodup hkind (hfits kind hfit)
  · refine .inl ⟨?_, hexternal⟩
    rw [Model.get?, named?, List.find?_eq_none, hdefinitions]
    intro d hd hname
    have hmem : d.name ∈ (Definition.declarations definitions).map Definition.name := by
      rw [← names_folded policy definitions]
      exact List.mem_map_of_mem hd
    obtain ⟨e, he, hsame⟩ := List.mem_map.1 hmem
    exact hnone e he (hsame.trans (beq_iff_eq.1 hname))

/-- The names that a declaration has to print stand for something. -/
theorem resolved_of_mentions (h : model policy doc = .ok m) {d : Definition}
    (hd : d ∈ m.definitions) {name : String} (hname : d.Mentions name) :
    style.Resolved policy m (style.declarations m) name := by
  obtain ⟨fragments, definitions, -, -, hlink⟩ := model_eq_ok.1 h
  obtain ⟨hwell, hdefinitions, -⟩ := wellFormed_of_link hlink
  rcases hname with hname | ⟨kind, hkind, htype, rfl | hparent⟩
  · obtain ⟨reference, hreference, rfl⟩ := List.mem_map.1 hname
    exact resolved_of_resolves h hlink (fun _ hfit => hfit)
      (hwell.references d (hdefinitions ▸ hd) reference hreference)
  · have hnodup : (m.definitions.map Definition.name).Nodup := by
      rw [hdefinitions, names_folded]
      exact hwell.distinct
    exact resolved_of_isType h hd hnodup hkind htype
  · -- a parent is of the kind of its child, so it is a type as well
    obtain ⟨c, hc, hparent⟩ := Option.bind_eq_some_iff.1 hparent
    have hparents := hwell.parents d (hdefinitions ▸ hd) c hc name hparent
    refine resolved_of_resolves h hlink (fun other hsame => ?_) hparents
    have hcontainer : d.symbolKind? = some (.container c.kind) := by
      rw [Definition.symbolKind?, container?_eq_some.1 hc]
    obtain rfl := Option.some.inj (hkind.symm.trans hcontainer)
    rw [hsame]
    exact htype

/-- Every type name that a declaration file prints stands for a type of the model that the file
declares, or it is external and not declared; only the names of buffers are built in. -/
theorem resolved_of_declarations (h : declarations policy style doc = .ok text) :
    ∃ m, model policy doc = .ok m ∧ text = style.declarations m ∧
      ∀ d ∈ m.emissionOrder.filterMap m.get?,
        style.blocks m d = (style.markedBlocks m d).map MarkedBlock.block ∧
        (∀ block ∈ style.markedBlocks m d, ∀ name ∈ block.names,
          d.Mentions name ∨ TypeExpr.IsBuffer name) ∧
        ∀ name, d.Mentions name → style.Resolved policy m text name := by
  obtain ⟨m, hmodel, rfl⟩ := declarations_eq_ok.1 h
  refine ⟨m, hmodel, rfl, fun d hd => ⟨style.blocks_eq_map m d, ?_, fun name hname => ?_⟩⟩
  · exact fun block hblock => style.prints_of_mem_names m hblock
  · obtain ⟨name, -, hget⟩ := List.mem_filterMap.1 hd
    exact resolved_of_mentions hmodel (List.mem_of_find?_eq_some hget) hname

/-- A parent that is declared after its child. -/
def laterParent : String :=
  "<pre class=idl>interface A : B \x7b A a(); \x7d; interface B \x7b\x7d;</pre>"

theorem resolved_of_declarations_laterParent : ∃ text m,
    declarations .default .default laterParent = .ok text ∧ model .default laterParent = .ok m ∧
    m.emissionOrder = ["B", "A"] ∧
    ∀ d ∈ m.emissionOrder.filterMap m.get?, ∀ name, d.Mentions name →
      Style.default.Resolved .default m text name := by
  have htext : declarations .default .default laterParent
      = .ok ("export interface B \x7b\x7d\n\n"
        ++ "export interface A extends B \x7b\n  a(): A;\n\x7d\n") := by
    decide +kernel
  have horder : (model .default laterParent).toOption.map Model.emissionOrder
      = some ["B", "A"] := by
    decide +kernel
  obtain ⟨m, hmodel, -, hall⟩ := resolved_of_declarations htext
  rw [hmodel] at horder
  exact ⟨_, m, htext, hmodel, Option.some.inj horder, fun d hd => (hall d hd).2.2⟩

end Pipeline

end IdlBindings
