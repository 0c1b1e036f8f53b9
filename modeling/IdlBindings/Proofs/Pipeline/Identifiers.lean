import IdlBindings.Proofs.Declaration.Brand
import IdlBindings.Proofs.Declaration.Placement
import IdlBindings.Proofs.Pipeline.Declared
import IdlBindings.Proofs.Text.Identifier

/-!
The names that a declaration file shows. The head of a declaration and the members of a namespace
show a name as it is stored (`Text.declaredName`), so there it can stand exactly if it has no `-`.
The keys of properties are written so that they can always stand.
-/

namespace IdlBindings

open Definition Glyph

namespace Text

/-! ### The name behind the first word -/

/-- A blank, a colon or a parenthesis is behind a name, and nothing else. -/
def goesOn (c : Char) : Bool := c != ' ' && c != ':' && c != '('

/-- What a declaration declares: the name behind its first word. -/
def declaredName (text : String) : String :=
  String.ofList (((text.toList.dropWhile (· != ' ')).drop 1).takeWhile goesOn)

theorem goesOn_of_isIdentifierRest {c : Char} (h : Token.isIdentifierRest c = true) :
    goesOn c = true := by
  simp only [goesOn, Bool.and_eq_true, bne_iff_ne, ne_eq]
  refine ⟨⟨?_, ?_⟩, ?_⟩ <;> rintro rfl <;> cases h

/-- A stored name is read to its end. -/
theorem declaredName_append {first name rest : String}
    (hfirst : first.toList.dropWhile (· != ' ') = [' ']) (hname : (word name).Proper)
    (hrest : ∀ c ∈ rest.toList.head?, goesOn c = false) :
    declaredName (first ++ (name ++ rest)) = name := by
  have hchars : ∀ c ∈ name.toList, goesOn c = true := fun c hc =>
    goesOn_of_isIdentifierRest (hname.isIdentifierRest c hc)
  have hbehind : (first ++ (name ++ rest)).toList.dropWhile (· != ' ')
      = ' ' :: (name.toList ++ rest.toList) := by
    rw [String.toList_append, List.dropWhile_append, hfirst, String.toList_append]
    rfl
  have hstop : rest.toList.takeWhile goesOn = [] := by
    cases hcs : rest.toList with
    | nil => rfl
    | cons c cs =>
        have hc : goesOn c = false := hrest c (hcs ▸ rfl)
        rw [List.takeWhile_cons_of_neg (by simp [hc])]
  rw [declaredName, hbehind, List.drop_one, List.tail_cons, List.takeWhile_append_of_pos hchars,
    hstop, List.append_nil, String.ofList_toList]

end Text

open Text

namespace Style

variable (style : Style) {model : Model} {d : Definition}

/-! ### Heads and members of namespaces -/

theorem declaredName_withoutLead {scope : Scope} {kind : BlockKind} {first name rest : String}
    (hfirst : first ∈ kind.words) (hname : (word name).Proper)
    (hrest : ∀ c ∈ rest.toList.head?, goesOn c = false) :
    declaredName (withoutLead (scope.lead kind ++ (first ++ (name ++ rest)))) = name := by
  have hblank : ∀ first ∈ kind.words, first.toList.dropWhile (· != ' ') = [' '] := by
    cases kind <;> decide
  rw [withoutLead_lead scope hfirst]
  exact declaredName_append (hblank first hfirst) hname hrest

/-- The head of a block names its definition. -/
theorem declaredName_block {block : Block} (h : block ∈ style.blocks model d)
    (hname : (word d.name).Proper) (scope : Scope) :
    declaredName (withoutLead (block.text style.indent scope)) = d.name := by
  have hbody (parent : Option String) (lines : List String) (close : String) :
      ∀ c ∈ (optionalText parent " extends "
        ++ (Block.bodyText style.indent (some lines) ++ close)).toList.head?, goesOn c = false := by
    cases parent <;> cases lines <;> simp [optionalText, Block.bodyText, goesOn]
  rcases style.cases_of_mem_blocks h with ⟨c, -, -, rfl | rfl⟩ | ⟨c, -, -, rfl⟩ | ⟨-, type, rfl⟩
  · simp only [Block.text, interfaceBlock, String.append_assoc]
    exact declaredName_withoutLead List.mem_cons_self hname (hbody _ _ _)
  · simp only [Block.text, objectBlock, String.append_assoc]
    exact declaredName_withoutLead List.mem_cons_self hname (by simp [goesOn])
  · have hplain := hbody none (c.members.flatMap fun m => style.namespaceLines m.body) ""
    simp only [Block.text, namespaceBlock, String.append_assoc]
    rw [optionalText, String.empty_append] at hplain
    exact declaredName_withoutLead (List.mem_cons_of_mem _ List.mem_cons_self) hname hplain
  · simp only [Block.text, aliasBlock, String.append_assoc]
    exact declaredName_withoutLead (List.mem_cons_of_mem _ List.mem_cons_self) hname
      (by simp [goesOn])

/-- A line of a namespace names its member. -/
theorem declaredName_namespaceLines {body : MemberBody}
    (hname : ∀ name ∈ body.name?, (word name).Proper) :
    ∀ line ∈ style.namespaceLines body, ∃ name ∈ body.name?, declaredName line = name := by
  intro line hline
  match body, hname, hline with
  | .const name type value, hname, hline =>
      obtain rfl := List.mem_singleton.1 hline
      simp only [String.append_assoc]
      exact ⟨name, rfl, declaredName_append (by decide) (hname name rfl) (by simp [goesOn])⟩
  | .attribute a, hname, hline =>
      obtain rfl := List.mem_singleton.1 hline
      have hfirst : (if a.isReadonly then "const " else "var ").toList.dropWhile (· != ' ')
          = [' '] := by
        split <;> decide
      simp only [String.append_assoc]
      exact ⟨a.name, rfl, declaredName_append hfirst (hname a.name rfl) (by simp [goesOn])⟩
  | .operation o, hname, hline =>
      obtain ⟨name, hsome, rfl⟩ := Option.map_eq_some_iff.1 (Option.mem_toList.1 hline)
      simp only [String.append_assoc]
      exact ⟨name, hsome, declaredName_append (by decide) (hname name hsome) (by simp [goesOn])⟩
  | .constructor _, _, hline | .field _, _, hline | .iteration _, _, hline
  | .stringifier, _, hline => cases hline

/-! ### Blocks -/

/-- What the names are that a block of a definition shows, and when they can stand. Heads and the
members of namespaces show a name as it is stored, so a `-` is shown; the keys of the other members
are written to stand. -/
structure ShowsNames (scope : Scope) (d : Definition) (block : Block) : Prop where
  head : declaredName (withoutLead (block.text style.indent scope)) = d.name
  head_legal : isIdentifier d.name = true ↔ '-' ∉ d.name.toList
  inNamespace : ∀ c, d.body = .container c → c.kind = .nameSpace →
    ∀ lines ∈ block.body, ∀ line ∈ lines, ∃ m ∈ c.members, ∃ name ∈ m.body.name?,
      declaredName line = name ∧ (isIdentifier name = true ↔ '-' ∉ name.toList)
  property : ∀ c, d.body = .container c → c.kind ≠ .nameSpace →
    ∀ lines ∈ block.body, ∀ line ∈ lines,
      IsProperty (style.brandPrefix ++ d.name) line ∨ IsProperty "prototype" line ∨
        ∃ m ∈ c.members, DeclaresKey m.body.keys line
  unlined : d.container? = none → block.body = none

theorem isProperty_prototype (name : String) :
    IsProperty "prototype" ("prototype: " ++ name ++ ";") :=
  (IsProperty.append ⟨"", List.mem_cons_self, ": ", by decide, by decide⟩ _).append _

/-- A line of an interface is its brand or a line of a member. -/
theorem isProperty_interfaceBlock {name : String} {c : Container} :
    ∀ lines ∈ (style.interfaceBlock name c).body, ∀ line ∈ lines,
      IsProperty (style.brandPrefix ++ name) line ∨
        ∃ m ∈ c.members, DeclaresKey m.body.keys line := by
  intro lines hlines line hline
  obtain rfl := Option.some.inj hlines
  rcases List.mem_append.1 (List.mem_eraseDups.1 hline) with hbrand | hmember
  · split at hbrand
    · obtain rfl := List.mem_singleton.1 hbrand
      exact .inl ((style.isProperty_brand name).append ";")
    · cases hbrand
  · obtain ⟨m, hm, hline⟩ := List.mem_flatMap.1 hmember
    exact .inr ⟨m, hm, (style.lineOf_instanceLines name m.body line hline).declaresKey⟩

theorem isProperty_objectBlock {name : String} {c : Container} :
    ∀ lines ∈ (style.objectBlock name c).body, ∀ line ∈ lines,
      IsProperty "prototype" line ∨ ∃ m ∈ c.members, DeclaresKey m.body.keys line := by
  intro lines hlines line hline
  obtain rfl := Option.some.inj hlines
  rcases List.mem_cons.1 hline with rfl | hmember
  · exact .inl (isProperty_prototype name)
  · obtain ⟨m, hm, hline⟩ := List.mem_flatMap.1 hmember
    exact .inr ⟨m, hm, (style.lineOf_objectLines name m.body line hline).declaresKey⟩

section Model

variable {policy : Policy} {doc : String} (h : Pipeline.model policy doc = .ok model)
  (hd : d ∈ model.definitions)

include h hd

theorem showsNames_of_mem_blocks {block : Block} (hblock : block ∈ style.blocks model d)
    (scope : Scope) : style.ShowsNames scope d block where
  head := style.declaredName_block hblock (Pipeline.proper_name h hd) scope
  head_legal := isIdentifier_iff (Pipeline.proper_name h hd)
  inNamespace := by
    intro c hbody hkind lines hlines line hline
    rcases style.cases_of_mem_blocks hblock with
      ⟨c', hbody', hkind', -⟩ | ⟨c', hbody', -, rfl⟩ | ⟨hnone, -⟩
    · obtain rfl := DefinitionBody.container.inj (hbody.symm.trans hbody')
      exact absurd hkind hkind'
    · obtain rfl := DefinitionBody.container.inj (hbody.symm.trans hbody')
      obtain rfl := Option.some.inj hlines
      obtain ⟨m, hm, hline⟩ := List.mem_flatMap.1 hline
      have hproper := Pipeline.proper_of_mem_name? h hd hbody hm
      obtain ⟨name, hname, hshown⟩ := style.declaredName_namespaceLines hproper line hline
      exact ⟨m, hm, name, hname, hshown, isIdentifier_iff (hproper name hname)⟩
    · rw [container?, hbody] at hnone
      cases hnone
  property := by
    intro c hbody hkind lines hlines line hline
    rcases style.cases_of_mem_blocks hblock with
      ⟨c', hbody', -, rfl | rfl⟩ | ⟨c', hbody', hkind', -⟩ | ⟨hnone, -⟩
    · obtain rfl := DefinitionBody.container.inj (hbody.symm.trans hbody')
      exact (style.isProperty_interfaceBlock lines hlines line hline).imp_right .inr
    · obtain rfl := DefinitionBody.container.inj (hbody.symm.trans hbody')
      exact .inr (style.isProperty_objectBlock lines hlines line hline)
    · obtain rfl := DefinitionBody.container.inj (hbody.symm.trans hbody')
      exact absurd hkind' hkind
    · rw [container?, hbody] at hnone
      cases hnone
  unlined := by
    intro hnone
    rcases style.cases_of_mem_blocks hblock with
      ⟨c, hbody, -⟩ | ⟨c, hbody, -⟩ | ⟨-, type, rfl⟩
    · rw [container?, hbody] at hnone
      cases hnone
    · rw [container?, hbody] at hnone
      cases hnone
    · rfl

end Model

end Style

namespace Pipeline

variable {policy : Policy} {style : Style} {doc text : String}

/-- Which names in a declaration file can stand where they are. The file is made of the blocks of
the definitions. A head and a member of a namespace show their name as it is stored, which can stand
exactly if it has no `-`; the key of a property is bare exactly if it can be, and quoted if not. -/
theorem showsNames_of_declarations (h : declarations policy style doc = .ok text) :
    ∃ m, model policy doc = .ok m ∧
      text = trimEnd (style.headerText
        ++ String.join ((style.parts m).map (Part.text style m))) ++ "\n" ∧
      ∀ part ∈ style.parts m, ∀ d ∈ part.definitions, ∀ block ∈ style.blocks m d,
        block.text style.indent part.scope ∈ style.declared m part.scope d ∧
          style.ShowsNames part.scope d block := by
  obtain ⟨m, hmodel, rfl⟩ := declarations_eq_ok.1 h
  obtain ⟨fragments, definitions, -, -, hlink⟩ := model_eq_ok.1 hmodel
  have hnodup := Model.nodup_names_of_link hlink
  refine ⟨m, hmodel, ?_, fun part hpart d hd block hblock => ⟨?_, ?_⟩⟩
  · rw [Style.declarations, style.bodyText_eq hnodup]
  · exact List.mem_map_of_mem hblock
  · have hmem := (style.flatMap_parts_perm hnodup).mem_iff.1 (List.mem_flatMap.2 ⟨part, hpart, hd⟩)
    exact style.showsNames_of_mem_blocks hmodel (List.mem_filter.1 hmem).1 hblock part.scope

/-- A key in quotes, and a function of a namespace. -/
def quotedKey : String :=
  "<pre class=idl>interface A \x7b attribute any a-b; \x7d; namespace N \x7b any f(); \x7d;</pre>"

def quotedKeyText : String :=
  "export interface A \x7b\n  \"a-b\": any;\n\x7d\n\n"
    ++ "export declare namespace N \x7b\n  function f(): any;\n\x7d\n"

theorem showsNames_of_declarations_quoted : ∃ m,
    declarations .default .default quotedKey = .ok quotedKeyText ∧
    (Style.default.parts m).flatMap (fun part => part.definitions.map Definition.name)
      = ["A", "N"] ∧
    ∀ part ∈ Style.default.parts m, ∀ d ∈ part.definitions, ∀ block ∈ Style.default.blocks m d,
      isIdentifier (declaredName (withoutLead (block.text Style.default.indent part.scope)))
        = true := by
  have htext : declarations .default .default quotedKey = .ok quotedKeyText := by
    decide +kernel
  have hnames : (model .default quotedKey).toOption.map
      (fun m => (Style.default.parts m).flatMap fun part => part.definitions.map Definition.name)
      = some ["A", "N"] := by
    decide +kernel
  obtain ⟨m, hmodel, -, hshown⟩ := showsNames_of_declarations htext
  rw [hmodel] at hnames
  have hparts := Option.some.inj hnames
  refine ⟨m, htext, hparts, fun part hpart d hd block hblock => ?_⟩
  have hname : d.name ∈ ["A", "N"] :=
    hparts ▸ List.mem_flatMap.2 ⟨part, hpart, List.mem_map_of_mem hd⟩
  have hplain : ∀ name ∈ ["A", "N"], '-' ∉ name.toList := by decide
  obtain ⟨-, hblockNames⟩ := hshown part hpart d hd block hblock
  rw [hblockNames.head]
  exact hblockNames.head_legal.2 (hplain d.name hname)

/-- An interface and a constant of a namespace whose names have a `-`. -/
def hyphenated : String :=
  "<pre class=idl>interface a-b \x7b\x7d; namespace N \x7b const long c-d = 1; \x7d;</pre>"

def hyphenatedText : String :=
  "export interface a-b \x7b\x7d\n\n"
    ++ "export declare namespace N \x7b\n  const c-d: 1;\n\x7d\n"

/-- A `-` is shown in heads and in namespaces, where it cannot stand. -/
theorem exists_illegal_name : ∃ m, model .default hyphenated = .ok m ∧
    declarations .default .default hyphenated = .ok hyphenatedText ∧
    (∃ part ∈ Style.default.parts m, ∃ d ∈ part.definitions, ∃ block ∈ Style.default.blocks m d,
      isIdentifier (declaredName (withoutLead (block.text Style.default.indent part.scope)))
        = false) ∧
    ∃ part ∈ Style.default.parts m, ∃ d ∈ part.definitions, ∃ block ∈ Style.default.blocks m d,
      ∃ lines ∈ block.body, ∃ line ∈ lines, isIdentifier (declaredName line) = false := by
  have htext : declarations .default .default hyphenated = .ok hyphenatedText := by
    decide +kernel
  have hshown : (model .default hyphenated).toOption.map (fun m =>
      (Style.default.parts m).any (fun part => part.definitions.any fun d =>
        (Style.default.blocks m d).any fun block => !isIdentifier
          (declaredName (withoutLead (block.text Style.default.indent part.scope)))) &&
      (Style.default.parts m).any (fun part => part.definitions.any fun d =>
        (Style.default.blocks m d).any fun block => block.body.any fun lines =>
          lines.any fun line => !isIdentifier (declaredName line))) = some true := by
    decide +kernel
  obtain ⟨m, hmodel, -⟩ := declarations_eq_ok.1 htext
  rw [hmodel] at hshown
  have hboth := Option.some.inj hshown
  simp only [Bool.and_eq_true, List.any_eq_true, Option.any_eq_true, Bool.not_eq_true'] at hboth
  exact ⟨m, hmodel, htext, hboth⟩

end Pipeline

end IdlBindings
