import IdlBindings.Declaration.File
import IdlBindings.Proofs.Checked.Literal
import IdlBindings.Proofs.Syntax.Glyphs

/-!
Writing a model with its integer constants read in signed words and the end of the text cut off by
bytes. Where the literals are ones that the lexer accepts, nothing is out of range
(`Style.declarations?_eq`, `Model.text?_eq`).
-/

namespace IdlBindings

open Checked Glyph

/-! ### The end of a text -/

/-- The text up to its last character that is not white space, and a line break. -/
def Text.tidy? (text : String) : Option String := do
  let (kept, _) ← split? (byteLength (Text.trimEnd text).toList) text.toList
  return String.ofList kept ++ "\n"

theorem Text.tidy?_eq (text : String) : tidy? text = some (trimEnd text ++ "\n") := by
  have hsplit : text.toList =
      (trimEnd text).toList ++ (text.toList.reverse.takeWhile isBlank).reverse := by
    rw [trimEnd, String.toList_ofList, ← List.reverse_append, List.takeWhile_append_dropWhile,
      List.reverse_reverse]
  have hcut := split?_append (trimEnd text).toList (text.toList.reverse.takeWhile isBlank).reverse
  rw [← hsplit] at hcut
  rw [tidy?, hcut]
  exact congrArg (fun kept => some (kept ++ "\n")) String.ofList_toList

theorem Text.trimEnd_append (text : String) : trimEnd (text ++ ";\n") = text ++ ";" := by
  have hrest : (text ++ ";\n").toList.reverse.dropWhile isBlank = (text ++ ";").toList.reverse := by
    rw [String.toList_append, String.toList_append, List.reverse_append, List.reverse_append]
    exact List.dropWhile_cons_of_pos rfl
  rw [trimEnd, hrest, List.reverse_reverse, String.ofList_toList]

/-! ### Constants -/

namespace Style

variable (style : Style)

/-- The type of a constant: its value if that is an integer or a truth value. -/
def constType? (type : IdlType) (value : ConstValue) : Option TypeExpr :=
  match value with
  | .boolean b => some (.literal (if b then "true" else "false"))
  | .integer _ => do
    match ← value.readInteger? with
    | some n => return .literal (toString n)
    | none => return TypeExpr.ofType style type
  | _ => some (TypeExpr.ofType style type)

def constLine? (name : String) (type : IdlType) (value : ConstValue) : Option String := do
  let type ← style.constType? type value
  return "readonly " ++ Text.propertyName name ++ ": " ++ type.text ++ ";"

/-- The lines of a member in the declaration of an instance. -/
def instanceLines? (owner : String) : MemberBody → Option (List String)
  | .const name type value => do return [← style.constLine? name type value]
  | body => some (style.instanceLines owner body)

/-- The lines of a member in the declaration of the object that stands for the interface. -/
def objectLines? (owner : String) : MemberBody → Option (List String)
  | .const name type value => do return [← style.constLine? name type value]
  | body => some (style.objectLines owner body)

/-- The lines of a member in the declaration of a namespace. -/
def namespaceLines? : MemberBody → Option (List String)
  | .const name type value => do
    let type ← style.constType? type value
    return ["const " ++ name ++ ": " ++ type.text ++ ";"]
  | body => some (style.namespaceLines body)

/-- The block of an interface or a dictionary. -/
def interfaceBlock? (name : String) (c : Container) : Option Block := do
  let lines ← c.members.mapM fun m => style.instanceLines? name m.body
  let isBranded := style.nominal && (c.kind == .interface || c.kind == .dictionary)
  let brand := if isBranded then [style.brand name ++ ";"] else []
  return ⟨.type, "interface " ++ name ++ optionalText c.parent " extends ",
    some (brand ++ lines.flatten).eraseDups, ""⟩

/-- The block of the object that stands for an exposed interface. -/
def objectBlock? (name : String) (c : Container) : Option Block := do
  let lines ← c.members.mapM fun m => style.objectLines? name m.body
  return ⟨.value, "var " ++ name ++ ":",
    some (("prototype: " ++ name ++ ";") :: lines.flatten), ";"⟩

def namespaceBlock? (name : String) (c : Container) : Option Block := do
  let lines ← c.members.mapM fun m => style.namespaceLines? m.body
  return ⟨.value, "namespace " ++ name, some lines.flatten, ""⟩

/-- The blocks of a definition. -/
def blocks? (model : Model) (d : Definition) : Option (List Block) :=
  match d.body with
  | .container c =>
    match c.kind with
    | .interface => do
      let block ← style.interfaceBlock? d.name c
      if model.isGlobal d.name && !d.hasExtAttr noObjectAttribute then
        return [block, ← style.objectBlock? d.name c]
      else return [block]
    | .callbackInterface | .dictionary => do return [← style.interfaceBlock? d.name c]
    | .nameSpace => do return [← style.namespaceBlock? d.name c]
    | .mixin => some []
  | _ => some (style.blocks model d)

/-- The texts of the blocks of these definitions in a scope. -/
def blockTexts? (model : Model) (scope : Scope) (names : List String) : Option (List String) := do
  let blocks ← (names.filterMap model.get?).mapM (style.blocks? model)
  return blocks.flatten.map (Block.text style.indent scope)

/-- The declarations of a model, before the end of the file is tidied. -/
def bodyText? (model : Model) : Option String := do
  let globals := model.emissionOrder.filter (style.isPlacedGlobal model)
  let exported := model.emissionOrder.filter fun name => !style.isPlacedGlobal model name
  if exported.isEmpty then
    return blockText "" (← style.blockTexts? model .script globals)
  else
    let front := blockText "" (← style.blockTexts? model .module exported)
    if globals.isEmpty then return front
    else
      let inner ← style.blockTexts? model .global globals
      return front ++ ("\ndeclare global \x7b\n" ++ blockText style.indent inner ++ "\x7d\n")

/-- The declaration file of a model. -/
def declarations? (model : Model) : Option String := do
  Text.tidy? (style.headerText ++ (← style.bodyText? model))

variable {style} {model : Model}

theorem constType?_eq {name : String} {type : IdlType} {value : ConstValue}
    (h : AllProper (MemberBody.const name type value).glyphs) :
    style.constType? type value = some (style.constType type value) := by
  cases value with
  | integer source =>
      have hmem : ⟨.integer, source⟩ ∈ (MemberBody.const name type (.integer source)).glyphs := by
        simp [MemberBody.glyphs, ConstValue.glyph]
      have hvalid : Glyph.Valid ⟨.integer, source⟩ := (h _ hmem).1
      rw [constType?, ConstValue.readInteger?_eq hvalid, constType]
      cases (ConstValue.integer source).integer? <;> rfl
  | _ => rfl

theorem instanceLines?_eq {body : MemberBody} (h : AllProper body.glyphs) (owner : String) :
    style.instanceLines? owner body = some (style.instanceLines owner body) := by
  cases body with
  | const name type value =>
      rw [instanceLines?, constLine?, constType?_eq h]
      rfl
  | _ => rfl

theorem objectLines?_eq {body : MemberBody} (h : AllProper body.glyphs) (owner : String) :
    style.objectLines? owner body = some (style.objectLines owner body) := by
  cases body with
  | const name type value =>
      rw [objectLines?, constLine?, constType?_eq h]
      rfl
  | _ => rfl

theorem namespaceLines?_eq {body : MemberBody} (h : AllProper body.glyphs) :
    style.namespaceLines? body = some (style.namespaceLines body) := by
  cases body with
  | const name type value =>
      rw [namespaceLines?, constType?_eq h]
      rfl
  | _ => rfl

section Container

variable {c : Container} (h : ∀ m ∈ c.members, AllProper m.body.glyphs) (name : String)

include h

theorem interfaceBlock?_eq : style.interfaceBlock? name c = some (style.interfaceBlock name c) := by
  rw [interfaceBlock?, mapM_eq_some fun m hm => instanceLines?_eq (h m hm) name]
  rfl

theorem objectBlock?_eq : style.objectBlock? name c = some (style.objectBlock name c) := by
  rw [objectBlock?, mapM_eq_some fun m hm => objectLines?_eq (h m hm) name]
  rfl

theorem namespaceBlock?_eq : style.namespaceBlock? name c = some (style.namespaceBlock name c) := by
  rw [namespaceBlock?, mapM_eq_some fun m hm => namespaceLines?_eq (h m hm)]
  rfl

end Container

theorem blocks?_eq {d : Definition} (h : AllProper d.glyphs) :
    style.blocks? model d = some (style.blocks model d) := by
  have hbody : AllProper (d.body.glyphs d.name) := (allProper_append.1 h).2
  rw [blocks?, blocks]
  cases hcase : d.body with
  | container c =>
      rw [hcase] at hbody
      have hmembers : ∀ m ∈ c.members, AllProper m.body.glyphs := fun m hm =>
        (allProper_append.1 ((DefinitionBody.allProper_container.1 hbody).2 m hm)).2
      cases hkind : c.kind with
      | interface =>
          simp only [hkind, interfaceBlock?_eq hmembers, objectBlock?_eq hmembers,
            Option.bind_eq_bind, Option.bind_some]
          split <;> rfl
      | callbackInterface | dictionary =>
          simp only [hkind, interfaceBlock?_eq hmembers, Option.bind_eq_bind, Option.bind_some]
          rfl
      | nameSpace =>
          simp only [hkind, namespaceBlock?_eq hmembers, Option.bind_eq_bind, Option.bind_some]
          rfl
      | mixin => simp only [hkind]
  | enumeration | typedef | callback | includes => rfl

/-! ### Declaration files -/

section File

variable (h : ∀ d ∈ model.definitions, AllProper d.glyphs)

include h

theorem blockTexts?_eq (scope : Scope) (names : List String) :
    style.blockTexts? model scope names = some (style.blockTexts model scope names) := by
  have hblocks : ∀ d ∈ names.filterMap model.get?,
      style.blocks? model d = some (style.blocks model d) := by
    intro d hd
    obtain ⟨name, -, hget⟩ := List.mem_filterMap.1 hd
    exact blocks?_eq (h d (List.mem_of_find?_eq_some hget))
  rw [blockTexts?, mapM_eq_some hblocks]
  rfl

theorem bodyText?_eq : style.bodyText? model = some (style.bodyText model) := by
  rw [bodyText?, bodyText]
  simp only [blockTexts?_eq h, Option.bind_eq_bind, Option.bind_some]
  split
  · rfl
  · split
    · rw [String.append_empty]
      rfl
    · rfl

/-- Where the literals of a model are those of lexemes, its declarations are written without going
out of range. -/
theorem declarations?_eq : style.declarations? model = some (style.declarations model) := by
  rw [declarations?, bodyText?_eq h, Option.bind_eq_bind, Option.bind_some, Text.tidy?_eq,
    declarations]

end File

end Style

/-! ### Interface definitions -/

namespace Definition

/-- A definition ends with a semicolon and a line break. -/
theorem exists_text_eq (pad : String) (d : Definition) : ∃ front, d.text pad = front ++ ";\n" := by
  have hbrace : "\x7d;\n" = "\x7d" ++ ";\n" := by decide
  have hparen : ");\n" = ")" ++ ";\n" := by decide
  rw [text]
  cases d.body with
  | container | enumeration =>
      simp only [hbrace, ← String.append_assoc]
      exact ⟨_, rfl⟩
  | callback =>
      simp only [hparen, ← String.append_assoc]
      exact ⟨_, rfl⟩
  | typedef | includes =>
      simp only [← String.append_assoc]
      exact ⟨_, rfl⟩

theorem exists_intercalate_eq (pad : String) {definitions : List Definition}
    (hne : definitions ≠ []) :
    ∃ front, "\n".intercalate (definitions.map (text pad)) = front ++ ";\n" := by
  induction definitions with
  | nil => exact absurd rfl hne
  | cons d rest ih =>
      cases rest with
      | nil =>
          obtain ⟨front, hfront⟩ := exists_text_eq pad d
          exact ⟨front, by simp [hfront]⟩
      | cons e rest =>
          obtain ⟨front, hfront⟩ := ih (List.cons_ne_nil e rest)
          refine ⟨d.text pad ++ "\n" ++ front, ?_⟩
          rw [List.map_cons] at hfront
          rw [List.map_cons, List.map_cons, String.intercalate_cons_cons, hfront,
            ← String.append_assoc]

end Definition

/-- The model as interface definitions. -/
def Model.text? (indent : Nat) (model : Model) : Option String :=
  Text.tidy? ("\n".intercalate (model.definitions.map (Definition.text ("".pushn ' ' indent))))

theorem Model.text?_eq (indent : Nat) (model : Model) :
    model.text? indent = some (model.text indent) := by
  rw [text?, Text.tidy?_eq, text, Definition.listText]
  cases hdefinitions : model.definitions with
  | nil => rfl
  | cons d rest =>
      obtain ⟨front, hfront⟩ := Definition.exists_intercalate_eq ("".pushn ' ' indent)
        (List.cons_ne_nil d rest)
      rw [hfront, Text.trimEnd_append, String.append_assoc]
      rfl

end IdlBindings
