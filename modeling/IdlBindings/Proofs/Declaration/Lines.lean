import IdlBindings.Declaration.File
import IdlBindings.Proofs.Token.Valid

/-!
Where the declaration of a type stands in a declaration file. Its first words begin a line of the
block, and they still do when the blocks are indented and put together and the end of the file is
tidied (`Style.declaresType_of_mem_emissionOrder`).
-/

namespace IdlBindings

namespace Text

/-- The words stand at the beginning of a line of the text. -/
def BeginsLine (text words : String) : Prop :=
  ∃ before after, text = before ++ words ++ after ∧ (before = "" ∨ ∃ line, before = line ++ "\n")

theorem dropWhile_append_cons {p : Char → Bool} {c : Char} (hc : p c = false)
    (before after : List Char) :
    (before ++ c :: after).dropWhile p = before.dropWhile p ++ c :: after := by
  induction before with
  | nil => simp [hc]
  | cons d ds ih =>
      by_cases hd : p d = true
      · simp [hd, ih]
      · simp [hd]

namespace BeginsLine

variable {text words : String}

theorem append (h : BeginsLine text words) (more : String) : BeginsLine (text ++ more) words := by
  obtain ⟨before, after, rfl, hbefore⟩ := h
  exact ⟨before, after ++ more, by simp only [String.append_assoc], hbefore⟩

theorem prepend (h : BeginsLine text words) (lines : String) :
    BeginsLine (lines ++ "\n" ++ text) words := by
  obtain ⟨before, after, rfl, hbefore⟩ := h
  refine ⟨lines ++ "\n" ++ before, after, by simp only [String.append_assoc], .inr ?_⟩
  rcases hbefore with rfl | ⟨line, rfl⟩
  · exact ⟨lines, String.append_empty⟩
  · exact ⟨lines ++ "\n" ++ line, by simp only [String.append_assoc]⟩

theorem intercalate {texts : List String} (h : BeginsLine text words) (hmem : text ∈ texts) :
    BeginsLine ("\n".intercalate texts) words := by
  induction texts with
  | nil => cases hmem
  | cons first rest ih =>
      cases rest with
      | nil =>
          obtain rfl := List.mem_singleton.1 hmem
          simpa using h
      | cons next more =>
          rw [String.intercalate_cons_cons]
          rcases List.mem_cons.1 hmem with rfl | hrest
          · rw [String.append_assoc]
            exact h.append _
          · exact (ih hrest).prepend first

/-- White space at the end of a text goes, but not the words before it. -/
theorem trimEnd {c : Char} (h : BeginsLine text words) (hlast : words.toList.getLast? = some c)
    (hc : isBlank c = false) : BeginsLine (Text.trimEnd text) words := by
  obtain ⟨before, after, rfl, hbefore⟩ := h
  refine ⟨before, String.ofList (after.toList.reverse.dropWhile isBlank).reverse, ?_, hbefore⟩
  obtain ⟨start, hwords⟩ := List.getLast?_eq_some_iff.1 hlast
  apply String.toList_inj.1
  have hsplit : (before ++ words ++ after).toList.reverse
      = after.toList.reverse ++ c :: (before.toList ++ start).reverse := by
    simp [hwords]
  rw [Text.trimEnd, hsplit, dropWhile_append_cons hc]
  simp [hwords]

end BeginsLine

theorem linesOf_cons {c : Char} (hfeed : c ≠ '\n') (hreturn : c ≠ '\r') (rest : List Char) :
    linesOf (c :: rest) = match linesOf rest with
      | [] => [[c]]
      | line :: more => (c :: line) :: more := by
  rw [linesOf.eq_def]
  split
  · rename_i heq
    cases heq
  · rename_i heq
    exact absurd (List.cons.inj heq).1 hfeed
  · rename_i heq
    exact absurd (List.cons.inj heq).1 hreturn
  · rename_i heq
    cases heq
    rfl

/-- The first line begins as the text does. -/
theorem linesOf_append {start : List Char} (rest : List Char) (hne : start ≠ [])
    (hstart : ∀ c ∈ start, c ≠ '\n' ∧ c ≠ '\r') :
    ∃ line more, linesOf (start ++ rest) = (start ++ line) :: more := by
  induction start with
  | nil => exact absurd rfl hne
  | cons c cs ih =>
      obtain ⟨⟨hfeed, hreturn⟩, hcs⟩ := List.forall_mem_cons.1 hstart
      rw [List.cons_append, linesOf_cons hfeed hreturn]
      cases cs with
      | nil =>
          rw [List.nil_append]
          cases linesOf rest with
          | nil => exact ⟨[], [], rfl⟩
          | cons line more => exact ⟨line, more, rfl⟩
      | cons d ds =>
          obtain ⟨line, more, hlines⟩ := ih (List.cons_ne_nil d ds) hcs
          rw [hlines]
          exact ⟨line, more, rfl⟩

/-- What begins a text begins its first line when its lines are indented. -/
theorem beginsLine_indented {start : String} (indent text : String) (hne : start ≠ "")
    (hstart : ∀ c ∈ start.toList, c ≠ '\n' ∧ c ≠ '\r') :
    BeginsLine (String.join ((lines (start ++ text)).map (indentedLine indent)))
      (indent ++ start) := by
  have hchars : start.toList ≠ [] := fun h => hne (String.toList_eq_nil_iff.1 h)
  obtain ⟨line, more, hlines⟩ := linesOf_append text.toList hchars hstart
  have hfirst : lines (start ++ text)
      = (start ++ String.ofList line) :: more.map String.ofList := by
    rw [lines, String.toList_append, hlines, List.map_cons, String.ofList_append,
      String.ofList_toList]
  have hsome : (start ++ String.ofList line).isEmpty = false := by
    simp [hne]
  refine ⟨"", String.ofList line ++ "\n"
    ++ String.join ((more.map String.ofList).map (indentedLine indent)), ?_, .inl rfl⟩
  rw [hfirst, List.map_cons, String.join_cons, indentedLine, hsome]
  simp [String.append_assoc]

end Text

open Text

/-! ### Blocks -/

/-- The words that declare a type of this name. -/
def declarationWords (name : String) : List String :=
  ["interface " ++ name ++ " \x7b", "interface " ++ name ++ " extends", "type " ++ name ++ " ="]

theorem getLast?_of_mem_declarationWords {name words : String} (h : words ∈ declarationWords name) :
    ∃ c, words.toList.getLast? = some c ∧ isBlank c = false := by
  simp only [declarationWords, List.mem_cons, List.not_mem_nil, or_false] at h
  have hlast (before after : String) {c : Char} (hafter : after.toList.getLast? = some c) :
      (before ++ after).toList.getLast? = some c := by
    rw [String.toList_append, List.getLast?_append, hafter, Option.some_or]
  rcases h with rfl | rfl | rfl
  · exact ⟨'\x7b', hlast _ _ (by decide), rfl⟩
  · exact ⟨'s', hlast _ _ (by decide), rfl⟩
  · exact ⟨'=', hlast _ _ (by decide), rfl⟩

theorem isBlank_eq_false_of_mem_declarationWords {name words : String}
    (hname : ∀ c ∈ name.toList, Token.isBlank c = false) (h : words ∈ declarationWords name) :
    ∀ c ∈ words.toList, c ≠ '\n' ∧ c ≠ '\r' := by
  have hclean : ∀ c ∈ name.toList, c ≠ '\n' ∧ c ≠ '\r' := by
    intro c hc
    have hblank := hname c hc
    simp only [Token.isBlank, Bool.or_eq_false_iff, beq_eq_false_iff_ne] at hblank
    exact ⟨hblank.1.1.2, hblank.1.2⟩
  have hfixed (before after : String) (hbefore : ∀ c ∈ before.toList, c ≠ '\n' ∧ c ≠ '\r')
      (hafter : ∀ c ∈ after.toList, c ≠ '\n' ∧ c ≠ '\r') :
      ∀ c ∈ (before ++ name ++ after).toList, c ≠ '\n' ∧ c ≠ '\r' := by
    rw [String.toList_append, String.toList_append, List.forall_mem_append, List.forall_mem_append]
    exact ⟨⟨hbefore, hclean⟩, hafter⟩
  simp only [declarationWords, List.mem_cons, List.not_mem_nil, or_false] at h
  rcases h with rfl | rfl | rfl <;> exact hfixed _ _ (by simp) (by simp)

namespace Style

variable (style : Style) {model : Model} {d : Definition}

/-- A line of the text declares a type of this name. -/
def DeclaresType (text name : String) : Prop :=
  ∃ pad ∈ ["", style.indent], ∃ scope : Scope, ∃ words ∈ declarationWords name,
    BeginsLine text (pad ++ scope.lead .type ++ words)

theorem bodyText_some (indent : String) (lines : List String) :
    ∃ rest, Block.bodyText indent (some lines) = " \x7b" ++ rest := by
  cases lines with
  | nil => exact ⟨"\x7d", rfl⟩
  | cons line more =>
      refine ⟨"\n" ++ (String.join ((line :: more).map fun line => indent ++ line ++ "\n")
        ++ "\x7d"), ?_⟩
      rw [← String.append_assoc, show (" \x7b" : String) ++ "\n" = " \x7b\n" from rfl,
        ← String.append_assoc]
      rfl

theorem text_interfaceBlock (name : String) (c : Container) :
    ∃ words ∈ declarationWords name, ∀ scope, ∃ rest,
      (style.interfaceBlock name c).text style.indent scope = scope.lead .type ++ words ++ rest := by
  obtain ⟨lines, hbody⟩ : ∃ lines, (style.interfaceBlock name c).body = some lines := ⟨_, rfl⟩
  have htext (scope : Scope) : (style.interfaceBlock name c).text style.indent scope
      = scope.lead .type ++ ("interface " ++ name ++ optionalText c.parent " extends ")
        ++ Block.bodyText style.indent (some lines) := by
    rw [Block.text, hbody]
    exact String.append_empty
  obtain ⟨rest, hrest⟩ := bodyText_some style.indent lines
  cases hparent : c.parent with
  | some parent =>
      refine ⟨"interface " ++ name ++ " extends", by simp [declarationWords], fun scope => ?_⟩
      refine ⟨" " ++ parent ++ (" \x7b" ++ rest), ?_⟩
      rw [htext, hparent, hrest, optionalText,
        show (" extends " : String) = " extends" ++ " " from rfl]
      simp only [String.append_assoc]
  | none =>
      refine ⟨"interface " ++ name ++ " \x7b", by simp [declarationWords], fun scope => ⟨rest, ?_⟩⟩
      rw [htext, hparent, hrest, optionalText, String.append_empty]
      simp only [String.append_assoc]

/-- What can be used as a type has a block that declares it. -/
theorem exists_block_of_isType {kind : SymbolKind} (hkind : d.symbolKind? = some kind)
    (htype : kind.isType = true) :
    ∃ block ∈ style.blocks model d, ∃ words ∈ declarationWords d.name, ∀ scope, ∃ rest,
      block.text style.indent scope = scope.lead .type ++ words ++ rest := by
  have hinterface (c : Container) (h : style.interfaceBlock d.name c ∈ style.blocks model d) :
      ∃ block ∈ style.blocks model d, ∃ words ∈ declarationWords d.name, ∀ scope, ∃ rest,
        block.text style.indent scope = scope.lead .type ++ words ++ rest :=
    ⟨_, h, style.text_interfaceBlock d.name c⟩
  have halias (type : TypeExpr) (h : style.blocks model d = [aliasBlock d.name type]) :
      ∃ block ∈ style.blocks model d, ∃ words ∈ declarationWords d.name, ∀ scope, ∃ rest,
        block.text style.indent scope = scope.lead .type ++ words ++ rest := by
    refine ⟨_, h ▸ List.mem_singleton_self _, "type " ++ d.name ++ " =", by simp [declarationWords],
      fun scope => ⟨" " ++ type.text ++ ";", ?_⟩⟩
    rw [Block.text, aliasBlock, Block.bodyText, String.append_empty,
      show (" = " : String) = " =" ++ " " from rfl]
    simp only [String.append_assoc]
  obtain ⟨name, body, extAttrs, span⟩ := d
  cases body with
  | container c =>
      obtain rfl := Option.some.inj hkind
      apply hinterface c
      cases hc : c.kind with
      | mixin => rw [hc] at htype; cases htype
      | nameSpace => rw [hc] at htype; cases htype
      | interface => simp [blocks, hc]
      | callbackInterface => simp [blocks, hc]
      | dictionary => simp [blocks, hc]
  | enumeration values => exact halias _ rfl
  | typedef type => exact halias _ rfl
  | callback result args => exact halias _ rfl
  | includes mixin => cases hkind

/-! ### The file -/

theorem beginsLine_blockTexts (indent : String) (scope : Scope) {names : List String}
    (hd : d ∈ names.filterMap model.get?) {kind : SymbolKind}
    (hkind : d.symbolKind? = some kind) (htype : kind.isType = true)
    (hname : ∀ c ∈ d.name.toList, Token.isBlank c = false) :
    ∃ words ∈ declarationWords d.name,
      BeginsLine (blockText indent (style.blockTexts model scope names))
        (indent ++ scope.lead .type ++ words) := by
  obtain ⟨block, hblock, words, hwords, htext⟩ := style.exists_block_of_isType hkind htype
  obtain ⟨rest, htext⟩ := htext scope
  refine ⟨words, hwords, ?_⟩
  have hmem : block.text style.indent scope ∈ style.blockTexts model scope names :=
    List.mem_map_of_mem (List.mem_flatMap.2 ⟨d, hd, hblock⟩)
  have hlead : ∀ c ∈ (scope.lead .type).toList, c ≠ '\n' ∧ c ≠ '\r' := by
    cases scope <;> simp [Scope.lead]
  have hclean : ∀ c ∈ (scope.lead .type ++ words).toList, c ≠ '\n' ∧ c ≠ '\r' := by
    rw [String.toList_append, List.forall_mem_append]
    exact ⟨hlead, isBlank_eq_false_of_mem_declarationWords hname hwords⟩
  have hne : scope.lead .type ++ words ≠ "" := by
    intro hempty
    obtain ⟨c, hlast, -⟩ := getLast?_of_mem_declarationWords hwords
    have hwords : words = "" := (String.append_eq_empty_iff.1 hempty).2
    rw [hwords] at hlast
    cases hlast
  have hline := beginsLine_indented indent rest hne hclean
  rw [← htext, ← String.append_assoc] at hline
  exact hline.intercalate (List.mem_map_of_mem hmem)

/-- The body of a file declares every type that is in the order of declarations. -/
theorem declaresType_bodyText (hd : model.get? d.name = some d)
    (horder : d.name ∈ model.emissionOrder) {kind : SymbolKind} (hkind : d.symbolKind? = some kind)
    (htype : kind.isType = true) (hname : ∀ c ∈ d.name.toList, Token.isBlank c = false) :
    style.DeclaresType (style.bodyText model) d.name := by
  have hblocks {names : List String} (indent : String) (scope : Scope) (hmem : d.name ∈ names) :=
    style.beginsLine_blockTexts indent scope (List.mem_filterMap.2 ⟨d.name, hmem, hd⟩) hkind htype
      hname
  unfold bodyText
  dsimp only
  by_cases hglobal : style.isPlacedGlobal model d.name = true
  · have hmem : d.name ∈ model.emissionOrder.filter (style.isPlacedGlobal model) :=
      List.mem_filter.2 ⟨horder, hglobal⟩
    split
    · obtain ⟨words, hwords, hline⟩ := hblocks "" .script hmem
      exact ⟨"", by simp, .script, words, hwords, hline⟩
    · obtain ⟨words, hwords, hline⟩ := hblocks style.indent .global hmem
      refine ⟨style.indent, by simp, .global, words, hwords, ?_⟩
      have hsome : (model.emissionOrder.filter (style.isPlacedGlobal model)).isEmpty = false := by
        rw [List.isEmpty_eq_false_iff_exists_mem]
        exact ⟨d.name, hmem⟩
      rw [hsome, if_neg Bool.false_ne_true, ← String.append_assoc, ← String.append_assoc]
      rw [show ("\ndeclare global \x7b\n" : String) = "\ndeclare global \x7b" ++ "\n" from rfl,
        ← String.append_assoc]
      exact (hline.prepend _).append _
  · have hmem : d.name ∈ model.emissionOrder.filter fun name => !style.isPlacedGlobal model name :=
      List.mem_filter.2 ⟨horder, by simpa using hglobal⟩
    have hsome : (model.emissionOrder.filter
        fun name => !style.isPlacedGlobal model name).isEmpty = false := by
      rw [List.isEmpty_eq_false_iff_exists_mem]
      exact ⟨d.name, hmem⟩
    obtain ⟨words, hwords, hline⟩ := hblocks "" .module hmem
    rw [hsome, if_neg Bool.false_ne_true]
    exact ⟨"", by simp, .module, words, hwords, hline.append _⟩

/-- A file declares every type that is in the order of declarations. -/
theorem declaresType_declarations (hd : model.get? d.name = some d)
    (horder : d.name ∈ model.emissionOrder) {kind : SymbolKind} (hkind : d.symbolKind? = some kind)
    (htype : kind.isType = true) (hname : ∀ c ∈ d.name.toList, Token.isBlank c = false) :
    style.DeclaresType (style.declarations model) d.name := by
  obtain ⟨pad, hpad, scope, words, hwords, hline⟩ :=
    style.declaresType_bodyText hd horder hkind htype hname
  refine ⟨pad, hpad, scope, words, hwords, ?_⟩
  have hheader : BeginsLine (style.headerText ++ style.bodyText model)
      (pad ++ scope.lead .type ++ words) := by
    unfold headerText
    cases style.header with
    | none => rwa [String.empty_append]
    | some header => exact hline.prepend _
  obtain ⟨c, hlast, hc⟩ := getLast?_of_mem_declarationWords hwords
  have hlast : (pad ++ scope.lead .type ++ words).toList.getLast? = some c := by
    rw [String.toList_append, List.getLast?_append, hlast, Option.some_or]
  exact (hheader.trimEnd hlast hc).append "\n"

end Style

end IdlBindings
