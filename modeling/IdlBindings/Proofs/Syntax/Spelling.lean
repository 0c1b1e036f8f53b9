import IdlBindings.Proofs.Syntax.Glyphs
import IdlBindings.Proofs.Token.Spelling

/-!
The text of a syntax tree is read as its glyphs, provided that its names, numbers and strings are
tokens: no two tokens run together and no blank is lost. The main statement is
`Definition.ofText_listText`.
-/

namespace IdlBindings

open Token (LexState)

/-! ### Names and literals -/

theorem isOctalDigit_of_not_digit {c : Char} (h : Token.isAsciiDigit c = false) :
    Token.isOctalDigit c = false := by
  simp only [Token.isAsciiDigit, Token.isOctalDigit, Bool.and_eq_false_iff, decide_eq_false_iff_not,
    Char.not_le] at h ⊢
  exact h.imp_right fun h => Char.lt_trans (by decide) h

theorem isHexDigit_of_endsName {c : Char} (h : EndsName c) : Token.isHexDigit c = false := by
  have hlower : ¬('a' ≤ c ∧ c ≤ 'z') := by
    rintro ⟨hle, hge⟩
    simp [EndsName, Token.isIdentifierRest, Token.isAsciiLetter, hle, hge] at h
  have hupper : ¬('A' ≤ c ∧ c ≤ 'Z') := by
    rintro ⟨hle, hge⟩
    simp [EndsName, Token.isIdentifierRest, Token.isAsciiLetter, hle, hge] at h
  have hdigit : Token.isAsciiDigit c = false := by simp_all [EndsName, Token.isIdentifierRest]
  have ha : ¬('a' ≤ c ∧ c ≤ 'f') := fun hc =>
    hlower ⟨hc.1, Char.le_trans hc.2 (by decide)⟩
  have hA : ¬('A' ≤ c ∧ c ≤ 'F') := fun hc =>
    hupper ⟨hc.1, Char.le_trans hc.2 (by decide)⟩
  simp only [Token.isHexDigit, hdigit, Bool.false_or, Bool.or_eq_false_iff]
  exact ⟨by simpa using ha, by simpa using hA⟩

theorem ne_of_endsName {c d : Char} (h : EndsName c) (hd : ¬EndsName d) : c ≠ d := by
  rintro rfl
  exact hd h

/-- No name goes on with a character that ends one. -/
theorem step_of_endsName {s : LexState} {c : Char} (hc : EndsName c)
    (hs : s.accept = some .identifier) : s.step c = none := by
  cases s <;> simp_all [LexState.accept, LexState.step]

/-- No number goes on with a character that ends one. -/
theorem step_of_endsNumber {s : LexState} {c : Char} (hc : EndsNumber c)
    (hs : s.accept = some .integer ∨ s.accept = some .decimal) : s.step c = none := by
  obtain ⟨hrest, hdot⟩ := hc
  have hdigit : Token.isAsciiDigit c = false := by simp_all [Token.isIdentifierRest]
  have hoct := isOctalDigit_of_not_digit hdigit
  have hhex := isHexDigit_of_endsName hrest
  have hx : c ≠ 'x' := ne_of_endsName hrest (by decide)
  have hX : c ≠ 'X' := ne_of_endsName hrest (by decide)
  have he : c ≠ 'e' := ne_of_endsName hrest (by decide)
  have hE : c ≠ 'E' := ne_of_endsName hrest (by decide)
  cases s <;> simp_all [LexState.accept, LexState.step, LexState.number?]

namespace Spells

theorem name {name : String} (h : (Glyph.word name).Valid) : Spells EndsName name [.word name] :=
  h.spells rfl fun _ hs _ hc => step_of_endsName hc hs

theorem integer {source : String} (h : Glyph.Valid ⟨.integer, source⟩) :
    Spells EndsNumber source [⟨.integer, source⟩] :=
  h.spells rfl fun _ hs _ hc => step_of_endsNumber hc (.inl hs)

theorem decimal {source : String} (h : Glyph.Valid ⟨.decimal, source⟩) :
    Spells EndsNumber source [⟨.decimal, source⟩] :=
  h.spells rfl fun _ hs _ hc => step_of_endsNumber hc (.inr hs)

theorem quoted {content : String} (h : (Glyph.quoted content).Valid) :
    Spells AnyChar ("\"" ++ content ++ "\"") [.quoted content] :=
  h.spells rfl fun s hs c _ => by
    change s.accept = some .string at hs
    cases s <;> simp_all [LexState.accept, LexState.step]

variable {stop : Char → Prop} {text : String} {gs : List Glyph}

theorem of_any (h : Spells AnyChar text gs) : Spells stop text gs :=
  h.mono fun _ _ => trivial

theorem of_name (h : Spells EndsName text gs) : Spells EndsNumber text gs :=
  h.mono fun _ hc => hc.1

end Spells

/-- Parts with commas between and in parentheses. -/
theorem Spells.inParens {texts : List String} {parts : List (List Glyph)}
    (h : List.Forall₂ (Spells EndsNumber) texts parts) :
    Spells AnyChar ("(" ++ ", ".intercalate texts ++ ")") (Glyph.inParens parts) := by
  have hopen : Spells AnyChar "(" [.mark .parenOpen] := .closed (by decide)
  have hparts := Spells.joined ", " (.mark .comma) (by decide) (by decide) h
  exact (hopen.append_any hparts).append_fixed _ _ (by decide) (by decide)

/-- Parts with commas between and in square brackets. -/
theorem Spells.inBrackets {texts : List String} {parts : List (List Glyph)}
    (h : List.Forall₂ (Spells EndsNumber) texts parts) :
    Spells AnyChar (bracketed texts) (Glyph.inBrackets parts) := by
  cases h with
  | nil => exact .empty
  | cons hfirst hrest =>
      have hopen : Spells AnyChar "[" [.mark .bracketOpen] := .closed (by decide)
      have hparts := Spells.joined ", " (.mark .comma) (by decide) (by decide)
        (List.Forall₂.cons hfirst hrest)
      exact (hopen.append_any hparts).append_fixed _ _ (by decide) (by decide)

theorem ConstValue.spells {value : ConstValue} (h : value.glyph.Proper) :
    Spells EndsNumber value.text [value.glyph] := by
  cases value with
  | boolean value => cases value <;> exact (Spells.open (by decide)).of_name
  | integer source => exact .integer h.1
  | decimal source => exact .decimal h.1
  | infinity => exact (Spells.open (by decide)).of_name
  | negativeInfinity => exact (Spells.open (by decide)).of_name
  | notANumber => exact (Spells.open (by decide)).of_name

theorem DefaultValue.spells {value : DefaultValue} (h : Glyph.AllProper value.glyphs) :
    Spells EndsNumber value.text value.glyphs := by
  cases value with
  | const value => exact ConstValue.spells (h _ List.mem_cons_self)
  | string content => exact (Spells.quoted (h _ List.mem_cons_self).1).of_any
  | emptySequence => exact (Spells.closed (by decide)).of_any
  | emptyDictionary => exact (Spells.closed (by decide)).of_any
  | null => exact (Spells.open (by decide)).of_name
  | undefined => exact (Spells.open (by decide)).of_name

theorem AttributeValue.spells {value : AttributeValue} (h : Glyph.AllProper value.glyphs) :
    Spells EndsNumber value.text value.glyphs := by
  cases value with
  | identifier name => exact (Spells.name (h _ List.mem_cons_self).1).of_name
  | identifierList names =>
      refine (Spells.inParens ?_).of_any
      rw [List.forall₂_map_right_iff, List.forall₂_same]
      intro name hname
      have hproper := Glyph.allProper_inParens.1 h _ (List.mem_map_of_mem hname)
      exact (Spells.name (hproper _ List.mem_cons_self).1).of_name
  | string content => exact (Spells.quoted (h _ List.mem_cons_self).1).of_any
  | integer source => exact .integer (h _ List.mem_cons_self).1
  | decimal source => exact .decimal (h _ List.mem_cons_self).1
  | wildcard => exact (Spells.closed (by decide)).of_any

/-! ### Types, extended attributes and arguments -/

theorem Primitive.spells (p : Primitive) : Spells EndsName p.text (p.words.map Glyph.word) := by
  cases p <;> exact .open (by decide)

/-- A type in angle brackets behind the word of its kind. -/
theorem Spells.wrapped {kind opening text : String} {gs : List Glyph}
    (hopening : closed? opening = some [.word kind, .mark .angleOpen])
    (h : Spells EndsName text gs) :
    Spells EndsName (opening ++ text ++ ">") (Glyph.wrapped kind gs) :=
  (((Spells.closed hopening).append_any h).append_fixed _ _ (by decide) (by decide)).of_any

/-- A token that may be missing. -/
theorem Spells.flag {flag : Bool} {text : String} (g : Glyph) (h : closed? text = some [g]) :
    Spells AnyChar (if flag then text else "") (if flag then [g] else []) := by
  cases flag with
  | false => exact .empty
  | true => exact .closed h

theorem DefaultValue.spells_of_assigned {default : Option DefaultValue}
    (h : Glyph.AllProper (Glyph.assigned (default.map glyphs))) :
    Option.Rel (Spells EndsNumber) (default.map text) (default.map glyphs) := by
  cases default with
  | none => exact .none
  | some value => exact .some (spells (Glyph.allProper_cons.1 h).2)

/-- A part behind an equals sign, if there is one. -/
theorem Spells.append_assigned {text : String} {gs : List Glyph}
    (h : Spells EndsNumber text gs) (before : String) (hbefore : closed? before = some [.mark .equals])
    (hstart : Begins EndsNumber before) {part : Option String}
    {partGlyphs : Option (List Glyph)} (hpart : Option.Rel (Spells EndsNumber) part partGlyphs) :
    Spells EndsNumber (text ++ optionalText part before) (gs ++ Glyph.assigned partGlyphs) := by
  cases hpart with
  | none => simpa [optionalText, Glyph.assigned] using h
  | some hpart =>
      have hbehind := (h.append_fixed before _ hbefore hstart).append_any hpart
      simpa [optionalText, Glyph.assigned, String.append_assoc] using hbehind

mutual

theorem IdlType.spells : (type : IdlType) → Glyph.AllProper type.glyphs →
    Spells EndsName type.text type.glyphs
  | .primitive p, _ => by
      rw [IdlType.glyphs]
      show Spells EndsName p.text _
      exact p.spells
  | .named name, h => by
      rw [IdlType.glyphs] at h
      rw [IdlType.glyphs]
      show Spells EndsName name _
      exact .name (h _ List.mem_cons_self).1
  | .sequence item, h => by
      rw [IdlType.glyphs, Glyph.allProper_wrapped] at h
      rw [IdlType.glyphs]
      show Spells EndsName ("sequence<" ++ item.text ++ ">") _
      exact .wrapped (by decide) (item.spells h.2)
  | .frozenArray item, h => by
      rw [IdlType.glyphs, Glyph.allProper_wrapped] at h
      rw [IdlType.glyphs]
      show Spells EndsName ("FrozenArray<" ++ item.text ++ ">") _
      exact .wrapped (by decide) (item.spells h.2)
  | .observableArray item, h => by
      rw [IdlType.glyphs, Glyph.allProper_wrapped] at h
      rw [IdlType.glyphs]
      show Spells EndsName ("ObservableArray<" ++ item.text ++ ">") _
      exact .wrapped (by decide) (item.spells h.2)
  | .promise result, h => by
      rw [IdlType.glyphs, Glyph.allProper_wrapped] at h
      rw [IdlType.glyphs]
      show Spells EndsName ("Promise<" ++ result.text ++ ">") _
      exact .wrapped (by decide) (result.spells h.2)
  | .record key value, h => by
      rw [IdlType.glyphs, Glyph.allProper_wrapped, Glyph.allProper_append,
        Glyph.allProper_cons] at h
      obtain ⟨-, hkey, -, hvalue⟩ := h
      rw [IdlType.glyphs]
      show Spells EndsName ("record<" ++ key.text ++ ", " ++ value.text ++ ">") _
      have hopen : Spells AnyChar "record<" [.word "record", .mark .angleOpen] := .closed (by decide)
      have hcomma := (hopen.append_any (key.spells hkey)).append_fixed ", " [.mark .comma]
        (by decide) (by decide)
      have hclose := (hcomma.append_any (value.spells hvalue)).append_fixed ">" [.mark .angleClose]
        (by decide) (by decide)
      simpa [Glyph.wrapped] using hclose.of_any
  | .nullable inner, h => by
      rw [IdlType.glyphs, Glyph.allProper_append] at h
      rw [IdlType.glyphs]
      show Spells EndsName (inner.text ++ "?") _
      exact ((inner.spells h.1).append_fixed _ _ (by decide) (by decide)).of_any
  | .union members, h => by
      have hor : (Glyph.word "or").Proper := by decide
      rw [IdlType.glyphs, Glyph.allProper_cons, Glyph.allProper_append,
        Glyph.allProper_joined hor] at h
      rw [IdlType.glyphs]
      show Spells EndsName ("(" ++ " or ".intercalate (IdlType.texts members) ++ ")") _
      have hopen : Spells AnyChar "(" [.mark .parenOpen] := .closed (by decide)
      have hmembers := Spells.joined " or " (.word "or") (by decide) (by decide)
        (IdlType.spellsEach members h.2.1)
      exact ((hopen.append_any hmembers).append_fixed _ _ (by decide) (by decide)).of_any
  | .any, _ => by
      rw [IdlType.glyphs]
      show Spells EndsName "any" _
      exact .open (by decide)
  | .annotated extAttrs inner, h => by
      rw [IdlType.glyphs, Glyph.allProper_append, Glyph.allProper_inBrackets] at h
      rw [IdlType.glyphs]
      show Spells EndsName (bracketed (ExtendedAttribute.texts extAttrs) ++ " " ++ inner.text) _
      have hattrs := Spells.inBrackets (ExtendedAttribute.spellsEach extAttrs h.1)
      have hblank : Spells AnyChar " " [] := .closed (by decide)
      simpa using (hattrs.append_any hblank).append_any (inner.spells h.2)

theorem IdlType.spellsEach : (types : List IdlType) →
    (∀ gs ∈ IdlType.glyphsEach types, Glyph.AllProper gs) →
    List.Forall₂ (Spells EndsName) (IdlType.texts types) (IdlType.glyphsEach types)
  | [], _ => by
      rw [IdlType.texts, IdlType.glyphsEach]
      exact .nil
  | type :: rest, h => by
      rw [IdlType.glyphsEach, List.forall_mem_cons] at h
      rw [IdlType.texts, IdlType.glyphsEach]
      exact .cons (type.spells h.1) (IdlType.spellsEach rest h.2)

theorem ExtendedAttribute.spells : (attr : ExtendedAttribute) → Glyph.AllProper attr.glyphs →
    Spells EndsNumber attr.text attr.glyphs
  | ⟨name, value, args⟩, h => by
      rw [ExtendedAttribute.glyphs, Glyph.allProper_cons, Glyph.allProper_append] at h
      obtain ⟨hname, hvalue, hargs⟩ := h
      rw [ExtendedAttribute.text, ExtendedAttribute.glyphs]
      have hvalue : Option.Rel (Spells EndsNumber) (value.map AttributeValue.text)
          (value.map AttributeValue.glyphs) := by
        cases value with
        | none => exact .none
        | some value => exact .some (AttributeValue.spells (Glyph.allProper_cons.1 hvalue).2)
      have hassigned := (Spells.name hname.1).of_name.append_assigned "=" (by decide)
        (by decide) hvalue
      have hstart : ∀ c ∈ (Argument.parenthesized args).toList.head?, EndsNumber c := by
        cases args with
        | none => simp [Argument.parenthesized]
        | some args =>
            rintro c hc
            obtain rfl : c = '(' := by simpa [Argument.parenthesized, eq_comm] using hc
            decide
      simpa using hassigned.append_part (Argument.spellsOption args hargs).of_any hstart

theorem ExtendedAttribute.spellsEach : (attrs : List ExtendedAttribute) →
    (∀ gs ∈ ExtendedAttribute.glyphsEach attrs, Glyph.AllProper gs) →
    List.Forall₂ (Spells EndsNumber) (ExtendedAttribute.texts attrs)
      (ExtendedAttribute.glyphsEach attrs)
  | [], _ => by
      rw [ExtendedAttribute.texts, ExtendedAttribute.glyphsEach]
      exact .nil
  | attr :: rest, h => by
      rw [ExtendedAttribute.glyphsEach, List.forall_mem_cons] at h
      rw [ExtendedAttribute.texts, ExtendedAttribute.glyphsEach]
      exact .cons (attr.spells h.1) (ExtendedAttribute.spellsEach rest h.2)

theorem Argument.spellsOption : (args : Option (List Argument)) →
    Glyph.AllProper (Argument.glyphsOfOption args) →
    Spells AnyChar (Argument.parenthesized args) (Argument.glyphsOfOption args)
  | none, _ => by
      rw [Argument.parenthesized, Argument.glyphsOfOption]
      exact .empty
  | some args, h => by
      rw [Argument.glyphsOfOption, Glyph.allProper_inParens] at h
      rw [Argument.parenthesized, Argument.glyphsOfOption]
      exact .inParens (Argument.spellsEach args h)

theorem Argument.spellsEach : (args : List Argument) →
    (∀ gs ∈ Argument.glyphsEach args, Glyph.AllProper gs) →
    List.Forall₂ (Spells EndsNumber) (Argument.texts args) (Argument.glyphsEach args)
  | [], _ => by
      rw [Argument.texts, Argument.glyphsEach]
      exact .nil
  | arg :: rest, h => by
      rw [Argument.glyphsEach, List.forall_mem_cons] at h
      rw [Argument.texts, Argument.glyphsEach]
      exact .cons (arg.spells h.1) (Argument.spellsEach rest h.2)

theorem Argument.spells : (arg : Argument) → Glyph.AllProper arg.glyphs →
    Spells EndsNumber arg.text arg.glyphs
  | ⟨name, type, isOptional, isVariadic, default, extAttrs⟩, h => by
      simp only [Argument.glyphs, Glyph.allProper_append, Glyph.allProper_cons,
        Glyph.allProper_inBrackets] at h
      obtain ⟨hattrs, -, htype, -, hname, hdefault⟩ := h
      rw [Argument.text, Argument.glyphs]
      have hblank : Spells AnyChar " " [] := .closed (by decide)
      have hattrs : Spells AnyChar
          (if extAttrs.isEmpty then "" else bracketed (ExtendedAttribute.texts extAttrs) ++ " ")
          (Glyph.inBrackets (ExtendedAttribute.glyphsEach extAttrs)) := by
        have hlist := Spells.inBrackets (ExtendedAttribute.spellsEach extAttrs hattrs)
        cases extAttrs with
        | nil => exact hlist
        | cons attr rest => simpa using hlist.append_any hblank
      have hoptional : Spells AnyChar (if isOptional then "optional " else "") _ :=
        .flag (.word "optional") (by decide)
      have hvariadic : Spells AnyChar (if isVariadic then "..." else "") _ :=
        .flag (.mark .ellipsis) (by decide)
      have hstart : ∀ c ∈ (if isVariadic then "..." else "").toList.head?, EndsName c := by
        cases isVariadic with
        | false => simp
        | true =>
            rintro c hc
            obtain rfl : '.' = c := Option.some.inj hc
            decide
      have htyped := ((hattrs.append_any hoptional).append_any (type.spells htype)).append_part
        hvariadic.of_any hstart
      have hnamed := (htyped.append_blank (by decide)).append_any (Spells.name hname.1)
      simpa using hnamed.of_name.append_assigned " = " (by decide) (by decide)
        (DefaultValue.spells_of_assigned hdefault)

end

theorem ExtendedAttribute.spells_listText {attrs : List ExtendedAttribute}
    (h : Glyph.AllProper (ExtendedAttribute.listGlyphs attrs)) :
    Spells AnyChar (ExtendedAttribute.listText attrs) (ExtendedAttribute.listGlyphs attrs) := by
  refine .inBrackets (List.forall₂_map_left_iff.2 (List.forall₂_map_right_iff.2 ?_))
  rw [List.forall₂_same]
  intro attr hattr
  exact attr.spells (Glyph.allProper_inBrackets.1 h _ (List.mem_map_of_mem hattr))

/-- Extended attributes with a blank behind them, if there are any. -/
theorem ExtendedAttribute.spells_before {attrs : List ExtendedAttribute} {blank : String}
    (h : Glyph.AllProper (ExtendedAttribute.listGlyphs attrs)) (hblank : closed? blank = some []) :
    Spells AnyChar (if attrs.isEmpty then "" else ExtendedAttribute.listText attrs ++ blank)
      (ExtendedAttribute.listGlyphs attrs) := by
  have hlist := (spells_listText h).append_any (.closed hblank)
  cases attrs with
  | nil => exact .empty
  | cons attr rest => simpa using hlist

/-- Arguments in parentheses and what comes with the closing one. -/
theorem Spells.append_arguments {stop : Char → Prop} {text : String} {gs : List Glyph}
    {args : List Argument} (h : Spells stop text gs) (hstop : stop '(')
    (hargs : Glyph.AllProper (Argument.listGlyphs args)) (closing : String) (hs : List Glyph)
    (hclosing : closed? closing = some (.mark .parenClose :: hs))
    (hstart : Begins EndsNumber closing) :
    Spells AnyChar (text ++ "(" ++ Argument.listText args ++ closing)
      (gs ++ (Argument.listGlyphs args ++ hs)) := by
  have hopen := h.append_fixed "(" [.mark .parenOpen] (by decide) ⟨'(', rfl, hstop⟩
  have heach : List.Forall₂ (Spells EndsNumber) (args.map Argument.text)
      (args.map Argument.glyphs) := by
    refine List.forall₂_map_left_iff.2 (List.forall₂_map_right_iff.2 ?_)
    rw [List.forall₂_same]
    intro arg harg
    exact arg.spells (Glyph.allProper_inParens.1 hargs _ (List.mem_map_of_mem harg))
  have hlist := Spells.joined ", " (.mark .comma) (by decide) (by decide) heach
  simpa [Argument.listGlyphs, Glyph.inParens, Argument.listText] using
    (hopen.append_any hlist).append_fixed closing _ hclosing hstart

/-! ### Members -/

namespace MemberBody

theorem spells_attributeWords (a : Attribute) :
    Spells AnyChar (attributeWords a) (attributeGlyphs a) := by
  rw [attributeWords, attributeGlyphs]
  cases a.isStatic <;> cases a.isStringifier <;> cases a.isInherited <;> cases a.isReadonly <;>
    exact .closed (by decide)

theorem spells_iterationWords (kind : IterationKind) :
    Spells EndsName kind.keyword (iterationWords kind) := by
  cases kind <;> exact .open (by decide)

/-- The word of a special role, if there is one. -/
theorem spells_special (special : Option Special) :
    Spells AnyChar
      (match special with
        | some special => special.keyword ++ " "
        | none => "")
      (special.toList.map fun special => Glyph.word special.keyword) := by
  cases special with
  | none => exact .empty
  | some special => cases special <;> exact .closed (by decide)

theorem spells_operation {o : Operation} (h : Glyph.AllProper (operation o).glyphs) :
    Spells AnyChar (operation o).text (operation o).glyphs := by
  simp only [glyphs, Glyph.allProper_append] at h
  obtain ⟨-, -, hresult, hname, hargs, -⟩ := h
  have hstatic : Spells AnyChar (if o.isStatic then "static " else "") _ :=
    .flag (.word "static") (by decide)
  have hname : Spells EndsName (o.name.getD "") (o.name.toList.map Glyph.word) := by
    cases hname' : o.name with
    | none => exact .empty
    | some name =>
        rw [hname'] at hname
        exact .name (hname _ List.mem_cons_self).1
  have htyped := (hstatic.append_any (spells_special o.special)).append_any
    (o.result.spells hresult)
  have hnamed := (htyped.append_blank (by decide)).append_any hname
  have hclosed := hnamed.append_arguments (by decide) hargs ");" [.mark .semicolon] (by decide)
    (by decide)
  simp only [List.append_assoc] at hclosed
  exact hclosed

/-- The first type of an iteration, if there are two. -/
theorem spells_key {key : Option IdlType} (h : ∀ type ∈ key, Glyph.AllProper type.glyphs) :
    Spells AnyChar
      (match key with
        | some key => key.text ++ ", "
        | none => "")
      (key.toList.flatMap fun key => key.glyphs ++ [.mark .comma]) := by
  cases key with
  | none => exact .empty
  | some key =>
      have hfirst := key.spells (h key rfl)
      simpa using hfirst.append_fixed ", " [.mark .comma] (by decide) (by decide)

theorem spells_iteration {i : Iteration} (h : Glyph.AllProper (iteration i).glyphs) :
    Spells AnyChar (iteration i).text (iteration i).glyphs := by
  obtain ⟨kind, isReadonly, key, value, args⟩ := i
  simp only [glyphs, Glyph.allProper_cons, Glyph.allProper_append,
    Glyph.allProper_joined (show (Glyph.mark .comma).Proper by decide)] at h
  obtain ⟨-, -, -, htypes, -, hargs, -⟩ := h
  have hreadonly : Spells AnyChar (if isReadonly then "readonly " else "") _ :=
    .flag (.word "readonly") (by decide)
  have hopen := (hreadonly.append_any (spells_iterationWords kind)).append_fixed "<"
    [.mark .angleOpen] (by decide) (by decide)
  have hkey := spells_key fun type htype =>
    htypes _ (List.mem_map_of_mem (List.mem_append_left [value] (Option.mem_toList.2 htype)))
  have hvalue := value.spells (htypes _ (by simp))
  have hclose := ((hopen.append_any hkey).append_any hvalue).append_fixed ">" [.mark .angleClose]
    (by decide) (by decide)
  have hargs : Spells AnyChar (if args.isEmpty then "" else "(" ++ Argument.listText args ++ ")")
      (if args.isEmpty then [] else Argument.listGlyphs args) := by
    cases args with
    | nil => exact .empty
    | cons arg rest =>
        have hempty : Spells AnyChar "" [] := .empty
        simpa using hempty.append_arguments trivial hargs ")" [] (by decide) (by decide)
  have hsemicolon : Spells AnyChar ";" [.mark .semicolon] := .closed (by decide)
  have hall := (hclose.append_any hargs).append_any hsemicolon
  cases key <;> simpa [text, glyphs, Glyph.joined] using hall

theorem spells : {body : MemberBody} → Glyph.AllProper body.glyphs →
    Spells AnyChar body.text body.glyphs
  | .const name type value, h => by
      simp only [glyphs, Glyph.allProper_cons, Glyph.allProper_append] at h
      obtain ⟨-, htype, hname, -, hvalue, -⟩ := h
      have hconst : Spells AnyChar "const " [.word "const"] := .closed (by decide)
      have hnamed := ((hconst.append_any (type.spells htype)).append_blank (by decide)).append_any
        (Spells.name hname.1)
      have hassigned := (hnamed.append_fixed " = " [.mark .equals] (by decide)
        (by decide)).append_any (ConstValue.spells hvalue)
      simpa [text, glyphs] using hassigned.append_fixed ";" [.mark .semicolon]
        (by decide) (by decide)
  | .attribute a, h => by
      simp only [glyphs, Glyph.allProper_cons, Glyph.allProper_append] at h
      obtain ⟨-, htype, hname, -⟩ := h
      have htyped := (spells_attributeWords a).append_any (a.type.spells htype)
      have hnamed := (htyped.append_blank (by decide)).append_any (Spells.name hname.1)
      simpa [text, glyphs] using hnamed.append_fixed ";" [.mark .semicolon]
        (by decide) (by decide)
  | .operation _, h => spells_operation h
  | .constructor args, h => by
      simp only [glyphs, Glyph.allProper_cons, Glyph.allProper_append] at h
      have hword : Spells EndsName "constructor" [.word "constructor"] := .open (by decide)
      exact hword.append_arguments (by decide) h.2.1 _ _ (by decide) (by decide)
  | .field f, h => by
      simp only [glyphs, Glyph.allProper_cons, Glyph.allProper_append] at h
      obtain ⟨-, htype, hname, hdefault, -⟩ := h
      have hrequired : Spells AnyChar (if f.isRequired then "required " else "") _ :=
        .flag (.word "required") (by decide)
      have htyped := hrequired.append_any (f.type.spells htype)
      have hnamed := (htyped.append_blank (by decide)).append_any (Spells.name hname.1)
      have hassigned := hnamed.of_name.append_assigned " = " (by decide) (by decide)
        (DefaultValue.spells_of_assigned hdefault)
      simpa [text, glyphs] using hassigned.append_fixed ";" [.mark .semicolon]
        (by decide) (by decide)
  | .iteration _, h => spells_iteration h
  | .stringifier, _ => .closed (by decide)

end MemberBody

theorem Member.spells {m : Member} (h : Glyph.AllProper m.glyphs) :
    Spells AnyChar m.text m.glyphs := by
  rw [Member.glyphs, Glyph.allProper_append] at h
  exact (ExtendedAttribute.spells_before h.1 (by decide)).append_any (MemberBody.spells h.2)

/-! ### Definitions -/

theorem Spells.append_blanks {stop : Char → Prop} {text blank : String} {gs : List Glyph}
    (h : Spells AnyChar text gs) (hblank : ∀ c ∈ blank.toList, Token.isBlank c = true) :
    Spells stop (text ++ blank) gs := by
  have hnothing : ∀ cs : List Char, (∀ c ∈ cs, Token.isBlank c = true) → ∀ rest,
      Glyph.ofText (cs ++ rest) = Glyph.ofText rest := by
    intro cs hcs rest
    induction cs with
    | nil => rfl
    | cons c cs ih =>
        rw [List.forall_mem_cons] at hcs
        rw [List.cons_append, Glyph.ofText_cons_blank hcs.1, ih hcs.2]
  intro rest hrest
  rw [String.toList_append, List.append_assoc, h _ fun _ _ => trivial, hnothing _ hblank]

theorem toList_pushn_blank (n : Nat) : ("".pushn ' ' n).toList = List.replicate n ' ' := by
  rw [String.pushn_eq_repeat_push]
  induction n with
  | zero => rfl
  | succ n ih => rw [Nat.repeat, String.toList_push, ih, ← List.replicate_succ']

theorem blank_of_mem_pushn {n : Nat} {c : Char} (h : c ∈ ("".pushn ' ' n).toList) :
    Token.isBlank c = true := by
  rw [toList_pushn_blank] at h
  obtain rfl := List.eq_of_mem_replicate h
  decide

theorem ContainerKind.spells (kind : ContainerKind) : Spells EndsName kind.keyword kind.glyphs := by
  cases kind <;> exact .open (by decide)

namespace Definition

variable {pad : String} (hpad : ∀ c ∈ pad.toList, Token.isBlank c = true)

include hpad

/-- The lines of the members. -/
theorem spells_memberLines {members : List Member}
    (h : Glyph.AllProper (members.flatMap Member.glyphs)) :
    Spells AnyChar (String.join (members.map fun m => pad ++ m.text ++ "\n"))
      (members.flatMap Member.glyphs) := by
  induction members with
  | nil => exact .empty
  | cons m rest ih =>
      rw [List.flatMap_cons, Glyph.allProper_append] at h
      rw [List.map_cons, String.join_cons, List.flatMap_cons]
      have hline := (Spells.empty.append_blanks hpad).append_any (Member.spells h.1)
      have hend : ∀ c ∈ "\n".toList, Token.isBlank c = true := List.all_eq_true.1 (by decide)
      simpa using (hline.append_blanks hend).append_any (ih h.2)

theorem spells_valueLines {values : List String}
    (h : ∀ value ∈ values, (Glyph.quoted value).Proper) :
    Spells AnyChar (valueLines pad values)
      (Glyph.joined (.mark .comma) (values.map fun value => [.quoted value])) := by
  have hvalue {value : String} (h : (Glyph.quoted value).Proper) :
      Spells AnyChar (pad ++ "\"" ++ value ++ "\"") [.quoted value] := by
    have hline := (Spells.empty.append_blanks hpad).append_any (Spells.quoted h.1)
    simpa [String.append_assoc] using hline
  induction values with
  | nil => exact .empty
  | cons value rest ih =>
      rw [List.forall_mem_cons] at h
      cases rest with
      | nil =>
          have hline := (hvalue h.1).append_fixed "\n" [] (by decide) (by decide)
          simpa [valueLines, Glyph.joined, String.append_assoc] using hline
      | cons second rest =>
          have hline := (hvalue h.1).append_fixed ",\n" [.mark .comma] (by decide)
            (by decide)
          simpa [valueLines, Glyph.joined, String.append_assoc] using hline.append_any (ih h.2)

omit hpad in
/-- The parent of a container behind a colon, if there is one. -/
theorem spells_parent {c : Container} (h : Glyph.AllProper c.parentGlyphs) :
    Spells EndsName (optionalText c.parent " : ") c.parentGlyphs ∧
      ∀ d ∈ (optionalText c.parent " : ").toList.head?, EndsName d := by
  rw [Container.parentGlyphs] at h ⊢
  cases hc : c.parent with
  | none => exact ⟨.empty, by simp [optionalText]⟩
  | some parent =>
      rw [hc] at h
      have hcolon : Spells AnyChar " : " [.mark .colon] := .closed (by decide)
      refine ⟨hcolon.append_any (.name (h _ (by simp)).1), fun d hd => ?_⟩
      obtain rfl : d = ' ' := by simpa [optionalText, eq_comm] using hd
      decide

theorem spells_container {name : String} {c : Container}
    (h : Glyph.AllProper (DefinitionBody.glyphs name (.container c))) :
    Spells AnyChar
      ((if c.isPartial then "partial " else "") ++ c.kind.keyword ++ " " ++ name
        ++ optionalText c.parent " : " ++ " \x7b\n"
        ++ String.join (c.members.map fun m => pad ++ m.text ++ "\n") ++ "\x7d;\n")
      (DefinitionBody.glyphs name (.container c)) := by
  simp only [DefinitionBody.glyphs, Glyph.allProper_append, Glyph.allProper_cons] at h
  obtain ⟨-, -, hname, hparent, -, hmembers, -⟩ := h
  have hpartial : Spells AnyChar (if c.isPartial then "partial " else "") _ :=
    .flag (.word "partial") (by decide)
  have hnamed := ((hpartial.append_any c.kind.spells).append_blank (by decide)).append_any
    (.name hname.1)
  obtain ⟨hparent, hstart⟩ := spells_parent hparent
  have hopen := (hnamed.append_part hparent hstart).append_fixed " \x7b\n" [.mark .braceOpen]
    (by decide) (by decide)
  have hall := (hopen.append_any (spells_memberLines hpad hmembers)).append_fixed "\x7d;\n"
    [.mark .braceClose, .mark .semicolon] (by decide) (by decide)
  simpa [DefinitionBody.glyphs] using hall

theorem spells_enumeration {name : String} {values : List String}
    (h : Glyph.AllProper (DefinitionBody.glyphs name (.enumeration values))) :
    Spells AnyChar ("enum " ++ name ++ " \x7b\n" ++ valueLines pad values ++ "\x7d;\n")
      (DefinitionBody.glyphs name (.enumeration values)) := by
  have hcomma : (Glyph.mark .comma).Proper := by decide
  simp only [DefinitionBody.glyphs, Glyph.allProper_append, Glyph.allProper_cons,
    Glyph.allProper_joined hcomma] at h
  obtain ⟨-, hname, -, hvalues, -⟩ := h
  have henum : Spells AnyChar "enum " [.word "enum"] := .closed (by decide)
  have hopen := (henum.append_any (.name hname.1)).append_fixed " \x7b\n" [.mark .braceOpen]
    (by decide) (by decide)
  have hvalues := spells_valueLines hpad fun value hvalue =>
    hvalues _ (List.mem_map_of_mem hvalue) _ List.mem_cons_self
  have hall := (hopen.append_any hvalues).append_fixed "\x7d;\n"
    [.mark .braceClose, .mark .semicolon] (by decide) (by decide)
  simpa [DefinitionBody.glyphs] using hall

/-- A definition ends its last line. -/
theorem spells {d : Definition} (h : Glyph.AllProper d.glyphs) :
    Spells AnyChar (d.text pad) d.glyphs := by
  obtain ⟨name, body, extAttrs, span⟩ := d
  rw [glyphs, Glyph.allProper_append] at h
  obtain ⟨hattrs, hbody⟩ := h
  refine (ExtendedAttribute.spells_before hattrs (by decide)).append_any ?_
  cases body with
  | container c => exact spells_container hpad hbody
  | enumeration values => exact spells_enumeration hpad hbody
  | typedef type =>
      simp only [DefinitionBody.glyphs, Glyph.allProper_append, Glyph.allProper_cons] at hbody
      obtain ⟨-, htype, hname, -⟩ := hbody
      have htypedef : Spells AnyChar "typedef " [.word "typedef"] := .closed (by decide)
      have hnamed := ((htypedef.append_any (type.spells htype)).append_blank (by decide)).append_any
        (.name hname.1)
      simpa [DefinitionBody.glyphs] using
        hnamed.append_fixed ";\n" [.mark .semicolon] (by decide) (by decide)
  | callback result args =>
      simp only [DefinitionBody.glyphs, Glyph.allProper_append, Glyph.allProper_cons] at hbody
      obtain ⟨-, hname, -, hresult, hargs, -⟩ := hbody
      have hcallback : Spells AnyChar "callback " [.word "callback"] := .closed (by decide)
      have hassigned := (hcallback.append_any (.name hname.1)).append_fixed " = " [.mark .equals]
        (by decide) (by decide)
      have htyped := (hassigned.append_any (result.spells hresult)).append_blank (by decide)
      have hall := htyped.append_arguments trivial hargs ");\n" [.mark .semicolon] (by decide)
        (by decide)
      simpa [DefinitionBody.glyphs, String.append_assoc] using hall
  | includes mixin =>
      simp only [DefinitionBody.glyphs, Glyph.allProper_cons] at hbody
      obtain ⟨hname, -, hmixin, -⟩ := hbody
      have htarget := (Spells.name hname.1).append_fixed " includes " [.word "includes"]
        (by decide) (by decide)
      have hall := (htarget.append_any (.name hmixin.1)).append_fixed ";\n" [.mark .semicolon]
        (by decide) (by decide)
      simpa [DefinitionBody.glyphs] using hall

omit hpad

theorem spells_listText (indent : Nat) {definitions : List Definition}
    (h : ∀ d ∈ definitions, Glyph.AllProper d.glyphs) :
    Spells AnyChar (listText indent definitions) (definitions.flatMap glyphs) := by
  have heach : ∀ d ∈ definitions, Spells AnyChar (d.text ("".pushn ' ' indent)) d.glyphs :=
    fun d hd => spells (fun _ => blank_of_mem_pushn) (h d hd)
  have hjoined : Spells AnyChar
      ("\n".intercalate (definitions.map (text ("".pushn ' ' indent))))
      (definitions.flatMap glyphs) := by
    clear h
    induction definitions with
    | nil => exact .empty
    | cons d rest ih =>
        rw [List.forall_mem_cons] at heach
        cases rest with
        | nil => simpa using heach.1
        | cons second rest =>
            have hline := heach.1.append_fixed "\n" [] (by decide) (by decide)
            simpa [String.intercalate_cons_cons] using hline.append_any (ih heach.2)
  cases definitions with
  | nil => exact show Spells AnyChar "\n" [] from .closed (by decide)
  | cons d rest => exact hjoined

/-- The same text on lines of its own. -/
theorem ofText_listText_between_lines (indent : Nat) {definitions : List Definition}
    (h : ∀ d ∈ definitions, Glyph.AllProper d.glyphs) :
    Glyph.ofText ("\n" ++ listText indent definitions ++ "\n").toList
      = definitions.flatMap glyphs := by
  have hblank : Token.isBlank '\n' = true := by decide
  have htext := spells_listText indent h ['\n'] fun _ _ => trivial
  rw [Glyph.ofText_cons_blank hblank, Glyph.ofText_nil, List.append_nil] at htext
  rw [String.toList_append, String.toList_append, List.append_assoc]
  exact (Glyph.ofText_cons_blank hblank _).trans htext

end Definition

end IdlBindings
