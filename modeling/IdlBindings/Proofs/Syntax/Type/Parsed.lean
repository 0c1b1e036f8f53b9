import IdlBindings.Proofs.Syntax.Readable
import IdlBindings.Proofs.Syntax.Slots
import IdlBindings.Proofs.Token.Taking

/-!
The tokens that are taken for a type, an extended attribute or an argument fill its slots, and what
is read is readable unless a name is escaped. The recursion is an induction on the depth of the
parsers.
-/

namespace IdlBindings

open Parse Glyph Cursor
open Slot (exactly)

/-! ### Values -/

theorem ConstValue.glyph_of_word {w : String} {value : ConstValue}
    (h : ConstValue.ofWord? w = some value) : value.glyph = word w ∧ (word w).Proper := by
  unfold ConstValue.ofWord? at h
  split at h <;> cases h <;> exact ⟨rfl, by decide⟩

theorem ConstValue.gives (c : Cursor) :
    Gives ConstValue.parse c fun value d => c.Parsed [value.slot] True d := by
  intro value d hrun
  have hnext : ConstValue.next? c = some (value, d) := by
    rw [ConstValue.parse] at hrun
    split at hrun
    · cases hrun
      assumption
    · cases hrun
  rw [ConstValue.next?] at hnext
  split at hnext
  · cases hnext
    exact .exactly (.number ‹_› (.inl rfl))
  split at hnext
  · cases hnext
    exact .exactly (.number ‹_› (.inr rfl))
  split at hnext
  · rename_i hidentifier
    obtain ⟨value, hword, heq⟩ := Option.map_eq_some_iff.1 hnext
    cases heq
    obtain ⟨hglyph, hproper⟩ := glyph_of_word hword
    obtain ⟨token, rest, hrest, hkind⟩ := Took.rest_of_atKind hidentifier
    have hhead : c.glyphs.head? = some (word c.text) := by
      rw [Cursor.glyphs, Cursor.text, hrest]
      exact congrArg some (eq_of_toList hkind rfl)
    have hprinted : value.slot.printed = [word c.text] := by rw [value.printed_slot, hglyph]
    refine .of_took (.word hhead hproper) ?_
    rw [hprinted]
    exact List.mem_cons_self
  split at hnext
  · rename_i hinfinity
    cases hnext
    obtain ⟨hminus, hword⟩ := Bool.and_eq_true_iff.1 hinfinity
    rw [beforeWord_iff, ← glyphs_advance] at hword
    have hfirst : Took c [mark .minus] c.advance := .mark hminus (by decide)
    have hsecond : Took c.advance [word "Infinity"] c.advance.advance := .word hword (by decide)
    exact .of_took (hfirst.append hsecond) (by decide)
  · cases hnext

theorem DefaultValue.gives (c : Cursor) :
    Gives DefaultValue.parse c fun value d => c.Parsed value.slots True d := by
  unfold DefaultValue.parse
  refine .ite_look (fun _ => ?_) fun _ => ?_
  · exact Gives.stringContent.bind fun content d hd => .pure (.exactly hd)
  refine .ite_eat (by decide) (fun d hd => ?_) fun _ => ?_
  · exact (Gives.expect (by decide)).bind fun _ e he => .pure (.exactly (hd.cons he))
  refine .ite_eat (by decide) (fun d hd => ?_) fun _ => ?_
  · exact (Gives.expect (by decide)).bind fun _ e he => .pure (.exactly (hd.cons he))
  refine .ite_eatWord (by decide) (fun d hd => .pure (.exactly hd)) fun _ => ?_
  refine .ite_eatWord (by decide) (fun d hd => .pure (.exactly hd)) fun _ => ?_
  exact (ConstValue.gives c).bind fun value d hd => .pure hd

/-- A number, as it is written. -/
theorem AttributeValue.gives_number {c : Cursor} {Q : AttributeValue → Cursor → Prop}
    {wrap : String → AttributeValue} (h : Q (wrap c.text) c.advance) :
    Gives (do
      let source ← look Cursor.text
      advance
      return wrap source) c Q := by
  rintro _ _ ⟨⟩
  exact h

theorem AttributeValue.gives (c : Cursor) : Gives AttributeValue.parse c fun value d =>
    c.Parsed (exactly value.glyphs) (value ≠ .identifierList []) d := by
  have hexactly {value : AttributeValue} {d : Cursor} (hvalue : value ≠ .identifierList [])
      (hd : Took c value.glyphs d) :
      c.Parsed (exactly value.glyphs) (value ≠ .identifierList []) d :=
    (Cursor.Parsed.exactly hd).mono fun _ => hvalue
  unfold AttributeValue.parse
  refine .ite_look (fun _ => ?_) fun _ => ?_
  · exact Gives.readName.bind fun name d hd => .pure (hexactly (by simp) hd.1)
  refine .ite_look (fun _ => ?_) fun _ => ?_
  · exact Gives.stringContent.bind fun content d hd => .pure (hexactly (by simp) hd)
  refine .ite_look (fun hkind => ?_) fun _ => ?_
  · exact gives_number (hexactly (by simp) (.number hkind (.inl rfl)))
  refine .ite_look (fun hkind => ?_) fun _ => ?_
  · exact gives_number (hexactly (by simp) (.number hkind (.inr rfl)))
  refine .ite_eat (by decide) (fun d hd => .pure (hexactly (by simp) hd)) fun _ => ?_
  refine .ite_eat (by decide) (fun d hd => ?_) fun _ => .fail
  have hname (c : Cursor) : Gives readName c fun name d =>
      c.Parsed (exactly [word name]) True d :=
    Gives.readName.mono fun _ _ h => .exactly h.1
  refine (Gives.commaSeparated hname d).bind fun names e hnames => ?_
  refine (Gives.expect (by decide)).bind fun _ last hlast => ?_
  have hslots : exactly (AttributeValue.identifierList names).glyphs
      = exactly [mark .parenOpen] ++ (Slot.joined (mark .comma)
        (names.map fun name => exactly [word name]) ++ exactly [mark .parenClose]) := by
    rw [glyphs, inParens, ← List.singleton_append, Slot.exactly_append, Slot.exactly_append,
      Slot.exactly_joined, List.map_map]
    rfl
  refine .pure ?_
  rw [hslots]
  refine ((hnames.2.before hlast).after hd).mono fun _ hnil => ?_
  exact hnames.1 (AttributeValue.identifierList.inj hnil)

/-! ### The parts of a type -/

/-- A type that was read: it is readable, and what follows does not go on with it. -/
structure IdlType.Parsed (c : Cursor) (type : IdlType) (d : Cursor) : Prop where
  parsed : c.Parsed type.slots type.Readable d
  ends : ∀ g ∈ d.glyphs.head?, type.goesOnWith g = false

/-- An argument that was read. -/
def Argument.Parsed (c : Cursor) (arg : Argument) (d : Cursor) : Prop :=
  c.Parsed arg.slots arg.Readable d

section Parts

variable {type : Parse IdlType} {argument : Parse Argument}

theorem Argument.gives_listWith (hargument : ∀ c, Gives argument c (Argument.Parsed c))
    (c : Cursor) :
    Gives (parseListWith argument) c fun args d =>
      c.Parsed (listSlots args) (∀ arg ∈ args, arg.Readable) d := by
  unfold parseListWith
  refine (Gives.expect (by decide)).bind fun _ d hd => ?_
  refine .ite_eat (by decide) (fun e he => .pure ?_) fun _ => ?_
  · exact (Cursor.Parsed.exactly (hd.append he)).mono fun _ => by simp
  refine (Gives.commaSeparated hargument d).bind fun args e hargs => ?_
  refine (Gives.expect (by decide)).bind fun _ last hlast => ?_
  exact .pure ((hargs.2.before hlast).after hd)

theorem ExtendedAttribute.gives_with (hargument : ∀ c, Gives argument c (Argument.Parsed c))
    (c : Cursor) : Gives (parseWith argument) c fun attr d =>
      c.Parsed attr.slots attr.Readable d := by
  unfold parseWith
  refine Gives.readName.bind fun name d hname => ?_
  -- the value, with the equals sign before it
  have hend {value : Option AttributeValue} {e : Cursor}
      (hvalue : d.Parsed (exactly (assigned (value.map AttributeValue.glyphs)))
        (value ≠ some (.identifierList [])) e) :
      Gives (do
        if ← look fun c => AttributeValue.allowsArguments value && c.atKind .parenOpen then
          let args ← Argument.parseListWith argument
          return ExtendedAttribute.mk name value (some args)
        else
          return ExtendedAttribute.mk name value none) e fun attr d =>
        c.Parsed attr.slots attr.Readable d := by
    refine .ite_look (fun htest => ?_) fun _ => .pure ?_
    · rw [Bool.and_eq_true] at htest
      refine (Argument.gives_listWith hargument e).bind fun args last hargs => .pure ?_
      have hslots : (ExtendedAttribute.mk name value (some args)).slots
          = exactly [word name] ++ (exactly (assigned (value.map AttributeValue.glyphs))
            ++ Argument.listSlots args) := by
        rw [slots, Argument.slotsOfOption, Argument.slotsEach_eq_map]
        rfl
      rw [hslots]
      refine ((hvalue.append hargs).after hname.1).mono fun hread => ?_
      obtain ⟨hlist, hargs⟩ := hread
      exact .mk hlist (fun _ => htest.1) fun list hlist arg harg =>
        hargs arg (Option.some.inj hlist ▸ harg)
    · have hslots : (ExtendedAttribute.mk name value none).slots
          = exactly [word name] ++ exactly (assigned (value.map AttributeValue.glyphs)) := by
        rw [slots, Argument.slotsOfOption, List.append_nil]
        rfl
      rw [hslots]
      exact (hvalue.after hname.1).mono fun hlist => .mk hlist (by simp) (by simp)
  refine .optionally (.eat (by decide)) (fun _ => ?_) fun e he => ?_
  · exact hend (.refl (by simp))
  · refine (AttributeValue.gives e).mono fun value last hvalue => hend ?_
    exact (hvalue.after he).mono fun h heq => h (Option.some.inj heq)

theorem ExtendedAttribute.gives_listWith (hargument : ∀ c, Gives argument c (Argument.Parsed c))
    (c : Cursor) : Gives (parseListWith argument) c fun attrs d =>
      c.Parsed (listSlots attrs) (∀ attr ∈ attrs, attr.Readable) d ∧
        (attrs = [] → d = c ∧ ∀ g ∈ c.glyphs.head?, g.kind ≠ .bracketOpen) := by
  unfold parseListWith
  refine .ite_eat (by decide) (fun d hd => ?_) fun hnone => ?_
  · refine (Gives.commaSeparated (gives_with hargument) d).bind fun attrs e hread => ?_
    obtain ⟨hne, hattrs⟩ := hread
    refine (Gives.expect (by decide)).bind fun _ last hlast => .pure ⟨?_, (absurd · hne)⟩
    have hslots : listSlots attrs = exactly [mark .bracketOpen] ++
        (Slot.joined (mark .comma) (attrs.map slots) ++ exactly [mark .bracketClose]) := by
      cases attrs with
      | nil => exact absurd rfl hne
      | cons attr rest => rfl
    rw [hslots]
    exact (hattrs.before hlast).after hd
  · exact .pure ⟨.refl (by simp), fun _ => ⟨rfl, hnone⟩⟩

/-! ### Types -/

namespace IdlType

/-- A type that was read without attributes before it and before a `?` after it was looked for. -/
structure ParsedBare (c : Cursor) (type : IdlType) (d : Cursor) : Prop where
  parsed : c.Parsed type.slots type.Readable d
  annotated : type.isAnnotated = false
  nullable : type.isNullable = false
  ends : ∀ g ∈ d.glyphs.head?, g.kind ≠ .question → type.goesOnWith g = false

/-- Types that a `?` alone can go on. -/
theorem goesOnWith_eq {part : IdlType} (hannotated : part.isAnnotated = false)
    (hnullable : part.isNullable = false)
    (hlong : ∀ p, part = .primitive p → ¬(p = .long ∨ p = .unsignedLong)) {g : Glyph}
    (hg : g.kind ≠ .question) : part.goesOnWith g = false := by
  unfold goesOnWith
  cases part with
  | primitive p =>
      have hp := hlong p rfl
      cases p <;> first
        | exact absurd (.inl rfl) hp
        | exact absurd (.inr rfl) hp
        | simpa [unannotated] using hg
  | nullable inner => cases hnullable
  | annotated extAttrs inner => cases hannotated
  | _ => simpa [unannotated] using hg

theorem gives_wrappedWith (htype : ∀ c, Gives type c (IdlType.Parsed c)) (c : Cursor) :
    Gives (parseWrappedWith type) c fun item d =>
      c.Parsed (exactly [mark .angleOpen] ++ (item.slots ++ exactly [mark .angleClose]))
        item.Readable d := by
  unfold parseWrappedWith
  refine (Gives.expect (by decide)).bind fun _ d hd => ?_
  refine (htype d).bind fun item e hitem => ?_
  refine (Gives.expect (by decide)).bind fun _ last hlast => ?_
  exact .pure ((hitem.parsed.before hlast).after hd)

theorem gives_recordWith (htype : ∀ c, Gives type c (IdlType.Parsed c)) {c d : Cursor}
    (hc : c.Took [word "record"] d) :
    Gives (parseRecordWith type) d fun result e => ParsedBare c result e := by
  unfold parseRecordWith
  refine (Gives.expect (by decide)).bind fun _ d₁ hopen => ?_
  refine Gives.look.bind ?_
  rintro first d₂ ⟨-, rfl⟩
  refine (htype d₂).bind fun key d₃ hkey => ?_
  cases hstring : key.isRecordKey with
  | false =>
      refine Gives.look.bind ?_
      rintro span d₄ ⟨-, rfl⟩
      exact .failAt
  | true =>
      refine (Gives.expect (by decide)).bind fun _ d₄ hcomma => ?_
      refine (htype d₄).bind fun value d₅ hvalue => ?_
      refine (Gives.expect (by decide)).bind fun _ last hlast => .pure ?_
      have hslots : (record key value).slots = exactly [word "record"] ++
          (exactly [mark .angleOpen] ++ (key.slots ++ (exactly [mark .comma]
            ++ (value.slots ++ exactly [mark .angleClose])))) := by
        rw [slots, Slot.wrapped, List.append_assoc, List.append_assoc]
        rfl
      refine ⟨?_, rfl, rfl, fun g _ => goesOnWith_eq rfl rfl (by simp)⟩
      rw [hslots]
      have hvalue := (hvalue.parsed.before hlast).after hcomma
      have hall := ((hkey.parsed.append hvalue).after hopen).after hc
      exact hall.mono fun h => .record h.1 hstring h.2

/-- A built-in type whose words are taken. -/
theorem ParsedBare.primitive {c d : Cursor} {p : Primitive}
    (htook : c.Parsed p.slots True d)
    (hlong : p = .long ∨ p = .unsignedLong → d.glyphs.head? ≠ some (word "long")) :
    ParsedBare c (.primitive p) d := by
  have hslots : (IdlType.primitive p).slots = p.slots := by rw [slots]
  refine ⟨hslots ▸ htook.mono fun _ => .primitive p, rfl, rfl, fun g hg hquestion => ?_⟩
  by_cases hp : p = .long ∨ p = .unsignedLong
  · have hother : g ≠ word "long" := by
      rintro rfl
      exact hlong hp hg
    rcases hp with rfl | rfl <;> simp [goesOnWith, unannotated, hother, hquestion]
  · refine goesOnWith_eq rfl rfl ?_ hquestion
    rintro _ ⟨⟩
    exact hp

theorem gives_unsigned {c d : Cursor} (hc : c.Took [word "unsigned"] d) :
    Gives parseUnsigned d fun result e => ParsedBare c result e := by
  unfold parseUnsigned
  refine .ite_eatWord (by decide) (fun e he => ?_) fun _ => ?_
  · exact .pure (.primitive (.exactly (hc.append he)) (by simp))
  refine (Gives.expectWord (by decide)).bind fun _ e he => ?_
  refine .ite_eatWord (by decide) (fun last hlast => ?_) fun hlong => ?_
  · exact .pure (.primitive (.exactly (hc.append (he.append hlast))) (by simp))
  · exact .pure (.primitive (.exactly (hc.append he)) fun _ => hlong)

theorem gives_unrestricted {c d : Cursor} (hc : c.Took [word "unrestricted"] d) :
    Gives parseUnrestricted d fun result e => ParsedBare c result e := by
  unfold parseUnrestricted
  refine .ite_eatWord (by decide) (fun e he => ?_) fun _ => ?_
  · exact .pure (.primitive (.exactly (hc.append he)) (by simp))
  · exact (Gives.expectWord (by decide)).bind fun _ e he =>
      .pure (.primitive (.exactly (hc.append he)) (by simp))

theorem gives_long {c d : Cursor} (hc : c.Took [word "long"] d) :
    Gives parseLong d fun result e => ParsedBare c result e := by
  unfold parseLong
  refine .ite_eatWord (by decide) (fun e he => ?_) fun hlong => ?_
  · exact .pure (.primitive (.exactly (hc.append he)) (by simp))
  · exact .pure (.primitive (.exactly hc) fun _ => hlong)

/-- The types of one word are written as that word, `void` apart. -/
theorem words_of_ofWord? {w : String} {p : Primitive} (h : Primitive.ofWord? w = some p) :
    (w = "void" ∧ p = .undefined) ∨ (p.words = [w] ∧ (word w).Proper) := by
  unfold Primitive.ofWord? at h
  split at h
  · cases h
    exact .inl ⟨‹_›, rfl⟩
  · right
    have hwords : p.words = [w] := by simpa using List.find?_some h
    have hmem := List.mem_of_find?_eq_some h
    refine ⟨hwords, ?_⟩
    have hproper : ∀ p ∈ Primitive.singleWords, ∀ w ∈ p.words, (word w).Proper := by decide
    exact hproper p hmem w (by rw [hwords]; exact List.mem_singleton_self w)

/-- The word of a built-in type fills its slot, also if it is the old name of `undefined`. -/
theorem parsed_primitive {c d : Cursor} {w : String} {p : Primitive}
    (h : Primitive.ofWord? w = some p) (hword : (word w).Proper → c.Took [word w] d) :
    c.Parsed p.slots True d := by
  rcases words_of_ofWord? h with ⟨rfl, rfl⟩ | ⟨hwords, hproper⟩
  · exact .of_took (hword (by decide)) (by decide)
  · by_cases hundefined : p = .undefined
    · subst hundefined
      obtain rfl : "undefined" = w := List.singleton_inj.1 hwords
      exact .of_took (hword hproper) (by decide)
    · have hslots : p.slots = exactly [word w] := by
        rw [Primitive.slots, hwords]
        · rfl
        · exact hundefined
      rw [hslots]
      exact .exactly (hword hproper)

/-- The types in angle brackets are alike. -/
theorem wrapper_spec {w : String} {wrap : IdlType → IdlType} (h : wrapper? w = some wrap)
    (item : IdlType) : (word w).Proper ∧ (wrap item).slots = Slot.wrapped w item.slots ∧
      (item.Readable → (wrap item).Readable) ∧ (wrap item).isAnnotated = false ∧
      (wrap item).isNullable = false ∧ ∀ p, wrap item ≠ .primitive p := by
  unfold wrapper? at h
  split at h <;> cases h
  · exact ⟨by decide, by rw [slots], .sequence, rfl, rfl, by simp⟩
  · exact ⟨by decide, by rw [slots], .frozenArray, rfl, rfl, by simp⟩
  · exact ⟨by decide, by rw [slots], .observableArray, rfl, rfl, by simp⟩
  · exact ⟨by decide, by rw [slots], .promise, rfl, rfl, by simp⟩

/-- A type in angle brackets behind its word. -/
theorem gives_wrapper (htype : ∀ c, Gives type c (IdlType.Parsed c)) {c d : Cursor} {w : String}
    {wrap : IdlType → IdlType} (hwrap : wrapper? w = some wrap)
    (hc : (word w).Proper → c.Took [word w] d) :
    Gives (do return wrap (← parseWrappedWith type)) d (ParsedBare c) := by
  refine (gives_wrappedWith htype d).bind fun item last hitem => .pure ?_
  obtain ⟨hproper, hslots, hreadable, hannotated, hnullable, hprimitive⟩ := wrapper_spec hwrap item
  refine ⟨hslots ▸ ?_, hannotated, hnullable, fun g _ => goesOnWith_eq hannotated hnullable ?_⟩
  · exact (hitem.after (hc hproper)).mono hreadable
  · exact fun p hp => absurd hp (hprimitive p)

theorem parsedBare_any {c d : Cursor} (hc : c.Took [word "any"] d) : ParsedBare c .any d := by
  have hslots : any.slots = exactly [word "any"] := by rw [slots]
  refine ⟨hslots ▸ (Cursor.Parsed.exactly hc).mono fun _ => .any, rfl, rfl, ?_⟩
  exact fun g _ => goesOnWith_eq rfl rfl (by simp)

/-- A built-in type of one word, which is not the beginning of a longer one. -/
theorem parsedBare_ofWord? {c d : Cursor} {w : String} {p : Primitive}
    (h : Primitive.ofWord? w = some p) (hlong : w ≠ "long")
    (hc : (word w).Proper → c.Took [word w] d) : ParsedBare c (.primitive p) d := by
  refine .primitive (parsed_primitive h hc) ?_
  rcases words_of_ofWord? h with ⟨-, rfl⟩ | ⟨hwords, -⟩
  · simp
  · rintro (rfl | rfl)
    · exact absurd (List.singleton_inj.1 hwords).symm hlong
    · rw [Primitive.words] at hwords
      cases congrArg List.length hwords

/-- A name that is no word of a type. -/
theorem gives_named {c : Cursor} (hword : c.glyphs.head? = some (word c.text))
    (hother : isTypeWord c.text = false) :
    Gives (do return .named (← readName)) c (ParsedBare c) := by
  refine Gives.readName.bind fun name e hread => .pure ?_
  obtain ⟨hname, hplain⟩ := hread
  have hslots : (named name).slots = exactly [word name] := by rw [slots]
  refine ⟨?_, rfl, rfl, fun g _ => goesOnWith_eq rfl rfl (by simp)⟩
  rw [hslots]
  refine (Cursor.Parsed.exactly hname).holding fun _ hc _ => .named ?_
  -- the name is not escaped, so it is the word that was looked at
  rw [hplain hc] at hword
  obtain rfl : name = c.text := congrArg Glyph.text (Option.some.inj hword)
  exact hother

theorem gives_single (htype : ∀ c, Gives type c (IdlType.Parsed c)) (c : Cursor) :
    Gives (parseSingleWith type) c (ParsedBare c) := by
  unfold parseSingleWith
  refine .ite_look (fun hkind => ?_) fun _ => .fail
  have hword : c.glyphs.head? = some (word c.text) := by
    obtain ⟨token, rest, hrest, hkind⟩ := Took.rest_of_atKind hkind
    rw [Cursor.glyphs, Cursor.text, hrest]
    exact congrArg some (eq_of_toList hkind rfl)
  refine Gives.look.bind ?_
  rintro w d ⟨rfl, rfl⟩
  have hfirst {text : String} (htext : d.text = text) (hproper : (word text).Proper) :
      d.Took [word text] d.advance := .word (htext ▸ hword) hproper
  split
  · rename_i wrap hwrap
    refine Gives.advance.bind ?_
    rintro _ _ rfl
    exact gives_wrapper htype hwrap (hfirst rfl)
  · rename_i hwrap
    split
    · rename_i htext
      refine Gives.advance.bind ?_
      rintro _ _ rfl
      exact .pure (parsedBare_any (hfirst htext (by decide)))
    · rename_i htext
      refine Gives.advance.bind ?_
      rintro _ _ rfl
      exact gives_recordWith htype (hfirst htext (by decide))
    · rename_i htext
      refine Gives.advance.bind ?_
      rintro _ _ rfl
      exact gives_unsigned (hfirst htext (by decide))
    · rename_i htext
      refine Gives.advance.bind ?_
      rintro _ _ rfl
      exact gives_unrestricted (hfirst htext (by decide))
    · rename_i htext
      refine Gives.advance.bind ?_
      rintro _ _ rfl
      exact gives_long (hfirst htext (by decide))
    · rename_i hany hrecord hunsigned hunrestricted hlong
      split
      · rename_i p hp
        refine Gives.advance.bind ?_
        rintro _ _ rfl
        exact .pure (parsedBare_ofWord? hp hlong (hfirst rfl))
      · rename_i hprimitive
        refine gives_named hword ?_
        rw [isTypeWord, hwrap, hprimitive]
        simpa using ⟨hany, hrecord, hunsigned, hunrestricted, hlong⟩

/-- Two or more types in parentheses. -/
theorem gives_union (htype : ∀ c, Gives type c (IdlType.Parsed c)) (c : Cursor) :
    Gives (parseUnionWith type) c (ParsedBare c) := by
  have hmore (c : Cursor) : Gives (eatWord "or") c fun b d =>
      (b = true ∧ Took c [word "or"] d) ∨ (b = false ∧ d = c) :=
    (Gives.eatWord (by decide)).mono fun b d h => h.imp_right fun h => ⟨h.1, h.2.1⟩
  unfold parseUnionWith
  refine (Gives.expect (by decide)).bind fun _ d hopen => ?_
  refine (htype d).bind fun first d₁ hfirst => ?_
  refine (Gives.repeatWhile hmore htype d₁).bind fun rest d₂ hrest => ?_
  cases rest with
  | nil => exact .unexpected
  | cons second rest =>
      refine (Gives.expect (by decide)).bind fun _ last hclose => .pure ?_
      have htail := hrest.parsed [word "or"] (fun _ _ h => h) fun _ _ _ h => h.parsed
      have hslots : (union (first :: second :: rest)).slots
          = exactly [mark .parenOpen] ++ (first.slots
            ++ ((second :: rest).flatMap (fun part => exactly [word "or"] ++ part.slots)
              ++ exactly [mark .parenClose])) := by
        rw [slots, slotsEach_eq_map, List.map_cons, Slot.joined, List.flatMap_map,
          List.append_assoc]
        rfl
      refine ⟨?_, rfl, rfl, fun g _ => goesOnWith_eq rfl rfl (by simp)⟩
      rw [hslots]
      have hall := (hfirst.parsed.append (htail.before hclose)).after hopen
      exact hall.mono fun h => .union (List.forall_mem_cons.2 h) (by simp)

/-- What was read is not a type with attributes unless a bracket stood there. -/
theorem Parsed.not_annotated {c d : Cursor} {part : IdlType} (h : part.Parsed c d) (hlexed : c.Lexed)
    (hplain : c.Plain) (hbracket : ∀ g ∈ c.glyphs.head?, g.kind ≠ .bracketOpen) :
    part.isAnnotated = false := by
  cases h.parsed.holds hlexed hplain with
  | annotated hattrs hsome hinner honce =>
      rename_i extAttrs inner
      obtain ⟨attr, rest, rfl⟩ := List.exists_cons_of_ne_nil hsome
      have hhead : (annotated (attr :: rest) inner).slots.head?
          = some (.glyph (mark .bracketOpen)) := by
        rw [slots]
        rfl
      have hfirst := h.parsed.head? hlexed hplain hhead
      exact absurd rfl (hbracket _ hfirst)
  | _ => rfl

/-- The name behind a type does not go on with it. -/
theorem Parsed.goesOnWith {c d e : Cursor} {part : IdlType} {name : String} (h : part.Parsed c d)
    (hname : d.Plain → d.glyphs = word name :: e.glyphs) (hplain : c.Plain) :
    part.goesOnWith (word name) = false := by
  refine h.ends _ ?_
  rw [hname (h.parsed.plain hplain)]
  rfl

theorem gives_with (htype : ∀ c, Gives type c (IdlType.Parsed c))
    (hargument : ∀ c, Gives argument c (Argument.Parsed c)) (c : Cursor) :
    Gives (parseWith type argument) c (IdlType.Parsed c) := by
  unfold parseWith
  refine (ExtendedAttribute.gives_listWith hargument c).bind fun extAttrs d hread => ?_
  obtain ⟨hattrs, -⟩ := hread
  -- what follows a type that was read without its `?`
  have hend {bare : IdlType} {e : Cursor} (hbare : ParsedBare d bare e) :
      Gives (do
        let inner := if ← eat .question then IdlType.nullable bare else bare
        return if extAttrs.isEmpty then inner else annotated extAttrs inner) e
        (IdlType.Parsed c) := by
    have hinner {inner : IdlType} {last : Cursor} (hannotated : inner.isAnnotated = false)
        (h : inner.Parsed d last) :
        IdlType.Parsed c (if extAttrs.isEmpty then inner else annotated extAttrs inner) last := by
      cases extAttrs with
      | nil => exact ⟨(hattrs.append h.parsed).mono And.right, h.ends⟩
      | cons attr rest =>
          refine ⟨?_, h.ends⟩
          have hslots : (annotated (attr :: rest) inner).slots
              = ExtendedAttribute.listSlots (attr :: rest) ++ inner.slots := by
            rw [slots, ExtendedAttribute.slotsEach_eq_map, ExtendedAttribute.listSlots]
          change Cursor.Parsed c (annotated (attr :: rest) inner).slots _ last
          rw [hslots]
          exact (hattrs.append h.parsed).mono fun h =>
            .annotated h.1 (List.cons_ne_nil _ _) h.2 hannotated
    refine (Gives.eat (by decide)).bind ?_
    rintro question last (⟨rfl, hquestion⟩ | ⟨rfl, rfl, hother⟩)
    · refine .pure (hinner rfl ⟨?_, fun _ _ => rfl⟩)
      have hslots : (nullable bare).slots = bare.slots ++ exactly [mark .question] := by rw [slots]
      change Cursor.Parsed d (nullable bare).slots _ last
      rw [hslots]
      exact (hbare.parsed.before hquestion).mono fun h => .nullable h hbare.annotated hbare.nullable
    · exact .pure (hinner hbare.annotated ⟨hbare.parsed, fun g hg => hbare.ends g hg (hother g hg)⟩)
  refine .ite_look (fun _ => ?_) fun _ => ?_
  · exact (gives_union htype d).bind fun bare e hbare => hend hbare
  · exact (gives_single htype d).bind fun bare e hbare => hend hbare

end IdlType

theorem Argument.gives_with (htype : ∀ c, Gives type c (IdlType.Parsed c))
    (hargument : ∀ c, Gives argument c (Argument.Parsed c)) (c : Cursor) :
    Gives (parseWith type argument) c (Argument.Parsed c) := by
  unfold parseWith
  refine (ExtendedAttribute.gives_listWith hargument c).bind fun extAttrs d hread => ?_
  obtain ⟨hattrs, hnone⟩ := hread
  refine .ite_eatWord (by decide) (fun d₁ hoptional => ?_) fun hfirst => ?_
  · refine (htype d₁).bind fun argType d₂ hargType => ?_
    refine Gives.readName.bind fun name d₃ hread => ?_
    obtain ⟨hname, hplain⟩ := hread
    have hend {default : Option DefaultValue} {e : Cursor}
        (hdefault : d₃.Parsed (Slot.assigned (default.map DefaultValue.slots)) True e) :
        Argument.Parsed c ⟨name, argType, true, false, default, extAttrs⟩ e := by
      have hslots : (Argument.mk name argType true false default extAttrs).slots
          = ExtendedAttribute.listSlots extAttrs ++ (exactly [word "optional"] ++ (argType.slots
            ++ (exactly [word name] ++ Slot.assigned (default.map DefaultValue.slots)))) := by
        rw [slots, ExtendedAttribute.slotsEach_eq_map, ExtendedAttribute.listSlots]
        rfl
      have htail := hargType.parsed.append (hdefault.after hname)
      have hall := hattrs.append (htail.after hoptional)
      rw [Argument.Parsed, hslots]
      refine hall.holding fun hlexed hc hholds => ?_
      obtain ⟨hattrs', htype', -⟩ := hholds
      have hd₁ := hoptional.plain (hattrs.plain hc)
      exact .optional hattrs' htype' (hargType.goesOnWith hplain hd₁)
    refine .optionally (.eat (by decide)) (fun _ => .pure (hend (.refl trivial))) fun d₄ hd₄ => ?_
    exact (DefaultValue.gives d₄).mono fun value last hvalue => .pure (hend (hvalue.after hd₄))
  · refine (htype d).bind fun argType d₁ hargType => ?_
    -- the name, behind the dots if there are any
    have hend {isVariadic : Bool} {d₂ e : Cursor} {name : String}
        (hdots : d₁.Took (if isVariadic then [mark .ellipsis] else []) d₂)
        (hsame : isVariadic = false → d₂ = d₁) (hname : d₂.Took [word name] e)
        (hplain : d₂.Plain → d₂.glyphs = word name :: e.glyphs) :
        Argument.Parsed c ⟨name, argType, false, isVariadic, none, extAttrs⟩ e := by
      have hslots : (Argument.mk name argType false isVariadic none extAttrs).slots
          = ExtendedAttribute.listSlots extAttrs ++ (argType.slots
            ++ exactly ((if isVariadic then [mark .ellipsis] else []) ++ [word name])) := by
        rw [slots, ExtendedAttribute.slotsEach_eq_map, ExtendedAttribute.listSlots,
          Option.map_none, Slot.assigned, List.append_nil]
        rfl
      have hall := hattrs.append (hargType.parsed.before (hdots.append hname))
      rw [Argument.Parsed, hslots]
      refine hall.holding fun hlexed hc hholds => ?_
      obtain ⟨hattrs', htype'⟩ := hholds
      have hd := hattrs.plain hc
      refine .required hattrs' htype' (fun hnil => ?_) (fun hone => ?_) fun hhead => ?_
      · obtain ⟨rfl, hbracket⟩ := hnone hnil
        exact hargType.not_annotated hlexed hc hbracket
      · obtain rfl := hsame hone
        exact hargType.goesOnWith hplain hd
      · have hslot := IdlType.head?_slots hhead (by decide)
        exact hfirst (hargType.parsed.head? (hattrs.lexed hlexed) hd hslot)
    refine (Gives.eat (by decide)).bind ?_
    rintro isVariadic d₂ (⟨rfl, hdots⟩ | ⟨rfl, rfl, -⟩)
    · exact Gives.readName.bind fun name e hread => .pure (hend hdots (by simp) hread.1 hread.2)
    · exact Gives.readName.bind fun name e hread =>
        .pure (hend .refl (fun _ => rfl) hread.1 hread.2)

end Parts

/-! ### Depth -/

theorem gives_parseAt (depth : Nat) :
    (∀ c, Gives (IdlType.parseAt depth) c (IdlType.Parsed c)) ∧
      ∀ c, Gives (Argument.parseAt depth) c (Argument.Parsed c) := by
  induction depth with
  | zero => exact ⟨fun c => Gives.fail, fun c => Gives.fail⟩
  | succ depth ih =>
      refine ⟨fun c => ?_, fun c => ?_⟩
      · intro type d hrun
        unfold IdlType.parseAt at hrun
        exact IdlType.gives_with ih.1 ih.2 c type d hrun
      · intro arg d hrun
        unfold Argument.parseAt at hrun
        exact Argument.gives_with (IdlType.gives_with ih.1 ih.2) ih.2 c arg d hrun

theorem IdlType.gives (c : Cursor) : Gives IdlType.parse c (IdlType.Parsed c) := by
  intro type d hrun
  rw [IdlType.parse] at hrun
  exact (gives_parseAt (c.rest.length + 1)).1 c type d hrun

theorem Argument.gives (c : Cursor) : Gives Argument.parse c (Argument.Parsed c) := by
  intro arg d hrun
  rw [Argument.parse] at hrun
  exact (gives_parseAt (c.rest.length + 1)).2 c arg d hrun

theorem Argument.gives_list (c : Cursor) : Gives Argument.parseList c fun args d =>
    c.Parsed (listSlots args) (∀ arg ∈ args, arg.Readable) d :=
  gives_listWith Argument.gives c

theorem ExtendedAttribute.gives_list (c : Cursor) : Gives ExtendedAttribute.parseList c fun attrs d =>
    c.Parsed (listSlots attrs) (∀ attr ∈ attrs, attr.Readable) d ∧
      (attrs = [] → d = c ∧ ∀ g ∈ c.glyphs.head?, g.kind ≠ .bracketOpen) :=
  gives_listWith Argument.gives c

end IdlBindings
