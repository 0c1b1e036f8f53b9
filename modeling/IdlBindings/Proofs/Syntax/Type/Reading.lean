import IdlBindings.Proofs.Syntax.Readable
import IdlBindings.Proofs.Token.Reading

/-!
Readable types, extended attributes and arguments are read from their glyphs. The parsers are
bounded by a depth; the glyphs of a part are fewer than those of the whole, so a depth above the
number of glyphs is enough (`readsBelow_parseAt`).
-/

namespace IdlBindings

open Parse Glyph

/-- What comes next continues neither a type nor the value of an attribute or of an argument. -/
def Stops (rest : List Glyph) : Prop :=
  ∀ g ∈ rest.head?, g ≠ word "long" ∧ g.kind ∉ [.question, .equals, .parenOpen]

theorem Stops.cons {g : Glyph} {rest : List Glyph}
    (h : g ≠ word "long" ∧ g.kind ∉ [.question, .equals, .parenOpen]) : Stops (g :: rest) := by
  rintro _ ⟨⟩
  exact h

theorem Stops.kind_ne {rest : List Glyph} (h : Stops rest) {kind : TokenKind}
    (hkind : kind ∈ [.question, .equals, .parenOpen]) : ∀ g ∈ rest.head?, g.kind ≠ kind := by
  rintro g hg rfl
  exact (h g hg).2 hkind

theorem Stops.goesOnWith {rest : List Glyph} (h : Stops rest) (type : IdlType) :
    ∀ g ∈ rest.head?, type.goesOnWith g = false := by
  intro g hg
  obtain ⟨hlong, hkind⟩ := h g hg
  have hquestion : g.kind ≠ .question := by
    intro hquestion
    simp [hquestion] at hkind
  unfold IdlType.goesOnWith
  split <;> simp [hlong, hquestion]

/-! ### Values -/

theorem ConstValue.reads (value : ConstValue) (rest : List Glyph) :
    Reads ConstValue.parse (value.glyph :: rest) rest (· = value) := by
  intro c hc
  have htext := Cursor.text_of_glyphs hc
  have hkind {kind : TokenKind} : c.atKind kind = true ↔ value.glyph.kind = kind := by
    rw [Cursor.atKind_iff, hc]
    simp
  have hnext : ConstValue.next? c = some (value, c.advance) := by
    rw [ConstValue.next?]
    cases value with
    | boolean value => cases value <;> simp [hkind, htext, glyph, word, ofWord?]
    | integer source => simp [hkind, htext, glyph]
    | decimal source => simp [hkind, htext, glyph]
    | infinity => simp [hkind, htext, glyph, word, ofWord?]
    | negativeInfinity => simp [hkind, htext, glyph, word, ofWord?]
    | notANumber => simp [hkind, htext, glyph, word, ofWord?]
  refine ⟨value, c.advance, ?_, ?_, rfl⟩
  · rw [ConstValue.parse, hnext]
  · rw [Cursor.glyphs_advance, hc, List.tail_cons]

theorem DefaultValue.reads (value : DefaultValue) (rest : List Glyph) :
    Reads DefaultValue.parse (value.glyphs ++ rest) rest (· = value) := by
  rw [DefaultValue.parse]
  cases value with
  | string content =>
      refine .ite_true (.atKind rfl) (.andThen .stringContent ?_)
      exact .pure rfl
  | emptySequence =>
      refine .ite_false (.atKind_other (by decide)) ?_
      refine .ite_true (.eat rfl) (.bind (.expect rfl) fun _ _ => ?_)
      exact .pure rfl
  | emptyDictionary =>
      refine .ite_false (.atKind_other (by decide)) ?_
      refine .ite_false (.eat_other (by decide)) ?_
      refine .ite_true (.eat rfl) (.bind (.expect rfl) fun _ _ => ?_)
      exact .pure rfl
  | null =>
      refine .ite_false (.atKind_other (by decide)) ?_
      refine .ite_false (.eat_other (by decide)) ?_
      refine .ite_false (.eat_other (by decide)) ?_
      refine .ite_true .eatWord ?_
      exact .pure rfl
  | undefined =>
      refine .ite_false (.atKind_other (by decide)) ?_
      refine .ite_false (.eat_other (by decide)) ?_
      refine .ite_false (.eat_other (by decide)) ?_
      refine .ite_false (.eatWord_other (by decide)) ?_
      refine .ite_true .eatWord ?_
      exact .pure rfl
  | const value =>
      have hword : value.glyph ≠ word "null" ∧ value.glyph ≠ word "undefined" := by
        cases value with
        | boolean value => cases value <;> decide
        | _ => simp [ConstValue.glyph, word]
      have hkind : value.glyph.kind ≠ .string ∧ value.glyph.kind ≠ .bracketOpen
          ∧ value.glyph.kind ≠ .braceOpen := by
        cases value <;> simp [ConstValue.glyph, word]
      change Reads _ (value.glyph :: rest) rest _
      refine .ite_false (.atKind_other hkind.1) ?_
      refine .ite_false (.eat_other hkind.2.1) ?_
      refine .ite_false (.eat_other hkind.2.2) ?_
      refine .ite_false (.eatWord_other hword.1) ?_
      refine .ite_false (.eatWord_other hword.2) ?_
      refine .andThen (value.reads rest) ?_
      exact .pure rfl

theorem AttributeValue.reads {value : AttributeValue} (hproper : AllProper value.glyphs)
    (hlist : value ≠ .identifierList []) (rest : List Glyph) :
    Reads AttributeValue.parse (value.glyphs ++ rest) rest (· = value) := by
  rw [AttributeValue.parse]
  cases value with
  | identifier name =>
      refine .ite_true (.atKind rfl) (.andThen (.readName (hproper _ List.mem_cons_self).2) ?_)
      exact .pure rfl
  | string content =>
      refine .ite_false (.atKind_other (fun h => by cases h)) ?_
      refine .ite_true (.atKind rfl) (.andThen .stringContent ?_)
      exact .pure rfl
  | integer source =>
      refine .ite_false (.atKind_other (by simp)) ?_
      refine .ite_false (.atKind_other (by simp)) ?_
      refine .ite_true (.atKind rfl) (.andThen .text ?_)
      refine .bind .advance fun _ _ => ?_
      exact .pure rfl
  | decimal source =>
      refine .ite_false (.atKind_other (by simp)) ?_
      refine .ite_false (.atKind_other (by simp)) ?_
      refine .ite_false (.atKind_other (by simp)) ?_
      refine .ite_true (.atKind rfl) (.andThen .text ?_)
      refine .bind .advance fun _ _ => ?_
      exact .pure rfl
  | wildcard =>
      refine .ite_false (.atKind_other (by decide)) ?_
      refine .ite_false (.atKind_other (by decide)) ?_
      refine .ite_false (.atKind_other (by decide)) ?_
      refine .ite_false (.atKind_other (by decide)) ?_
      refine .ite_true (.eat rfl) ?_
      exact .pure rfl
  | identifierList names =>
      have hnames : ∀ name ∈ names, (word name).isEscaped = false := fun name hname =>
        (allProper_inParens.1 hproper _ (List.mem_map_of_mem hname) _ List.mem_cons_self).2
      rw [glyphs, inParens, List.cons_append, List.append_assoc]
      refine .ite_false (.atKind_other (by decide)) ?_
      refine .ite_false (.atKind_other (by decide)) ?_
      refine .ite_false (.atKind_other (by decide)) ?_
      refine .ite_false (.atKind_other (by decide)) ?_
      refine .ite_false (.eat_other (by decide)) ?_
      refine .ite_true (.eat rfl) ?_
      have hne : names ≠ [] := by
        rintro rfl
        exact hlist rfl
      refine .andThen (.commaSeparated (fun _ => True) hne (by decide) trivial (fun _ => trivial)
        fun name hname _ _ => .readName (hnames name hname)) ?_
      refine .bind (.expect rfl) fun _ _ => ?_
      exact .pure rfl

/-! ### First glyphs -/

theorem IdlType.head_kind : (type : IdlType) → ∃ g gs, type.glyphs = g :: gs ∧
    (g.kind = .identifier ∨ g.kind = .parenOpen ∨ g.kind = .bracketOpen)
  | .primitive p => by
      rw [IdlType.glyphs]
      cases p <;> exact ⟨_, _, rfl, .inl rfl⟩
  | .named name | .any => by
      rw [IdlType.glyphs]
      exact ⟨_, _, rfl, .inl rfl⟩
  | .sequence item | .frozenArray item | .observableArray item | .promise item => by
      rw [IdlType.glyphs]
      exact ⟨_, _, rfl, .inl rfl⟩
  | .record key value => by
      rw [IdlType.glyphs]
      exact ⟨_, _, rfl, .inl rfl⟩
  | .nullable inner => by
      obtain ⟨g, gs, hglyphs, hkind⟩ := inner.head_kind
      rw [IdlType.glyphs, hglyphs]
      exact ⟨g, _, rfl, hkind⟩
  | .union members => by
      rw [IdlType.glyphs]
      exact ⟨_, _, rfl, .inr (.inl rfl)⟩
  | .annotated [] inner => by
      rw [IdlType.glyphs]
      exact inner.head_kind
  | .annotated (attr :: rest) inner => by
      rw [IdlType.glyphs]
      exact ⟨_, _, rfl, .inr (.inr rfl)⟩

/-- Only attributes in front of a type begin with a bracket. -/
theorem IdlType.Readable.head_kind : {type : IdlType} → type.Readable → type.isAnnotated = false →
    ∃ g gs, type.glyphs = g :: gs ∧ (g.kind = .identifier ∨ g.kind = .parenOpen)
  | .nullable inner, h, _ => by
      cases h with
      | nullable hinner hbare honce =>
          obtain ⟨g, gs, hglyphs, hkind⟩ := hinner.head_kind hbare
          rw [IdlType.glyphs, hglyphs]
          exact ⟨g, _, rfl, hkind⟩
  | .annotated _ _, _, hannotated => by cases hannotated
  | .primitive p, _, _ => by
      rw [IdlType.glyphs]
      cases p <;> exact ⟨_, _, rfl, .inl rfl⟩
  | .named _, _, _ | .any, _, _ | .sequence _, _, _ | .frozenArray _, _, _
  | .observableArray _, _, _ | .promise _, _, _ | .record _ _, _, _ => by
      rw [IdlType.glyphs]
      exact ⟨_, _, rfl, .inl rfl⟩
  | .union _, _, _ => by
      rw [IdlType.glyphs]
      exact ⟨_, _, rfl, .inr rfl⟩

theorem IdlType.Readable.head_ne_bracket {type : IdlType} (h : type.Readable)
    (hannotated : type.isAnnotated = false) (rest : List Glyph) :
    ∀ g ∈ (type.glyphs ++ rest).head?, g.kind ≠ .bracketOpen := by
  obtain ⟨g, gs, hglyphs, hkind⟩ := h.head_kind hannotated
  rw [hglyphs]
  rintro _ ⟨⟩ hbracket
  rw [hbracket] at hkind
  simp at hkind

theorem Argument.head_kind (arg : Argument) : ∃ g gs, arg.glyphs = g :: gs ∧
    (g.kind = .identifier ∨ g.kind = .parenOpen ∨ g.kind = .bracketOpen) := by
  obtain ⟨name, type, isOptional, isVariadic, default, extAttrs⟩ := arg
  rw [glyphs]
  cases extAttrs with
  | cons attr rest => exact ⟨_, _, rfl, .inr (.inr rfl)⟩
  | nil =>
      cases isOptional with
      | true => exact ⟨_, _, rfl, .inl rfl⟩
      | false =>
          obtain ⟨g, gs, hglyphs, hkind⟩ := type.head_kind
          rw [hglyphs]
          exact ⟨g, _, rfl, hkind⟩

/-! ### The parts of a type -/

/-- The parser reads the readable types of fewer than `n` glyphs. -/
def IdlType.ReadsBelow (type : Parse IdlType) (n : Nat) : Prop :=
  ∀ part : IdlType, part.Readable → AllProper part.glyphs → part.glyphs.length < n →
    ∀ rest : List Glyph, (∀ g ∈ rest.head?, part.goesOnWith g = false) →
      Reads type (part.glyphs ++ rest) rest (· = part)

/-- The parser reads the readable arguments of fewer than `n` glyphs. -/
def Argument.ReadsBelow (argument : Parse Argument) (n : Nat) : Prop :=
  ∀ arg : Argument, arg.Readable → AllProper arg.glyphs → arg.glyphs.length < n →
    ∀ rest, Stops rest → Reads argument (arg.glyphs ++ rest) rest (· = arg)

theorem length_le_joined (sep : Glyph) {parts : List (List Glyph)} {gs : List Glyph}
    (h : gs ∈ parts) : gs.length ≤ (joined sep parts).length := by
  cases parts with
  | nil => cases h
  | cons first rest =>
      rw [joined, List.length_append]
      rcases List.mem_cons.1 h with rfl | hmem
      · exact Nat.le_add_right _ _
      · have hsub := (List.sublist_flatten_of_mem
          (List.mem_map_of_mem hmem (f := (sep :: ·)))).length_le
        rw [List.flatMap_def]
        simp only [List.length_cons] at hsub
        omega

section Parts

variable {type : Parse IdlType} {argument : Parse Argument} {n : Nat}

theorem Argument.reads_listWith (harguments : ReadsBelow argument n) {args : List Argument}
    (hargs : ∀ arg ∈ args, arg.Readable) (hproper : AllProper (listGlyphs args))
    (hlength : (listGlyphs args).length ≤ n) (rest : List Glyph) :
    Reads (parseListWith argument) (listGlyphs args ++ rest) rest (· = args) := by
  rw [listGlyphs, allProper_inParens] at hproper
  rw [listGlyphs, inParens, List.length_cons, List.length_append] at hlength
  rw [parseListWith, listGlyphs, inParens, List.cons_append, List.append_assoc]
  refine .bind (.expect rfl) fun _ _ => ?_
  cases args with
  | nil =>
      refine .ite_true (.eat rfl) ?_
      exact .pure rfl
  | cons arg args =>
      have hopen : Reads (eat .parenClose)
          (joined (mark .comma) ((arg :: args).map glyphs) ++ mark .parenClose :: rest)
          (joined (mark .comma) ((arg :: args).map glyphs) ++ mark .parenClose :: rest)
          (· = false) := by
        obtain ⟨g, gs, hglyphs, hkind⟩ := arg.head_kind
        rw [List.map_cons, joined, hglyphs]
        refine .eat_other fun hclose => ?_
        rw [hclose] at hkind
        simp at hkind
      refine .ite_false hopen ?_
      refine .andThen (.commaSeparated Stops (List.cons_ne_nil _ _) (by decide)
        (.cons (by decide)) (fun _ => .cons (by decide)) fun arg harg rest hrest => ?_) ?_
      · have hmem := List.mem_map_of_mem harg (f := glyphs)
        have hlt := length_le_joined (mark .comma) hmem
        exact harguments arg (hargs arg harg) (hproper _ hmem) (by omega) rest hrest
      · refine .bind (.expect rfl) fun _ _ => ?_
        exact .pure rfl

/-- The value of an extended attribute with the equals sign before it, if there is one. -/
theorem AttributeValue.reads_assigned {β : Type} {Q : β → Prop} {k : Option AttributeValue → Parse β}
    {value : Option AttributeValue} (hproper : AllProper (assigned (value.map glyphs)))
    (hlist : value ≠ some (.identifierList [])) {rest output : List Glyph}
    (hnone : value = none → ∀ g ∈ rest.head?, g.kind ≠ .equals)
    (hk : Reads (k value) rest output Q) :
    Reads (do if ← eat .equals then (some <$> AttributeValue.parse) >>= k else pure none >>= k)
      (assigned (value.map glyphs) ++ rest) output Q := by
  refine .optionally rest value (fun heq => ?_) (fun part heq => ?_) hk
  · subst heq
    exact .eat_none (hnone rfl)
  · subst heq
    refine ⟨_, .eat rfl, AttributeValue.reads (allProper_cons.1 hproper).2 ?_ rest⟩
    exact fun h => hlist (congrArg some h)

theorem ExtendedAttribute.reads_with (harguments : Argument.ReadsBelow argument n)
    {attr : ExtendedAttribute} (hattr : attr.Readable) (hproper : AllProper attr.glyphs)
    (hlength : attr.glyphs.length ≤ n) {rest : List Glyph} (hrest : Stops rest) :
    Reads (parseWith argument) (attr.glyphs ++ rest) rest (· = attr) := by
  obtain ⟨hlist, hallowed, hargs⟩ := hattr
  rename_i name value args
  rw [glyphs, allProper_cons, allProper_append] at hproper
  obtain ⟨hname, hvalue, hproper⟩ := hproper
  rw [glyphs, List.length_cons, List.length_append] at hlength
  have hequals : value = none → ∀ g ∈ (Argument.glyphsOfOption args ++ rest).head?,
      g.kind ≠ .equals := by
    intro _
    cases args with
    | none =>
        rw [Argument.glyphsOfOption]
        exact hrest.kind_ne (by decide)
    | some args =>
        rw [Argument.glyphsOfOption]
        rintro _ ⟨⟩
        decide
  unfold parseWith
  rw [glyphs, List.cons_append, List.append_assoc]
  refine .andThen (.readName hname.2) ?_
  refine AttributeValue.reads_assigned hvalue hlist hequals ?_
  cases args with
  | none =>
      rw [Argument.glyphsOfOption]
      refine .ite_false (.look fun c hc => ?_) (.pure rfl)
      rw [Bool.and_eq_false_iff, Bool.eq_false_iff, ne_eq, Bool.eq_false_iff, ne_eq,
        Cursor.atKind_iff, hc]
      right
      rintro ⟨g, hg, hkind⟩
      exact hrest.kind_ne (by decide) g hg hkind
  | some args =>
      have hglyphs : Argument.glyphsOfOption (some args) = Argument.listGlyphs args := by
        rw [Argument.glyphsOfOption, Argument.glyphsEach_eq_map, Argument.listGlyphs]
      rw [hglyphs] at hproper hlength ⊢
      refine .ite_true (.look fun c hc => ?_) ?_
      · rw [hallowed rfl, Bool.true_and]
        exact Cursor.atKind_iff.2 ⟨_, by rw [hc]; rfl, rfl⟩
      · refine .andThen (Argument.reads_listWith harguments (hargs args rfl) hproper (by omega) rest) ?_
        exact .pure rfl

theorem ExtendedAttribute.reads_listWith (attrs : List ExtendedAttribute)
    (harguments : Argument.ReadsBelow argument n) (hattrs : ∀ attr ∈ attrs, attr.Readable)
    (hproper : AllProper (listGlyphs attrs)) (hlength : (listGlyphs attrs).length ≤ n)
    {rest : List Glyph} (hrest : attrs = [] → ∀ g ∈ rest.head?, g.kind ≠ .bracketOpen) :
    Reads (parseListWith argument) (listGlyphs attrs ++ rest) rest (· = attrs) := by
  unfold parseListWith
  cases attrs with
  | nil => exact .ite_false (.eat_none (hrest rfl)) (.pure rfl)
  | cons attr attrs =>
      rw [listGlyphs, allProper_inBrackets] at hproper
      rw [listGlyphs, List.map_cons, inBrackets, List.length_cons, List.length_append,
        ← List.map_cons] at hlength
      · rw [listGlyphs, List.map_cons, inBrackets, List.cons_append, List.append_assoc,
          ← List.map_cons]
        · refine .ite_true (.eat rfl) ?_
          refine .andThen (.commaSeparated Stops (List.cons_ne_nil _ _) (by decide)
            (.cons (by decide)) (fun _ => .cons (by decide)) fun attr hattr rest hrest => ?_) ?_
          · have hmem := List.mem_map_of_mem hattr (f := glyphs)
            have hle := length_le_joined (mark .comma) hmem
            exact reads_with harguments (hattrs attr hattr) (hproper _ hmem) (by omega) hrest
          · refine .bind (.expect rfl) fun _ _ => ?_
            exact .pure rfl
        · simp
      · simp

/-! ### Types -/

namespace IdlType

theorem reads_wrappedWith (htypes : ReadsBelow type n) {item : IdlType} (hitem : item.Readable)
    (hproper : AllProper item.glyphs) (hlength : item.glyphs.length < n) (rest : List Glyph) :
    Reads (parseWrappedWith type) (mark .angleOpen :: (item.glyphs ++ mark .angleClose :: rest)) rest
      (· = item) := by
  unfold parseWrappedWith
  refine .bind (.expect rfl) fun _ _ => ?_
  refine .andThen (htypes item hitem hproper hlength _ ((Stops.cons (by decide)).goesOnWith item)) ?_
  refine .bind (.expect rfl) fun _ _ => ?_
  exact .pure rfl

theorem reads_recordWith (htypes : ReadsBelow type n) {key value : IdlType} (hkey : key.Readable)
    (hstring : key.isRecordKey = true) (hvalue : value.Readable)
    (hkeyProper : AllProper key.glyphs) (hvalueProper : AllProper value.glyphs)
    (hlength : key.glyphs.length + value.glyphs.length < n) (rest : List Glyph) :
    Reads (parseRecordWith type)
      (mark .angleOpen :: (key.glyphs ++ mark .comma :: (value.glyphs ++ mark .angleClose :: rest)))
      rest (· = .record key value) := by
  unfold parseRecordWith
  refine .bind (.expect rfl) fun _ _ => ?_
  refine .bind .look_any fun first _ => ?_
  refine .andThen (htypes key hkey hkeyProper (by omega) _ ((Stops.cons (by decide)).goesOnWith key)) ?_
  rw [if_pos hstring]
  refine .bind (.expect rfl) fun _ _ => ?_
  refine .andThen
    (htypes value hvalue hvalueProper (by omega) _ ((Stops.cons (by decide)).goesOnWith value)) ?_
  refine .bind (.expect rfl) fun _ _ => ?_
  exact .pure rfl

/-- A word that neither takes a type in angle brackets nor begins a longer type. -/
theorem reads_oneWord {w : String} {result : IdlType} {rest : List Glyph}
    (hwrapper : wrapper? w = none)
    (hother : w ∉ ["any", "record", "unsigned", "unrestricted", "long"])
    (hproper : (word w).isEscaped = false)
    (hresult : result = ((Primitive.ofWord? w).map primitive).getD (.named w)) :
    Reads (parseSingleWith type) (word w :: rest) rest (· = result) := by
  simp only [List.mem_cons, List.not_mem_nil, not_or] at hother
  unfold parseSingleWith
  refine .byWord ?_
  rw [hwrapper]
  dsimp only
  split
  · exact absurd rfl hother.1
  · exact absurd rfl hother.2.1
  · exact absurd rfl hother.2.2.1
  · exact absurd rfl hother.2.2.2.1
  · exact absurd rfl hother.2.2.2.2.1
  · cases hword : Primitive.ofWord? w with
    | some p =>
        rw [hword] at hresult
        exact .bind .advance fun _ _ => .pure hresult.symm
    | none =>
        rw [hword] at hresult
        exact .andThen (.readName hproper) (.pure hresult.symm)

theorem ofWord?_of_words {p : Primitive} {w : String} (h : p.words = [w]) (hlong : p ≠ .long) :
    wrapper? w = none ∧ w ∉ ["any", "record", "unsigned", "unrestricted", "long"] ∧
      (word w).isEscaped = false ∧ Primitive.ofWord? w = some p := by
  cases p <;> first
    | exact absurd rfl hlong
    | (obtain rfl := List.singleton_inj.1 h; decide)
    | simp [Primitive.words] at h

/-- A word that takes a type in angle brackets. -/
theorem reads_wrapped {w : String} (wrap : IdlType → IdlType) {item : IdlType}
    (hwrapper : wrapper? w = some wrap) (htypes : ReadsBelow type n) (hitem : item.Readable)
    (hproper : AllProper (wrapped w item.glyphs)) (hlength : (wrapped w item.glyphs).length ≤ n)
    (rest : List Glyph) :
    Reads (parseSingleWith type) (wrapped w item.glyphs ++ rest) rest (· = wrap item) := by
  rw [allProper_wrapped] at hproper
  have hlt : item.glyphs.length < n := by
    simp only [wrapped, List.length_cons, List.length_append] at hlength
    omega
  unfold parseSingleWith
  rw [wrapped, List.cons_append, List.cons_append, List.append_assoc]
  refine .byWord ?_
  rw [hwrapper]
  refine .bind .advance fun _ _ => ?_
  refine .andThen (reads_wrappedWith htypes hitem hproper.2 hlt rest) ?_
  exact .pure rfl

/-- What follows does not make a long integer longer. -/
def EndsLong (p : Primitive) (rest : List Glyph) : Prop :=
  p = .long ∨ p = .unsignedLong → rest.head? ≠ some (word "long")

theorem reads_primitive {p : Primitive} {rest : List Glyph} (hrest : EndsLong p rest) :
    Reads (parseSingleWith type) (p.words.map word ++ rest) rest (· = .primitive p) := by
  have hcases : (∃ w, p.words = [w] ∧ p ≠ .long) ∨ p ∈ [.long, .longLong, .unsignedShort,
      .unsignedLong, .unsignedLongLong, .unrestrictedFloat, .unrestrictedDouble] := by
    cases p <;> first
      | exact .inr (by decide)
      | exact .inl ⟨_, rfl, by decide⟩
  rcases hcases with ⟨w, hwords, hlong⟩ | hmem
  · obtain ⟨hwrapper, hother, hproper, hprimitive⟩ := ofWord?_of_words hwords hlong
    rw [hwords]
    exact reads_oneWord hwrapper hother hproper (by rw [hprimitive]; rfl)
  · -- the words are read one by one
    unfold parseSingleWith
    simp only [List.mem_cons, List.not_mem_nil, or_false] at hmem
    rcases hmem with rfl | rfl | rfl | rfl | rfl | rfl | rfl
    · refine .byWord (w := "long") (.bind .advance fun _ _ => ?_)
      exact .ite_false (.eatWord_none (hrest (.inl rfl))) (.pure rfl)
    · refine .byWord (w := "long") (.bind .advance fun _ _ => ?_)
      exact .ite_true .eatWord (.pure rfl)
    · refine .byWord (w := "unsigned") (.bind .advance fun _ _ => ?_)
      exact .ite_true .eatWord (.pure rfl)
    · refine .byWord (w := "unsigned") (.bind .advance fun _ _ => ?_)
      refine .ite_false (.eatWord_other (by decide)) ?_
      refine .bind .expectWord fun _ _ => ?_
      exact .ite_false (.eatWord_none (hrest (.inr rfl))) (.pure rfl)
    · refine .byWord (w := "unsigned") (.bind .advance fun _ _ => ?_)
      refine .ite_false (.eatWord_other (by decide)) ?_
      refine .bind .expectWord fun _ _ => ?_
      exact .ite_true .eatWord (.pure rfl)
    · refine .byWord (w := "unrestricted") (.bind .advance fun _ _ => ?_)
      exact .ite_true .eatWord (.pure rfl)
    · refine .byWord (w := "unrestricted") (.bind .advance fun _ _ => ?_)
      refine .ite_false (.eatWord_other (by decide)) ?_
      refine .bind .expectWord fun _ _ => ?_
      exact .pure rfl

theorem reads_any (rest : List Glyph) :
    Reads (parseSingleWith type) (any.glyphs ++ rest) rest (· = any) := by
  unfold parseSingleWith
  rw [glyphs]
  exact .byWord (w := "any") (.bind .advance fun _ _ => .pure rfl)

theorem reads_named {name : String} (hname : isTypeWord name = false)
    (hproper : AllProper (named name).glyphs) (rest : List Glyph) :
    Reads (parseSingleWith type) ((named name).glyphs ++ rest) rest (· = named name) := by
  rw [glyphs] at hproper ⊢
  simp only [isTypeWord, Bool.or_eq_false_iff, Option.isSome_eq_false_iff,
    Option.isNone_iff_eq_none] at hname
  obtain ⟨⟨hwrapper, hother⟩, hprimitive⟩ := hname
  refine reads_oneWord hwrapper (by simpa using hother) (allProper_cons.1 hproper).1.2 ?_
  rw [hprimitive]
  rfl

theorem reads_record (htypes : ReadsBelow type n) {key value : IdlType} (hkey : key.Readable)
    (hstring : key.isRecordKey = true) (hvalue : value.Readable)
    (hproper : AllProper (record key value).glyphs) (hlength : (record key value).glyphs.length ≤ n)
    (rest : List Glyph) :
    Reads (parseSingleWith type) ((record key value).glyphs ++ rest) rest
      (· = record key value) := by
  rw [glyphs] at hproper hlength ⊢
  rw [allProper_wrapped, allProper_append, allProper_cons] at hproper
  have hlt : key.glyphs.length + value.glyphs.length < n := by
    simp only [wrapped, List.length_cons, List.length_append] at hlength
    omega
  unfold parseSingleWith
  rw [wrapped]
  simp only [List.cons_append, List.append_assoc, List.nil_append]
  refine .byWord (w := "record") (.bind .advance fun _ _ => ?_)
  exact reads_recordWith htypes hkey hstring hvalue hproper.2.1 hproper.2.2.2 hlt rest

/-- Two or more members in parentheses. -/
theorem reads_union (htypes : ReadsBelow type n) {members : List IdlType}
    (hmembers : ∀ part ∈ members, part.Readable) (hmany : 2 ≤ members.length)
    (hproper : AllProper (union members).glyphs) (hlength : (union members).glyphs.length ≤ n + 1)
    (rest : List Glyph) :
    Reads (parseUnionWith type) ((union members).glyphs ++ rest) rest (· = union members) := by
  have hor : (word "or").Proper := by decide
  rw [glyphs, glyphsEach_eq_map] at hproper hlength ⊢
  rw [allProper_cons, allProper_append, allProper_joined hor] at hproper
  rw [List.length_cons, List.length_append, List.length_singleton] at hlength
  have hpart : ∀ part ∈ members, ∀ rest : List Glyph,
      (∀ g ∈ rest.head?, part.goesOnWith g = false) →
        Reads type (part.glyphs ++ rest) rest (· = part) := by
    intro part hmem
    have hglyphs := List.mem_map_of_mem hmem (f := glyphs)
    have hle := length_le_joined (word "or") hglyphs
    exact htypes part (hmembers part hmem) (hproper.2.1 _ hglyphs) (by omega)
  obtain ⟨first, second, members, rfl⟩ : ∃ first second rest, members = first :: second :: rest := by
    cases members with
    | nil => exact absurd hmany (by decide)
    | cons first rest =>
        cases rest with
        | nil => exact absurd hmany (by simp)
        | cons second rest => exact ⟨first, second, rest, rfl⟩
  have htail : ((second :: members).map glyphs).flatMap (word "or" :: ·)
      = (second :: members).flatMap fun part => [word "or"] ++ part.glyphs := by
    rw [List.flatMap_map]
    rfl
  unfold parseUnionWith
  rw [List.cons_append, List.map_cons, joined, htail, List.append_assoc, List.append_assoc]
  refine .bind (.expect rfl) fun _ _ => ?_
  refine .andThen (hpart first List.mem_cons_self _ ((Stops.cons (by decide)).goesOnWith first)) ?_
  refine .bind (.repeatWhile Stops (.eatWord_other (by decide)) (.cons (by decide))
    (fun _ _ _ => .cons (by decide)) (fun _ _ _ => .eatWord) (fun part hmem rest hrest =>
      hpart part (List.mem_cons_of_mem first hmem) rest (hrest.goesOnWith part))
    fun _ _ => List.cons_ne_nil _ _) fun parts hparts => ?_
  obtain rfl := Reads.forall₂_flip_eq hparts
  refine .bind (.expect rfl) fun _ _ => ?_
  exact .pure rfl

/-- A type that is neither nullable nor annotated is a union or begins with a word. -/
theorem union_or_word {bare : IdlType} (h : bare.Readable)
    (hannotated : bare.isAnnotated = false) (hnullable : bare.isNullable = false) :
    (∃ members, bare = union members ∧ (∀ part ∈ members, part.Readable) ∧ 2 ≤ members.length) ∨
      ∃ g gs, bare.glyphs = g :: gs ∧ g.kind = .identifier := by
  cases h with
  | union hmembers hmany => exact .inl ⟨_, rfl, hmembers, hmany⟩
  | nullable _ _ _ => cases hnullable
  | annotated _ _ _ _ => cases hannotated
  | primitive p =>
      rw [glyphs]
      cases p <;> exact .inr ⟨_, _, rfl, rfl⟩
  | any | named _ | sequence _ | frozenArray _ | observableArray _ | promise _ | record _ _ _ =>
      rw [glyphs]
      exact .inr ⟨_, _, rfl, rfl⟩

/-- A type that begins with a word, without a `?` after it. -/
theorem reads_single {bare : IdlType} {g : Glyph} {gs rest : List Glyph}
    (hglyphs : bare.glyphs = g :: gs) (hword : g.kind = .identifier)
    (htypes : ReadsBelow type n) (hbare : bare.Readable) (hannotated : bare.isAnnotated = false)
    (hnullable : bare.isNullable = false) (hproper : AllProper bare.glyphs)
    (hlength : bare.glyphs.length ≤ n) (hlong : ∀ p, bare = .primitive p → EndsLong p rest) :
    Reads (parseSingleWith type) (bare.glyphs ++ rest) rest (· = bare) := by
  cases hbare with
  | primitive p =>
      rw [glyphs]
      exact reads_primitive (hlong p rfl)
  | any => exact reads_any rest
  | named hname => exact reads_named hname hproper rest
  | sequence hitem =>
      rw [glyphs] at hproper hlength ⊢
      exact reads_wrapped sequence rfl htypes hitem hproper hlength rest
  | frozenArray hitem =>
      rw [glyphs] at hproper hlength ⊢
      exact reads_wrapped frozenArray rfl htypes hitem hproper hlength rest
  | observableArray hitem =>
      rw [glyphs] at hproper hlength ⊢
      exact reads_wrapped observableArray rfl htypes hitem hproper hlength rest
  | promise hresult =>
      rw [glyphs] at hproper hlength ⊢
      exact reads_wrapped promise rfl htypes hresult hproper hlength rest
  | record hkey hstring hvalue =>
      exact reads_record htypes hkey hstring hvalue hproper hlength rest
  | nullable _ _ _ => cases hnullable
  | union _ _ =>
      rw [glyphs] at hglyphs
      obtain ⟨rfl, -⟩ := List.cons.inj hglyphs
      cases hword
  | annotated _ _ _ _ => cases hannotated

/-- A type without attributes before it and without a `?` after it. -/
theorem reads_bare {β : Type} {Q : β → Prop} {k : IdlType → Parse β} {bare : IdlType}
    {rest output : List Glyph} (htypes : ReadsBelow type n) (hbare : bare.Readable)
    (hannotated : bare.isAnnotated = false) (hnullable : bare.isNullable = false)
    (hproper : AllProper bare.glyphs) (hlength : bare.glyphs.length ≤ n)
    (hlong : ∀ p, bare = .primitive p → EndsLong p rest) (hk : Reads (k bare) rest output Q) :
    Reads (do if ← atKind .parenOpen then parseUnionWith type >>= k else parseSingleWith type >>= k)
      (bare.glyphs ++ rest) output Q := by
  rcases union_or_word hbare hannotated hnullable with
    ⟨members, rfl, hmembers, hmany⟩ | ⟨g, gs, hglyphs, hword⟩
  · have hread := reads_union htypes hmembers hmany hproper (by omega) rest
    rw [glyphs, List.cons_append] at hread ⊢
    exact .ite_true (.atKind rfl) (.andThen hread hk)
  · have hread := reads_single hglyphs hword htypes hbare hannotated hnullable hproper hlength hlong
    have hother : g.kind ≠ .parenOpen := by
      rw [hword]
      decide
    rw [hglyphs, List.cons_append] at hread ⊢
    exact .ite_false (.atKind_other hother) (.andThen hread hk)

theorem not_long_of_goesOnWith {p : Primitive} {rest : List Glyph}
    (h : ∀ g ∈ rest.head?, (primitive p).goesOnWith g = false) : EndsLong p rest := by
  rintro hp hhead
  have hlong := h _ hhead
  rcases hp with rfl | rfl <;> simp [goesOnWith, unannotated] at hlong

theorem kind_ne_of_goesOnWith {part : IdlType} {g : Glyph} (hnullable : part.isNullable = false)
    (hannotated : part.isAnnotated = false) (h : part.goesOnWith g = false) :
    g.kind ≠ .question := by
  rintro hquestion
  have hsome : part.goesOnWith g = true := by
    cases part with
    | primitive p => cases p <;> simp [goesOnWith, unannotated, hquestion]
    | nullable _ => cases hnullable
    | annotated _ _ => cases hannotated
    | _ => simp [goesOnWith, unannotated, hquestion]
  rw [h] at hsome
  cases hsome

/-- A type without attributes before it. -/
theorem reads_unannotated {β : Type} {Q : β → Prop} {k : IdlType → Parse β} {inner : IdlType}
    {rest output : List Glyph} (htypes : ReadsBelow type n) (hinner : inner.Readable)
    (hannotated : inner.isAnnotated = false) (hproper : AllProper inner.glyphs)
    (hlength : inner.glyphs.length ≤ n) (hrest : ∀ g ∈ rest.head?, inner.goesOnWith g = false)
    (hk : Reads (k inner) rest output Q) :
    Reads (do
        let bare ← if ← atKind .parenOpen then parseUnionWith type else parseSingleWith type
        k (if ← eat .question then .nullable bare else bare))
      (inner.glyphs ++ rest) output Q := by
  by_cases hnullable : inner.isNullable = true
  · cases hinner with
    | nullable hbare hplain honce =>
        rename_i bare
        have hglyphs : bare.nullable.glyphs = bare.glyphs ++ [mark .question] := by rw [glyphs]
        rw [hglyphs] at hproper hlength ⊢
        rw [allProper_append] at hproper
        rw [List.length_append, List.length_singleton] at hlength
        rw [List.append_assoc]
        refine reads_bare htypes hbare hplain honce hproper.1 (by omega) (fun p _ _ => ?_) ?_
        · simp [mark, word]
        · exact .andThen (.eat rfl) hk
    | _ => cases hnullable
  · rw [Bool.not_eq_true] at hnullable
    refine reads_bare htypes hinner hannotated hnullable hproper hlength (fun p hp => ?_) ?_
    · subst hp
      exact not_long_of_goesOnWith hrest
    · refine .andThen (.eat_none fun g hg => ?_) hk
      exact kind_ne_of_goesOnWith hnullable hannotated (hrest g hg)

/-- One more level of depth reads types of one more glyph. -/
theorem readsBelow_succ (htypes : ReadsBelow type n) (harguments : Argument.ReadsBelow argument n) :
    ReadsBelow (parseWith type argument) (n + 1) := by
  intro part hpart hproper hlength rest hrest
  by_cases hannotated : part.isAnnotated = true
  · cases hpart with
    | annotated hattrs hsome hinner honce =>
        rename_i extAttrs inner
        have hglyphs : (annotated extAttrs inner).glyphs
            = ExtendedAttribute.listGlyphs extAttrs ++ inner.glyphs := by
          rw [glyphs, ExtendedAttribute.glyphsEach_eq_map, ExtendedAttribute.listGlyphs]
        rw [hglyphs] at hproper hlength ⊢
        rw [allProper_append] at hproper
        rw [List.length_append] at hlength
        rw [List.append_assoc]
        unfold parseWith
        refine .andThen (ExtendedAttribute.reads_listWith extAttrs harguments hattrs hproper.1
          (by omega)
          fun hnil => absurd hnil hsome) ?_
        refine reads_unannotated htypes hinner honce hproper.2 (by omega) hrest
          (k := fun inner => pure (if extAttrs.isEmpty then inner else annotated extAttrs inner)) ?_
        rw [if_neg (by simpa using hsome)]
        exact .pure rfl
    | _ => cases hannotated
  · rw [Bool.not_eq_true] at hannotated
    unfold parseWith
    refine .andThen (ExtendedAttribute.reads_listWith [] harguments (by simp)
      allProper_nil (Nat.zero_le _) fun _ => hpart.head_ne_bracket hannotated rest) ?_
    exact reads_unannotated htypes hpart hannotated hproper (by omega) hrest
      (k := fun inner => pure (if [].isEmpty then inner else annotated [] inner)) (.pure rfl)

end IdlType

/-- The default of an argument with the equals sign before it, if there is one. -/
theorem DefaultValue.reads_assigned {β : Type} {Q : β → Prop} {k : Option DefaultValue → Parse β}
    (value : Option DefaultValue) {rest output : List Glyph}
    (hrest : ∀ g ∈ rest.head?, g.kind ≠ .equals) (hk : Reads (k value) rest output Q) :
    Reads (do if ← eat .equals then (some <$> DefaultValue.parse) >>= k else pure none >>= k)
      (assigned (value.map glyphs) ++ rest) output Q := by
  refine .optionally rest value (fun heq => ?_) (fun part heq => ?_) hk
  · subst heq
    exact .eat_none hrest
  · subst heq
    exact ⟨_, .eat rfl, part.reads rest⟩

namespace Argument

section Forms

variable (htypes : IdlType.ReadsBelow type n) (harguments : ReadsBelow argument n) {name : String}
  {argType : IdlType} {extAttrs : List ExtendedAttribute} {rest : List Glyph}

include htypes harguments

theorem reads_optional {default : Option DefaultValue}
    (h : Readable ⟨name, argType, true, false, default, extAttrs⟩)
    (hproper : AllProper (glyphs ⟨name, argType, true, false, default, extAttrs⟩))
    (hlength : (glyphs ⟨name, argType, true, false, default, extAttrs⟩).length < n + 1)
    (hrest : Stops rest) :
    Reads (parseWith type argument)
      (glyphs ⟨name, argType, true, false, default, extAttrs⟩ ++ rest) rest
      (· = ⟨name, argType, true, false, default, extAttrs⟩) := by
  cases h with
  | optional hattrs htype hname =>
      have hglyphs : glyphs ⟨name, argType, true, false, default, extAttrs⟩
          = ExtendedAttribute.listGlyphs extAttrs ++ word "optional" :: (argType.glyphs
            ++ word name :: assigned (default.map DefaultValue.glyphs)) := by
        rw [glyphs, ExtendedAttribute.glyphsEach_eq_map, ExtendedAttribute.listGlyphs]
        rfl
      rw [hglyphs] at hproper hlength ⊢
      simp only [allProper_append, allProper_cons] at hproper
      obtain ⟨hextAttrs, -, htypeProper, hnameProper, -⟩ := hproper
      simp only [List.length_append, List.length_cons] at hlength
      simp only [List.append_assoc, List.cons_append]
      unfold parseWith
      refine .andThen (ExtendedAttribute.reads_listWith extAttrs harguments hattrs hextAttrs
        (by omega) fun _ => ?_) ?_
      · rintro _ ⟨⟩
        decide
      refine .ite_true .eatWord ?_
      refine .andThen (htypes argType htype htypeProper (by omega) _ ?_) ?_
      · rintro _ ⟨⟩
        exact hname
      refine .andThen (.readName hnameProper.2) ?_
      refine DefaultValue.reads_assigned default (hrest.kind_ne (by decide)) ?_
      exact .pure rfl

theorem reads_required {isVariadic : Bool}
    (h : Readable ⟨name, argType, false, isVariadic, none, extAttrs⟩)
    (hproper : AllProper (glyphs ⟨name, argType, false, isVariadic, none, extAttrs⟩))
    (hlength : (glyphs ⟨name, argType, false, isVariadic, none, extAttrs⟩).length < n + 1) :
    Reads (parseWith type argument)
      (glyphs ⟨name, argType, false, isVariadic, none, extAttrs⟩ ++ rest) rest
      (· = ⟨name, argType, false, isVariadic, none, extAttrs⟩) := by
  cases h with
  | required hattrs htype hbare hname hfirst =>
      have hglyphs : glyphs ⟨name, argType, false, isVariadic, none, extAttrs⟩
          = ExtendedAttribute.listGlyphs extAttrs ++ (argType.glyphs
            ++ ((if isVariadic then [mark .ellipsis] else []) ++ [word name])) := by
        rw [glyphs, ExtendedAttribute.glyphsEach_eq_map, ExtendedAttribute.listGlyphs]
        rfl
      rw [hglyphs] at hproper hlength ⊢
      simp only [allProper_append, allProper_cons] at hproper
      obtain ⟨hextAttrs, htypeProper, -, hnameProper, -⟩ := hproper
      simp only [List.length_append, List.length_singleton] at hlength
      simp only [List.append_assoc]
      unfold parseWith
      refine .andThen (ExtendedAttribute.reads_listWith extAttrs harguments hattrs hextAttrs
        (by omega) fun hnil => htype.head_ne_bracket (hbare hnil) _) ?_
      have hoptional : (argType.glyphs ++ ((if isVariadic then [mark .ellipsis] else [])
          ++ ([word name] ++ rest))).head? ≠ some (word "optional") := by
        obtain ⟨g, gs, hglyphs, -⟩ := argType.head_kind
        rw [hglyphs] at hfirst ⊢
        exact hfirst
      refine .ite_false (.eatWord_none hoptional) ?_
      cases isVariadic with
      | true =>
          refine .andThen (htypes argType htype htypeProper (by omega) _
            ((Stops.cons (by decide)).goesOnWith argType)) ?_
          refine .andThen (.eat rfl) (.andThen (.readName hnameProper.2) ?_)
          exact .pure rfl
      | false =>
          refine .andThen (htypes argType htype htypeProper (by omega) _ ?_) ?_
          · rintro _ ⟨⟩
            exact hname rfl
          refine .andThen (.eat_other (by rintro ⟨⟩)) (.andThen (.readName hnameProper.2) ?_)
          exact .pure rfl

end Forms

theorem readsBelow_succ (htypes : IdlType.ReadsBelow type n)
    (harguments : ReadsBelow argument n) : ReadsBelow (parseWith type argument) (n + 1) := by
  intro arg harg hproper hlength rest hrest
  have hread := harg
  cases harg with
  | optional => exact reads_optional htypes harguments hread hproper hlength hrest
  | required => exact reads_required htypes harguments hread hproper hlength

end Argument

end Parts

/-! ### Depth -/

/-- A depth above the number of glyphs is enough. -/
theorem readsBelow_parseAt (depth : Nat) :
    IdlType.ReadsBelow (IdlType.parseAt depth) depth ∧
      Argument.ReadsBelow (Argument.parseAt depth) depth := by
  induction depth with
  | zero =>
      exact ⟨fun _ _ _ hlength => absurd hlength (Nat.not_lt_zero _),
        fun _ _ _ hlength => absurd hlength (Nat.not_lt_zero _)⟩
  | succ depth ih =>
      have htypes := IdlType.readsBelow_succ ih.1 ih.2
      have hbelow : IdlType.ReadsBelow (IdlType.parseWith (IdlType.parseAt depth)
          (Argument.parseAt depth)) depth :=
        fun part hpart hproper hlength => htypes part hpart hproper (Nat.lt_succ_of_lt hlength)
      refine ⟨?_, ?_⟩
      · intro part hpart hproper hlength rest hrest c hc
        unfold IdlType.parseAt
        exact htypes part hpart hproper hlength rest hrest c hc
      · intro arg harg hproper hlength rest hrest c hc
        unfold Argument.parseAt
        exact Argument.readsBelow_succ hbelow ih.2 arg harg hproper hlength rest hrest c hc

theorem length_lt_of_glyphs {c : Cursor} {gs rest : List Glyph} (hc : c.glyphs = gs ++ rest) :
    gs.length < c.rest.length + 1 := by
  rw [← c.length_glyphs, hc, List.length_append]
  omega

theorem IdlType.reads {type : IdlType} (htype : type.Readable) (hproper : AllProper type.glyphs)
    {rest : List Glyph} (hrest : ∀ g ∈ rest.head?, type.goesOnWith g = false) :
    Reads IdlType.parse (type.glyphs ++ rest) rest (· = type) := fun c hc =>
  (readsBelow_parseAt _).1 type htype hproper (length_lt_of_glyphs hc) rest hrest c hc

theorem Argument.readsBelow_parse (n : Nat) : ReadsBelow Argument.parse n :=
  fun arg harg hproper _ rest hrest c hc =>
    (readsBelow_parseAt _).2 arg harg hproper (length_lt_of_glyphs hc) rest hrest c hc

theorem Argument.reads_list {args : List Argument} (hargs : ∀ arg ∈ args, arg.Readable)
    (hproper : AllProper (listGlyphs args)) (rest : List Glyph) :
    Reads Argument.parseList (listGlyphs args ++ rest) rest (· = args) :=
  reads_listWith (readsBelow_parse _) hargs hproper (Nat.le_refl _) rest

theorem ExtendedAttribute.reads_list {attrs : List ExtendedAttribute}
    (hattrs : ∀ attr ∈ attrs, attr.Readable) (hproper : AllProper (listGlyphs attrs))
    {rest : List Glyph} (hrest : attrs = [] → ∀ g ∈ rest.head?, g.kind ≠ .bracketOpen) :
    Reads ExtendedAttribute.parseList (listGlyphs attrs ++ rest) rest (· = attrs) :=
  reads_listWith attrs (Argument.readsBelow_parse _) hattrs hproper (Nat.le_refl _) hrest

end IdlBindings
