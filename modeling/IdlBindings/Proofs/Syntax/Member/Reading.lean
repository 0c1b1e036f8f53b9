import IdlBindings.Proofs.Syntax.Type.Reading
import IdlBindings.Proofs.Syntax.Unplaced

/-!
Readable members are read from their glyphs. The words at the front of a member decide what it is,
so each form is shown to pass the tests for the forms that are tried before it.
-/

namespace IdlBindings

open Parse Glyph

/-! ### Operations and iterations at the front -/

/-- A type without a `?` that begins with a word of no type is the name itself. -/
theorem IdlType.Readable.eq_named {bare : IdlType} (h : bare.Readable) {w : String}
    (hnullable : bare.isNullable = false) (hhead : bare.glyphs.head? = some (word w))
    (hword : isTypeWord w = false) : bare = .named w := by
  have hne {v : String} (hv : isTypeWord v = true) : word v ≠ word w := by
    intro heq
    obtain rfl : v = w := congrArg Glyph.text heq
    rw [hv] at hword
    cases hword
  cases h with
  | primitive p =>
      rw [glyphs] at hhead
      have hfirst : ∃ v gs, p.words.map word = word v :: gs ∧ isTypeWord v = true := by
        cases p <;> exact ⟨_, _, rfl, by decide⟩
      obtain ⟨v, gs, hwords, hv⟩ := hfirst
      rw [hwords] at hhead
      exact absurd (Option.some.inj hhead) (hne hv)
  | any =>
      rw [glyphs] at hhead
      exact absurd (Option.some.inj hhead) (hne (by decide))
  | named _ =>
      rw [glyphs] at hhead
      obtain rfl : _ = w := congrArg Glyph.text (Option.some.inj hhead)
      rfl
  | sequence _ | frozenArray _ | observableArray _ | promise _ | record _ _ _ =>
      rw [glyphs, wrapped] at hhead
      exact absurd (Option.some.inj hhead) (hne (by decide))
  | nullable _ _ _ => cases hnullable
  | union _ _ =>
      rw [glyphs] at hhead
      cases hhead
  | annotated hattrs hsome hinner honce =>
      rename_i extAttrs inner
      cases extAttrs with
      | nil => exact absurd rfl hsome
      | cons attr rest =>
          rw [glyphs, ExtendedAttribute.glyphsEach] at hhead
          cases hhead

/-- A type that begins with a word of no type is the name itself, perhaps with a `?`. -/
theorem IdlType.Readable.of_head_word {type : IdlType} (h : type.Readable) {w : String}
    (hhead : type.glyphs.head? = some (word w)) (hword : isTypeWord w = false) :
    type = .named w ∨ type = .nullable (.named w) := by
  by_cases hnullable : type.isNullable = true
  · cases h with
    | nullable hinner hplain honce =>
        rename_i inner
        obtain ⟨g, gs, hglyphs, -⟩ := inner.head_kind
        rw [glyphs, hglyphs] at hhead
        have hinnerHead : inner.glyphs.head? = some (word w) := by
          rw [hglyphs]
          exact hhead
        exact .inr (congrArg IdlType.nullable (hinner.eq_named honce hinnerHead hword))
    | _ => cases hnullable
  · rw [Bool.not_eq_true] at hnullable
    exact .inl (h.eq_named hnullable hhead hword)

/-- The words at the cursor begin an iteration exactly when they are the words of its kind. -/
theorem Cursor.atIteration_iff {c : Cursor} : c.atIteration = true ↔
    (∃ w ∈ ["iterable", "maplike", "setlike"], c.glyphs.head? = some (word w)) ∨
      (c.glyphs.head? = some (word "async") ∧ c.glyphs.tail.head? = some (word "iterable")) := by
  simp only [atIteration, Bool.or_eq_true, Bool.and_eq_true, atWord_iff, beforeWord_iff,
    List.mem_cons, List.not_mem_nil, or_false, exists_eq_or_imp, exists_eq_left]
  tauto

/-- What comes after the type of an operation. -/
def Operation.tailGlyphs (o : Operation) : List Glyph :=
  o.name.toList.map word ++ (Argument.listGlyphs o.args ++ [mark .semicolon])

/-- The type and what comes after it, as the words at the front of an operation without a role. -/
theorem Operation.Readable.second_kind {o : Operation} (h : o.Readable) {w : String}
    (hhead : o.result.glyphs.head? = some (word w)) (hword : IdlType.isTypeWord w = false)
    (rest : List Glyph) : ∀ g ∈ (o.result.glyphs ++ (o.tailGlyphs ++ rest)).tail.head?,
      g = mark .question ∨ (o.result = .named w ∧ ∃ name ∈ o.name, g = word name) ∨
        (o.name = none ∧ g = mark .parenOpen) := by
  rcases h.result.of_head_word hhead hword with hnamed | hnullable
  · rw [hnamed, IdlType.glyphs, tailGlyphs]
    cases hname : o.name with
    | some name =>
        rintro _ ⟨⟩
        exact .inr (.inl ⟨rfl, name, rfl, rfl⟩)
    | none =>
        rintro _ ⟨⟩
        exact .inr (.inr ⟨rfl, rfl⟩)
  · rw [hnullable, IdlType.glyphs, IdlType.glyphs]
    rintro _ ⟨⟩
    exact .inl rfl

/-- A text that begins with one of some words does not begin with another. -/
theorem head_ne_word {words : List String} {v w : String} {gs : List Glyph} (hw : w ∉ words)
    (hv : v ∈ words) : (word v :: gs).head? ≠ some (word w) := by
  intro hhead
  obtain rfl : v = w := congrArg Glyph.text (Option.some.inj hhead)
  exact hw hv

/-! ### Qualifiers -/

/-- The word of a qualifier. -/
def Qualifier.keyword : Qualifier → String
  | .static => "static"
  | .stringifier => "stringifier"
  | .inherit => "inherit"

/-- The words that are tried as qualifiers. -/
def Qualifier.words : List String := ["static", "stringifier", "inherit"]

def Qualifier.glyphs (qualifier : Option Qualifier) : List Glyph :=
  qualifier.toList.map fun qualifier => word qualifier.keyword

theorem Qualifier.reads (qualifier : Option Qualifier) {rest : List Glyph}
    (hrest : qualifier = none → ∀ w ∈ Qualifier.words, rest.head? ≠ some (word w)) :
    Reads Qualifier.parse? (glyphs qualifier ++ rest) rest (· = qualifier) := by
  unfold parse?
  cases qualifier with
  | none =>
      refine .ite_false (.eatWord_none (hrest rfl "static" (by decide))) ?_
      refine .ite_false (.eatWord_none (hrest rfl "stringifier" (by decide))) ?_
      refine .ite_false (.eatWord_none (hrest rfl "inherit" (by decide))) ?_
      exact .pure rfl
  | some qualifier =>
      cases qualifier with
      | static => exact .ite_true .eatWord (.pure rfl)
      | stringifier =>
          refine .ite_false (.eatWord_other (by decide)) ?_
          exact .ite_true .eatWord (.pure rfl)
      | inherit =>
          refine .ite_false (.eatWord_other (by decide)) ?_
          refine .ite_false (.eatWord_other (by decide)) ?_
          exact .ite_true .eatWord (.pure rfl)

theorem Special.reads_none {rest : List Glyph}
    (hrest : ∀ w ∈ ["getter", "setter", "deleter"], rest.head? ≠ some (word w)) :
    Reads Special.parse? rest rest (· = none) := by
  unfold parse?
  refine .ite_false (.eatWord_none (hrest "getter" (by decide))) ?_
  refine .ite_false (.eatWord_none (hrest "setter" (by decide))) ?_
  refine .ite_false (.eatWord_none (hrest "deleter" (by decide))) ?_
  exact .pure rfl

theorem Special.reads_some {special : Special} (h : special ≠ .stringifier) (rest : List Glyph) :
    Reads Special.parse? (word special.keyword :: rest) rest (· = some special) := by
  unfold parse?
  cases special with
  | getter => exact .ite_true .eatWord (.pure rfl)
  | setter =>
      refine .ite_false (.eatWord_other (by decide)) ?_
      exact .ite_true .eatWord (.pure rfl)
  | deleter =>
      refine .ite_false (.eatWord_other (by decide)) ?_
      refine .ite_false (.eatWord_other (by decide)) ?_
      exact .ite_true .eatWord (.pure rfl)
  | stringifier => exact absurd rfl h

namespace MemberBody

/-! ### The parts of members -/

theorem reads_semicolon {rest : List Glyph} :
    Reads semicolon (mark .semicolon :: rest) rest fun _ => True :=
  .expect rfl

theorem reads_const {name : String} {type : IdlType} {value : ConstValue} (htype : type.Readable)
    (hname : type.goesOnWith (word name) = false) (hproper : AllProper (const name type value).glyphs)
    (rest : List Glyph) :
    Reads parseConst (type.glyphs ++ word name :: mark .equals :: value.glyph :: mark .semicolon ::
      rest) rest (· = const name type value) := by
  simp only [glyphs, allProper_cons, allProper_append] at hproper
  obtain ⟨-, htypeProper, hnameProper, -⟩ := hproper
  unfold parseConst
  refine .andThen (IdlType.reads htype htypeProper ?_) ?_
  · rintro _ ⟨⟩
    exact hname
  refine .andThen (.readName hnameProper.2) ?_
  refine .bind (.expect rfl) fun _ _ => ?_
  refine .andThen (value.reads _) ?_
  refine .bind reads_semicolon fun _ _ => ?_
  exact .pure rfl

theorem reads_attribute {a : Attribute} {qualifier : Option Qualifier}
    (htype : a.type.Readable) (hname : a.type.goesOnWith (word a.name) = false)
    (hproper : AllProper (MemberBody.attribute a).glyphs)
    (hstatic : a.isStatic = (qualifier == some .static))
    (hinherited : a.isInherited = (qualifier == some .inherit))
    (hstringifier : a.isStringifier = (qualifier == some .stringifier)) (rest : List Glyph) :
    Reads (parseAttribute qualifier a.isReadonly)
      (a.type.glyphs ++ word a.name :: mark .semicolon :: rest) rest (· = .attribute a) := by
  simp only [glyphs, allProper_cons, allProper_append] at hproper
  obtain ⟨-, htypeProper, hnameProper, -⟩ := hproper
  unfold parseAttribute
  refine .andThen (IdlType.reads htype htypeProper ?_) ?_
  · rintro _ ⟨⟩
    exact hname
  refine .andThen (.readName hnameProper.2) ?_
  refine .bind reads_semicolon fun _ _ => ?_
  rw [← hstatic, ← hinherited, ← hstringifier]
  exact .pure rfl

theorem reads_operation {o : Operation} (h : o.Readable) (hproper : AllProper (operation o).glyphs)
    (rest : List Glyph) :
    Reads (parseOperation o.isStatic o.special) (o.result.glyphs ++ (o.tailGlyphs ++ rest)) rest
      (· = operation o) := by
  simp only [glyphs, allProper_append] at hproper
  obtain ⟨-, -, hresult, hnameProper, hargs, -⟩ := hproper
  have hrest : ∀ g ∈ (o.tailGlyphs ++ rest).head?, o.result.goesOnWith g = false := by
    rw [Operation.tailGlyphs]
    cases hname : o.name with
    | some name =>
        rintro _ ⟨⟩
        exact h.name name hname
    | none =>
        rintro _ ⟨⟩
        unfold IdlType.goesOnWith
        split <;> simp [mark, word]
  unfold parseOperation
  refine .andThen (IdlType.reads h.result hresult hrest) ?_
  rw [Operation.tailGlyphs, List.append_assoc, List.append_assoc]
  have hafter : Reads (do
      let args ← Argument.parseList
      semicolon
      pure (operation ⟨o.name, o.result, args, o.isStatic, o.special⟩))
      (Argument.listGlyphs o.args ++ ([mark .semicolon] ++ rest)) rest (· = operation o) := by
    refine .andThen (Argument.reads_list h.args hargs _) ?_
    refine .bind reads_semicolon fun _ _ => ?_
    exact .pure rfl
  cases hname : o.name with
  | some name =>
      rw [hname] at hnameProper hafter
      refine .ite_true (.atKind rfl) ?_
      refine .andThen (.map (.readName (allProper_cons.1 hnameProper).1.2) rfl) ?_
      exact hafter
  | none =>
      obtain ⟨special, hspecial⟩ := Option.ne_none_iff_exists'.1 (h.nameless hname)
      rw [hname, hspecial] at hafter
      rw [hspecial]
      refine .ite_false (.atKind_other (by decide)) ?_
      refine .andThen (.pure rfl) ?_
      exact hafter

theorem reads_constructor {args : List Argument} (hargs : ∀ arg ∈ args, arg.Readable)
    (hproper : AllProper (Argument.listGlyphs args)) (rest : List Glyph) :
    Reads parseConstructor (Argument.listGlyphs args ++ mark .semicolon :: rest) rest
      (· = constructor args) := by
  unfold parseConstructor
  refine .andThen (Argument.reads_list hargs hproper _) ?_
  refine .bind reads_semicolon fun _ _ => ?_
  exact .pure rfl

theorem reads_iterationWords (kind : IterationKind) (rest : List Glyph) :
    Reads IterationKind.parse (iterationWords kind ++ rest) rest (· = kind) := by
  unfold IterationKind.parse
  cases kind with
  | iterable => exact .ite_true .eatWord (.pure rfl)
  | asyncIterable =>
      refine .ite_false (.eatWord_other (by decide)) ?_
      refine .ite_true .eatWord (.bind .expectWord fun _ _ => ?_)
      exact .pure rfl
  | maplike =>
      refine .ite_false (.eatWord_other (by decide)) ?_
      refine .ite_false (.eatWord_other (by decide)) ?_
      exact .ite_true .eatWord (.pure rfl)
  | setlike =>
      refine .ite_false (.eatWord_other (by decide)) ?_
      refine .ite_false (.eatWord_other (by decide)) ?_
      refine .ite_false (.eatWord_other (by decide)) ?_
      exact .bind .expectWord fun _ _ => .pure rfl

/-- The types in the angle brackets of an iteration. -/
def typesGlyphs (key : Option IdlType) (value : IdlType) : List Glyph :=
  joined (mark .comma) ((key.toList ++ [value]).map IdlType.glyphs)

theorem reads_iterationTypes {kind : IterationKind} {key : Option IdlType} {value : IdlType}
    (hkey : ∀ type ∈ key, type.Readable) (hvalue : value.Readable)
    (hmaplike : kind = .maplike → key.isSome = true) (hsetlike : kind = .setlike → key = none)
    (hproper : AllProper (typesGlyphs key value)) (rest : List Glyph) :
    Reads (parseIterationTypes kind) (typesGlyphs key value ++ mark .angleClose :: rest)
      (mark .angleClose :: rest) (· = (key, value)) := by
  rw [typesGlyphs, allProper_joined (by decide)] at hproper
  have hvalueReads : Reads IdlType.parse (value.glyphs ++ mark .angleClose :: rest)
      (mark .angleClose :: rest) (· = value) :=
    IdlType.reads hvalue (hproper _ (by simp)) ((Stops.cons (by decide)).goesOnWith value)
  unfold parseIterationTypes
  cases key with
  | none =>
      have hglyphs : typesGlyphs none value = value.glyphs := by simp [typesGlyphs, joined]
      rw [hglyphs]
      refine .andThen hvalueReads ?_
      cases kind with
      | maplike => cases hmaplike rfl
      | setlike => exact .pure rfl
      | iterable | asyncIterable => exact .ite_false (.eat_other (by decide)) (.pure rfl)
  | some type =>
      have hglyphs : typesGlyphs (some type) value
          = type.glyphs ++ mark .comma :: value.glyphs := by simp [typesGlyphs, joined]
      rw [hglyphs, List.append_assoc, List.cons_append]
      refine .andThen (IdlType.reads (hkey type rfl) (hproper _ (by simp))
        ((Stops.cons (by decide)).goesOnWith type)) ?_
      cases kind with
      | maplike =>
          refine .bind (.expect rfl) fun _ _ => ?_
          exact .andThen hvalueReads (.pure rfl)
      | setlike => cases hsetlike rfl
      | iterable | asyncIterable =>
          exact .ite_true (.eat rfl) (.andThen hvalueReads (.pure rfl))

/-- An iteration behind its qualifiers. -/
def iterationGlyphs (i : Iteration) : List Glyph :=
  iterationWords i.kind ++ mark .angleOpen :: (typesGlyphs i.key i.value ++ mark .angleClose ::
    ((if i.args.isEmpty then [] else Argument.listGlyphs i.args) ++ [mark .semicolon]))

theorem reads_iteration {i : Iteration} (h : i.Readable) (hproper : AllProper (iterationGlyphs i))
    (rest : List Glyph) :
    Reads (parseIteration i.isReadonly) (iterationGlyphs i ++ rest) rest (· = iteration i) := by
  simp only [iterationGlyphs, allProper_append, allProper_cons] at hproper
  obtain ⟨-, -, htypes, -, hargs, -⟩ := hproper
  unfold parseIteration
  simp only [iterationGlyphs, List.append_assoc, List.cons_append, List.nil_append]
  refine .andThen (reads_iterationWords i.kind _) ?_
  refine .bind (.expect rfl) fun _ _ => ?_
  refine .andThen (reads_iterationTypes h.key h.value h.maplike h.setlike htypes _) ?_
  refine .bind (.expect rfl) fun _ _ => ?_
  by_cases hnil : i.args = []
  · have hempty : i.args.isEmpty = true := List.isEmpty_iff.2 hnil
    rw [if_pos hempty]
    refine .andThen (a := false) (.look fun c hc => ?_) ?_
    · rw [Bool.and_eq_false_iff, Bool.eq_false_iff (b := c.atKind _), ne_eq, Cursor.atKind_iff, hc]
      right
      rintro ⟨_, ⟨⟩, hkind⟩
      cases hkind
    · refine .andThen (.pure rfl) ?_
      refine .bind reads_semicolon fun _ _ => ?_
      rw [← hnil]
      exact .pure rfl
  · have hempty : ¬i.args.isEmpty = true := by rwa [List.isEmpty_iff]
    rw [if_neg hempty] at hargs ⊢
    refine .andThen (a := true) (.look fun c hc => ?_) ?_
    · rw [h.async hnil]
      exact Cursor.atKind_iff.2 ⟨_, by rw [hc]; rfl, rfl⟩
    · refine .andThen (Argument.reads_list h.args hargs _) ?_
      refine .bind reads_semicolon fun _ _ => ?_
      exact .pure rfl

theorem reads_field {f : Field} (htype : f.type.Readable)
    (hname : f.type.goesOnWith (word f.name) = false)
    (hfirst : f.isRequired = false → f.type.glyphs.head? ≠ some (word "required"))
    (hproper : AllProper (field f).glyphs) (rest : List Glyph) :
    Reads parseField ((field f).glyphs ++ rest) rest (· = field f) := by
  simp only [glyphs, allProper_cons, allProper_append] at hproper
  obtain ⟨-, htypeProper, hnameProper, -⟩ := hproper
  unfold parseField
  simp only [glyphs, List.append_assoc, List.cons_append]
  have hrequired : Reads (eatWord "required")
      ((if f.isRequired then [word "required"] else []) ++ (f.type.glyphs ++ word f.name ::
        (assigned (f.default.map DefaultValue.glyphs) ++ ([mark .semicolon] ++ rest))))
      (f.type.glyphs ++ word f.name ::
        (assigned (f.default.map DefaultValue.glyphs) ++ ([mark .semicolon] ++ rest)))
      (· = f.isRequired) := by
    cases hf : f.isRequired with
    | true => exact .eatWord
    | false =>
        refine .eatWord_none ?_
        obtain ⟨g, gs, hglyphs, -⟩ := f.type.head_kind
        have hother := hfirst hf
        rw [hglyphs] at hother ⊢
        exact hother
  refine .andThen hrequired (.andThen (IdlType.reads htype htypeProper ?_) ?_)
  · rintro _ ⟨⟩
    exact hname
  refine .andThen (.readName hnameProper.2) ?_
  refine DefaultValue.reads_assigned f.default (by rintro _ ⟨⟩; decide) ?_
  refine .bind reads_semicolon fun _ _ => ?_
  exact .pure rfl

/-! ### The front of a member -/

section Front

variable {qualifier : Option Qualifier} {tail output : List Glyph} {Q : MemberBody → Prop}

/-- Behind the qualifier: `readonly`, and what it belongs to. -/
def parseBehind (qualifier : Option Qualifier) : Parse MemberBody := do
  if ← eatWord "readonly" then
    if ← look fun c => c.atWord "maplike" || c.atWord "setlike" then
      parseIteration true
    else
      parseQualified qualifier true
  else
    parseQualified qualifier false

theorem reads_front (qualifier : Option Qualifier)
    (hfirst : qualifier = none → ∀ w ∈ "const" :: Qualifier.words, tail.head? ≠ some (word w))
    (hconstructor : qualifier = none → tail.head? = some (word "constructor") →
      ∀ g ∈ tail.tail.head?, g.kind ≠ .parenOpen)
    (hsemicolon : qualifier = some .stringifier → ∀ g ∈ tail.head?, g.kind ≠ .semicolon)
    (hbehind : Reads (parseBehind qualifier) tail output Q) :
    Reads parse (Qualifier.glyphs qualifier ++ tail) output Q := by
  unfold parse
  refine .ite_false (.eatWord_none ?_) ?_
  · cases qualifier with
    | none => exact hfirst rfl "const" (by decide)
    | some qualifier => cases qualifier <;> exact fun h => absurd (Option.some.inj h) (by decide)
  refine .ite_false (.look fun c hc => ?_) ?_
  · rw [Bool.and_eq_false_iff, Bool.eq_false_iff, Bool.eq_false_iff, ne_eq, ne_eq,
      Cursor.atWord_iff, Cursor.beforeKind_iff, hc]
    cases qualifier with
    | none =>
        by_cases hword : tail.head? = some (word "constructor")
        · right
          rintro ⟨g, hg, hkind⟩
          exact hconstructor rfl hword g hg hkind
        · exact .inl hword
    | some qualifier =>
        left
        cases qualifier <;> exact fun h => absurd (Option.some.inj h) (by decide)
  refine .andThen (Qualifier.reads qualifier fun hnone w hw => ?_) ?_
  · exact hfirst hnone w (List.mem_cons_of_mem _ hw)
  · refine .ite_false ?_ hbehind
    rcases qualifier with _ | (_ | _ | _)
    · exact .pure rfl
    · exact .pure rfl
    · exact .eat_none (hsemicolon rfl)
    · exact .pure rfl

/-- An iteration has no qualifier but `readonly`. -/
theorem reads_behind_iteration {i : Iteration} (h : i.Readable)
    (hproper : AllProper (iterationGlyphs i)) (rest : List Glyph) :
    Reads (parseBehind none)
      ((if i.isReadonly then [word "readonly"] else []) ++ (iterationGlyphs i ++ rest)) rest
      (· = iteration i) := by
  have hread := reads_iteration h hproper rest
  unfold parseBehind
  cases hreadonly : i.isReadonly with
  | true =>
      rw [hreadonly] at hread
      refine .ite_true .eatWord (.ite_true (.look fun c hc => ?_) hread)
      rw [Bool.or_eq_true, Cursor.atWord_iff, Cursor.atWord_iff, hc, iterationGlyphs]
      rcases h.readonly hreadonly with hkind | hkind <;> rw [hkind]
      · exact .inl rfl
      · exact .inr rfl
  | false =>
      rw [hreadonly] at hread
      have hother {w : String} (hw : w ∈ ["readonly", "attribute"]) :
          (iterationGlyphs i ++ rest).head? ≠ some (word w) := by
        simp only [List.mem_cons, List.not_mem_nil, or_false] at hw
        rw [iterationGlyphs]
        rcases hw with rfl | rfl <;> cases i.kind <;>
          exact fun h => absurd (Option.some.inj h) (by decide)
      refine .ite_false (.eatWord_none (hother (by decide))) ?_
      unfold parseQualified
      refine .ite_false (.eatWord_none (hother (by decide))) ?_
      refine .ite_true (.look fun c hc => ?_) hread
      rw [Cursor.atIteration_iff, hc, iterationGlyphs]
      cases i.kind with
      | asyncIterable => exact .inr ⟨rfl, rfl⟩
      | iterable => exact .inl ⟨"iterable", by decide, rfl⟩
      | maplike => exact .inl ⟨"maplike", by decide, rfl⟩
      | setlike => exact .inl ⟨"setlike", by decide, rfl⟩

theorem reads_behind_attribute {a : Attribute} (htype : a.type.Readable)
    (hname : a.type.goesOnWith (word a.name) = false)
    (hproper : AllProper (MemberBody.attribute a).glyphs)
    (hstatic : a.isStatic = (qualifier == some .static))
    (hinherited : a.isInherited = (qualifier == some .inherit))
    (hstringifier : a.isStringifier = (qualifier == some .stringifier)) (rest : List Glyph) :
    Reads (parseBehind qualifier) ((if a.isReadonly then [word "readonly"] else []) ++
      (word "attribute" :: (a.type.glyphs ++ word a.name :: mark .semicolon :: rest))) rest
      (· = .attribute a) := by
  have hread := reads_attribute htype hname hproper hstatic hinherited hstringifier rest
  unfold parseBehind
  cases hreadonly : a.isReadonly with
  | true =>
      rw [hreadonly] at hread
      refine .ite_true .eatWord (.ite_false (.look fun c hc => ?_) ?_)
      · rw [Bool.or_eq_false_iff, Bool.eq_false_iff, Bool.eq_false_iff, ne_eq, ne_eq,
          Cursor.atWord_iff, Cursor.atWord_iff, hc]
        exact ⟨fun h => absurd (Option.some.inj h) (by decide),
          fun h => absurd (Option.some.inj h) (by decide)⟩
      · unfold parseQualified
        exact .ite_true .eatWord hread
  | false =>
      rw [hreadonly] at hread
      refine .ite_false (.eatWord_other (by decide)) ?_
      unfold parseQualified
      exact .ite_true .eatWord hread

/-- Behind a qualifier that leads to an operation. -/
theorem reads_behind_operation (hinherit : qualifier ≠ some .inherit)
    (hwords : ∀ w ∈ memberWords, tail.head? ≠ some (word w))
    (hasync : tail.head? = some (word "async") → tail.tail.head? ≠ some (word "iterable"))
    (hoperation : Reads (if qualifier == some .stringifier then parseOperation false (some .stringifier)
      else Special.parse? >>= parseOperation (qualifier == some .static)) tail output Q) :
    Reads (parseBehind qualifier) tail output Q := by
  unfold parseBehind
  refine .ite_false (.eatWord_none (hwords "readonly" (by decide))) ?_
  unfold parseQualified
  refine .ite_false (.eatWord_none (hwords "attribute" (by decide))) ?_
  have hnot : ¬(false || qualifier == some .inherit) = true := by simpa using hinherit
  rw [if_neg hnot]
  refine .ite_false (.look fun c hc => ?_) hoperation
  rw [Bool.eq_false_iff, ne_eq, Cursor.atIteration_iff, hc]
  rintro (⟨w, hw, hhead⟩ | ⟨hhead, hsecond⟩)
  · exact hwords w (by simp only [memberWords, List.mem_cons] at hw ⊢; tauto) hhead
  · exact hasync hhead hsecond

end Front

end MemberBody

/-- The qualifier in front of an operation that begins with its type. -/
inductive Operation.LedBy (o : Operation) : Option Qualifier → Prop
  | nothing (hspecial : o.special = none) (hstatic : o.isStatic = false) : o.LedBy none
  | static (hspecial : o.special = none) (hstatic : o.isStatic = true) : o.LedBy (some .static)
  | stringifier (hspecial : o.special = some .stringifier) : o.LedBy (some .stringifier)

namespace Operation.LedBy

variable {o : Operation} {qualifier : Option Qualifier}

theorem mem_reserved (hled : o.LedBy qualifier) {w : String} (hw : w ∈ MemberBody.memberWords) :
    w ∈ o.reserved := by
  rw [reserved]
  cases hled with
  | nothing hspecial _ | static hspecial _ =>
      rw [hspecial]
      exact List.mem_append_left _ (List.mem_append_left _ hw)
  | stringifier hspecial =>
      rw [hspecial]
      exact hw

theorem isAsyncIterable_eq (hled : o.LedBy qualifier) (h : o.Readable) :
    o.isAsyncIterable = false := by
  by_contra hasync
  rw [Bool.not_eq_false] at hasync
  obtain ⟨special, hspecial, hother⟩ := h.asyncIterable hasync
  cases hled with
  | nothing hnone _ | static hnone _ =>
      rw [hnone] at hspecial
      cases hspecial
  | stringifier hstringifier =>
      rw [hstringifier] at hspecial
      exact hother (Option.some.inj hspecial).symm

end Operation.LedBy

namespace MemberBody

/-- An operation that begins with its type. -/
theorem reads_plain_operation {o : Operation} {qualifier : Option Qualifier} (h : o.Readable)
    (hproper : AllProper (operation o).glyphs) (hled : o.LedBy qualifier) (rest : List Glyph) :
    Reads parse (Qualifier.glyphs qualifier ++ (o.result.glyphs ++ (o.tailGlyphs ++ rest))) rest
      (· = operation o) := by
  have hread := reads_operation h hproper rest
  obtain ⟨g, gs, hglyphs, hkind⟩ := o.result.head_kind
  have hhead : (o.result.glyphs ++ (o.tailGlyphs ++ rest)).head? = o.result.glyphs.head? := by
    rw [hglyphs]
    rfl
  have hreserved {w : String} (hw : w ∈ o.reserved) :
      (o.result.glyphs ++ (o.tailGlyphs ++ rest)).head? ≠ some (word w) := by
    rw [hhead]
    exact h.reserved w hw
  have hrole (hspecial : o.special = none) :
      Reads Special.parse? (o.result.glyphs ++ (o.tailGlyphs ++ rest))
        (o.result.glyphs ++ (o.tailGlyphs ++ rest)) (· = none) := by
    refine Special.reads_none fun w hw => hreserved ?_
    rw [Operation.reserved, hspecial]
    exact List.mem_append_left _ (List.mem_append_right _ hw)
  refine reads_front _ ?_ ?_ ?_
    (reads_behind_operation ?_ (fun w hw => hreserved (hled.mem_reserved hw)) ?_ ?_)
  · rintro rfl w hw
    refine hreserved ?_
    cases hled with
    | nothing hspecial hstatic =>
        rw [Operation.reserved, hspecial, hstatic]
        exact List.mem_append_right _ hw
  · rintro rfl hword g hg hparen
    rw [hhead] at hword
    rcases h.second_kind hword (by decide) rest g hg with rfl | ⟨-, name, -, rfl⟩ | ⟨hname, -⟩
    · cases hparen
    · cases hparen
    · cases hled with
      | nothing hspecial _ => exact h.nameless hname hspecial
  · rintro - g hg hsemicolon
    rw [hhead, hglyphs] at hg
    obtain rfl := Option.some.inj hg
    rw [hsemicolon] at hkind
    simp at hkind
  · rintro rfl
    cases hled
  · intro hword hsecond
    rw [hhead] at hword
    rcases h.second_kind hword (by decide) rest _ hsecond with
      hquestion | ⟨hresult, name, hname, heq⟩ | ⟨-, hparen⟩
    · cases hquestion
    · obtain rfl : "iterable" = name := congrArg Glyph.text heq
      have hiterable : o.isAsyncIterable = true := by
        rw [Operation.isAsyncIterable, hresult, hname]
        rfl
      rw [hled.isAsyncIterable_eq h] at hiterable
      cases hiterable
    · cases hparen
  · cases hled with
    | nothing hspecial hstatic | static hspecial hstatic =>
        refine .andThen (hrole hspecial) ?_
        rw [hspecial, hstatic] at hread
        exact hread
    | stringifier hspecial =>
        rw [hspecial, h.static hspecial] at hread
        exact hread

/-- An operation that begins with its role. -/
theorem reads_special_operation {o : Operation} {special : Special} (h : o.Readable)
    (hproper : AllProper (operation o).glyphs) (hspecial : o.special = some special)
    (hother : special ≠ .stringifier) (rest : List Glyph) :
    Reads parse (Qualifier.glyphs (if o.isStatic then some .static else none) ++
      (word special.keyword :: (o.result.glyphs ++ (o.tailGlyphs ++ rest)))) rest
      (· = operation o) := by
  have hread := reads_operation h hproper rest
  have hword {w : String} (hw : w ∉ ["getter", "setter", "deleter"]) :
      (word special.keyword :: (o.result.glyphs ++ (o.tailGlyphs ++ rest))).head?
        ≠ some (word w) := by
    cases special with
    | stringifier => exact absurd rfl hother
    | getter | setter | deleter => exact head_ne_word hw (by decide)
  have hfirst : ∀ w ∈ "const" :: Qualifier.words, w ∉ ["getter", "setter", "deleter"] := by decide
  have hmember : ∀ w ∈ memberWords, w ∉ ["getter", "setter", "deleter"] := by decide
  refine reads_front _ ?_ ?_ ?_ (reads_behind_operation ?_ ?_ ?_ ?_)
  · exact fun _ w hw => hword (hfirst w hw)
  · exact fun _ hconstructor => absurd hconstructor (hword (by decide))
  · intro hstringifier
    cases hstatic : o.isStatic <;> rw [hstatic] at hstringifier <;> cases hstringifier
  · cases o.isStatic <;> simp
  · exact fun w hw => hword (hmember w hw)
  · exact fun hasync => absurd hasync (hword (by decide))
  · rw [hspecial] at hread
    cases hstatic : o.isStatic with
    | true =>
        rw [hstatic] at hread
        exact .andThen (Special.reads_some hother _) hread
    | false =>
        rw [hstatic] at hread
        exact .andThen (Special.reads_some hother _) hread

theorem reads_any_operation {o : Operation} (h : o.Readable) (hproper : AllProper (operation o).glyphs)
    (rest : List Glyph) : Reads parse ((operation o).glyphs ++ rest) rest (· = operation o) := by
  have hglyphs (words : List Glyph) (hwords : (if o.isStatic then [word "static"] else [])
      ++ (o.special.toList.map fun special => word special.keyword) = words) :
      (operation o).glyphs ++ rest = words ++ (o.result.glyphs ++ (o.tailGlyphs ++ rest)) := by
    rw [← hwords]
    simp [glyphs, Operation.tailGlyphs]
  cases hspecial : o.special with
  | none =>
      rw [hglyphs _ rfl, hspecial]
      cases hstatic : o.isStatic with
      | true => exact reads_plain_operation h hproper (.static hspecial hstatic) rest
      | false => exact reads_plain_operation h hproper (.nothing hspecial hstatic) rest
  | some special =>
      by_cases hstringifier : special = .stringifier
      · subst hstringifier
        rw [hglyphs _ rfl, hspecial, h.static hspecial]
        exact reads_plain_operation h hproper (.stringifier hspecial) rest
      · have hread := reads_special_operation h hproper hspecial hstringifier rest
        rw [hglyphs _ rfl, hspecial]
        cases hstatic : o.isStatic <;> rw [hstatic] at hread <;> exact hread

theorem reads_any_attribute {a : Attribute} (htype : a.type.Readable)
    (hname : a.type.goesOnWith (word a.name) = false) (hone : a.HasOneQualifier)
    (hproper : AllProper (MemberBody.attribute a).glyphs) (rest : List Glyph) :
    Reads parse ((MemberBody.attribute a).glyphs ++ rest) rest (· = .attribute a) := by
  -- the qualifier that the flags stand for
  obtain ⟨qualifier, hstatic, hinherited, hstringifier⟩ : ∃ qualifier : Option Qualifier,
      a.isStatic = (qualifier == some .static) ∧ a.isInherited = (qualifier == some .inherit) ∧
        a.isStringifier = (qualifier == some .stringifier) := by
    obtain ⟨hfirst, hsecond⟩ := hone
    cases hs : a.isStatic with
    | true =>
        obtain ⟨hstringifier, hinherited⟩ := hfirst hs
        exact ⟨some .static, rfl, hinherited, hstringifier⟩
    | false =>
        cases ht : a.isStringifier with
        | true => exact ⟨some .stringifier, rfl, hsecond ht, rfl⟩
        | false =>
            cases hi : a.isInherited with
            | true => exact ⟨some .inherit, rfl, rfl, rfl⟩
            | false => exact ⟨none, rfl, rfl, rfl⟩
  have hglyphs : (MemberBody.attribute a).glyphs ++ rest = Qualifier.glyphs qualifier ++
      ((if a.isReadonly then [word "readonly"] else []) ++
        (word "attribute" :: (a.type.glyphs ++ word a.name :: mark .semicolon :: rest))) := by
    rw [glyphs, attributeGlyphs, hstatic, hinherited, hstringifier]
    rcases qualifier with _ | (_ | _ | _) <;> simp [Qualifier.glyphs, Qualifier.keyword]
  have hword {w : String} (hw : w ∉ ["readonly", "attribute"]) :
      ((if a.isReadonly then [word "readonly"] else []) ++ (word "attribute" ::
        (a.type.glyphs ++ word a.name :: mark .semicolon :: rest))).head? ≠ some (word w) := by
    cases a.isReadonly <;> exact head_ne_word hw (by decide)
  have hfirst : ∀ w ∈ "const" :: Qualifier.words, w ∉ ["readonly", "attribute"] := by decide
  rw [hglyphs]
  refine reads_front _ ?_ ?_ ?_
    (reads_behind_attribute htype hname hproper hstatic hinherited hstringifier rest)
  · exact fun _ w hw => hword (hfirst w hw)
  · exact fun _ hconstructor => absurd hconstructor (hword (by decide))
  · rintro - g hg hsemicolon
    cases hreadonly : a.isReadonly <;> rw [hreadonly] at hg <;> cases hg <;> cases hsemicolon

theorem reads_any_iteration {i : Iteration} (h : i.Readable) (hproper : AllProper (iteration i).glyphs)
    (rest : List Glyph) : Reads parse ((iteration i).glyphs ++ rest) rest (· = iteration i) := by
  have hglyphs : (iteration i).glyphs
      = (if i.isReadonly then [word "readonly"] else []) ++ iterationGlyphs i := rfl
  rw [hglyphs, allProper_append] at hproper
  have hword {w : String} (hw : w ∉ ["readonly", "iterable", "async", "maplike", "setlike"]) :
      ((if i.isReadonly then [word "readonly"] else []) ++ (iterationGlyphs i ++ rest)).head?
        ≠ some (word w) := by
    cases i.isReadonly with
    | true => exact head_ne_word hw (by decide)
    | false =>
        rw [iterationGlyphs]
        cases i.kind <;> exact head_ne_word hw (by decide)
  have hfirst : ∀ w ∈ "const" :: Qualifier.words,
      w ∉ ["readonly", "iterable", "async", "maplike", "setlike"] := by
    decide
  rw [hglyphs, List.append_assoc]
  refine reads_front none ?_ ?_ (by simp) (reads_behind_iteration h hproper.2 rest)
  · exact fun _ w hw => hword (hfirst w hw)
  · exact fun _ hconstructor => absurd hconstructor (hword (by decide))

/-- A readable member body is read from its glyphs, whatever comes after it. -/
theorem reads : {body : MemberBody} → {inDictionary : Bool} → body.Readable inDictionary →
    AllProper body.glyphs → ∀ rest : List Glyph,
      Reads (if inDictionary then parseField else parse) (body.glyphs ++ rest) rest (· = body)
  | _, _, .field htype hname hfirst, hproper, rest => reads_field htype hname hfirst hproper rest
  | _, _, .attribute htype hname hone, hproper, rest =>
      reads_any_attribute htype hname hone hproper rest
  | _, _, .operation h, hproper, rest => reads_any_operation h hproper rest
  | _, _, .iteration h, hproper, rest => reads_any_iteration h hproper rest
  | _, _, .const htype hname, hproper, rest => by
      have hread := reads_const htype hname hproper rest
      simp only [glyphs, List.cons_append, List.append_assoc]
      exact .ite_true .eatWord hread
  | _, _, .constructor hargs, hproper, rest => by
      simp only [glyphs, allProper_cons, allProper_append] at hproper
      simp only [glyphs, List.cons_append, List.append_assoc]
      refine .ite_false (.eatWord_other (by decide)) ?_
      refine .ite_true (.look fun c hc => ?_) (.bind .advance fun _ _ => ?_)
      · rw [Bool.and_eq_true, Cursor.atWord_iff, Cursor.beforeKind_iff, hc]
        exact ⟨rfl, _, rfl, rfl⟩
      · exact reads_constructor hargs hproper.2.1 rest
  | _, _, .stringifier, _, rest => by
      refine .ite_false (.eatWord_other (by decide)) ?_
      refine .ite_false (.look fun c hc => ?_) ?_
      · rw [Bool.and_eq_false_iff, Bool.eq_false_iff, ne_eq, Cursor.atWord_iff, hc]
        exact .inl fun h => absurd (Option.some.inj h) (by decide)
      refine .andThen (Qualifier.reads (some .stringifier) (by simp)) ?_
      exact .ite_true (.eat rfl) (.pure rfl)

end MemberBody

theorem MemberBody.head_kind (body : MemberBody) : ∃ g gs, body.glyphs = g :: gs ∧
    (g.kind = .identifier ∨ g.kind = .parenOpen ∨ g.kind = .bracketOpen) := by
  rcases body with _ | a | o | _ | f | ⟨kind, isReadonly, key, value, args⟩ | _
  · exact ⟨_, _, rfl, .inl rfl⟩
  · rw [glyphs, attributeGlyphs]
    cases a.isStatic <;> cases a.isStringifier <;> cases a.isInherited <;> cases a.isReadonly <;>
      exact ⟨_, _, rfl, .inl rfl⟩
  · obtain ⟨g, gs, hglyphs, hkind⟩ := o.result.head_kind
    rw [glyphs]
    cases o.isStatic with
    | true => exact ⟨_, _, rfl, .inl rfl⟩
    | false =>
        cases o.special with
        | some special => exact ⟨_, _, rfl, .inl rfl⟩
        | none =>
            rw [hglyphs]
            exact ⟨g, _, rfl, hkind⟩
  · exact ⟨_, _, rfl, .inl rfl⟩
  · obtain ⟨g, gs, hglyphs, hkind⟩ := f.type.head_kind
    rw [glyphs]
    cases f.isRequired with
    | true => exact ⟨_, _, rfl, .inl rfl⟩
    | false =>
        rw [hglyphs]
        exact ⟨g, _, rfl, hkind⟩
  · cases isReadonly with
    | true => exact ⟨_, _, rfl, .inl rfl⟩
    | false => cases kind <;> exact ⟨_, _, rfl, .inl rfl⟩
  · exact ⟨_, _, rfl, .inl rfl⟩

namespace Member

theorem head_kind (m : Member) : ∃ g gs, m.glyphs = g :: gs ∧
    (g.kind = .identifier ∨ g.kind = .parenOpen ∨ g.kind = .bracketOpen) := by
  rw [glyphs]
  cases m.extAttrs with
  | nil => exact m.body.head_kind
  | cons attr rest => exact ⟨_, _, rfl, .inr (.inr rfl)⟩

/-- A readable member is read from its glyphs, up to its place. -/
theorem reads {m : Member} {inDictionary : Bool} (h : m.Readable inDictionary)
    (hproper : AllProper m.glyphs) (rest : List Glyph) :
    Reads (Member.parse inDictionary) (m.glyphs ++ rest) rest (·.unplaced = m.unplaced) := by
  rw [glyphs, allProper_append] at hproper
  have hbody := MemberBody.reads h.body hproper.2 rest
  have hbracket : m.extAttrs = [] → ∀ g ∈ (m.body.glyphs ++ rest).head?, g.kind ≠ .bracketOpen := by
    intro hnil
    have hbare := h.bare hnil
    obtain ⟨g, gs, hglyphs, -⟩ := m.body.head_kind
    rw [hglyphs] at hbare ⊢
    exact hbare
  unfold Member.parse
  rw [glyphs, List.append_assoc]
  refine .bind .look_any fun first _ => ?_
  refine .andThen (ExtendedAttribute.reads_list h.extAttrs hproper.1 hbracket) ?_
  cases inDictionary with
  | true =>
      refine .andThen hbody (.bind .look_any fun span _ => ?_)
      exact .pure (unplaced_eq_iff.2 ⟨rfl, rfl⟩)
  | false =>
      refine .andThen hbody (.bind .look_any fun span _ => ?_)
      exact .pure (unplaced_eq_iff.2 ⟨rfl, rfl⟩)

end Member

end IdlBindings
