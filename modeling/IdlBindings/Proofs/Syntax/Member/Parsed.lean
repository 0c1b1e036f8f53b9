import IdlBindings.Proofs.Syntax.Member.Reading
import IdlBindings.Proofs.Syntax.Type.Parsed

/-!
The tokens that are taken for a member fill its slots, and it is readable unless a name is escaped.
What a member must not begin with, for its form to be told apart, is what the tests before that form
did not find.
-/

namespace IdlBindings

open Parse Glyph Cursor
open Slot (exactly)

/-- A member that was read, without its extended attributes. -/
def MemberBody.Parsed (inDictionary : Bool) (c : Cursor) (body : MemberBody) (d : Cursor) : Prop :=
  c.Parsed body.slots (body.Readable inDictionary) d

/-! ### The words at the front -/

theorem Qualifier.gives (c : Cursor) : Gives Qualifier.parse? c fun qualifier d =>
    Took c (glyphs qualifier) d ∧ (qualifier = none →
      d = c ∧ ∀ w ∈ Qualifier.words, c.glyphs.head? ≠ some (word w)) := by
  unfold parse?
  refine .ite_eatWord (by decide) (fun d hd => .pure ⟨hd, by simp⟩) fun hstatic => ?_
  refine .ite_eatWord (by decide) (fun d hd => .pure ⟨hd, by simp⟩) fun hstringifier => ?_
  refine .ite_eatWord (by decide) (fun d hd => .pure ⟨hd, by simp⟩) fun hinherit => ?_
  refine .pure ⟨.refl, fun _ => ⟨rfl, ?_⟩⟩
  simpa [Qualifier.words] using ⟨hstatic, hstringifier, hinherit⟩

/-- The words of special roles that are tried. -/
def Special.words : List String := ["getter", "setter", "deleter"]

def Special.glyphs (special : Option Special) : List Glyph :=
  special.toList.map fun special => word special.keyword

theorem Special.gives (c : Cursor) : Gives Special.parse? c fun special d =>
    Took c (glyphs special) d ∧ special ≠ some .stringifier ∧ (special = none →
      d = c ∧ ∀ w ∈ Special.words, c.glyphs.head? ≠ some (word w)) := by
  unfold parse?
  refine .ite_eatWord (by decide) (fun d hd => .pure ⟨hd, by simp, by simp⟩) fun hgetter => ?_
  refine .ite_eatWord (by decide) (fun d hd => .pure ⟨hd, by simp, by simp⟩) fun hsetter => ?_
  refine .ite_eatWord (by decide) (fun d hd => .pure ⟨hd, by simp, by simp⟩) fun hdeleter => ?_
  refine .pure ⟨.refl, by simp, fun _ => ⟨rfl, ?_⟩⟩
  simpa [Special.words] using ⟨hgetter, hsetter, hdeleter⟩

theorem IterationKind.gives (c : Cursor) : Gives IterationKind.parse c fun kind d =>
    Took c (MemberBody.iterationWords kind) d := by
  unfold parse
  refine .ite_eatWord (by decide) (fun d hd => .pure hd) fun _ => ?_
  refine .ite_eatWord (by decide) (fun d hd => ?_) fun _ => ?_
  · exact (Gives.expectWord (by decide)).bind fun _ e he => .pure (hd.cons he)
  refine .ite_eatWord (by decide) (fun d hd => .pure hd) fun _ => ?_
  exact (Gives.expectWord (by decide)).bind fun _ d hd => .pure hd

/-- The flag `readonly`. -/
def readonlyGlyphs (isReadonly : Bool) : List Glyph :=
  if isReadonly then [word "readonly"] else []

/-- An operation may begin with the word `undefined`. -/
theorem Operation.ne_undefined_of_mem_reserved {o : Operation} {w : String}
    (h : w ∈ o.reserved) : word w ≠ word "undefined" := by
  have hall : ∀ w ∈ MemberBody.memberWords ++ ["getter", "setter", "deleter"]
      ++ ["const", "static", "stringifier", "inherit"], word w ≠ word "undefined" := by decide
  apply hall w
  unfold Operation.reserved at h
  split at h
  · exact List.mem_append_left _ (List.mem_append_left _ h)
  · cases h
  · split at h
    · exact List.mem_append_left _ (by simpa using h)
    · exact h

namespace MemberBody

theorem gives_semicolon (c : Cursor) :
    Gives semicolon c fun _ d => Took c [mark .semicolon] d :=
  .expect (by decide)

/-! ### Constants, attributes and constructors -/

theorem gives_const {c d : Cursor} (hc : c.Took [word "const"] d) :
    Gives parseConst d (MemberBody.Parsed false c) := by
  unfold parseConst
  refine (IdlType.gives d).bind fun type d₁ htype => ?_
  refine Gives.readName.bind fun name d₂ hread => ?_
  obtain ⟨hname, hplain⟩ := hread
  refine (Gives.expect (by decide)).bind fun _ d₃ hequals => ?_
  refine (ConstValue.gives d₃).bind fun value d₄ hvalue => ?_
  refine (gives_semicolon d₄).bind fun _ last hlast => .pure ?_
  have htail := (hvalue.before hlast).after (hname.append hequals)
  have hall := (htype.parsed.append htail).after hc
  exact hall.holding fun _ hc' hholds =>
    .const hholds.1 (htype.goesOnWith hplain (hc.plain hc'))

/-- A qualifier stands in front of an attribute as one of its flags. -/
theorem attributeGlyphs_eq (name : String) (type : IdlType) (isReadonly : Bool)
    (qualifier : Option Qualifier) :
    attributeGlyphs ⟨name, type, isReadonly, qualifier == some .static, qualifier == some .inherit,
      qualifier == some .stringifier⟩
      = Qualifier.glyphs qualifier ++ (readonlyGlyphs isReadonly ++ [word "attribute"]) := by
  cases qualifier with
  | none => rfl
  | some qualifier => cases qualifier <;> rfl

theorem gives_attribute {c d : Cursor} {qualifier : Option Qualifier} {isReadonly : Bool}
    (hc : c.Took (Qualifier.glyphs qualifier ++ (readonlyGlyphs isReadonly
      ++ [word "attribute"])) d) :
    Gives (parseAttribute qualifier isReadonly) d (MemberBody.Parsed false c) := by
  unfold parseAttribute
  refine (IdlType.gives d).bind fun type d₁ htype => ?_
  refine Gives.readName.bind fun name d₂ hread => ?_
  obtain ⟨hname, hplain⟩ := hread
  refine (gives_semicolon d₂).bind fun _ last hlast => .pure ?_
  rw [← attributeGlyphs_eq name type] at hc
  have hall := (htype.parsed.before (hname.append hlast)).after hc
  refine hall.holding fun _ hc' htype' => ?_
  refine .attribute htype' (htype.goesOnWith hplain (hc.plain hc')) ?_
  cases qualifier with
  | none => exact ⟨by simp, by simp⟩
  | some qualifier => cases qualifier <;> simp [Attribute.HasOneQualifier]

theorem gives_constructor {c d : Cursor} (hc : c.Took [word "constructor"] d) :
    Gives parseConstructor d (MemberBody.Parsed false c) := by
  unfold parseConstructor
  refine (Argument.gives_list d).bind fun args d₁ hargs => ?_
  refine (gives_semicolon d₁).bind fun _ last hlast => .pure ?_
  exact ((hargs.before hlast).after hc).mono .constructor

/-! ### Operations -/

/-- An operation that begins like an iteration stands where one is looked for. -/
theorem atIteration_of_isAsyncIterable {o : Operation} {d d₁ d₂ : Cursor}
    (hresult : IdlType.Parsed d o.result d₁)
    (hplain : ∀ text ∈ o.name, d₁.Plain → d₁.glyphs = word text :: d₂.glyphs)
    (hlexed : d.Lexed) (hd : d.Plain) (h : o.isAsyncIterable = true) : d.atIteration = true := by
  obtain ⟨name, result, args, isStatic, special⟩ := o
  unfold Operation.isAsyncIterable at h
  dsimp only at h hresult hplain
  split at h
  · have hfirst := hresult.parsed
    rw [IdlType.slots] at hfirst
    have hsecond := hplain "iterable" rfl (hfirst.plain hd)
    rw [atIteration_iff, hfirst.took.glyphs_eq hlexed hd, hsecond]
    exact .inr ⟨rfl, rfl⟩
  · cases h

/-- An operation behind its qualifiers. The tests before it have not found what its type must not
begin with. -/
theorem gives_operation {c d : Cursor} (isStatic : Bool) {special : Option Special}
    (hc : c.Took ((if isStatic then [word "static"] else []) ++ Special.glyphs special) d)
    (hstatic : special = some .stringifier → isStatic = false)
    (hreserved : ∀ o : Operation, o.isStatic = isStatic → o.special = special →
      ∀ w ∈ o.reserved, d.glyphs.head? ≠ some (word w))
    (hasync : (∃ role ∈ special, role ≠ .stringifier) ∨ d.atIteration = false) :
    Gives (parseOperation isStatic special) d (MemberBody.Parsed false c) := by
  unfold parseOperation
  refine (IdlType.gives d).bind fun result d₁ hresult => ?_
  -- the arguments, behind the name if there is one
  have hend {name : Option String} {d₂ : Cursor} (hname : d₁.Took (name.toList.map word) d₂)
      (hplain : ∀ text ∈ name, d₁.Plain → d₁.glyphs = word text :: d₂.glyphs) :
      Gives (do
        if name.isNone && special.isNone then
          fail .expectedIdentifier
        else
          let args ← Argument.parseList
          semicolon
          return operation ⟨name, result, args, isStatic, special⟩) d₂
        (MemberBody.Parsed false c) := by
    cases hnameless : name.isNone && special.isNone with
    | true => exact .fail
    | false =>
        refine (Argument.gives_list d₂).bind fun args d₃ hargs => ?_
        refine (gives_semicolon d₃).bind fun _ last hlast => .pure ?_
        have hall := ((hresult.parsed.before hname).append (hargs.before hlast)).after hc
        have hslots : (operation ⟨name, result, args, isStatic, special⟩).slots
            = exactly ((if isStatic then [word "static"] else []) ++ Special.glyphs special)
              ++ ((result.slots ++ exactly (name.toList.map word))
                ++ (Argument.listSlots args ++ exactly [mark .semicolon])) := by
          simp only [slots, Special.glyphs, List.append_assoc]
        rw [MemberBody.Parsed, hslots]
        refine hall.holding fun hlexed hc' hholds => .operation ?_
        have hd := hc.lexed hlexed
        have hd' := hc.plain hc'
        obtain ⟨hresult', hargs'⟩ := hholds
        exact
          { result := hresult'
            args := hargs'
            name := fun text htext => hresult.goesOnWith (hplain text htext) hd'
            nameless := by
              rintro rfl rfl
              cases hnameless
            static := hstatic
            reserved := by
              intro w hw hhead
              have hslot := IdlType.head?_slots hhead (Operation.ne_undefined_of_mem_reserved hw)
              exact hreserved _ rfl rfl w hw (hresult.parsed.head? hd hd' hslot)
            asyncIterable := by
              intro hiterable
              rcases hasync with hrole | hother
              · exact hrole
              · rw [atIteration_of_isAsyncIterable hresult hplain hd hd' hiterable] at hother
                cases hother }
  refine .optionally .atKind (fun _ => hend .refl (by simp)) ?_
  rintro _ rfl
  refine Gives.readName.mono fun name e h => hend h.1 ?_
  rintro _ ⟨⟩
  exact h.2

/-! ### Iterations -/

theorem gives_iterationTypes (kind : IterationKind) (c : Cursor) :
    Gives (parseIterationTypes kind) c fun types d =>
      c.Parsed (Iteration.typesSlots types.1 types.2)
          ((∀ type ∈ types.1, type.Readable) ∧ types.2.Readable) d ∧
        (kind = .maplike → types.1.isSome = true) ∧ (kind = .setlike → types.1 = none) := by
  unfold parseIterationTypes
  refine (IdlType.gives c).bind fun first d hfirst => ?_
  have hone : c.Parsed (Iteration.typesSlots none first)
      ((∀ type ∈ (none : Option IdlType), type.Readable) ∧ first.Readable) d := by
    have hslots : Iteration.typesSlots none first = first.slots := by
      simp [Iteration.typesSlots, Slot.joined]
    rw [hslots]
    exact hfirst.parsed.mono fun h => ⟨by simp, h⟩
  have htwo {d' : Cursor} (hcomma : d.Took [mark .comma] d') :
      Gives IdlType.parse d' fun second e => c.Parsed (Iteration.typesSlots (some first) second)
        ((∀ type ∈ some first, type.Readable) ∧ second.Readable) e := by
    refine (IdlType.gives d').mono fun second e hsecond => ?_
    have hslots : Iteration.typesSlots (some first) second
        = first.slots ++ (exactly [mark .comma] ++ second.slots) := by
      simp [Iteration.typesSlots, Slot.joined, exactly]
    rw [hslots]
    refine (hfirst.parsed.append (hsecond.parsed.after hcomma)).mono fun h => ⟨?_, h.2⟩
    rintro _ ⟨⟩
    exact h.1
  cases kind with
  | maplike =>
      refine (Gives.expect (by decide)).bind fun _ d' hcomma => ?_
      exact (htwo hcomma).bind fun second e h => .pure ⟨h, fun _ => rfl, by simp⟩
  | setlike => exact .pure ⟨hone, by simp, fun _ => rfl⟩
  | iterable | asyncIterable =>
      refine .ite_eat (by decide) (fun d' hcomma => ?_) fun _ => .pure ⟨hone, by simp, by simp⟩
      exact (htwo hcomma).bind fun second e h => .pure ⟨h, by simp, by simp⟩

/-- An iteration behind what stands in front of it. -/
theorem gives_iteration {isReadonly : Bool} {c c' d : Cursor}
    (hfront : c.Parsed [.iterationFront isReadonly] True c')
    (hreadonly : c'.Took (readonlyGlyphs isReadonly) d)
    (hkind : isReadonly = true → d.atWord "maplike" = true ∨ d.atWord "setlike" = true) :
    Gives (parseIteration isReadonly) d (MemberBody.Parsed false c) := by
  unfold parseIteration
  refine (IterationKind.gives d).bind fun kind d₁ hwords => ?_
  refine (Gives.expect (by decide)).bind fun _ d₂ hopen => ?_
  refine (gives_iterationTypes kind d₂).bind ?_
  rintro ⟨key, value⟩ d₃ ⟨htypes, hmaplike, hsetlike⟩
  refine (Gives.expect (by decide)).bind fun _ d₄ hclose => ?_
  -- what follows the closing bracket, with the arguments that are printed
  have hend {args : List Argument} {e : Cursor}
      (hargs : d₄.Parsed (Iteration.argsSlots ⟨kind, isReadonly, key, value, args⟩)
        (∀ arg ∈ args, arg.Readable) e)
      (hasync : args ≠ [] → kind = .asyncIterable) :
      Gives semicolon e fun _ last => MemberBody.Parsed false c
        (.iteration ⟨kind, isReadonly, key, value, args⟩) last := by
    refine (gives_semicolon e).mono fun _ last hlast => ?_
    have htail := htypes.append ((hargs.before hlast).after hclose)
    have hall := hfront.append (htail.after (hreadonly.append (hwords.append hopen)))
    refine hall.holding fun hlexed hplain hholds => .iteration ?_
    obtain ⟨-, ⟨hkey, hvalue⟩, hargs'⟩ := hholds
    exact
      { key := hkey
        value := hvalue
        args := hargs'
        maplike := hmaplike
        setlike := hsetlike
        readonly := by
          intro hisReadonly
          -- the words that were looked for are those of the kind
          have hword := hkind hisReadonly
          rw [atWord_iff, atWord_iff] at hword
          have hd := hreadonly.lexed (hfront.lexed hlexed)
          have hd' := hreadonly.plain (hfront.plain hplain)
          cases kind with
          | maplike => exact .inl rfl
          | setlike => exact .inr rfl
          | iterable | asyncIterable =>
              rw [hwords.glyphs_eq hd hd'] at hword
              rcases hword with hword | hword <;>
                exact absurd (Option.some.inj hword) (by decide)
        async := hasync }
  refine .ite_look (fun harguments => ?_) fun _ => ?_
  · rw [Bool.and_eq_true, beq_iff_eq] at harguments
    obtain ⟨rfl, -⟩ := harguments
    refine (Argument.gives_list d₄).bind fun args e hargs => ?_
    refine (hend ?_ fun _ => rfl).bind fun _ last hlast => .pure hlast
    cases args with
    | nil =>
        have htook : d₄.Took [mark .parenOpen, mark .parenClose] e := hargs.took
        exact (Cursor.Parsed.of_took htook (by decide)).mono fun _ => List.forall_mem_nil _
    | cons arg rest => exact hargs
  · refine (hend ?_ (absurd rfl)).bind fun _ last hlast => .pure hlast
    cases kind with
    | asyncIterable =>
        have hnone : d₄.Parsed [.noArguments] True d₄ := .of_took .refl (by decide)
        exact hnone.mono fun _ => List.forall_mem_nil _
    | iterable | maplike | setlike => exact .refl (List.forall_mem_nil _)

/-- A qualifier before an iteration is not printed. -/
theorem parsed_front {c d : Cursor} {qualifier : Option Qualifier} {isReadonly : Bool}
    (h : c.Took (Qualifier.glyphs qualifier) d)
    (hinherit : qualifier = some .inherit → isReadonly = true) :
    c.Parsed [.iterationFront isReadonly] True d := by
  refine .of_took h ?_
  cases qualifier with
  | none => exact List.mem_cons_self
  | some qualifier =>
      cases qualifier with
      | static => exact List.mem_cons_of_mem _ List.mem_cons_self
      | stringifier => exact List.mem_cons_of_mem _ (List.mem_cons_of_mem _ List.mem_cons_self)
      | inherit =>
          obtain rfl := hinherit rfl
          decide

/-! ### Members -/

/-- Where neither `readonly` nor `attribute` nor an iteration stands, no word stands that a member can
begin with behind its qualifiers. -/
theorem head_ne_memberWords {c : Cursor} (hreadonly : c.glyphs.head? ≠ some (word "readonly"))
    (hattribute : c.glyphs.head? ≠ some (word "attribute")) (hiteration : c.atIteration = false) :
    ∀ w ∈ memberWords, c.glyphs.head? ≠ some (word w) := by
  have hother : ¬ c.atIteration = true := by
    rw [hiteration]
    decide
  rw [atIteration_iff, not_or, not_exists] at hother
  simp only [memberWords, List.forall_mem_cons]
  refine ⟨hreadonly, hattribute, ?_, ?_, ?_, List.forall_mem_nil _⟩
  · exact fun h => hother.1 "iterable" ⟨by decide, h⟩
  · exact fun h => hother.1 "maplike" ⟨by decide, h⟩
  · exact fun h => hother.1 "setlike" ⟨by decide, h⟩

/-- The part behind a qualifier. Before it, no word was found that an operation must not begin
with. -/
theorem gives_qualified {c d₀ d : Cursor} {qualifier : Option Qualifier} {isReadonly : Bool}
    (hqualifier : c.Took (Qualifier.glyphs qualifier) d₀)
    (hreadonly : d₀.Took (readonlyGlyphs isReadonly) d)
    (hfirst : isReadonly = false → d₀ = d ∧ d.glyphs.head? ≠ some (word "readonly"))
    (hnone : qualifier = none → ∀ w ∈ "const" :: Qualifier.words,
      d₀.glyphs.head? ≠ some (word w)) :
    Gives (parseQualified qualifier isReadonly) d (MemberBody.Parsed false c) := by
  unfold parseQualified
  refine .ite_eatWord (by decide) (fun e he => ?_) fun hattribute => ?_
  · exact gives_attribute (hqualifier.append (hreadonly.append he))
  cases hstop : isReadonly || qualifier == some .inherit with
  | true => exact .unexpected
  | false =>
      rw [Bool.or_eq_false_iff, beq_eq_false_iff_ne] at hstop
      obtain ⟨rfl, hinherit⟩ := hstop
      obtain ⟨rfl, hreadonly'⟩ := hfirst rfl
      refine .ite_look (fun _ => ?_) fun hiteration => ?_
      · exact gives_iteration (parsed_front hqualifier (absurd · hinherit)) .refl (by simp)
      have hmember := head_ne_memberWords hreadonly' hattribute hiteration
      cases hstringifier : qualifier == some .stringifier with
      | true =>
          rw [beq_iff_eq] at hstringifier
          subst hstringifier
          refine gives_operation false hqualifier (fun _ => rfl) ?_ (.inr hiteration)
          rintro o - hspecial w hw
          rw [Operation.reserved, hspecial] at hw
          exact hmember w hw
      | false =>
          rw [beq_eq_false_iff_ne] at hstringifier
          have hstatic : Qualifier.glyphs qualifier
              = if qualifier == some .static then [word "static"] else [] := by
            cases qualifier with
            | none => rfl
            | some qualifier => cases qualifier <;> first | rfl | contradiction
          rw [hstatic] at hqualifier
          refine (Special.gives d₀).bind fun special d hread => ?_
          obtain ⟨hspecial, hrole, hwords⟩ := hread
          refine gives_operation _ (hqualifier.append hspecial) (absurd · hrole) ?_ ?_
          · rintro o ho hsame w hw hhead
            cases special with
            | some role =>
                cases role with
                | stringifier => exact hrole rfl
                | getter | setter | deleter =>
                    rw [Operation.reserved, hsame] at hw
                    cases hw
            | none =>
                obtain ⟨rfl, hroles⟩ := hwords rfl
                rw [Operation.reserved, hsame, ho, List.mem_append, List.mem_append] at hw
                rcases hw with (hw | hw) | hw
                · exact hmember w hw hhead
                · exact hroles w hw hhead
                · cases hplain : qualifier with
                  | none =>
                      rw [hplain] at hw
                      exact hnone hplain w hw hhead
                  | some qualifier =>
                      rw [hplain] at hw hstringifier hinherit
                      cases qualifier <;> contradiction
          · cases special with
            | none => exact .inr ((hwords rfl).1 ▸ hiteration)
            | some role => exact .inl ⟨role, rfl, fun h => hrole (congrArg some h)⟩

theorem gives (c : Cursor) : Gives parse c (MemberBody.Parsed false c) := by
  unfold parse
  refine .ite_eatWord (by decide) (fun d hd => gives_const hd) fun hconst => ?_
  refine .ite_look (fun hconstructor => ?_) fun _ => ?_
  · refine Gives.advance.bind ?_
    rintro _ _ rfl
    rw [Bool.and_eq_true, atWord_iff] at hconstructor
    exact gives_constructor (.word hconstructor.1 (by decide))
  refine (Qualifier.gives c).bind fun qualifier d hread => ?_
  obtain ⟨hqualifier, hnone⟩ := hread
  -- the part from the word `readonly` on
  have hbehind : Gives (do
      if ← eatWord "readonly" then
        if ← look fun c => c.atWord "maplike" || c.atWord "setlike" then
          parseIteration true
        else
          parseQualified qualifier true
      else
        parseQualified qualifier false) d (MemberBody.Parsed false c) := by
    have hplain : qualifier = none → ∀ w ∈ "const" :: Qualifier.words,
        d.glyphs.head? ≠ some (word w) := by
      intro hq
      obtain ⟨rfl, hwords⟩ := hnone hq
      exact List.forall_mem_cons.2 ⟨hconst, hwords⟩
    refine .ite_eatWord (by decide) (fun e he => ?_) fun hother => ?_
    · refine .ite_look (fun hfront => ?_) fun _ => ?_
      · rw [Bool.or_eq_true] at hfront
        exact gives_iteration (parsed_front hqualifier fun _ => rfl) he fun _ => hfront
      · exact gives_qualified hqualifier he (by simp) hplain
    · exact gives_qualified hqualifier .refl (fun _ => ⟨rfl, hother⟩) hplain
  cases hstringifier : qualifier == some .stringifier with
  | false => exact hbehind
  | true =>
      rw [beq_iff_eq] at hstringifier
      subst hstringifier
      refine .ite_eat (by decide) (fun e he => .pure ?_) fun _ => hbehind
      exact (Cursor.Parsed.exactly (hqualifier.append he)).mono fun _ => .stringifier

/-- A member of a dictionary. -/
theorem gives_field (c : Cursor) : Gives parseField c (MemberBody.Parsed true c) := by
  unfold parseField
  refine (Gives.eatWord (by decide)).bind fun isRequired d hrequired => ?_
  refine (IdlType.gives d).bind fun type d₁ htype => ?_
  refine Gives.readName.bind fun name d₂ hread => ?_
  obtain ⟨hname, hplain⟩ := hread
  have hfront : c.Took (if isRequired then [word "required"] else []) d ∧
      (isRequired = false → d = c ∧ c.glyphs.head? ≠ some (word "required")) := by
    rcases hrequired with ⟨rfl, hword⟩ | ⟨rfl, rfl, hword⟩
    · exact ⟨hword, by simp⟩
    · exact ⟨.refl, fun _ => ⟨rfl, hword⟩⟩
  have hend {default : Option DefaultValue} {e : Cursor}
      (hdefault : d₂.Parsed (Slot.assigned (default.map DefaultValue.slots)) True e) :
      Gives (do semicolon; return field ⟨name, type, isRequired, default⟩) e
        (MemberBody.Parsed true c) := by
    refine (gives_semicolon e).bind fun _ last hlast => .pure ?_
    have htail := (hdefault.before hlast).after hname
    have hall := (htype.parsed.append htail).after hfront.1
    refine hall.holding fun hlexed hc hholds => ?_
    refine .field hholds.1 (htype.goesOnWith hplain (hfront.1.plain hc)) ?_
    intro hoptional hhead
    obtain ⟨rfl, hword⟩ := hfront.2 hoptional
    exact hword (htype.parsed.head? hlexed hc (IdlType.head?_slots hhead (by decide)))
  refine .optionally (.eat (by decide)) (fun _ => hend (.refl trivial)) fun d₃ hd₃ => ?_
  exact (DefaultValue.gives d₃).mono fun value last hvalue => hend (hvalue.after hd₃)

end MemberBody

theorem Member.gives (inDictionary : Bool) (c : Cursor) :
    Gives (Member.parse inDictionary) c fun m d =>
      c.Parsed m.slots (m.Readable inDictionary) d := by
  unfold parse
  refine Gives.look.bind ?_
  rintro first d₀ ⟨-, rfl⟩
  refine (ExtendedAttribute.gives_list d₀).bind fun extAttrs d hread => ?_
  obtain ⟨hattrs, hnone⟩ := hread
  have hend {body : MemberBody} {e : Cursor} (hbody : body.Parsed inDictionary d e) :
      Gives (do return Member.mk body extAttrs (← spanFrom first)) e fun m d =>
        d₀.Parsed m.slots (m.Readable inDictionary) d := by
    refine Gives.look.bind ?_
    rintro span last ⟨-, rfl⟩
    refine .pure ((hattrs.append hbody).holding fun hlexed hplain hholds => ?_)
    refine ⟨hholds.2, hholds.1, fun hnil g hg hkind => ?_⟩
    obtain ⟨rfl, hbracket⟩ := hnone hnil
    have hslot := MemberBody.head?_slots hg hkind
    exact hbracket g (hbody.head? hlexed hplain hslot) hkind
  cases inDictionary with
  | true => exact (MemberBody.gives_field d).bind fun body e hbody => hend hbody
  | false => exact (MemberBody.gives d).bind fun body e hbody => hend hbody

end IdlBindings
