import IdlBindings.Proofs.Syntax.Definition.Reading
import IdlBindings.Proofs.Syntax.Member.Parsed

/-!
The tokens that are taken for a definition fill its slots, and it is readable unless a name is
escaped.
-/

namespace IdlBindings

open Parse Glyph Cursor
open Slot (exactly)

/-- A definition that was read, without its extended attributes. -/
def DefinitionBody.Parsed (c : Cursor) (named : NamedBody) (d : Cursor) : Prop :=
  c.Parsed (named.2.slots named.1) (named.2.Readable named.1) d

namespace DefinitionBody

/-! ### Containers -/

theorem gives_eatIf {allowed : Bool} {kind : TokenKind} (hmark : markText kind ≠ "") (c : Cursor) :
    Gives (eatIf allowed kind) c fun b d =>
      (b = true ∧ allowed = true ∧ Took c [mark kind] d) ∨ (b = false ∧ d = c ∧ True) := by
  cases allowed with
  | true =>
      refine (Gives.eat hmark).mono fun b d h => ?_
      rcases h with ⟨rfl, htook⟩ | ⟨rfl, rfl, -⟩
      · exact .inl ⟨rfl, rfl, htook⟩
      · exact .inr ⟨rfl, rfl, trivial⟩
  | false => exact .pure (.inr ⟨rfl, rfl, trivial⟩)

theorem gives_members (inDictionary : Bool) (c : Cursor) :
    Gives (repeatWhile (look fun c => !c.atKind .braceClose && !c.rest.isEmpty)
      (Member.parse inDictionary)) c fun members d =>
        c.Parsed (members.flatMap Member.slots) (∀ m ∈ members, m.Readable inDictionary) d := by
  refine (Gives.repeatWhile (fun _ => .look_test _) (Member.gives inDictionary) c).mono ?_
  intro members d h
  refine h.parsed [] ?_ fun _ _ _ h => h
  rintro _ _ rfl
  exact .refl

theorem gives_container {c d : Cursor} {kind : ContainerKind} {isPartial : Bool}
    (hc : c.Took ((if isPartial then [word "partial"] else []) ++ kind.glyphs) d)
    (hpartial : isPartial = true → kind.allowsPartial = true)
    (hinterface : kind = .interface → d.glyphs.head? ≠ some (word "mixin")) :
    Gives (parseContainer kind isPartial) d (DefinitionBody.Parsed c) := by
  unfold parseContainer
  refine Gives.readName.bind fun name d₁ hread => ?_
  obtain ⟨hname, hplain⟩ := hread
  -- the members, behind the parent if there is one
  have hend {parent : Option String} {e : Cursor}
      (hparent : d₁.Took (Container.parentGlyphs ⟨kind, isPartial, parent, []⟩) e)
      (hallowed : parent ≠ none → kind.allowsParent = true ∧ isPartial = false) :
      Gives (do
        let brace ← look Cursor.span
        expect .braceOpen "`\x7b`"
        let members ← repeatWhile (look fun c => !c.atKind .braceClose && !c.rest.isEmpty)
          (Member.parse (kind == .dictionary))
        if ← atEnd then
          failAt .unclosedBrace brace ("`" ++ name ++ "` body")
        else
          expect .braceClose "`\x7d`"
          semicolon
          return (name, container ⟨kind, isPartial, parent, members⟩)) e
        (DefinitionBody.Parsed c) := by
    refine Gives.look.bind ?_
    rintro brace d₂ ⟨-, rfl⟩
    refine (Gives.expect (by decide)).bind fun _ d₃ hopen => ?_
    refine (gives_members _ d₃).bind fun members d₄ hmembers => ?_
    refine .ite_look (fun _ => .failAt) fun _ => ?_
    refine (Gives.expect (by decide)).bind fun _ d₅ hclose => ?_
    refine (MemberBody.gives_semicolon d₅).bind fun _ last hlast => .pure ?_
    have hall := (hmembers.before (hclose.append hlast)).after
      (hc.append (hname.append (hparent.append hopen)))
    have hslots : (container ⟨kind, isPartial, parent, members⟩).slots name
        = exactly (((if isPartial then [word "partial"] else []) ++ kind.glyphs)
            ++ ([word name] ++ (Container.parentGlyphs ⟨kind, isPartial, parent, []⟩
              ++ [mark .braceOpen])))
          ++ (members.flatMap Member.slots
            ++ exactly ([mark .braceClose] ++ [mark .semicolon])) := by
      simp only [slots, Container.parentGlyphs, List.append_assoc, List.cons_append,
        List.nil_append]
    rw [DefinitionBody.Parsed, hslots]
    refine hall.holding fun _ hc' hmembers' => .container ?_
    refine ⟨hmembers', hallowed, hpartial, fun hkind hmixin => ?_⟩
    apply hinterface hkind
    rw [hplain (hc.plain hc'), show name = "mixin" from hmixin]
    rfl
  refine .optionally (gives_eatIf (by decide) d₁) (fun _ => hend .refl (absurd rfl)) ?_
  rintro d₂ ⟨hallowed, hcolon⟩
  rw [Bool.and_eq_true, Bool.not_eq_true'] at hallowed
  exact Gives.readName.mono fun parent e h => hend (hcolon.append h.1) fun _ => hallowed

/-! ### Enumerations -/

/-- The values with commas between, and perhaps one more comma. -/
theorem gives_values {unclosed : Parse (List String)} (hunclosed : ∀ c Q, Gives unclosed c Q)
    (limit : Nat) (c : Cursor) : Gives (parseValues unclosed limit) c fun values d => ∃ e,
      Took c (joined (mark .comma) (values.map fun value => [quoted value])) e ∧
        e.Parsed (if values = [] then [] else [.valuesEnd]) True d := by
  induction limit generalizing c with
  | zero => exact .pure ⟨c, .refl, .refl trivial⟩
  | succ limit ih =>
      refine .ite_look (fun _ => .pure ⟨c, .refl, .refl trivial⟩) fun _ => ?_
      refine .ite_look (fun _ => hunclosed c _) fun _ => ?_
      refine Gives.stringContent.bind fun value d hvalue => ?_
      refine .ite_eat (by decide) (fun e hcomma => ?_) fun _ => ?_
      · refine (ih e).bind fun rest last hread => .pure ?_
        obtain ⟨e', hrest, hend⟩ := hread
        cases rest with
        | nil =>
            -- the comma was the last one
            have hnone : e'.Took [] last := hend.took
            have hlast : d.Took [mark .comma] last := hcomma.append (hrest.append hnone)
            exact ⟨d, hvalue, .of_took hlast (by decide)⟩
        | cons second rest =>
            have hglyphs : joined (mark .comma)
                ((value :: second :: rest).map fun value => [quoted value])
                = [quoted value] ++ ([mark .comma]
                  ++ joined (mark .comma) ((second :: rest).map fun value => [quoted value])) := by
              simp [joined]
            refine ⟨e', ?_, hend⟩
            rw [hglyphs]
            exact hvalue.append (hcomma.append hrest)
      · exact .pure ⟨d, hvalue, .of_took .refl (by decide)⟩

theorem gives_enumeration {c d : Cursor} (hc : c.Took [word "enum"] d) :
    Gives parseEnumeration d (DefinitionBody.Parsed c) := by
  unfold parseEnumeration
  refine Gives.readName.bind fun name d₁ hread => ?_
  obtain ⟨hname, hplain⟩ := hread
  refine Gives.look.bind ?_
  rintro brace e ⟨-, rfl⟩
  refine (Gives.expect (by decide)).bind fun _ d₂ hopen => ?_
  refine Gives.look.bind ?_
  rintro limit f ⟨-, rfl⟩
  refine (gives_values (fun _ _ => .failAt) limit f).bind fun values d₃ h => ?_
  obtain ⟨e, hvalues, hend⟩ := h
  refine (Gives.expect (by decide)).bind fun _ d₄ hclose => ?_
  refine (MemberBody.gives_semicolon d₄).bind fun _ last hlast => .pure ?_
  have hall := (hend.before (hclose.append hlast)).after
    (hc.append (hname.append (hopen.append hvalues)))
  exact hall.mono fun _ => .enumeration

/-! ### Other definitions -/

theorem gives_typedef {c d : Cursor} (hc : c.Took [word "typedef"] d) :
    Gives parseTypedef d (DefinitionBody.Parsed c) := by
  unfold parseTypedef
  refine (IdlType.gives d).bind fun type d₁ htype => ?_
  refine Gives.readName.bind fun name d₂ hread => ?_
  obtain ⟨hname, hplain⟩ := hread
  refine (MemberBody.gives_semicolon d₂).bind fun _ last hlast => .pure ?_
  have hall := (htype.parsed.before (hname.append hlast)).after hc
  exact hall.holding fun _ hc' htype' => .typedef htype' (htype.goesOnWith hplain (hc.plain hc'))

theorem gives_callback {c d : Cursor} (hc : c.Took [word "callback"] d)
    (hinterface : d.glyphs.head? ≠ some (word "interface")) :
    Gives parseCallback d (DefinitionBody.Parsed c) := by
  unfold parseCallback
  refine Gives.readName.bind fun name d₁ hread => ?_
  obtain ⟨hname, hplain⟩ := hread
  refine (Gives.expect (by decide)).bind fun _ d₂ hequals => ?_
  refine (IdlType.gives d₂).bind fun result d₃ hresult => ?_
  refine (Argument.gives_list d₃).bind fun args d₄ hargs => ?_
  refine (MemberBody.gives_semicolon d₄).bind fun _ last hlast => .pure ?_
  have hall := (hresult.parsed.append (hargs.before hlast)).after
    (hc.append (hname.append hequals))
  refine hall.holding fun _ hc' hholds => .callback ?_ hholds.1 hholds.2
  rintro rfl
  apply hinterface
  rw [hplain (hc.plain hc')]
  rfl

theorem gives_includes {c : Cursor}
    (hother : ∀ w ∈ definitionWords, c.glyphs.head? ≠ some (word w)) :
    Gives parseIncludes c (DefinitionBody.Parsed c) := by
  unfold parseIncludes
  refine Gives.readName.bind fun target d hread => ?_
  obtain ⟨htarget, hplain⟩ := hread
  refine (Gives.expectWord (by decide)).bind fun _ d₁ hincludes => ?_
  refine Gives.readName.bind fun mixin d₂ hread => ?_
  obtain ⟨hmixin, -⟩ := hread
  refine (MemberBody.gives_semicolon d₂).bind fun _ last hlast => .pure ?_
  have hall := Cursor.Parsed.exactly (htarget.append (hincludes.append (hmixin.append hlast)))
  refine hall.holding fun _ hc _ => .includes fun hword => ?_
  apply hother target hword
  rw [hplain hc]
  rfl

theorem gives_partial (c : Cursor) : Gives ContainerKind.parsePartial? c fun found d =>
    ∀ kind ∈ found, Took c kind.glyphs d ∧ kind.allowsPartial = true ∧
      (kind = .interface → d.glyphs.head? ≠ some (word "mixin")) := by
  unfold ContainerKind.parsePartial?
  refine .ite_eatWord (by decide) (fun d hd => ?_) fun _ => ?_
  · refine .ite_eatWord (by decide) (fun e he => .pure ?_) fun hmixin => .pure ?_
    · rintro _ ⟨⟩
      exact ⟨hd.append he, rfl, by simp⟩
    · rintro _ ⟨⟩
      exact ⟨hd, rfl, fun _ => hmixin⟩
  refine .ite_eatWord (by decide) (fun d hd => .pure ?_) fun _ => ?_
  · rintro _ ⟨⟩
    exact ⟨hd, rfl, by simp⟩
  refine .ite_eatWord (by decide) (fun d hd => .pure ?_) fun _ => .pure (by simp)
  rintro _ ⟨⟩
  exact ⟨hd, rfl, by simp⟩

theorem gives (c : Cursor) : Gives parse c (DefinitionBody.Parsed c) := by
  unfold parse
  refine .ite_eatWord (by decide) (fun d hd => ?_) fun hcallback => ?_
  · refine .ite_eatWord (by decide) (fun e he => ?_) fun hinterface => ?_
    · exact gives_container (hd.append he) (by simp) (by simp)
    · exact gives_callback hd hinterface
  refine .ite_eatWord (by decide) (fun d hd => ?_) fun hinterface => ?_
  · refine .ite_eatWord (by decide) (fun e he => ?_) fun hmixin => ?_
    · exact gives_container (hd.append he) (by simp) (by simp)
    · exact gives_container hd (by simp) fun _ => hmixin
  refine .ite_eatWord (by decide) (fun d hd => ?_) fun hpartial => ?_
  · refine (gives_partial d).bind fun found e hfound => ?_
    cases found with
    | none => exact .fail
    | some kind =>
        obtain ⟨htook, hallowed, hmixin⟩ := hfound kind rfl
        exact gives_container (hd.append htook) (fun _ => hallowed) hmixin
  refine .ite_eatWord (by decide) (fun d hd => gives_container hd (by simp) (by simp))
    fun hdictionary => ?_
  refine .ite_eatWord (by decide) (fun d hd => gives_container hd (by simp) (by simp))
    fun hnamespace => ?_
  refine .ite_eatWord (by decide) (fun d hd => gives_enumeration hd) fun henum => ?_
  refine .ite_eatWord (by decide) (fun d hd => gives_typedef hd) fun htypedef => ?_
  refine .ite_look (fun _ => gives_includes ?_) fun _ => .fail
  simpa [definitionWords] using
    ⟨hcallback, hinterface, hpartial, hdictionary, hnamespace, henum, htypedef⟩

end DefinitionBody

namespace Definition

theorem gives (c : Cursor) : Gives parse c fun d e => c.Parsed d.slots d.Readable e := by
  unfold parse
  refine Gives.look.bind ?_
  rintro first c ⟨-, rfl⟩
  refine (ExtendedAttribute.gives_list c).bind fun extAttrs d₁ hread => ?_
  obtain ⟨hattrs, -⟩ := hread
  refine (DefinitionBody.gives d₁).bind ?_
  rintro ⟨name, body⟩ d₂ hbody
  refine Gives.look.bind ?_
  rintro span _ ⟨-, rfl⟩
  exact .pure ((hattrs.append hbody).mono fun h => ⟨h.2, h.1⟩)

theorem gives_all (c : Cursor) : Gives parseAll c fun definitions d =>
    c.Parsed (definitions.flatMap slots) (∀ d ∈ definitions, d.Readable) d := by
  refine (Gives.repeatWhile (fun _ => .look_test _) gives c).mono fun definitions d h => ?_
  refine h.parsed [] ?_ fun _ _ _ h => h
  rintro _ _ rfl
  exact .refl

end Definition

end IdlBindings
