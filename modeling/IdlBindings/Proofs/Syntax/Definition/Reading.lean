import IdlBindings.Proofs.Syntax.Member.Reading
import IdlBindings.Proofs.Syntax.Spelling

/-!
Readable definitions are read from their glyphs, and so from their text: the main statement is
`Definition.ofSource_listText`.
-/

namespace IdlBindings

open Parse Glyph

namespace DefinitionBody

variable {rest : List Glyph}

/-- The members of a container, up to the brace that closes it. -/
theorem reads_members {members : List Member} {inDictionary : Bool}
    (hmembers : ∀ m ∈ members, m.Readable inDictionary)
    (hproper : AllProper (members.flatMap Member.glyphs)) (rest : List Glyph) :
    Reads (repeatWhile (look fun c => !c.atKind .braceClose && !c.rest.isEmpty)
        (Member.parse inDictionary))
      (members.flatMap Member.glyphs ++ mark .braceClose :: rest) (mark .braceClose :: rest)
      fun others => others.map Member.unplaced = members.map Member.unplaced := by
  have hend : Reads (look fun c => !c.atKind .braceClose && !c.rest.isEmpty)
      (mark .braceClose :: rest) (mark .braceClose :: rest) (· = false) := by
    refine .look fun c hc => ?_
    have hat : c.atKind .braceClose = true := Cursor.atKind_iff.2 ⟨_, by rw [hc]; rfl, rfl⟩
    rw [hat]
    rfl
  have hmore : ∀ m ∈ members, ∀ rest, Reads (look fun c => !c.atKind .braceClose && !c.rest.isEmpty)
      ([] ++ (m.glyphs ++ rest)) (m.glyphs ++ rest) (· = true) := by
    intro m _ rest
    obtain ⟨g, gs, hglyphs, hkind⟩ := m.head_kind
    rw [hglyphs]
    refine .look fun c hc => ?_
    obtain ⟨token, tokens, hrest, -, -⟩ := Cursor.rest_of_glyphs hc
    have hat : c.atKind .braceClose = false := by
      rw [Bool.eq_false_iff, ne_eq, Cursor.atKind_iff, hc]
      rintro ⟨_, ⟨⟩, hbrace⟩
      rw [hbrace] at hkind
      simp at hkind
    rw [hat, hrest]
    rfl
  have hne : ∀ m ∈ members, [] ++ m.glyphs ≠ [] := by
    intro m _
    obtain ⟨g, gs, hglyphs, -⟩ := m.head_kind
    simp [hglyphs]
  have hitem : ∀ m ∈ members, ∀ rest : List Glyph, True →
      Reads (Member.parse inDictionary) (m.glyphs ++ rest) rest (·.unplaced = m.unplaced) :=
    fun m hm rest _ => Member.reads (hmembers m hm)
      (fun g hg => hproper g (List.mem_flatMap.2 ⟨m, hm, hg⟩)) rest
  have hread := Reads.repeatWhile (fun _ => True) hend trivial (fun _ _ _ => trivial) hmore hitem hne
  exact hread.mono fun _ => Reads.map_eq_of_forall₂

theorem reads_container {c : Container} {name : String} (h : c.Readable name)
    (hname : (word name).isEscaped = false) (hparent : AllProper c.parentGlyphs)
    (hmembers : AllProper (c.members.flatMap Member.glyphs)) (rest : List Glyph) :
    Reads (parseContainer c.kind c.isPartial)
      (word name :: (c.parentGlyphs ++ mark .braceOpen :: (c.members.flatMap Member.glyphs ++
        mark .braceClose :: mark .semicolon :: rest))) rest
      fun named => named.1 = name ∧ named.2.unplaced = (container c).unplaced := by
  have hcolon (gs : List Glyph) : Reads (eatIf (c.kind.allowsParent && !c.isPartial) .colon)
      (mark .braceOpen :: gs) (mark .braceOpen :: gs) (· = false) := by
    unfold eatIf
    split
    · exact .eat_other (by decide)
    · exact .pure rfl
  unfold parseContainer
  refine .andThen (.readName hname) (.optionally (mark .braceOpen ::
    (c.members.flatMap Member.glyphs ++ mark .braceClose :: mark .semicolon :: rest)) c.parent
    (fun hnone => ?_) (fun parent hsome => ?_) ?_)
  · rw [Container.parentGlyphs, hnone]
    exact hcolon _
  · obtain ⟨hallows, hpartial⟩ := h.parent (by simp [hsome])
    rw [Container.parentGlyphs, hsome] at hparent ⊢
    rw [hallows, hpartial]
    exact ⟨_, .eat rfl, .readName (hparent _ (by simp)).2⟩
  · refine .bind .look_any fun brace _ => ?_
    refine .bind (.expect rfl) fun _ _ => ?_
    refine .bind (reads_members h.members hmembers _) fun members hmembers => ?_
    refine .ite_false (.look fun d hd => ?_) ?_
    · obtain ⟨token, tokens, hrest, -, -⟩ := Cursor.rest_of_glyphs hd
      rw [hrest]
      rfl
    · refine .bind (.expect rfl) fun _ _ => ?_
      refine .bind MemberBody.reads_semicolon fun _ _ => ?_
      exact .pure ⟨rfl, by simp [unplaced, hmembers]⟩

/-- The values of an enumeration, up to the brace that closes it. -/
theorem reads_values {unclosed : Parse (List String)} {values : List String} {limit : Nat}
    (hlimit : values.length < limit) (rest : List Glyph) :
    Reads (parseValues unclosed limit)
      (joined (mark .comma) (values.map fun value => [quoted value]) ++ mark .braceClose :: rest)
      (mark .braceClose :: rest) (· = values) := by
  induction values generalizing limit with
  | nil =>
      obtain ⟨limit, rfl⟩ := Nat.exists_eq_add_one_of_ne_zero (Nat.ne_of_gt hlimit)
      exact .ite_true (.atKind rfl) (.pure rfl)
  | cons value values ih =>
      obtain ⟨limit, rfl⟩ := Nat.exists_eq_add_one_of_ne_zero
        (Nat.ne_of_gt (Nat.zero_lt_of_lt hlimit))
      refine .ite_false (.atKind_other (by rintro ⟨⟩)) ?_
      refine .ite_false (.look fun c hc => ?_) ?_
      · obtain ⟨token, tokens, hrest, -, -⟩ := Cursor.rest_of_glyphs hc
        rw [hrest]
        rfl
      refine .andThen .stringContent ?_
      cases values with
      | nil => exact .ite_false (.eat_other (by decide)) (.pure rfl)
      | cons second values =>
          refine .ite_true (.eat rfl) ?_
          refine .andThen (ih (Nat.lt_of_succ_lt_succ hlimit)) ?_
          exact .pure rfl

theorem reads_limit {gs : List Glyph} :
    Reads (look fun c => c.rest.length + 1) gs gs (· = gs.length + 1) := by
  refine .look fun c hc => ?_
  rw [← c.length_glyphs, hc]

/-- There are as many glyphs as parts, or more. -/
theorem length_le_length_joined (sep : Glyph) (parts : List (List Glyph))
    (h : ∀ part ∈ parts, part ≠ []) : parts.length ≤ (joined sep parts).length := by
  have htail (rest : List (List Glyph)) : rest.length ≤ (rest.flatMap (sep :: ·)).length := by
    induction rest with
    | nil => exact Nat.zero_le _
    | cons part rest ih =>
        simp only [List.flatMap_cons, List.length_append, List.length_cons]
        omega
  cases parts with
  | nil => exact Nat.zero_le _
  | cons part rest =>
      have hpart := List.length_pos_iff.2 (h part List.mem_cons_self)
      have hrest := htail rest
      rw [joined, List.length_append, List.length_cons]
      omega

theorem reads_enumeration {name : String} (values : List String)
    (hname : (word name).isEscaped = false) (rest : List Glyph) :
    Reads parseEnumeration (word name :: mark .braceOpen ::
      (joined (mark .comma) (values.map fun value => [quoted value]) ++
        mark .braceClose :: mark .semicolon :: rest)) rest (· = (name, enumeration values)) := by
  have hlength := length_le_length_joined (mark .comma) (values.map fun value => [quoted value])
    (List.forall_mem_map.2 fun value _ => List.cons_ne_nil _ _)
  rw [List.length_map] at hlength
  unfold parseEnumeration
  refine .andThen (.readName hname) (.bind .look_any fun brace _ => ?_)
  refine .bind (.expect rfl) fun _ _ => ?_
  refine .andThen reads_limit ?_
  refine .andThen (reads_values (by rw [List.length_append]; omega) _) ?_
  refine .bind (.expect rfl) fun _ _ => ?_
  refine .bind MemberBody.reads_semicolon fun _ _ => ?_
  exact .pure rfl

theorem reads_typedef {name : String} {type : IdlType} (htype : type.Readable)
    (hend : type.goesOnWith (word name) = false) (hproper : AllProper type.glyphs)
    (hname : (word name).isEscaped = false) (rest : List Glyph) :
    Reads parseTypedef (type.glyphs ++ word name :: mark .semicolon :: rest) rest
      (· = (name, typedef type)) := by
  unfold parseTypedef
  refine .andThen (IdlType.reads htype hproper ?_) ?_
  · rintro _ ⟨⟩
    exact hend
  refine .andThen (.readName hname) ?_
  refine .bind MemberBody.reads_semicolon fun _ _ => ?_
  exact .pure rfl

theorem reads_callback {name : String} {result : IdlType} {args : List Argument}
    (hresult : result.Readable) (hargs : ∀ arg ∈ args, arg.Readable)
    (hname : (word name).isEscaped = false) (hresultProper : AllProper result.glyphs)
    (hargsProper : AllProper (Argument.listGlyphs args)) (rest : List Glyph) :
    Reads parseCallback (word name :: mark .equals :: (result.glyphs ++ (Argument.listGlyphs args ++
      mark .semicolon :: rest))) rest (· = (name, callback result args)) := by
  have hend : ∀ g ∈ (Argument.listGlyphs args ++ mark .semicolon :: rest).head?,
      result.goesOnWith g = false := by
    rintro _ ⟨⟩
    unfold IdlType.goesOnWith
    split <;> simp [mark, word]
  unfold parseCallback
  refine .andThen (.readName hname) ?_
  refine .bind (.expect rfl) fun _ _ => ?_
  refine .andThen (IdlType.reads hresult hresultProper hend) ?_
  refine .andThen (Argument.reads_list hargs hargsProper _) ?_
  refine .bind MemberBody.reads_semicolon fun _ _ => ?_
  exact .pure rfl

theorem reads_includes {name mixin : String} (hname : (word name).isEscaped = false)
    (hmixin : (word mixin).isEscaped = false) (rest : List Glyph) :
    Reads parseIncludes (word name :: word "includes" :: word mixin :: mark .semicolon :: rest) rest
      (· = (name, includes mixin)) := by
  unfold parseIncludes
  refine .andThen (.readName hname) ?_
  refine .bind .expectWord fun _ _ => ?_
  refine .andThen (.readName hmixin) ?_
  refine .bind MemberBody.reads_semicolon fun _ _ => ?_
  exact .pure rfl

theorem reads_partialWords {kind : ContainerKind} (h : kind.allowsPartial = true) {rest : List Glyph}
    (hrest : kind = .interface → rest.head? ≠ some (word "mixin")) :
    Reads ContainerKind.parsePartial? (kind.glyphs ++ rest) rest (· = some kind) := by
  unfold ContainerKind.parsePartial?
  cases kind with
  | interface =>
      refine .ite_true .eatWord ?_
      exact .ite_false (.eatWord_none (hrest rfl)) (.pure rfl)
  | callbackInterface => cases h
  | mixin =>
      refine .ite_true .eatWord ?_
      exact .ite_true .eatWord (.pure rfl)
  | dictionary =>
      refine .ite_false (.eatWord_other (by decide)) ?_
      exact .ite_true .eatWord (.pure rfl)
  | nameSpace =>
      refine .ite_false (.eatWord_other (by decide)) ?_
      refine .ite_false (.eatWord_other (by decide)) ?_
      exact .ite_true .eatWord (.pure rfl)

/-- The words of a container lead to its body. -/
theorem reads_containerWords {kind : ContainerKind} {isPartial : Bool} {rest output : List Glyph}
    {Q : NamedBody → Prop} (hpartial : isPartial = true → kind.allowsPartial = true)
    (hrest : kind = .interface → rest.head? ≠ some (word "mixin"))
    (hread : Reads (parseContainer kind isPartial) rest output Q) :
    Reads parse ((if isPartial then [word "partial"] else []) ++ (kind.glyphs ++ rest)) output Q := by
  unfold parse
  cases isPartial with
  | true =>
      refine .ite_false (.eatWord_other (by decide)) ?_
      refine .ite_false (.eatWord_other (by decide)) ?_
      refine .ite_true .eatWord ?_
      exact .andThen (reads_partialWords (hpartial rfl) hrest) hread
  | false =>
      cases kind with
      | interface =>
          refine .ite_false (.eatWord_other (by decide)) ?_
          refine .ite_true .eatWord ?_
          exact .ite_false (.eatWord_none (hrest rfl)) hread
      | callbackInterface =>
          refine .ite_true .eatWord ?_
          exact .ite_true .eatWord hread
      | mixin =>
          refine .ite_false (.eatWord_other (by decide)) ?_
          refine .ite_true .eatWord ?_
          exact .ite_true .eatWord hread
      | dictionary =>
          refine .ite_false (.eatWord_other (by decide)) ?_
          refine .ite_false (.eatWord_other (by decide)) ?_
          refine .ite_false (.eatWord_other (by decide)) ?_
          exact .ite_true .eatWord hread
      | nameSpace =>
          refine .ite_false (.eatWord_other (by decide)) ?_
          refine .ite_false (.eatWord_other (by decide)) ?_
          refine .ite_false (.eatWord_other (by decide)) ?_
          refine .ite_false (.eatWord_other (by decide)) ?_
          exact .ite_true .eatWord hread

section FirstWord

variable {rest output : List Glyph} {Q : NamedBody → Prop}

theorem reads_enumWord (hread : Reads parseEnumeration rest output Q) :
    Reads parse (word "enum" :: rest) output Q := by
  unfold parse
  refine .ite_false (.eatWord_other (by decide)) ?_
  refine .ite_false (.eatWord_other (by decide)) ?_
  refine .ite_false (.eatWord_other (by decide)) ?_
  refine .ite_false (.eatWord_other (by decide)) ?_
  refine .ite_false (.eatWord_other (by decide)) ?_
  exact .ite_true .eatWord hread

theorem reads_typedefWord (hread : Reads parseTypedef rest output Q) :
    Reads parse (word "typedef" :: rest) output Q := by
  unfold parse
  refine .ite_false (.eatWord_other (by decide)) ?_
  refine .ite_false (.eatWord_other (by decide)) ?_
  refine .ite_false (.eatWord_other (by decide)) ?_
  refine .ite_false (.eatWord_other (by decide)) ?_
  refine .ite_false (.eatWord_other (by decide)) ?_
  refine .ite_false (.eatWord_other (by decide)) ?_
  exact .ite_true .eatWord hread

theorem reads_callbackWord {name : String} (hname : name ≠ "interface")
    (hread : Reads parseCallback (word name :: rest) output Q) :
    Reads parse (word "callback" :: word name :: rest) output Q := by
  unfold parse
  refine .ite_true .eatWord ?_
  exact .ite_false (.eatWord_other fun heq => hname (congrArg Glyph.text heq)) hread

/-- A name that no other definition begins with. -/
theorem reads_targetName {name : String} (hname : name ∉ definitionWords)
    (hread : Reads parseIncludes (word name :: word "includes" :: rest) output Q) :
    Reads parse (word name :: word "includes" :: rest) output Q := by
  have hother {w : String} (hw : w ∈ definitionWords) : word name ≠ word w := by
    intro heq
    obtain rfl : name = w := congrArg Glyph.text heq
    exact hname hw
  unfold parse
  refine .ite_false (.eatWord_other (hother (by decide))) ?_
  refine .ite_false (.eatWord_other (hother (by decide))) ?_
  refine .ite_false (.eatWord_other (hother (by decide))) ?_
  refine .ite_false (.eatWord_other (hother (by decide))) ?_
  refine .ite_false (.eatWord_other (hother (by decide))) ?_
  refine .ite_false (.eatWord_other (hother (by decide))) ?_
  refine .ite_false (.eatWord_other (hother (by decide))) ?_
  refine .ite_true (.look fun c hc => ?_) hread
  rw [Bool.and_eq_true, Cursor.atKind_iff, Cursor.beforeWord_iff, hc]
  exact ⟨⟨_, rfl, rfl⟩, rfl⟩

end FirstWord

/-- The body of a definition, up to places. -/
theorem reads {body : DefinitionBody} {name : String} (h : body.Readable name)
    (hproper : AllProper (body.glyphs name)) (rest : List Glyph) :
    Reads parse (body.glyphs name ++ rest) rest
      fun named => named.1 = name ∧ named.2.unplaced = body.unplaced := by
  have hexact {p : Parse NamedBody} {input : List Glyph} {other : DefinitionBody}
      (hread : Reads p input rest (· = (name, other))) :
      Reads p input rest fun named => named.1 = name ∧ named.2.unplaced = other.unplaced :=
    hread.mono fun named hnamed => by simp [hnamed]
  cases h with
  | container h =>
      rename_i c
      simp only [glyphs, allProper_append, allProper_cons] at hproper
      obtain ⟨-, -, hname, hparent, -, hmembers, -⟩ := hproper
      have hread := reads_container h hname.2 hparent hmembers rest
      simp only [glyphs, List.append_assoc, List.cons_append]
      refine reads_containerWords h.partials (fun hkind hhead => ?_) hread
      exact h.interface hkind (congrArg Glyph.text (Option.some.inj hhead))
  | enumeration =>
      rename_i values
      simp only [glyphs, allProper_append, allProper_cons] at hproper
      have hread := reads_enumeration values hproper.2.1.2 rest
      simp only [glyphs, List.append_assoc, List.cons_append]
      exact reads_enumWord (hexact hread)
  | typedef htype hend =>
      simp only [glyphs, allProper_append, allProper_cons] at hproper
      have hread := reads_typedef htype hend hproper.2.1 hproper.2.2.1.2 rest
      simp only [glyphs, List.append_assoc, List.cons_append]
      exact reads_typedefWord (hexact hread)
  | callback hname hresult hargs =>
      simp only [glyphs, allProper_append, allProper_cons] at hproper
      obtain ⟨-, hnameProper, -, hresultProper, hargsProper, -⟩ := hproper
      have hread := reads_callback hresult hargs hnameProper.2 hresultProper hargsProper rest
      simp only [glyphs, List.append_assoc, List.cons_append]
      exact reads_callbackWord hname (hexact hread)
  | includes htarget =>
      simp only [glyphs, allProper_cons] at hproper
      obtain ⟨hname, -, hmixin, -⟩ := hproper
      exact reads_targetName htarget (hexact (reads_includes hname.2 hmixin.2 rest))

/-- A definition begins with a word. -/
theorem head_kind (body : DefinitionBody) (name : String) :
    ∃ g gs, body.glyphs name = g :: gs ∧ g.kind = .identifier := by
  rcases body with ⟨kind, isPartial, parent, members⟩ | _ | _ | _ | _
  · cases isPartial with
    | true => exact ⟨_, _, rfl, rfl⟩
    | false => cases kind <;> exact ⟨_, _, rfl, rfl⟩
  all_goals exact ⟨_, _, rfl, rfl⟩

end DefinitionBody

namespace Definition

/-- A readable definition is read from its glyphs, up to places. -/
theorem reads {d : Definition} (h : d.Readable) (hproper : AllProper d.glyphs) (rest : List Glyph) :
    Reads parse (d.glyphs ++ rest) rest (·.unplaced = d.unplaced) := by
  rw [glyphs, allProper_append] at hproper
  obtain ⟨g, gs, hglyphs, hkind⟩ := d.body.head_kind d.name
  unfold parse
  rw [glyphs, List.append_assoc]
  refine .bind .look_any fun first _ => ?_
  refine .andThen (ExtendedAttribute.reads_list h.extAttrs hproper.1 fun _ => ?_) ?_
  · rw [hglyphs]
    rintro _ ⟨⟩
    rw [hkind]
    decide
  refine .bind (DefinitionBody.reads h.body hproper.2 rest) fun named hnamed => ?_
  obtain ⟨hname, hbody⟩ := hnamed
  refine .bind .look_any fun span _ => ?_
  exact .pure (by simp [unplaced, hname, hbody])

theorem reads_all {definitions : List Definition} (h : ∀ d ∈ definitions, d.Readable)
    (hproper : ∀ d ∈ definitions, AllProper d.glyphs) :
    Reads parseAll (definitions.flatMap glyphs) []
      (·.map unplaced = definitions.map unplaced) := by
  have hend : Reads (look fun c => !c.rest.isEmpty) [] [] (· = false) := by
    refine .look fun c hc => ?_
    rw [Cursor.rest_of_glyphs_nil hc]
    rfl
  have hhead (d : Definition) : ∃ g gs, d.glyphs = g :: gs := by
    rw [glyphs]
    obtain ⟨g, gs, hglyphs, -⟩ := d.body.head_kind d.name
    cases d.extAttrs with
    | nil => exact ⟨g, gs, hglyphs⟩
    | cons attr rest => exact ⟨_, _, rfl⟩
  have hmore : ∀ d ∈ definitions, ∀ rest : List Glyph, Reads (look fun c => !c.rest.isEmpty)
      ([] ++ (d.glyphs ++ rest)) (d.glyphs ++ rest) (· = true) := by
    intro d _ rest
    obtain ⟨g, gs, hglyphs⟩ := hhead d
    rw [hglyphs]
    refine .look fun c hc => ?_
    obtain ⟨token, tokens, hrest, -, -⟩ := Cursor.rest_of_glyphs hc
    rw [hrest]
    rfl
  have hne : ∀ d ∈ definitions, [] ++ d.glyphs ≠ [] := by
    intro d _
    obtain ⟨g, gs, hglyphs⟩ := hhead d
    simp [hglyphs]
  have hitem : ∀ d ∈ definitions, ∀ rest : List Glyph, True →
      Reads parse (d.glyphs ++ rest) rest (·.unplaced = d.unplaced) :=
    fun d hd rest _ => reads (h d hd) (hproper d hd) rest
  have hread := Reads.repeatWhile (fun _ => True) hend trivial (fun _ _ _ => trivial) hmore hitem hne
  rw [List.append_nil] at hread
  exact hread.mono fun _ => Reads.map_eq_of_forall₂

/-- Whatever text has the glyphs of readable definitions gives them back, up to places. -/
theorem ofSource_of_glyphs {definitions : List Definition} (h : ∀ d ∈ definitions, d.Readable)
    (hproper : ∀ d ∈ definitions, AllProper d.glyphs) {source : String}
    (hsource : ofText source.toList = definitions.flatMap glyphs) (base : Nat) :
    ∃ others, ofSource source base = .ok others ∧
      others.map unplaced = definitions.map unplaced := by
  have hglyphs := (map_glyph_lex source base).trans hsource
  obtain ⟨others, c', hrun, -, hothers⟩ := reads_all h hproper
    ⟨Token.significant (Token.lex source base), base, base + byteLength source.toList⟩ hglyphs
  refine ⟨others, ?_, hothers⟩
  rw [ofSource]
  simp only [hrun]
  rfl

end Definition

end IdlBindings
