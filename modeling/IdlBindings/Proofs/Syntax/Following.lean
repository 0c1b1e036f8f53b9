import IdlBindings.Proofs.Syntax.Parametric
import IdlBindings.Proofs.Token.Following

/-!
What follows a definition does not matter for it. Types, arguments and extended attributes look at
the next token at most; members and definitions end with a semicolon and look at nothing behind it
(`Definition.closes`).
-/

namespace IdlBindings

open Parse

/-! ### Values -/

/-- Two tokens are read only where there are two. -/
theorem ConstValue.next?_extend {c d : Cursor} {value : ConstValue}
    (h : next? c = some (value, d)) : d.rest <:+ c.rest ∧
      ∀ more eof, next? (c.extend more eof) = some (value, d.extend more eof) := by
  have hc : 1 ≤ c.rest.length := by
    refine List.length_pos_iff.2 fun hc => ?_
    simp [next?, Cursor.atKind, hc] at h
  have hkind (more : List Token) (eof : Nat) (kind : TokenKind) :
      (c.extend more eof).atKind kind = c.atKind kind := Cursor.sees_atKind kind c hc more eof
  have htext := Cursor.sees_text c hc
  have hadvance := Cursor.advance_extend hc
  rw [next?] at h
  split at h
  · rename_i hinteger
    cases h
    refine ⟨c.rest_advance_suffix, fun more eof => ?_⟩
    rw [next?, hkind, if_pos hinteger, htext, hadvance]
  rename_i hinteger
  split at h
  · rename_i hdecimal
    cases h
    refine ⟨c.rest_advance_suffix, fun more eof => ?_⟩
    rw [next?, hkind, hkind, if_neg hinteger, if_pos hdecimal, htext, hadvance]
  rename_i hdecimal
  split at h
  · rename_i hidentifier
    obtain ⟨found, hword, heq⟩ := Option.map_eq_some_iff.1 h
    cases heq
    refine ⟨c.rest_advance_suffix, fun more eof => ?_⟩
    rw [next?, hkind, hkind, hkind, if_neg hinteger, if_neg hdecimal, if_pos hidentifier, htext,
      hword, hadvance]
    rfl
  rename_i hidentifier
  split at h
  · rename_i hminus
    cases h
    have htwo := Cursor.two_le_of_beforeWord (Bool.and_eq_true_iff.1 hminus).2
    have hbefore (more : List Token) (eof : Nat) :
        (c.extend more eof).beforeWord "Infinity" = c.beforeWord "Infinity" :=
      Cursor.sees_beforeWord _ c htwo more eof
    have hnext : 1 ≤ c.advance.rest.length := by
      rw [Cursor.length_rest_advance]
      omega
    refine ⟨c.advance.rest_advance_suffix.trans c.rest_advance_suffix, fun more eof => ?_⟩
    rw [next?, hkind, hkind, hkind, hkind, if_neg hinteger, if_neg hdecimal, if_neg hidentifier,
      hbefore, if_pos hminus, hadvance, Cursor.advance_extend hnext]
  · cases h

theorem ConstValue.inside : Local ConstValue.parse := by
  intro c value d hrun
  rw [ConstValue.parse] at hrun
  cases hnext : next? c with
  | none =>
      rw [hnext] at hrun
      cases hrun
  | some next =>
      rw [hnext] at hrun
      cases hrun
      obtain ⟨hsuffix, hextend⟩ := next?_extend hnext
      refine ⟨hsuffix, fun _ more eof => ?_⟩
      rw [ConstValue.parse, hextend more eof]

/-! ### Types -/

/-- The same parser where more tokens follow. -/
theorem Parse.Inside.parametric : Parametric fun _ => Inside where
  pure := .pure
  bind := .bind
  fail := .fail
  unexpected := .unexpected
  text := .text
  atKind := .atKind
  atWord := .look (Cursor.sees_atWord _)
  advance := .advance
  eat := .eat
  eatWord := .eatWord
  expect := .expect
  expectWord := .expectWord
  readName := .readName
  stringContent := .stringContent
  constValue := ConstValue.inside
  repeatWhile := .repeatWhile_test
  checked hp hk := .bind .start fun _ => .bind hp fun a =>
    .ite (hk a) (.bind .spanFrom fun _ => .failAt)

/-- The parsers of every depth: a longer text is read with a larger one. -/
theorem inside_parseAt {depth depth' : Nat} (hle : depth ≤ depth') :
    Inside (IdlType.parseAt depth) (IdlType.parseAt depth')
      ∧ Inside (Argument.parseAt depth) (Argument.parseAt depth') := by
  induction depth generalizing depth' with
  | zero => exact ⟨.fail, .fail⟩
  | succ depth ih =>
      obtain ⟨larger, rfl⟩ : ∃ k, depth' = k + 1 := ⟨depth' - 1, by omega⟩
      exact Inside.parametric.parseAt_succ (ih (Nat.le_of_succ_le_succ hle))

theorem IdlType.inside : Local IdlType.parse :=
  .of_size fun _ _ hle c _ => (inside_parseAt hle).1 c

theorem Argument.inside : Local Argument.parse :=
  .of_size fun _ _ hle c _ => (inside_parseAt hle).2 c

/-! ### Members -/

theorem Parse.Ends.semicolon : Closes Parse.semicolon := .expect

theorem Cursor.sees_atIteration : Sees 2 Cursor.atIteration := by
  intro c hc more eof
  have hword (word : String) : (c.extend more eof).atWord word = c.atWord word :=
    sees_atWord word c (Nat.le_of_succ_le hc) more eof
  have hbefore : (c.extend more eof).beforeWord "iterable" = c.beforeWord "iterable" :=
    sees_beforeWord _ c hc more eof
  rw [atIteration, atIteration, hword, hword, hword, hword, hbefore]

theorem Cursor.atIteration_eq_false {c : Cursor} (h : c.atKind .semicolon = true) :
    c.atIteration = false := by
  have hword := atWord_eq_false_of_atKind h (by decide)
  rw [atIteration, hword, hword, hword, hword]
  rfl

theorem Parse.Ends.closing : Parametric.Closing (fun _ => Inside) fun _ => Ends where
  before := Inside.parametric
  type := IdlType.inside
  argument := Argument.inside
  bind := .bind
  semicolon a := .rest .semicolon fun _ => .pure a
  fail := .fail
  unexpected := .unexpected
  eatIf a hp := .ite_eatIf (.pure a) hp
  atIteration := .ite_look Cursor.sees_atIteration fun _ => Cursor.atIteration_eq_false
  atConstructor := by
    refine .ite_look (((Cursor.sees_atWord _).mono (by decide)).map₂ (Cursor.sees_beforeKind _) and)
      fun c h => ?_
    rw [Cursor.atWord_eq_false_of_atKind h (by decide), Bool.false_and]

/-- A member ends with its semicolon. -/
theorem Member.closes (inDictionary : Bool) : Closes (parse inDictionary) := by
  refine .bind .start fun first => .bind Ends.closing.extAttributes fun extAttrs => ?_
  have htail (body : MemberBody) : Rests
      (do return Member.mk body extAttrs (← spanFrom first))
      (do return Member.mk body extAttrs (← spanFrom first)) :=
    .bind .spanFrom fun _ => .pure _
  exact .ite (.rest Ends.closing.parseField htail) (.rest Ends.closing.body htail)

/-! ### Definitions -/

namespace DefinitionBody

theorem closes_container (kind : ContainerKind) (isPartial : Bool) :
    Closes (parseContainer kind isPartial) := by
  have hmembers : Local (repeatWhile (look fun c => !c.atKind .braceClose && !c.rest.isEmpty)
      (Member.parse (kind == .dictionary))) :=
    (Member.closes _).repeatWhile
      ((Cursor.sees_atKind _).map₂ Cursor.sees_isEmpty fun atBrace atEnd => !atBrace && !atEnd)
  refine .bind .readName fun name => .bind .eatIf fun _ =>
    .ite (.bind (.map .readName) fun parent => ?_) (.bind (.pure none) fun parent => ?_)
  all_goals
    refine .bind .span fun brace => .bind .expect fun _ => .bind hmembers fun members => ?_
    refine .bind .atEnd fun _ => .ite .failAt ?_
    exact .bind .expect fun _ => .rest .semicolon fun _ => .pure _

/-- The values of an enumeration. Each takes a token, so a higher limit does not add one. -/
theorem inside_values {unclosed : Parse (List String)} (hunclosed : Local unclosed) {n m : Nat}
    (hle : n ≤ m) {c : Cursor} (hlt : c.rest.length < n) :
    InsideAt (parseValues unclosed n) (parseValues unclosed m) c := by
  induction n generalizing m c with
  | zero => omega
  | succ n ih =>
      obtain ⟨m, rfl⟩ : ∃ k, m = k + 1 := ⟨m - 1, by omega⟩
      refine (Inside.atKind c).bind fun closed d hd => .ite (fun _ => Inside.pure [] d) fun _ => ?_
      obtain rfl := Inside.eq_of_look hd
      refine (Inside.atEnd c).bind fun ended d hd => .ite (fun _ => hunclosed d) fun _ => ?_
      obtain rfl := Inside.eq_of_look hd
      refine (Inside.stringContent c).bind fun value d hvalue => ?_
      refine (Inside.eat d).bind fun more e hmore => .ite (fun hyes => ?_) fun _ =>
        Inside.pure [value] e
      have hread := (Inside.stringContent c value d hvalue).1.length_le
      have hcomma := Tests.eat.length_lt (hyes ▸ hmore)
      refine (ih (Nat.le_of_succ_le_succ hle) (by omega)).bind fun rest last _ => ?_
      exact Inside.pure (value :: rest) last

theorem closes_enumeration : Closes parseEnumeration := by
  refine .bind .readName fun name => .bind .span fun brace => .bind .expect fun _ => ?_
  have hunclosed :
      Local (failAt (α := List String) .unclosedBrace brace ("`" ++ name ++ "` values")) := .failAt
  have hvalues := Inside.of_size fun n m hle c hlt => inside_values hunclosed hle hlt
  have hbody : Closes (do
      let values ← fun c => parseValues (failAt .unclosedBrace brace ("`" ++ name ++ "` values"))
        (c.rest.length + 1) c
      expect .braceClose "`\x7d`"
      semicolon
      return (name, DefinitionBody.enumeration values)) :=
    .bind hvalues fun values => .bind .expect fun _ => .rest .semicolon fun _ => .pure _
  exact hbody

theorem closes_typedef : Closes parseTypedef :=
  .bind IdlType.inside fun _ => .bind .readName fun _ => .rest .semicolon fun _ => .pure _

theorem closes_callback : Closes parseCallback :=
  .bind .readName fun _ => .bind .expect fun _ => .bind IdlType.inside fun _ =>
    .bind Ends.closing.arguments fun _ => .rest .semicolon fun _ => .pure _

theorem closes_includes : Closes parseIncludes :=
  .bind .readName fun _ => .bind .expectWord fun _ => .bind .readName fun _ =>
    .rest .semicolon fun _ => .pure _

theorem closes : Closes parse := by
  refine .bind .eatWord fun _ => .ite ?_ ?_
  · exact .bind .eatWord fun _ => .ite (closes_container _ _) closes_callback
  refine .bind .eatWord fun _ => .ite ?_ ?_
  · exact .bind .eatWord fun _ => .ite (closes_container _ _) (closes_container _ _)
  refine .bind .eatWord fun _ => .ite ?_ ?_
  · refine .bind Inside.parametric.containerKind fun kind => ?_
    cases kind with
    | some kind => exact closes_container kind true
    | none => exact .fail
  refine .bind .eatWord fun _ => .ite (closes_container _ _) ?_
  refine .bind .eatWord fun _ => .ite (closes_container _ _) ?_
  refine .bind .eatWord fun _ => .ite closes_enumeration ?_
  refine .bind .eatWord fun _ => .ite closes_typedef ?_
  have hsees : Cursor.Sees 2 fun c => c.atKind .identifier && c.beforeWord "includes" :=
    ((Cursor.sees_atKind _).mono (by decide)).map₂ (Cursor.sees_beforeWord _) and
  refine .ite_look hsees (fun c h => ?_) closes_includes .fail
  rw [Cursor.atKind_eq_false_of_atKind h (by decide), Bool.false_and]

end DefinitionBody

/-- A definition ends with its semicolon, whatever follows. -/
theorem Definition.closes : Closes Definition.parse := by
  refine .bind .start fun first => .bind Ends.closing.extAttributes fun extAttrs => ?_
  exact .rest DefinitionBody.closes fun _ => .bind .spanFrom fun _ => .pure _

end IdlBindings
