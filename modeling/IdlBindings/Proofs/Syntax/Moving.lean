import IdlBindings.Proofs.Syntax.Definition.Passing
import IdlBindings.Proofs.Syntax.Parametric
import IdlBindings.Proofs.Token.Moving

/-!
Reading the same tokens at other places. Types, arguments and extended attributes have no places, so
they are the same; members and definitions move with the tokens (`Definition.ofSource_move`).
-/

namespace IdlBindings

open Parse

variable {f : Nat → Nat}

/-! ### Values -/

theorem ConstValue.next?_move (c : Cursor) :
    next? (c.move f) = (next? c).map fun (value, d) => (value, d.move f) := by
  simp only [next?, Cursor.atKind_move, Cursor.beforeWord_move, Cursor.text_move,
    Cursor.advance_move]
  split
  · rfl
  split
  · rfl
  split
  · rw [Option.map_map]
    rfl
  split
  · rfl
  · rfl

theorem ConstValue.stays : Stays f ConstValue.parse := by
  intro c
  have hfail : Stays f (fail .expectedValue : Parse ConstValue) := .fail
  rw [ConstValue.parse, next?_move, ConstValue.parse]
  cases next? c with
  | none => exact hfail c
  | some next => rfl

/-! ### Types -/

/-- The same parser at other places. A place is only named in a fault, which moves. -/
theorem Parse.Moves.parametric (hf : Monotone f) : Parametric fun _ => Moves f id where
  pure := .pure
  bind := .follow
  fail := .fail
  unexpected := .unexpected
  text := .look fun c => c.text_move f
  atKind := .atKind
  atWord := .look fun c => c.atWord_move f _
  advance := .advance
  eat := .eat
  eatWord := .eatWord
  expect := .expect
  expectWord := .expectWord
  readName := .readName
  stringContent := .stringContent
  constValue := ConstValue.stays
  repeatWhile _ hmore hitem := List.map_id_fun ▸ hmore.repeatWhile hitem
  checked hp hk := .follow .start fun first => .follow hp fun a =>
    .ite (hk a) (.follow (.spanFrom hf first) fun _ => .failAt)

/-- The parsers of every depth. -/
theorem stays_parseAt (hf : Monotone f) (depth : Nat) :
    Stays f (IdlType.parseAt depth) ∧ Stays f (Argument.parseAt depth) := by
  induction depth with
  | zero => exact ⟨.fail, .fail⟩
  | succ depth ih => exact (Moves.parametric hf).parseAt_succ ih

theorem IdlType.stays (hf : Monotone f) : Stays f IdlType.parse := by
  intro c
  rw [IdlType.parse, Cursor.length_rest_move]
  exact (stays_parseAt hf _).1 c

theorem Argument.stays (hf : Monotone f) : Stays f Argument.parse := by
  intro c
  rw [Argument.parse, Cursor.length_rest_move]
  exact (stays_parseAt hf _).2 c

/-! ### Members -/

theorem Parse.Moves.semicolon : Stays f Parse.semicolon := .expect

theorem Cursor.atIteration_move (c : Cursor) : (c.move f).atIteration = c.atIteration := by
  simp only [atIteration, atWord_move, beforeWord_move]

theorem Parse.Moves.closing (hf : Monotone f) :
    Parametric.Closing (fun _ => Moves f id) fun _ => Moves f id where
  before := Moves.parametric hf
  type := IdlType.stays hf
  argument := Argument.stays hf
  bind := .follow
  semicolon a := .bind .semicolon fun _ => .pure a
  fail := .fail
  unexpected := .unexpected
  eatIf a hp := .bind .eatIf fun _ => .ite (.pure a) hp
  atIteration hyes hno := .bind (.look Cursor.atIteration_move) fun _ => .ite hyes hno
  atConstructor hyes hno :=
    .bind (.look fun c => by rw [Cursor.atWord_move, Cursor.beforeKind_move]) fun _ => .ite hyes hno

/-- A member moves with its tokens. -/
theorem Member.moves (hf : Monotone f) (inDictionary : Bool) :
    Moves f (relabel (Span.move f)) (parse inDictionary) (parse inDictionary) := by
  have hbody := Moves.closing hf
  refine .follow .start fun first => .bind hbody.extAttributes fun extAttrs => ?_
  have htail (body : MemberBody) : Moves f (relabel (Span.move f))
      (do return Member.mk body extAttrs (← spanFrom first))
      (do return Member.mk body extAttrs (← spanFrom (f first))) :=
    .follow (.spanFrom hf first) fun span => .pure (Member.mk body extAttrs span)
  exact .ite (.bind hbody.parseField htail) (.bind hbody.body htail)

/-! ### Definitions -/

/-- The body of a definition, with its name, at other places. -/
def NamedBody.relabel (g : Span → Span) (named : NamedBody) : NamedBody :=
  (named.1, named.2.relabel g)

namespace DefinitionBody

/-- The values of an enumeration. `unclosed` stops with a fault at a place that moves. -/
theorem stays_values {unclosed unclosed' : Parse (List String)}
    (hunclosed : Moves f id unclosed unclosed') (limit : Nat) :
    Moves f id (parseValues unclosed limit) (parseValues unclosed' limit) := by
  induction limit with
  | zero => exact .pure _
  | succ limit ih =>
      refine .bind .atKind fun _ => .ite (.pure _) (.bind .atEnd fun _ => .ite hunclosed ?_)
      refine .bind .stringContent fun value => .bind .eat fun _ => .ite ?_ (.pure _)
      exact .follow ih fun rest => .pure (value :: rest)

theorem moves_enumeration :
    Moves f (NamedBody.relabel (Span.move f)) parseEnumeration parseEnumeration := by
  refine .bind .readName fun name => .follow .span fun brace => .bind .expect fun _ => ?_
  refine .bind (.look fun c => by rw [Cursor.length_rest_move]) fun limit => ?_
  refine .follow (stays_values .failAt limit) fun values => .bind .expect fun _ => ?_
  exact .bind .semicolon fun _ => .pure (name, enumeration values)

theorem moves_includes :
    Moves f (NamedBody.relabel (Span.move f)) parseIncludes parseIncludes := by
  refine .bind .readName fun target => .bind .expectWord fun _ => .bind .readName fun mixin => ?_
  exact .bind .semicolon fun _ => .pure (target, includes mixin)

variable (hf : Monotone f)

include hf

theorem moves_container (kind : ContainerKind) (isPartial : Bool) :
    Moves f (NamedBody.relabel (Span.move f)) (parseContainer kind isPartial)
      (parseContainer kind isPartial) := by
  have hmore : Stays f (look fun c : Cursor => !c.atKind .braceClose && !c.rest.isEmpty) :=
    .look fun c => by rw [Cursor.atKind_move, Cursor.isEmpty_rest_move]
  refine .bind .readName fun name => .bind .eatIf fun _ =>
    .ite (.bind (.map .readName) fun parent => ?_) (.bind (.pure none) fun parent => ?_)
  all_goals
    refine .follow .span fun brace => .bind .expect fun _ => ?_
    refine .follow (.repeatWhile hmore (Member.moves hf _)) fun members => ?_
    refine .bind .atEnd fun _ => .ite .failAt (.bind .expect fun _ => .bind .semicolon fun _ => ?_)
    exact .pure (name, container ⟨kind, isPartial, _, members⟩)

theorem moves_typedef : Moves f (NamedBody.relabel (Span.move f)) parseTypedef parseTypedef := by
  refine .bind (IdlType.stays hf) fun type => .bind .readName fun name => ?_
  exact .bind .semicolon fun _ => .pure (name, typedef type)

theorem moves_callback :
    Moves f (NamedBody.relabel (Span.move f)) parseCallback parseCallback := by
  refine .bind .readName fun name => .bind .expect fun _ => ?_
  refine .bind (IdlType.stays hf) fun result => .bind (Moves.closing hf).arguments fun args => ?_
  exact .bind .semicolon fun _ => .pure (name, callback result args)

theorem moves : Moves f (NamedBody.relabel (Span.move f)) parse parse := by
  refine .bind .eatWord fun _ => .ite ?_ ?_
  · exact .bind .eatWord fun _ => .ite (moves_container hf _ _) (moves_callback hf)
  refine .bind .eatWord fun _ => .ite ?_ ?_
  · exact .bind .eatWord fun _ => .ite (moves_container hf _ _) (moves_container hf _ _)
  refine .bind .eatWord fun _ => .ite ?_ ?_
  · refine .bind (Moves.parametric hf).containerKind fun kind => ?_
    cases kind with
    | some kind => exact moves_container hf kind true
    | none => exact .fail
  refine .bind .eatWord fun _ => .ite (moves_container hf _ _) ?_
  refine .bind .eatWord fun _ => .ite (moves_container hf _ _) ?_
  refine .bind .eatWord fun _ => .ite moves_enumeration ?_
  refine .bind .eatWord fun _ => .ite (moves_typedef hf) ?_
  refine .bind (.look fun c => by rw [Cursor.atKind_move, Cursor.beforeWord_move]) fun _ => ?_
  exact .ite moves_includes .fail

end DefinitionBody

namespace Definition

theorem moves (hf : Monotone f) : Moves f (relabel (Span.move f)) parse parse := by
  refine .follow .start fun first => .bind (Moves.closing hf).extAttributes fun extAttrs => ?_
  refine .follow (DefinitionBody.moves hf) fun (name, body) => ?_
  exact .follow (.spanFrom hf first) fun span => .pure (Definition.mk name body extAttrs span)

theorem moves_all (hf : Monotone f) :
    Moves f (List.map (relabel (Span.move f))) parseAll parseAll :=
  .repeatWhile (.look fun c => by rw [Cursor.isEmpty_rest_move]) (moves hf)

/-- The same text at another place gives the same definitions or the same fault, at other places. -/
theorem ofSource_move (hf : Monotone f) {source : String} {base base' : Nat}
    (hplace : ∀ n ≤ byteLength source.toList, f (base + n) = base' + n) :
    ofSource source base' = match ofSource source base with
      | .ok definitions => .ok (definitions.map (relabel (Span.move f)))
      | .error fault => .error (fault.relabel (Span.move f)) := by
  have hcursor : cursor source base' = (cursor source base).move f := by
    rw [cursor, cursor, Cursor.move, Token.significant_lex_move hplace, hplace _ (Nat.le_refl _),
      show f base = base' from hplace 0 (Nat.zero_le _)]
  show (parseAll (cursor source base')).map Prod.fst
    = match (parseAll (cursor source base)).map Prod.fst with
      | .ok definitions => .ok (definitions.map (relabel (Span.move f)))
      | .error fault => .error (fault.relabel (Span.move f))
  rw [hcursor, moves_all hf]
  cases parseAll (cursor source base) <;> rfl

/-- A text that ends below byte `2 ^ 32` is read with all its places as they are. -/
theorem parseAt_eq {source : String} {base : UInt32}
    (hfits : base.toNat + byteLength source.toList < UInt32.size) :
    parseAt source base = ofSource source base.toNat := by
  rw [parseAt, ofSource, Token.lexAt_eq hfits, storedPlace_of_lt hfits]

end Definition

end IdlBindings
