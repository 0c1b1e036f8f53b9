import IdlBindings.Proofs.Token.Passing
import IdlBindings.Syntax.Definition.Parser

/-!
Relations between parsers. A relation that each basic parser has to itself, and that combining
parsers keeps, goes through the grammar: it relates a production over some parts to the production
over related parts. `Parametric` is for values, types and arguments, and `Parametric.Closing` for
the bodies of members, which end with a semicolon.
-/

namespace IdlBindings

open Parse

namespace Parse

variable {α β : Type}

/-- A relation that the basic parsers have to themselves and that combining parsers keeps. -/
structure Parametric (R : ∀ ⦃α : Type⦄, Parse α → Parse α → Prop) : Prop where
  pure {α : Type} (a : α) : R (Pure.pure a) (Pure.pure a)
  bind {α β : Type} {p q : Parse α} {k l : α → Parse β} :
    R p q → (∀ a, R (k a) (l a)) → R (p >>= k) (q >>= l)
  fail {α : Type} {kind : FaultKind} : R (Parse.fail kind : Parse α) (Parse.fail kind)
  unexpected {α : Type} {what : String} :
    R (Parse.unexpected what : Parse α) (Parse.unexpected what)
  text : R (look Cursor.text) (look Cursor.text)
  atKind {kind : TokenKind} : R (Parse.atKind kind) (Parse.atKind kind)
  atWord {word : String} : R (look fun c => c.atWord word) (look fun c => c.atWord word)
  advance : R Parse.advance Parse.advance
  eat {kind : TokenKind} : R (Parse.eat kind) (Parse.eat kind)
  eatWord {word : String} : R (Parse.eatWord word) (Parse.eatWord word)
  expect {kind : TokenKind} {what : String} : R (Parse.expect kind what) (Parse.expect kind what)
  expectWord {word : String} : R (Parse.expectWord word) (Parse.expectWord word)
  readName : R Parse.readName Parse.readName
  stringContent {what : String} : R (Parse.stringContent what) (Parse.stringContent what)
  constValue : R ConstValue.parse ConstValue.parse
  /-- Items behind a token that a test reads. -/
  repeatWhile {α : Type} {more : Parse Bool} {item item' : Parse α} :
    Tests more → R more more → R item item' →
      R (Parse.repeatWhile more item) (Parse.repeatWhile more item')
  /-- A value that is checked. The places may differ, but the fault is at the place of the value. -/
  checked {α β : Type} {p q : Parse α} {k l : α → Parse β} {test : α → Bool} {kind : FaultKind}
    {detail : α → String} : R p q → (∀ a, R (k a) (l a)) →
      R (do
          let first ← start
          let a ← p
          if test a then k a else failAt kind (← spanFrom first) (detail a))
        (do
          let first ← start
          let a ← q
          if test a then l a else failAt kind (← spanFrom first) (detail a))

theorem related_ite {R : Parse α → Parse α → Prop} {test : Bool} {p q p' q' : Parse α}
    (hyes : R p q) (hno : R p' q') :
    R (if test then p else p') (if test then q else q') := by
  cases test with
  | true => exact hyes
  | false => exact hno

namespace Parametric

variable {R : ∀ ⦃α : Type⦄, Parse α → Parse α → Prop} (h : Parametric R)

include h

theorem map {p q : Parse α} {m : α → β} (hp : R p q) : R (m <$> p) (m <$> q) := by
  rw [← bind_pure_comp, ← bind_pure_comp]
  exact h.bind hp fun a => h.pure (m a)

theorem commaSeparated {item item' : Parse α} (hitem : R item item') :
    R (Parse.commaSeparated item) (Parse.commaSeparated item') :=
  h.bind hitem fun _ => h.bind (h.repeatWhile .eat h.eat hitem) fun _ => h.pure _

/-! ### Values -/

theorem defaultValue : R DefaultValue.parse DefaultValue.parse := by
  refine h.bind h.atKind fun _ => related_ite (h.bind h.stringContent fun _ => h.pure _) ?_
  refine h.bind h.eat fun _ => related_ite (h.bind h.expect fun _ => h.pure _) ?_
  refine h.bind h.eat fun _ => related_ite (h.bind h.expect fun _ => h.pure _) ?_
  refine h.bind h.eatWord fun _ => related_ite (h.pure _) ?_
  refine h.bind h.eatWord fun _ => related_ite (h.pure _) ?_
  exact h.bind h.constValue fun _ => h.pure _

theorem attributeValue : R AttributeValue.parse AttributeValue.parse := by
  have hnumber (wrap : String → AttributeValue) :
      R (do let source ← look Cursor.text; Parse.advance; return wrap source)
        (do let source ← look Cursor.text; Parse.advance; return wrap source) :=
    h.bind h.text fun _ => h.bind h.advance fun _ => h.pure _
  refine h.bind h.atKind fun _ => related_ite (h.bind h.readName fun _ => h.pure _) ?_
  refine h.bind h.atKind fun _ => related_ite (h.bind h.stringContent fun _ => h.pure _) ?_
  refine h.bind h.atKind fun _ => related_ite (hnumber _) ?_
  refine h.bind h.atKind fun _ => related_ite (hnumber _) ?_
  refine h.bind h.eat fun _ => related_ite (h.pure _) ?_
  refine h.bind h.eat fun _ => related_ite ?_ h.fail
  exact h.bind (h.commaSeparated h.readName) fun _ => h.bind h.expect fun _ => h.pure _

/-! ### Types -/

section Arguments

variable {argument argument' : Parse Argument} (hargument : R argument argument')

include hargument

theorem argumentListWith :
    R (Argument.parseListWith argument) (Argument.parseListWith argument') := by
  refine h.bind h.expect fun _ => h.bind h.eat fun _ => related_ite (h.pure _) ?_
  exact h.bind (h.commaSeparated hargument) fun _ => h.bind h.expect fun _ => h.pure _

theorem extAttributeWith :
    R (ExtendedAttribute.parseWith argument) (ExtendedAttribute.parseWith argument') := by
  have htail (name : String) (value : Option AttributeValue) :
      R (do
          if ← look fun c => AttributeValue.allowsArguments value && c.atKind .parenOpen then
            let args ← Argument.parseListWith argument
            return ExtendedAttribute.mk name value (some args)
          else
            return ⟨name, value, none⟩)
        (do
          if ← look fun c => AttributeValue.allowsArguments value && c.atKind .parenOpen then
            let args ← Argument.parseListWith argument'
            return ExtendedAttribute.mk name value (some args)
          else
            return ⟨name, value, none⟩) := by
    refine h.bind (h.map (m := (AttributeValue.allowsArguments value && ·)) h.atKind) fun _ => ?_
    exact related_ite (h.bind (h.argumentListWith hargument) fun _ => h.pure _) (h.pure _)
  refine h.bind h.readName fun name => h.bind h.eat fun _ => related_ite ?_ (htail name none)
  exact h.bind (h.map h.attributeValue) (htail name)

theorem extAttributesWith :
    R (ExtendedAttribute.parseListWith argument) (ExtendedAttribute.parseListWith argument') := by
  refine h.bind h.eat fun _ => related_ite ?_ (h.pure _)
  exact h.bind (h.commaSeparated (h.extAttributeWith hargument)) fun _ =>
    h.bind h.expect fun _ => h.pure _

end Arguments

theorem unsigned : R IdlType.parseUnsigned IdlType.parseUnsigned := by
  refine h.bind h.eatWord fun _ => related_ite (h.pure _) (h.bind h.expectWord fun _ => ?_)
  exact h.bind h.eatWord fun _ => related_ite (h.pure _) (h.pure _)

theorem unrestricted : R IdlType.parseUnrestricted IdlType.parseUnrestricted :=
  h.bind h.eatWord fun _ => related_ite (h.pure _) (h.bind h.expectWord fun _ => h.pure _)

theorem long : R IdlType.parseLong IdlType.parseLong :=
  h.bind h.eatWord fun _ => related_ite (h.pure _) (h.pure _)

section Types

variable {type type' : Parse IdlType} (htype : R type type')

include htype

theorem wrappedWith : R (IdlType.parseWrappedWith type) (IdlType.parseWrappedWith type') :=
  h.bind h.expect fun _ => h.bind htype fun _ => h.bind h.expect fun _ => h.pure _

theorem recordWith : R (IdlType.parseRecordWith type) (IdlType.parseRecordWith type') := by
  refine h.bind h.expect fun _ => h.checked htype fun _ => ?_
  exact h.bind h.expect fun _ => h.bind htype fun _ => h.bind h.expect fun _ => h.pure _

theorem singleWith : R (IdlType.parseSingleWith type) (IdlType.parseSingleWith type') := by
  refine h.bind h.atKind fun _ => related_ite (h.bind h.text fun word => ?_) h.fail
  split
  · exact h.bind h.advance fun _ => h.bind (h.wrappedWith htype) fun _ => h.pure _
  split
  · exact h.bind h.advance fun _ => h.pure _
  · exact h.bind h.advance fun _ => h.recordWith htype
  · exact h.bind h.advance fun _ => h.unsigned
  · exact h.bind h.advance fun _ => h.unrestricted
  · exact h.bind h.advance fun _ => h.long
  split
  · exact h.bind h.advance fun _ => h.pure _
  · exact h.bind h.readName fun _ => h.pure _

theorem unionWith : R (IdlType.parseUnionWith type) (IdlType.parseUnionWith type') := by
  refine h.bind h.expect fun _ => h.bind htype fun _ => ?_
  refine h.bind (h.repeatWhile .eatWord h.eatWord htype) fun _ => ?_
  exact related_ite h.unexpected (h.bind h.expect fun _ => h.pure _)

end Types

section Nested

variable {type type' : Parse IdlType} {argument argument' : Parse Argument}
  (htype : R type type') (hargument : R argument argument')

include htype hargument

theorem typeWith : R (IdlType.parseWith type argument) (IdlType.parseWith type' argument') := by
  have htail (extAttrs : List ExtendedAttribute) (bare : IdlType) :
      R (do
          let inner := if ← Parse.eat .question then IdlType.nullable bare else bare
          return if extAttrs.isEmpty then inner else .annotated extAttrs inner)
        (do
          let inner := if ← Parse.eat .question then IdlType.nullable bare else bare
          return if extAttrs.isEmpty then inner else .annotated extAttrs inner) :=
    h.bind h.eat fun _ => h.pure _
  refine h.bind (h.extAttributesWith hargument) fun extAttrs => h.bind h.atKind fun _ => ?_
  refine related_ite ?_ ?_
  · exact h.bind (h.unionWith htype) (htail extAttrs)
  · exact h.bind (h.singleWith htype) (htail extAttrs)

theorem argumentWith :
    R (Argument.parseWith type argument) (Argument.parseWith type' argument') := by
  refine h.bind (h.extAttributesWith hargument) fun _ => h.bind h.eatWord fun _ => ?_
  refine related_ite ?_ ?_
  · refine h.bind htype fun _ => h.bind h.readName fun _ => h.bind h.eat fun _ => ?_
    refine related_ite ?_ (h.pure _)
    exact h.bind (h.map h.defaultValue) fun _ => h.pure _
  · exact h.bind htype fun _ => h.bind h.eat fun _ => h.bind h.readName fun _ => h.pure _

end Nested

theorem parseAt_succ {depth depth' : Nat}
    (hparts : R (IdlType.parseAt depth) (IdlType.parseAt depth')
      ∧ R (Argument.parseAt depth) (Argument.parseAt depth')) :
    R (IdlType.parseAt (depth + 1)) (IdlType.parseAt (depth' + 1))
      ∧ R (Argument.parseAt (depth + 1)) (Argument.parseAt (depth' + 1)) :=
  have htype := h.typeWith hparts.1 hparts.2
  ⟨htype, h.argumentWith htype hparts.2⟩

/-! ### Words of members and definitions -/

theorem qualifier : R Qualifier.parse? Qualifier.parse? := by
  refine h.bind h.eatWord fun _ => related_ite (h.pure _) ?_
  refine h.bind h.eatWord fun _ => related_ite (h.pure _) ?_
  exact h.bind h.eatWord fun _ => related_ite (h.pure _) (h.pure _)

theorem special : R Special.parse? Special.parse? := by
  refine h.bind h.eatWord fun _ => related_ite (h.pure _) ?_
  refine h.bind h.eatWord fun _ => related_ite (h.pure _) ?_
  exact h.bind h.eatWord fun _ => related_ite (h.pure _) (h.pure _)

theorem iterationKind : R IterationKind.parse IterationKind.parse := by
  refine h.bind h.eatWord fun _ => related_ite (h.pure _) ?_
  refine h.bind h.eatWord fun _ => related_ite (h.bind h.expectWord fun _ => h.pure _) ?_
  refine h.bind h.eatWord fun _ => related_ite (h.pure _) ?_
  exact h.bind h.expectWord fun _ => h.pure _

theorem containerKind : R ContainerKind.parsePartial? ContainerKind.parsePartial? := by
  refine h.bind h.eatWord fun _ => related_ite ?_ ?_
  · exact h.bind h.eatWord fun _ => related_ite (h.pure _) (h.pure _)
  refine h.bind h.eatWord fun _ => related_ite (h.pure _) ?_
  exact h.bind h.eatWord fun _ => related_ite (h.pure _) (h.pure _)

end Parametric

/-! ### The bodies of members -/

/-- A relation between parsers that end with a semicolon. What comes before the semicolon is
related by `R`. -/
structure Parametric.Closing (R S : ∀ ⦃α : Type⦄, Parse α → Parse α → Prop) : Prop where
  before : Parametric R
  type : R IdlType.parse IdlType.parse
  argument : R Argument.parse Argument.parse
  bind {α β : Type} {p q : Parse α} {k l : α → Parse β} :
    R p q → (∀ a, S (k a) (l a)) → S (p >>= k) (q >>= l)
  semicolon {α : Type} (a : α) :
    S (do Parse.semicolon; return a) (do Parse.semicolon; return a)
  fail {α : Type} {kind : FaultKind} : S (Parse.fail kind : Parse α) (Parse.fail kind)
  unexpected {α : Type} {what : String} :
    S (Parse.unexpected what : Parse α) (Parse.unexpected what)
  /-- The semicolon may be the one that a test reads. -/
  eatIf {α : Type} {allowed : Bool} {p q : Parse α} (a : α) : S p q →
    S (do if ← Parse.eatIf allowed .semicolon then return a else p)
      (do if ← Parse.eatIf allowed .semicolon then return a else q)
  atIteration {α : Type} {p q p' q' : Parse α} : S p q → S p' q' →
    S (do if ← look Cursor.atIteration then p else p')
      (do if ← look Cursor.atIteration then q else q')
  atConstructor {α : Type} {p q p' q' : Parse α} : S p q → S p' q' →
    S (do if ← look fun c => c.atWord "constructor" && c.beforeKind .parenOpen then p else p')
      (do if ← look fun c => c.atWord "constructor" && c.beforeKind .parenOpen then q else q')

namespace Parametric.Closing

variable {R S : ∀ ⦃α : Type⦄, Parse α → Parse α → Prop} (h : Closing R S)

include h

theorem arguments : R Argument.parseList Argument.parseList := h.before.argumentListWith h.argument

theorem extAttributes : R ExtendedAttribute.parseList ExtendedAttribute.parseList :=
  h.before.extAttributesWith h.argument

theorem parseConst : S MemberBody.parseConst MemberBody.parseConst :=
  h.bind h.type fun _ => h.bind h.before.readName fun _ => h.bind h.before.expect fun _ =>
    h.bind h.before.constValue fun _ => h.semicolon _

theorem parseConstructor : S MemberBody.parseConstructor MemberBody.parseConstructor :=
  h.bind h.arguments fun _ => h.semicolon _

theorem parseAttribute (qualifier : Option Qualifier) (isReadonly : Bool) :
    S (MemberBody.parseAttribute qualifier isReadonly)
      (MemberBody.parseAttribute qualifier isReadonly) :=
  h.bind h.type fun _ => h.bind h.before.readName fun _ => h.semicolon _

theorem parseOperation (isStatic : Bool) (special : Option Special) :
    S (MemberBody.parseOperation isStatic special)
      (MemberBody.parseOperation isStatic special) := by
  have htail (result : IdlType) (name : Option String) :
      S (do
          if name.isNone && special.isNone then
            Parse.fail .expectedIdentifier
          else
            let args ← Argument.parseList
            Parse.semicolon
            return MemberBody.operation ⟨name, result, args, isStatic, special⟩)
        (do
          if name.isNone && special.isNone then
            Parse.fail .expectedIdentifier
          else
            let args ← Argument.parseList
            Parse.semicolon
            return MemberBody.operation ⟨name, result, args, isStatic, special⟩) :=
    related_ite h.fail (h.bind h.arguments fun _ => h.semicolon _)
  refine h.bind h.type fun result => h.bind h.before.atKind fun _ => ?_
  refine related_ite ?_ (htail result none)
  exact h.bind (h.before.map h.before.readName) (htail result)

theorem parseIterationTypes (kind : IterationKind) :
    R (MemberBody.parseIterationTypes kind) (MemberBody.parseIterationTypes kind) := by
  have hpair (first : IdlType) :
      R (do return (some first, ← IdlType.parse)) (do return (some first, ← IdlType.parse)) :=
    h.before.bind h.type fun _ => h.before.pure _
  refine h.before.bind h.type fun first => ?_
  cases kind with
  | maplike => exact h.before.bind h.before.expect fun _ => hpair first
  | setlike => exact h.before.pure _
  | iterable | asyncIterable =>
      exact h.before.bind h.before.eat fun _ => related_ite (hpair first) (h.before.pure _)

theorem parseIteration (isReadonly : Bool) :
    S (MemberBody.parseIteration isReadonly) (MemberBody.parseIteration isReadonly) := by
  refine h.bind h.before.iterationKind fun kind => h.bind h.before.expect fun _ => ?_
  refine h.bind (h.parseIterationTypes kind) fun _ => h.bind h.before.expect fun _ => ?_
  refine h.bind (h.before.map (m := (kind == .asyncIterable && ·)) h.before.atKind) fun _ => ?_
  refine related_ite ?_ (h.bind (h.before.pure _) fun _ => h.semicolon _)
  exact h.bind h.arguments fun _ => h.semicolon _

theorem parseQualified (qualifier : Option Qualifier) (isReadonly : Bool) :
    S (MemberBody.parseQualified qualifier isReadonly)
      (MemberBody.parseQualified qualifier isReadonly) := by
  refine h.bind h.before.eatWord fun _ => related_ite (h.parseAttribute qualifier isReadonly) ?_
  refine related_ite h.unexpected (h.atIteration (h.parseIteration false) ?_)
  refine related_ite (h.parseOperation false (some .stringifier)) ?_
  exact h.bind h.before.special (h.parseOperation _)

theorem body : S MemberBody.parse MemberBody.parse := by
  refine h.bind h.before.eatWord fun _ => related_ite h.parseConst ?_
  refine h.atConstructor (h.bind h.before.advance fun _ => h.parseConstructor) ?_
  refine h.bind h.before.qualifier fun qualifier => h.eatIf _ ?_
  refine h.bind h.before.eatWord fun _ => related_ite ?_ (h.parseQualified qualifier false)
  have hlike : R (look fun c => c.atWord "maplike" || c.atWord "setlike")
      (look fun c => c.atWord "maplike" || c.atWord "setlike") :=
    h.before.bind h.before.atWord fun _ => h.before.bind h.before.atWord fun _ => h.before.pure _
  exact h.bind hlike fun _ => related_ite (h.parseIteration true) (h.parseQualified qualifier true)

theorem parseField : S MemberBody.parseField MemberBody.parseField := by
  have htail (isRequired : Bool) (type : IdlType) (name : String) (default : Option DefaultValue) :
      S (do
          Parse.semicolon
          return MemberBody.field ⟨name, type, isRequired, default⟩)
        (do
          Parse.semicolon
          return MemberBody.field ⟨name, type, isRequired, default⟩) :=
    h.semicolon _
  refine h.bind h.before.eatWord fun isRequired => h.bind h.type fun type => ?_
  refine h.bind h.before.readName fun name => h.bind h.before.eat fun _ => ?_
  refine related_ite ?_ (htail isRequired type name none)
  exact h.bind (h.before.map h.before.defaultValue) (htail isRequired type name)

end Parametric.Closing

end Parse

end IdlBindings
