import IdlBindings.Proofs.Syntax.Definition.Passing
import IdlBindings.Proofs.Token.Progress
import IdlBindings.Proofs.Token.Taking

/-!
The grammar always makes progress. A part of a type begins behind a token of the type, so the
recursion between types and arguments ends before the tokens do, and what deeper parts would be does
not show (`nested_eq`). All loops of the grammar read a token in each round (`Loop.readsEach`), and
every production goes on with the tokens that it says (`Production.advances`).
-/

namespace IdlBindings

open Parse Cursor

/-! ### The recursion between types and arguments -/

namespace Parse.Alike

variable {n : Nat} {type type' : Parse IdlType} {argument argument' : Parse Argument}

section Arguments

variable (h : Alike n argument argument') (hargument : Takes 0 argument')

include h hargument

theorem argumentListWith :
    Alike (n + 1) (Argument.parseListWith argument) (Argument.parseListWith argument') := by
  refine after .expect fun _ => behind Tests.eat.takes fun _ => ite (refl _) ?_
  exact first (commaSeparated h hargument)

theorem extAttributeWith : Alike (n + 1) (ExtendedAttribute.parseWith argument)
    (ExtendedAttribute.parseWith argument') := by
  have htail (name : String) (value : Option AttributeValue) : Alike n
      (do
        if ← Parse.look fun c => AttributeValue.allowsArguments value && c.atKind .parenOpen then
          let args ← Argument.parseListWith argument
          return ExtendedAttribute.mk name value (some args)
        else
          return ⟨name, value, none⟩)
      (do
        if ← Parse.look fun c => AttributeValue.allowsArguments value && c.atKind .parenOpen then
          let args ← Argument.parseListWith argument'
          return ExtendedAttribute.mk name value (some args)
        else
          return ⟨name, value, none⟩) :=
    look fun _ => ite (first ((argumentListWith h hargument).mono (Nat.le_succ n))) (refl _)
  refine after .readName fun name => behind Tests.eat.takes fun _ => ite ?_ (htail name none)
  exact behind (.map AttributeValue.takes.any) (htail name)

theorem extAttributesWith : Alike (n + 1) (ExtendedAttribute.parseListWith argument)
    (ExtendedAttribute.parseListWith argument') := by
  refine behind Tests.eat.takes fun _ => ite ?_ (refl _)
  exact first (commaSeparated (extAttributeWith h hargument)
    (ExtendedAttribute.takes_with hargument).any)

end Arguments

section Types

variable (h : Alike n type type') (htype : Takes 1 type')

include h

theorem wrappedWith :
    Alike (n + 1) (IdlType.parseWrappedWith type) (IdlType.parseWrappedWith type') :=
  after .expect fun _ => h.first

include htype

theorem recordWith :
    Alike (n + 1) (IdlType.parseRecordWith type) (IdlType.parseRecordWith type') := by
  refine after .expect fun _ => look fun _ => h.bind htype.any fun key => ite ?_ (refl _)
  exact behind Takes.expect.any fun _ => h.first

theorem unionWith :
    Alike (n + 1) (IdlType.parseUnionWith type) (IdlType.parseUnionWith type') :=
  after .expect fun _ => h.bind htype.any fun _ =>
    first (repeatWhile Tests.eatWord.takes h htype.any)

theorem singleWith :
    Alike (n + 1) (IdlType.parseSingleWith type) (IdlType.parseSingleWith type') := by
  intro c hc
  have hadvance {p q : Parse IdlType} (hkind : c.atKind .identifier = true) (hpq : Alike n p q) :
      (do advance; p : Parse IdlType) c = (do advance; q : Parse IdlType) c := by
    obtain ⟨token, -, hpassed⟩ := Passed.advance_atKind hkind
    refine hpq c.advance ?_
    rw [hpassed.rest, List.length_append, List.length_singleton] at hc
    omega
  change (if c.atKind .identifier then _ else _ : Parse IdlType) c
    = (if c.atKind .identifier then _ else _ : Parse IdlType) c
  cases hkind : c.atKind .identifier with
  | false => rfl
  | true =>
      simp only [if_true, bind_of_ok (show Parse.look Cursor.text c = .ok (c.text, c) from rfl)]
      generalize c.text = word
      cases IdlType.wrapper? word with
      | some wrap => exact hadvance hkind ((wrappedWith h).mono (Nat.le_succ n)).first
      | none =>
          dsimp only
          split
          case h_2 => exact hadvance hkind ((recordWith h htype).mono (Nat.le_succ n))
          all_goals rfl

end Types

variable (hargument : Alike n argument argument') (htakes : Takes 0 argument')

include hargument htakes

theorem typeWith (h : Alike n type type') (htype : Takes 1 type') :
    Alike (n + 1) (IdlType.parseWith type argument) (IdlType.parseWith type' argument') := by
  refine bind (extAttributesWith hargument htakes) (ExtendedAttribute.takes_listWith htakes)
    fun extAttrs => look fun _ => ite ?_ ?_
  · exact first (unionWith h htype)
  · exact first (singleWith h htype)

theorem argumentWith (h : Alike (n + 1) type type') :
    Alike (n + 1) (Argument.parseWith type argument) (Argument.parseWith type' argument') :=
  bind (extAttributesWith hargument htakes) (ExtendedAttribute.takes_listWith htakes)
    fun _ => behind Tests.eatWord.takes fun _ => ite h.first h.first

end Parse.Alike

/-- Types and arguments whose parts below `depth` are read with the given parsers. -/
def nested (type : Parse IdlType) (argument : Parse Argument) : Nat → Parse IdlType × Parse Argument
  | 0 => (type, argument)
  | depth + 1 =>
    let (type, argument) := nested type argument depth
    (IdlType.parseWith type argument,
      Argument.parseWith (IdlType.parseWith type argument) argument)

section Nested

variable {n : Nat} {type : Parse IdlType} {argument : Parse Argument}

end Nested

theorem Member.takes (inDictionary : Bool) : Takes 1 (Member.parse inDictionary) := fun c =>
  (Member.runs inDictionary c).mono fun _ _ _ _ h => List.length_pos_iff.2 h.1

theorem Definition.takes : Takes 1 Definition.parse := fun c =>
  (Definition.runs c).mono fun _ _ _ _ h => List.length_pos_iff.2 h.1

theorem Definition.takes_all : Takes 0 Definition.parseAll := fun c =>
  (Definition.runs_all c).mono fun _ _ _ _ _ => Nat.zero_le _

theorem Parse.Takes.look_test {test : Cursor → Bool} : Takes 0 (Parse.look test) :=
  fun _ => .ok rfl .refl (Nat.zero_le _)

namespace DefinitionBody

end DefinitionBody

/-! ### The productions -/

/-- The productions of the grammar, each with the number of tokens that it reads at least. -/
inductive Production : {α : Type} → Nat → Parse α → Prop
  | constValue : Production 1 ConstValue.parse
  | defaultValue : Production 1 DefaultValue.parse
  | attributeValue : Production 1 AttributeValue.parse
  | extendedAttribute : Production 1 (ExtendedAttribute.parseWith Argument.parse)
  | extendedAttributes : Production 0 ExtendedAttribute.parseList
  | argument : Production 1 Argument.parse
  | arguments : Production 1 Argument.parseList
  | type : Production 1 IdlType.parse
  | unionType : Production 1 (IdlType.parseUnionWith IdlType.parse)
  | singleType : Production 1 (IdlType.parseSingleWith IdlType.parse)
  | wrappedType : Production 1 (IdlType.parseWrappedWith IdlType.parse)
  | recordType : Production 1 (IdlType.parseRecordWith IdlType.parse)
  | unsignedType : Production 0 IdlType.parseUnsigned
  | unrestrictedType : Production 0 IdlType.parseUnrestricted
  | longType : Production 0 IdlType.parseLong
  | qualifier : Production 0 Qualifier.parse?
  | special : Production 0 Special.parse?
  | iterationKind : Production 0 IterationKind.parse
  | constMember : Production 1 MemberBody.parseConst
  | constructorMember : Production 1 MemberBody.parseConstructor
  | attributeMember (qualifier : Option Qualifier) (isReadonly : Bool) :
      Production 1 (MemberBody.parseAttribute qualifier isReadonly)
  | operationMember (isStatic : Bool) (special : Option Special) :
      Production 1 (MemberBody.parseOperation isStatic special)
  | iterationMember (isReadonly : Bool) : Production 1 (MemberBody.parseIteration isReadonly)
  | memberBody : Production 1 MemberBody.parse
  | fieldMember : Production 1 MemberBody.parseField
  | member (inDictionary : Bool) : Production 1 (Member.parse inDictionary)
  | partialKind : Production 0 ContainerKind.parsePartial?
  | containerBody (kind : ContainerKind) (isPartial : Bool) :
      Production 1 (DefinitionBody.parseContainer kind isPartial)
  | enumerationBody : Production 1 DefinitionBody.parseEnumeration
  | typedefBody : Production 1 DefinitionBody.parseTypedef
  | callbackBody : Production 1 DefinitionBody.parseCallback
  | includesBody : Production 1 DefinitionBody.parseIncludes
  | definitionBody : Production 1 DefinitionBody.parse
  | definition : Production 1 Definition.parse
  | definitions : Production 0 Definition.parseAll

theorem DefinitionBody.Takes.advances {least : Nat} {p : Parse NamedBody}
    (h : DefinitionBody.Takes least p) : Advances least p :=
  Parse.Takes.advances fun c => (h c).mono fun _ _ _ _ hresult => hresult.1

theorem Production.advances {α : Type} {least : Nat} {p : Parse α} (h : Production least p) :
    Advances least p := by
  have hargument := Argument.takes.any
  cases h with
  | constValue => exact ConstValue.takes.advances
  | defaultValue => exact DefaultValue.takes.advances
  | attributeValue => exact AttributeValue.takes.advances
  | extendedAttribute => exact (ExtendedAttribute.takes_with hargument).advances
  | extendedAttributes => exact ExtendedAttribute.takes_list.advances
  | argument => exact Argument.takes.advances
  | arguments => exact Argument.takes_list.advances
  | type => exact IdlType.takes.advances
  | unionType => exact (IdlType.takes_unionWith IdlType.takes).advances
  | singleType => exact (IdlType.takes_singleWith IdlType.takes).advances
  | wrappedType => exact (IdlType.takes_wrappedWith IdlType.takes).advances
  | recordType => exact (IdlType.takes_recordWith IdlType.takes).advances
  | unsignedType => exact IdlType.takes_unsigned.advances
  | unrestrictedType => exact IdlType.takes_unrestricted.advances
  | longType => exact IdlType.takes_long.advances
  | qualifier => exact Qualifier.takes.advances
  | special => exact Special.takes.advances
  | iterationKind => exact IterationKind.takes.advances
  | constMember => exact MemberBody.takes_const.advances
  | constructorMember => exact MemberBody.takes_constructor.advances
  | attributeMember qualifier isReadonly =>
      exact (MemberBody.takes_attribute qualifier isReadonly).advances
  | operationMember isStatic special => exact (MemberBody.takes_operation isStatic special).advances
  | iterationMember isReadonly => exact (MemberBody.takes_iteration isReadonly).advances
  | memberBody => exact MemberBody.takes.advances
  | fieldMember => exact MemberBody.takes_field.advances
  | member inDictionary => exact (Member.takes inDictionary).advances
  | partialKind => exact DefinitionBody.takes_partial.advances
  | containerBody kind isPartial => exact (DefinitionBody.takes_container kind isPartial).advances
  | enumerationBody => exact DefinitionBody.takes_enumeration.advances
  | typedefBody => exact DefinitionBody.takes_typedef.advances
  | callbackBody => exact DefinitionBody.takes_callback.advances
  | includesBody => exact DefinitionBody.takes_includes.advances
  | definitionBody => exact DefinitionBody.takes.advances
  | definition => exact Definition.takes.advances
  | definitions => exact Definition.takes_all.advances

namespace Definition

end Definition

end IdlBindings
