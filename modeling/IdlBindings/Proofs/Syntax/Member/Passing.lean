import IdlBindings.Proofs.Syntax.Type.Passing
import IdlBindings.Syntax.Member.Parser

/-! Members are read from left to right. The span of one reaches over the tokens that it takes. -/

namespace IdlBindings

open Parse Cursor

theorem Parse.Takes.semicolon : Takes 1 Parse.semicolon := .expect

theorem Qualifier.takes : Takes 0 Qualifier.parse? := by
  refine .bind Tests.eatWord.takes fun _ => .ite .pure ?_
  refine .bind Tests.eatWord.takes fun _ => .ite .pure ?_
  exact .bind Tests.eatWord.takes fun _ => .ite .pure .pure

theorem Special.takes : Takes 0 Special.parse? := by
  refine .bind Tests.eatWord.takes fun _ => .ite .pure ?_
  refine .bind Tests.eatWord.takes fun _ => .ite .pure ?_
  exact .bind Tests.eatWord.takes fun _ => .ite .pure .pure

theorem IterationKind.takes : Takes 0 IterationKind.parse := by
  refine .bind Tests.eatWord.takes fun _ => .ite .pure ?_
  refine .bind Tests.eatWord.takes fun _ => .ite (.skip .expectWord fun _ => .pure) ?_
  exact .bind Tests.eatWord.takes fun _ => .ite .pure (.skip .expectWord fun _ => .pure)

namespace MemberBody

theorem takes_const : Takes 1 parseConst :=
  .bind IdlType.takes fun _ => .skip .readName fun _ => .skip .expect fun _ =>
    .skip ConstValue.takes fun _ => .skip .semicolon fun _ => .pure

theorem takes_constructor : Takes 1 parseConstructor :=
  .bind Argument.takes_list fun _ => .skip .semicolon fun _ => .pure

theorem takes_attribute (qualifier : Option Qualifier) (isReadonly : Bool) :
    Takes 1 (parseAttribute qualifier isReadonly) :=
  .bind IdlType.takes fun _ => .skip .readName fun _ => .skip .semicolon fun _ => .pure

theorem takes_operation (isStatic : Bool) (special : Option Special) :
    Takes 1 (parseOperation isStatic special) := by
  have htail (result : IdlType) (name : Option String) : Takes 0 (do
      if name.isNone && special.isNone then
        fail .expectedIdentifier
      else
        let args ← Argument.parseList
        Parse.semicolon
        return MemberBody.operation ⟨name, result, args, isStatic, special⟩) :=
    .ite (.fail rfl) (.skip Argument.takes_list fun _ => .skip .semicolon fun _ => .pure)
  refine .bind IdlType.takes fun result => .look fun _ => .ite ?_ (htail result none)
  exact .skip (.map .readName) (htail result)

theorem takes_iterationTypes (kind : IterationKind) : Takes 1 (parseIterationTypes kind) := by
  have hpair (first : IdlType) : Takes 0 (do return (some first, ← IdlType.parse)) :=
    .skip IdlType.takes fun _ => .pure
  refine .bind IdlType.takes fun first => ?_
  cases kind with
  | maplike => exact .skip .expect fun _ => hpair first
  | setlike => exact .pure
  | iterable => exact .bind Tests.eat.takes fun _ => .ite (hpair first) .pure
  | asyncIterable => exact .bind Tests.eat.takes fun _ => .ite (hpair first) .pure

theorem takes_iteration (isReadonly : Bool) : Takes 1 (parseIteration isReadonly) := by
  refine .andThen IterationKind.takes fun kind => .bind .expect fun _ => ?_
  refine .skip (takes_iterationTypes kind) fun _ => .skip .expect fun _ => .look fun _ => ?_
  refine .ite ?_ (.bind .pure fun _ => .skip .semicolon fun _ => .pure)
  exact .skip Argument.takes_list fun _ => .skip .semicolon fun _ => .pure

theorem takes_qualified (qualifier : Option Qualifier) (isReadonly : Bool) :
    Takes 1 (parseQualified qualifier isReadonly) := by
  refine .ite_test .eatWord (takes_attribute qualifier isReadonly).any ?_
  refine .ite .unexpected (.look fun _ => .ite (takes_iteration false) ?_)
  refine .ite (takes_operation false (some .stringifier)) ?_
  exact .andThen Special.takes (takes_operation _)

theorem takes : Takes 1 parse := by
  refine .ite_test .eatWord takes_const.any (.look fun _ => .ite ?_ ?_)
  · exact .andThen .advance fun _ => takes_constructor
  refine .andThen Qualifier.takes fun qualifier => .ite_test .eatIf .pure ?_
  refine .ite_test .eatWord (.look fun _ => .ite ?_ ?_) (takes_qualified qualifier false)
  · exact (takes_iteration true).any
  · exact (takes_qualified qualifier true).any

theorem takes_field : Takes 1 parseField := by
  have htail (isRequired : Bool) (type : IdlType) (name : String) (default : Option DefaultValue) :
      Takes 0 (do
        Parse.semicolon
        return MemberBody.field ⟨name, type, isRequired, default⟩) :=
    .skip .semicolon fun _ => .pure
  refine .andThen Tests.eatWord.takes fun isRequired => .bind IdlType.takes fun type => ?_
  refine .skip .readName fun name => .bind Tests.eat.takes fun _ => ?_
  refine .ite ?_ (htail isRequired type name none)
  exact .skip (.map DefaultValue.takes) (htail isRequired type name)

end MemberBody

/-- The span of a member begins at its first token and ends with its last one. The first one is a
bracket if the member has extended attributes. -/
theorem Member.runs (inDictionary : Bool) (c : Cursor) :
    Runs (Member.parse inDictionary) c fun m ts d => ts ≠ [] ∧
      m.span = ⟨c.span.start, max d.lastEnd c.span.start⟩ ∧
      (m.extAttrs ≠ [] ↔ c.atKind .bracketOpen = true) := by
  have hend (body : Parse MemberBody) (hbody : Takes 1 body) :
      Runs (do
        let first ← start
        let extAttrs ← ExtendedAttribute.parseList
        let body ← body
        return Member.mk body extAttrs (← spanFrom first)) c fun m ts d => ts ≠ [] ∧
          m.span = ⟨c.span.start, max d.lastEnd c.span.start⟩ ∧
          (m.extAttrs ≠ [] ↔ c.atKind .bracketOpen = true) := by
    refine RunsFrom.look ?_
    refine (ExtendedAttribute.takes_list c).result.bind fun extAttrs ts d _ ⟨hattrs, _⟩ => ?_
    refine (hbody d).bind fun body us e _ hus => RunsFrom.look (Runs.pure ⟨?_, rfl, ?_⟩)
    · rw [List.append_nil]
      exact List.append_ne_nil_of_right_ne_nil ts (List.length_pos_iff.1 hus)
    · exact ExtendedAttribute.ne_nil_iff hattrs
  cases inDictionary with
  | true => exact hend _ MemberBody.takes_field
  | false => exact hend _ MemberBody.takes

end IdlBindings
