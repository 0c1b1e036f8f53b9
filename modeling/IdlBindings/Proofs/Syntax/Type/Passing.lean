import IdlBindings.Proofs.Token.Passing
import IdlBindings.Syntax.Type.Parser

/-!
Values, types, extended attributes and arguments are read from left to right, each with a token of
its own. The recursion is an induction on the depth of the parsers.
-/

namespace IdlBindings

open Parse Cursor

theorem ConstValue.takes : Takes 1 ConstValue.parse := by
  intro c
  cases hnext : next? c with
  | none => exact .of_eq (by rw [ConstValue.parse, hnext]) (.fail rfl)
  | some next =>
      obtain ⟨value, d⟩ := next
      have hrun : ConstValue.parse c = .ok (value, d) := by rw [ConstValue.parse, hnext]
      have hone {kind : TokenKind} (hkind : c.atKind kind = true) (hd : c.advance = d) :
          Runs ConstValue.parse c fun _ ts _ => 1 ≤ ts.length := by
        obtain ⟨token, -, hpassed⟩ := Passed.advance_atKind hkind
        subst hd
        exact .ok hrun hpassed (Nat.le_refl 1)
      rw [next?] at hnext
      split at hnext
      · cases hnext
        exact hone ‹_› rfl
      split at hnext
      · cases hnext
        exact hone ‹_› rfl
      split at hnext
      · obtain ⟨found, -, heq⟩ := Option.map_eq_some_iff.1 hnext
        cases heq
        exact hone ‹_› rfl
      split at hnext
      · rename_i hinfinity
        cases hnext
        obtain ⟨first, second, hpassed⟩ :=
          Passed.advance_beforeWord (Bool.and_eq_true_iff.1 hinfinity).2
        exact .ok hrun hpassed (by simp)
      · cases hnext

theorem DefaultValue.takes : Takes 1 DefaultValue.parse := by
  unfold DefaultValue.parse
  refine .look fun _ => .ite (.bind .stringContent fun _ => .pure) ?_
  refine .ite_test .eat (.skip .expect fun _ => .pure) ?_
  refine .ite_test .eat (.skip .expect fun _ => .pure) ?_
  refine .ite_test .eatWord .pure ?_
  refine .ite_test .eatWord .pure ?_
  exact ConstValue.takes.bind fun _ => .pure

/-- A number is one token. -/
theorem AttributeValue.runs_number {c : Cursor} {wrap : String → AttributeValue} {kind : TokenKind}
    (h : c.atKind kind = true) : Runs (do
      let source ← look Cursor.text
      advance
      return wrap source) c fun _ ts _ => 1 ≤ ts.length := by
  obtain ⟨token, -, hpassed⟩ := Passed.advance_atKind h
  exact RunsFrom.look (Runs.advance hpassed (.pure (Nat.le_refl 1)))

theorem AttributeValue.takes : Takes 1 AttributeValue.parse := by
  intro c
  unfold AttributeValue.parse
  refine .ite_look (fun _ => Takes.bind .readName (fun _ => .pure) c) fun _ => ?_
  refine .ite_look (fun _ => Takes.bind .stringContent (fun _ => .pure) c) fun _ => ?_
  refine .ite_look runs_number fun _ => ?_
  refine .ite_look runs_number fun _ => ?_
  refine Takes.ite_test .eat .pure (.ite_test .eat ?_ (.fail rfl)) c
  exact .skip (.commaSeparated .readName) fun _ => .skip .expect fun _ => .pure

section Parts

variable {type : Parse IdlType} {argument : Parse Argument}

theorem Argument.takes_listWith (hargument : Takes 0 argument) :
    Takes 1 (parseListWith argument) := by
  refine .bind .expect fun _ => .bind Tests.eat.takes fun _ => .ite .pure ?_
  exact .bind (.commaSeparated hargument) fun _ => .skip .expect fun _ => .pure

theorem ExtendedAttribute.takes_with (hargument : Takes 0 argument) :
    Takes 1 (parseWith argument) := by
  have htail (name : String) (value : Option AttributeValue) : Takes 0 (do
      if ← look fun c => AttributeValue.allowsArguments value && c.atKind .parenOpen then
        let args ← Argument.parseListWith argument
        return ExtendedAttribute.mk name value (some args)
      else
        return ⟨name, value, none⟩) :=
    .look fun _ => .ite (.skip (Argument.takes_listWith hargument) fun _ => .pure) .pure
  refine .bind .readName fun name => .bind Tests.eat.takes fun _ => .ite ?_ (htail name none)
  exact .bind (.map AttributeValue.takes.any) (htail name)

theorem ExtendedAttribute.takes_listWith (hargument : Takes 0 argument) :
    Takes 0 (parseListWith argument) := by
  refine .bind Tests.eat.takes fun _ => .ite ?_ .pure
  exact .skip (.commaSeparated (takes_with hargument)) fun _ => .skip .expect fun _ => .pure

namespace IdlType

theorem takes_wrappedWith (htype : Takes 1 type) : Takes 1 (parseWrappedWith type) :=
  .bind .expect fun _ => .skip htype fun _ => .skip .expect fun _ => .pure

theorem takes_recordWith (htype : Takes 1 type) : Takes 1 (parseRecordWith type) := by
  refine .bind .expect fun _ c => RunsFrom.look ?_
  -- the fault is at the key, so it is ahead of the cursor before the key only
  refine RunsFrom.bind (htype c) fun key ts d hpassed hts => ?_
  cases key.isRecordKey with
  | true =>
      have hrest : Takes 0 (do
          Parse.expect .comma "`,`"
          let value ← type
          Parse.expect .angleClose "`>`"
          return IdlType.record key value) :=
        .skip .expect fun _ => .skip htype fun _ => .skip .expect fun _ => .pure
      exact ((hrest d).mono fun _ _ _ _ _ => Nat.zero_le _).from hpassed
  | false =>
      exact RunsFrom.look (.failAt rfl (.part .refl hpassed (List.length_pos_iff.1 hts)))

theorem takes_unsigned : Takes 0 parseUnsigned := by
  refine .bind Tests.eatWord.takes fun _ => .ite .pure (.skip .expectWord fun _ => ?_)
  exact .bind Tests.eatWord.takes fun _ => .ite .pure .pure

theorem takes_unrestricted : Takes 0 parseUnrestricted :=
  .bind Tests.eatWord.takes fun _ => .ite .pure (.skip .expectWord fun _ => .pure)

theorem takes_long : Takes 0 parseLong :=
  .bind Tests.eatWord.takes fun _ => .ite .pure .pure

/-- Whatever follows the first word of a type. -/
theorem runs_advance {c : Cursor} (h : c.atKind .identifier = true) {p : Parse IdlType}
    (hp : Takes 0 p) : Runs (do advance; p) c fun _ ts _ => 1 ≤ ts.length := by
  obtain ⟨token, -, hpassed⟩ := Passed.advance_atKind h
  exact Runs.advance hpassed ((hp _).mono fun _ _ _ _ _ => by simp)

theorem takes_singleWith (htype : Takes 1 type) : Takes 1 (parseSingleWith type) := by
  intro c
  unfold parseSingleWith
  refine .ite_look (fun hword => RunsFrom.look ?_) fun _ => .fail rfl
  split
  · exact runs_advance hword (.bind (takes_wrappedWith htype).any fun _ => .pure)
  split
  · exact runs_advance hword .pure
  · exact runs_advance hword (takes_recordWith htype).any
  · exact runs_advance hword takes_unsigned
  · exact runs_advance hword takes_unrestricted
  · exact runs_advance hword takes_long
  split
  · exact runs_advance hword .pure
  · exact Takes.bind .readName (fun _ => .pure) c

theorem takes_unionWith (htype : Takes 1 type) : Takes 1 (parseUnionWith type) := by
  refine .bind .expect fun _ => .skip htype fun _ => ?_
  refine .skip (.repeatWhile Tests.eatWord.takes htype.any) fun _ => .ite .unexpected ?_
  exact .skip .expect fun _ => .pure

theorem takes_with (htype : Takes 1 type) (hargument : Takes 0 argument) :
    Takes 1 (parseWith type argument) := by
  have htail (extAttrs : List ExtendedAttribute) (bare : IdlType) : Takes 0 (do
      let inner := if ← eat .question then IdlType.nullable bare else bare
      return if extAttrs.isEmpty then inner else .annotated extAttrs inner) :=
    .bind Tests.eat.takes fun _ => .pure
  refine .andThen (ExtendedAttribute.takes_listWith hargument) fun extAttrs =>
    .look fun _ => .ite ?_ ?_
  · exact .bind (takes_unionWith htype) (htail extAttrs)
  · exact .bind (takes_singleWith htype) (htail extAttrs)

end IdlType

theorem Argument.takes_with (htype : Takes 1 type) (hargument : Takes 0 argument) :
    Takes 1 (parseWith type argument) := by
  refine .andThen (ExtendedAttribute.takes_listWith hargument) fun extAttrs => ?_
  refine .ite_test .eatWord ?_ ?_
  · refine .skip htype fun type => .skip .readName fun name => ?_
    refine .bind Tests.eat.takes fun _ => .ite ?_ .pure
    exact .bind (.map DefaultValue.takes.any) fun _ => .pure
  · exact .bind htype fun _ => .bind Tests.eat.takes fun _ => .skip .readName fun _ => .pure

end Parts

/-! ### Any depth -/

theorem takes_parseAt (depth : Nat) :
    Takes 1 (IdlType.parseAt depth) ∧ Takes 1 (Argument.parseAt depth) := by
  induction depth with
  | zero => exact ⟨fun _ => .fail rfl, fun _ => .fail rfl⟩
  | succ depth ih =>
      have htype := IdlType.takes_with ih.1 ih.2.any
      exact ⟨htype, Argument.takes_with htype ih.2.any⟩

theorem IdlType.takes : Takes 1 IdlType.parse := fun c =>
  Runs.of_eq (q := IdlType.parseAt (c.rest.length + 1)) rfl ((takes_parseAt _).1 c)

theorem Argument.takes : Takes 1 Argument.parse := fun c =>
  Runs.of_eq (q := Argument.parseAt (c.rest.length + 1)) rfl ((takes_parseAt _).2 c)

theorem Argument.takes_list : Takes 1 Argument.parseList := takes_listWith takes.any

/-- There are extended attributes exactly where a bracket is next. -/
theorem ExtendedAttribute.ne_nil_iff {attrs : List ExtendedAttribute} {c d : Cursor}
    (h : parseList c = .ok (attrs, d)) : attrs ≠ [] ↔ c.atKind .bracketOpen = true := by
  obtain ⟨isOpen, e, heat, hlist⟩ := bind_eq_ok h
  rw [eat] at heat
  split at heat
  · rename_i hopen
    cases heat
    obtain ⟨found, _, hfound, hclose⟩ := bind_eq_ok hlist
    obtain ⟨_, _, -, hresult⟩ := bind_eq_ok hclose
    obtain ⟨first, _, -, hrest⟩ := bind_eq_ok hfound
    obtain ⟨more, _, -, hmore⟩ := bind_eq_ok hrest
    cases hmore
    cases hresult
    exact iff_of_true (List.cons_ne_nil first more) hopen
  · rename_i hclosed
    cases heat
    cases hlist
    exact iff_of_false (fun hne => hne rfl) hclosed

theorem ExtendedAttribute.takes_list : Takes 0 ExtendedAttribute.parseList :=
  takes_listWith Argument.takes.any

end IdlBindings
