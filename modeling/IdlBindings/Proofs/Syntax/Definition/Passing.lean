import IdlBindings.Proofs.Syntax.Member.Passing
import IdlBindings.Syntax.Definition.Parser

/-!
Definitions are read from left to right. What a parser gives and what it reports has its place among
the tokens that were ahead of it.
-/

namespace IdlBindings

open Parse Cursor

namespace DefinitionBody

/-- The members have their places ahead of `c`. -/
def Spots (c : Cursor) : DefinitionBody → Prop
  | .container body => ∀ m ∈ body.members, c.Spot m.span
  | _ => True

/-- The members come from some of the tokens `ts`, which are neither the first nor the last ones. -/
def Holds (ts : List Token) : DefinitionBody → Prop
  | .container body => ∃ opening inner closing, ts = opening ++ (inner ++ closing) ∧
      opening ≠ [] ∧ closing ≠ [] ∧
      AllReadFrom (Member.parse (body.kind == .dictionary)) body.members inner
  | _ => True

theorem Holds.append {us : List Token} {body : DefinitionBody} (ts : List Token)
    (h : body.Holds us) : body.Holds (ts ++ us) := by
  cases body with
  | container body =>
      obtain ⟨opening, inner, closing, rfl, hopening, hclosing, hread⟩ := h
      refine ⟨ts ++ opening, inner, closing, (List.append_assoc ..).symm, ?_, hclosing, hread⟩
      exact List.append_ne_nil_of_right_ne_nil ts hopening
  | _ => trivial

theorem Spots.of_passed {c d : Cursor} {ts : List Token} {body : DefinitionBody}
    (hpassed : c.Passed ts d) (h : body.Spots d) : body.Spots c := by
  cases body with
  | container body => exact fun m hm => (h m hm).of_passed hpassed
  | _ => trivial

/-- The parser reads at least so many tokens and gives a body in its place. -/
def Takes (least : Nat) (p : Parse NamedBody) : Prop :=
  ∀ c, Runs p c fun named ts _ => least ≤ ts.length ∧ named.2.Spots c ∧ named.2.Holds ts

namespace Takes

variable {n : Nat} {α : Type} {p : Parse α} {f : α → Parse NamedBody} {q r : Parse NamedBody}

theorem any (h : Takes n q) : Takes 0 q :=
  fun c => (h c).mono fun _ _ _ _ hn => ⟨Nat.zero_le _, hn.2⟩

theorem pure {named : NamedBody} (h : ∀ c, named.2.Spots c ∧ named.2.Holds []) :
    Takes 0 (Pure.pure named) :=
  fun c => .pure ⟨Nat.le_refl 0, h c⟩

theorem bind (hp : Parse.Takes n p) (hf : ∀ a, Takes 0 (f a)) : Takes n (p >>= f) := by
  refine fun c => (hp c).bind fun a ts d hpassed hn => (hf a d).mono fun b us _ _ hb => ?_
  rw [List.length_append]
  exact ⟨Nat.le_add_right_of_le hn, hb.2.1.of_passed hpassed, hb.2.2.append ts⟩

theorem skip (hp : Parse.Takes n p) (hf : ∀ a, Takes 0 (f a)) : Takes 0 (p >>= f) :=
  bind hp.any hf

theorem ite_test {test : Parse Bool} (htest : Tests test) (hyes : Takes n q)
    (hno : Takes (n + 1) r) : Takes (n + 1) (do if ← test then q else r) := by
  refine fun c => (htest c).bind fun b ts d hpassed hb => ?_
  cases b with
  | true =>
      refine (hyes d).mono fun named us _ _ h => ⟨?_, h.2.1.of_passed hpassed, h.2.2.append ts⟩
      have hone := hb rfl
      rw [List.length_append, Nat.add_comm n 1]
      exact Nat.add_le_add hone h.1
  | false =>
      refine (hno d).mono fun named us _ _ h => ⟨?_, h.2.1.of_passed hpassed, h.2.2.append ts⟩
      rw [List.length_append]
      exact Nat.le_add_left_of_le h.1

end Takes

theorem takes_partial : Parse.Takes 0 ContainerKind.parsePartial? := by
  refine .bind Tests.eatWord.takes fun _ => .ite ?_ ?_
  · exact .bind Tests.eatWord.takes fun _ => .ite .pure .pure
  refine .bind Tests.eatWord.takes fun _ => .ite .pure ?_
  exact .bind Tests.eatWord.takes fun _ => .ite .pure .pure

/-- The part of a container from its brace on. A brace that stays open is reported where it is. -/
theorem runs_members (name : String) (kind : ContainerKind) (isPartial : Bool)
    (parent : Option String) (c : Cursor) : Runs (do
      let brace ← look Cursor.span
      expect .braceOpen "`\x7b`"
      let members ← repeatWhile (look fun c => !c.atKind .braceClose && !c.rest.isEmpty)
        (Member.parse (kind == .dictionary))
      if ← atEnd then
        failAt .unclosedBrace brace ("`" ++ name ++ "` body")
      else
        expect .braceClose "`\x7d`"
        semicolon
        return (name, DefinitionBody.container ⟨kind, isPartial, parent, members⟩)) c
      fun named ts _ => named.2.Spots c ∧ named.2.Holds ts := by
  have hmembers (d : Cursor) : Runs (repeatWhile
      (look fun c => !c.atKind .braceClose && !c.rest.isEmpty)
      (Member.parse (kind == .dictionary))) d fun members ts _ =>
        (∀ m ∈ members, d.Spot m.span) ∧
          AllReadFrom (Member.parse (kind == .dictionary)) members ts := by
    refine Runs.repeatWhile_look (R := fun d (m : Member) => d.Spot m.span)
      (fun _ _ _ _ hpassed h => h.of_passed hpassed) (fun c => ?_) d
    refine (Member.runs _ c).mono fun m ts e hpassed ⟨hne, hspan, _⟩ => ?_
    rw [hspan]
    exact .part .refl hpassed hne
  refine RunsFrom.look ?_
  refine RunsFrom.bind (Parse.Takes.expect c) fun _ ts d hpassed hts => ?_
  refine RunsFrom.bind ((hmembers d).from hpassed) fun members us e hinner hmembers => ?_
  refine RunsFrom.look ?_
  cases e.rest.isEmpty with
  | true => exact .failAt rfl (.next .refl)
  | false =>
      refine Runs.from ?_ (hpassed.append hinner)
      refine Runs.bind (Parse.Takes.expect e) fun _ vs _ _ hvs => ?_
      refine Runs.bind (Parse.Takes.semicolon _) fun _ ws _ _ _ => ?_
      refine Runs.pure ⟨fun m hm => (hmembers.1 m hm).of_passed hpassed, ts, us, vs ++ (ws ++ []),
        rfl, List.length_pos_iff.1 hts, ?_, hmembers.2⟩
      exact List.append_ne_nil_of_left_ne_nil (List.length_pos_iff.1 hvs) _

theorem takes_container (kind : ContainerKind) (isPartial : Bool) :
    Takes 1 (parseContainer kind isPartial) := by
  have htail (name : String) (parent : Option String) := fun c =>
    (runs_members name kind isPartial parent c).mono fun _ ts _ _ h =>
      And.intro (Nat.zero_le ts.length) h
  refine .bind .readName fun name => .bind Tests.eatIf.takes fun hasParent => ?_
  cases hasParent with
  | true => exact .skip (.map .readName) (htail name)
  | false => exact htail name none

/-- The values of an enumeration. `unclosed` stops with a fault ahead of `o`. -/
theorem runs_values {o : Cursor} {unclosed : Parse (List String)}
    (hunclosed : ∀ c Q, RunsFrom o unclosed c Q) (limit : Nat) {c : Cursor} {ts : List Token}
    (hpassed : o.Passed ts c) : RunsFrom o (parseValues unclosed limit) c fun _ _ _ => True := by
  induction limit generalizing c ts with
  | zero => exact (Runs.pure trivial).from hpassed
  | succ limit ih =>
      refine RunsFrom.look ?_
      cases c.atKind .braceClose with
      | true => exact (Runs.pure trivial).from hpassed
      | false =>
          refine RunsFrom.look ?_
          cases c.rest.isEmpty with
          | true => exact hunclosed c _
          | false =>
              refine RunsFrom.bind ((Parse.Takes.stringContent c).from hpassed)
                fun value us d hvalue _ => ?_
              have hd := hpassed.append hvalue
              refine RunsFrom.bind ((Tests.eat d).from hd) fun more vs e hcomma _ => ?_
              have he := hd.append hcomma
              cases more with
              | true =>
                  exact RunsFrom.bind (ih he) fun rest _ _ hrest _ =>
                    (Runs.pure trivial).from (he.append hrest)
              | false => exact (Runs.pure trivial).from he

theorem takes_enumeration : Takes 1 parseEnumeration := by
  refine .bind .readName fun name c => RunsFrom.look ?_
  refine RunsFrom.bind (Parse.Takes.expect c) fun _ ts d hpassed _ => ?_
  refine RunsFrom.look (RunsFrom.bind (runs_values (fun _ _ => ?_) _ hpassed) ?_)
  · exact RunsFrom.failAt rfl (.next .refl)
  · intro values us e hread _
    have htail : Takes 0 (do
        expect .braceClose "`\x7d`"
        semicolon
        return (name, DefinitionBody.enumeration values)) :=
      .skip .expect fun _ => .skip .semicolon fun _ => .pure fun _ => ⟨trivial, trivial⟩
    have hread := hpassed.append hread
    refine ((htail e).mono fun named vs _ _ h => ⟨?_, h.2.1.of_passed hread, ?_⟩).from hread
    · exact Nat.zero_le _
    · exact (h.2.2.append us).append ts

theorem takes_typedef : Takes 1 parseTypedef :=
  .bind IdlType.takes fun _ => .skip .readName fun _ => .skip .semicolon fun _ =>
    .pure fun _ => ⟨trivial, trivial⟩

theorem takes_callback : Takes 1 parseCallback :=
  .bind .readName fun _ => .skip .expect fun _ => .skip IdlType.takes fun _ =>
    .skip Argument.takes_list fun _ => .skip .semicolon fun _ => .pure fun _ => ⟨trivial, trivial⟩

theorem takes_includes : Takes 1 parseIncludes :=
  .bind .readName fun _ => .skip .expectWord fun _ => .skip .readName fun _ =>
    .skip .semicolon fun _ => .pure fun _ => ⟨trivial, trivial⟩

theorem takes_fail {n : Nat} {kind : FaultKind} (hkind : kind.stage = .parsing) :
    Takes n (fail kind) := fun _ => .fail hkind

theorem takes : Takes 1 parse := by
  refine .ite_test .eatWord ?_ ?_
  · refine .bind Tests.eatWord.takes fun isInterface => ?_
    cases isInterface with
    | true => exact (takes_container .callbackInterface false).any
    | false => exact takes_callback.any
  refine .ite_test .eatWord ?_ ?_
  · refine .bind Tests.eatWord.takes fun isMixin => ?_
    cases isMixin with
    | true => exact (takes_container .mixin false).any
    | false => exact (takes_container .interface false).any
  refine .ite_test .eatWord ?_ ?_
  · refine .bind takes_partial fun kind => ?_
    cases kind with
    | some kind => exact (takes_container kind true).any
    | none => exact takes_fail rfl
  refine .ite_test .eatWord (takes_container .dictionary false).any ?_
  refine .ite_test .eatWord (takes_container .nameSpace false).any ?_
  refine .ite_test .eatWord takes_enumeration.any ?_
  refine .ite_test .eatWord takes_typedef.any fun c => RunsFrom.look ?_
  cases c.atKind .identifier && c.beforeWord "includes" with
  | true => exact takes_includes c
  | false => exact takes_fail rfl c

end DefinitionBody

namespace Definition

/-- The definition and its members have their places ahead of `c`. -/
structure Spots (c : Cursor) (d : Definition) : Prop where
  span : c.Spot d.span
  body : d.body.Spots c

/-- The span of a definition begins at its first token and ends with its last one. The first one is a
bracket if the definition has extended attributes. -/
theorem runs (c : Cursor) : Runs Definition.parse c fun definition ts d => ts ≠ [] ∧
    definition.span = ⟨c.span.start, max d.lastEnd c.span.start⟩ ∧
    (definition.extAttrs ≠ [] ↔ c.atKind .bracketOpen = true) ∧
    definition.body.Spots c ∧ definition.body.Holds ts := by
  refine RunsFrom.look ?_
  refine (ExtendedAttribute.takes_list c).result.bind fun _ ts d hpassed ⟨hattrs, _⟩ => ?_
  refine (DefinitionBody.takes d).bind fun named us e _ h => RunsFrom.look (Runs.pure ?_)
  rw [List.append_nil]
  refine ⟨?_, rfl, ExtendedAttribute.ne_nil_iff hattrs, h.2.1.of_passed hpassed, h.2.2.append ts⟩
  exact List.append_ne_nil_of_right_ne_nil ts (List.length_pos_iff.1 h.1)

theorem runs_all (c : Cursor) : Runs parseAll c fun definitions ts _ =>
    (∀ definition ∈ definitions, definition.Spots c) ∧ AllReadFrom Definition.parse definitions ts := by
  refine Runs.repeatWhile_look (R := fun c (d : Definition) => d.Spots c) ?_ (fun c => ?_) c
  · exact fun _ _ _ _ hpassed h => ⟨h.span.of_passed hpassed, h.body.of_passed hpassed⟩
  · refine (runs c).mono fun definition ts d hpassed ⟨hne, hspan, _, hbody, _⟩ => ⟨?_, hbody⟩
    rw [hspan]
    exact .part .refl hpassed hne

/-- The cursor in front of the definitions of a text. -/
def cursor (source : String) (base : Nat) : Cursor :=
  ⟨Token.significant (Token.lex source base), base, base + byteLength source.toList⟩

/-- What is found in a text is found in its definitions. -/
theorem exists_of_toOption {β : Type} {read : Except Diagnostic (List Definition)}
    {f : List Definition → β} {value : β} (h : read.toOption.map f = some value) :
    ∃ definitions, read = .ok definitions ∧ f definitions = value := by
  cases read with
  | error fault => cases h
  | ok definitions => exact ⟨definitions, rfl, Option.some.inj h⟩

variable {source : String} {base : Nat}

theorem exists_parseAll_of_ofSource {definitions : List Definition}
    (h : ofSource source base = .ok definitions) :
    ∃ d, parseAll (cursor source base) = .ok (definitions, d) := by
  have hparse : (parseAll (cursor source base)).map Prod.fst = .ok definitions := h
  cases hall : parseAll (cursor source base) with
  | error fault =>
      rw [hall] at hparse
      cases hparse
  | ok result =>
      rw [hall] at hparse
      cases hparse
      exact ⟨result.2, rfl⟩

/-- What a text defines has its places among the tokens of the text. -/
theorem spots_of_ofSource {definitions : List Definition}
    (h : ofSource source base = .ok definitions) :
    ∀ definition ∈ definitions, definition.Spots (cursor source base) := by
  obtain ⟨d, hparse⟩ := exists_parseAll_of_ofSource h
  obtain ⟨ts, -, hspots, -⟩ := (runs_all (cursor source base)).of_ok hparse
  exact hspots

/-- What stops the reading of a text is a fault of parsing among its tokens. -/
theorem faults_of_ofSource {fault : Diagnostic} (h : ofSource source base = .error fault) :
    (cursor source base).Faults fault := by
  have hparse : (parseAll (cursor source base)).map Prod.fst = .error fault := h
  cases hall : parseAll (cursor source base) with
  | error found =>
      rw [hall] at hparse
      cases hparse
      exact (runs_all (cursor source base)).of_error hall
  | ok result =>
      rw [hall] at hparse
      cases hparse

end Definition

end IdlBindings
