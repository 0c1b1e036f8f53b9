import IdlBindings.Proofs.Checked.Member
import IdlBindings.Proofs.Syntax.Definition.Passing

/-! Reading definitions by token index. -/

namespace IdlBindings

namespace Reader

def partialKind? : Run (Option ContainerKind) := do
  if ← eatWord "interface" then
    if ← eatWord "mixin" then
      return some .mixin
    else
      return some .interface
  else if ← eatWord "dictionary" then
    return some .dictionary
  else if ← eatWord "namespace" then
    return some .nameSpace
  else
    return none

def containerBody (kind : ContainerKind) (isPartial : Bool) : Run NamedBody := do
  let name ← readName
  let hasParent ← eatIf (kind.allowsParent && !isPartial) .colon
  let parent ← if hasParent then some <$> readName else pure none
  let brace ← look span?
  expect .braceOpen "`\x7b`"
  let members ← repeatWhile
    (look fun r => some (!r.hasKind 0 .braceClose && !(r.ahead? 0).isNone))
    (member (kind == .dictionary))
  if ← atEnd then
    failAt .unclosedBrace brace ("`" ++ name ++ "` body")
  else
    expect .braceClose "`\x7d`"
    semicolon
    return (name, .container ⟨kind, isPartial, parent, members⟩)

/-- The values of an enumeration. -/
def enumerationValues (unclosed : Run (List String)) : Nat → Run (List String)
  | 0 => fun _ => none
  | limit + 1 => do
    if ← atKind .braceClose then
      return []
    else if ← atEnd then
      unclosed
    else
      let value ← stringContent "an enum value string"
      if ← eat .comma then
        let rest ← enumerationValues unclosed limit
        return value :: rest
      else
        return [value]

def enumerationBody : Run NamedBody := do
  let name ← readName
  let brace ← look span?
  expect .braceOpen "`\x7b`"
  let limit ← look fun r => some (r.marks.length + 1)
  let values ←
    enumerationValues (failAt .unclosedBrace brace ("`" ++ name ++ "` values")) limit
  expect .braceClose "`\x7d`"
  semicolon
  return (name, .enumeration values)

def typedefBody : Run NamedBody := do
  let type ← type
  let name ← readName
  semicolon
  return (name, .typedef type)

def callbackBody : Run NamedBody := do
  let name ← readName
  expect .equals "`=`"
  let result ← type
  let args ← arguments
  semicolon
  return (name, .callback result args)

def includesBody : Run NamedBody := do
  let target ← readName
  expectWord "includes"
  let mixin ← readName
  semicolon
  return (target, .includes mixin)

def namedBody : Run NamedBody := do
  if ← eatWord "callback" then
    if ← eatWord "interface" then
      containerBody .callbackInterface false
    else
      callbackBody
  else if ← eatWord "interface" then
    if ← eatWord "mixin" then
      containerBody .mixin false
    else
      containerBody .interface false
  else if ← eatWord "partial" then
    match ← partialKind? with
    | some kind => containerBody kind true
    | none => fail .unknownDefinition
  else if ← eatWord "dictionary" then
    containerBody .dictionary false
  else if ← eatWord "namespace" then
    containerBody .nameSpace false
  else if ← eatWord "enum" then
    enumerationBody
  else if ← eatWord "typedef" then
    typedefBody
  else if ← look fun r => (r.hasWord? 1 "includes").map (r.hasKind 0 .identifier && ·) then
    includesBody
  else
    fail .unknownDefinition

def definition : Run Definition := do
  let first ← start
  let extAttrs ← extAttributes
  let (name, body) ← namedBody
  return ⟨name, body, extAttrs, ← spanFrom first⟩

def definitions : Run (List Definition) :=
  repeatWhile (look fun r => some !(r.ahead? 0).isNone) definition

/-! ### Agreement -/

namespace Agrees

variable {n : Nat}

theorem atEnd {α : Type} {q : Bool → Run α} {p : Bool → Parse α}
    (h : ∀ b, Agrees n (q b) (p b)) : Agrees n (Reader.atEnd >>= q) (Parse.atEnd >>= p) :=
  look (fun _ _ hfollows => congrArg some hfollows.isNone) h

theorem partialKind? : Agrees n Reader.partialKind? ContainerKind.parsePartial? := by
  refine eatWord.bind fun _ => ite ?_ (eatWord.bind fun _ => ite (pure _) ?_)
  · exact eatWord.bind fun _ => ite (pure _) (pure _)
  · exact eatWord.bind fun _ => ite (pure _) (pure _)

/-- A parser that reads something leaves less. -/
theorem length_lt_of_runs {α : Type} {p : Parse α} {c d : Cursor} {a : α}
    (h : Parse.Runs p c fun _ ts _ => ts ≠ []) (hp : p c = .ok (a, d)) :
    d.rest.length < c.rest.length := by
  unfold Parse.Runs Parse.RunsFrom at h
  rw [hp] at h
  obtain ⟨ts, hpassed, hne⟩ := h
  have hpos := List.length_pos_iff.2 hne
  rw [hpassed.rest, List.length_append]
  omega

/-- Read items that take something, up to some place. -/
theorem repeatWhile_look {α : Type} {test : Reader → Option Bool} {see : Cursor → Bool}
    {item : Run α} {item' : Parse α} (htest : ∀ r c, Follows r c → test r = some (see c))
    (hitem : Agrees n item item') (hruns : ∀ c, Parse.Runs item' c fun _ ts _ => ts ≠ []) :
    Agrees n (Reader.repeatWhile (Reader.look test) item)
      (Parse.repeatWhile (Parse.look see) item') := by
  have hmore : Agrees n (Reader.look test) (Parse.look see) := by
    intro r c h _
    have hsee : Parse.look see c = (Pure.pure (see c) : Parse Bool) c := rfl
    exact .of_eq hsee (.look_pure h (htest r c h))
  refine repeatWhile hmore hitem fun c d e a _ hle he _ => ?_
  exact Nat.lt_of_lt_of_le (length_lt_of_runs (hruns d) he) hle

theorem containerBody (kind : ContainerKind) (isPartial : Bool) :
    Agrees n (Reader.containerBody kind isPartial)
      (DefinitionBody.parseContainer kind isPartial) := by
  have htail (name : String) (parent : Option String) : Agrees n
      (do
        let brace ← Reader.look Reader.span?
        Reader.expect .braceOpen "`\x7b`"
        let members ← Reader.repeatWhile (Reader.look fun r =>
          some (!r.hasKind 0 .braceClose && !(r.ahead? 0).isNone))
          (Reader.member (kind == .dictionary))
        if ← Reader.atEnd then
          Reader.failAt .unclosedBrace brace ("`" ++ name ++ "` body")
        else
          Reader.expect .braceClose "`\x7d`"
          Reader.semicolon
          return (name, DefinitionBody.container ⟨kind, isPartial, parent, members⟩))
      (do
        let brace ← Parse.look Cursor.span
        Parse.expect .braceOpen "`\x7b`"
        let members ← Parse.repeatWhile (Parse.look fun c =>
          !c.atKind .braceClose && !c.rest.isEmpty) (Member.parse (kind == .dictionary))
        if ← Parse.atEnd then
          Parse.failAt .unclosedBrace brace ("`" ++ name ++ "` body")
        else
          Parse.expect .braceClose "`\x7d`"
          Parse.semicolon
          return (name, DefinitionBody.container ⟨kind, isPartial, parent, members⟩)) := by
    refine look (fun _ _ h => h.span?) fun brace => expect.bind fun _ => ?_
    refine (repeatWhile_look (fun r c h => ?_) (member _) fun c => ?_).bind fun members => ?_
    · rw [h.hasKind, h.isNone]
    · exact (Member.runs _ c).mono fun _ _ _ _ h => h.1
    refine atEnd fun _ => ite failAt ?_
    exact expect.bind fun _ => semicolon.bind fun _ => pure _
  refine readName.bind fun name => eatIf.bind fun _ => ite ?_ ?_
  · exact (map readName).bind (htail name)
  · exact (pure none).bind (htail name)

/-- Each value takes a token, so neither side runs out of rounds. -/
theorem enumerationValues {unclosed : Run (List String)} {unclosed' : Parse (List String)}
    (hunclosed : Agrees n unclosed unclosed') (limit limit' : Nat) {r : Reader} {c : Cursor}
    (h : Follows r c) (hlt : c.rest.length < n) (hlimit : c.rest.length < limit)
    (hlimit' : c.rest.length < limit') :
    AgreesAt (Reader.enumerationValues unclosed limit)
      (DefinitionBody.parseValues unclosed' limit') r c := by
  induction limit generalizing limit' r c with
  | zero => cases hlimit
  | succ limit ih =>
      obtain ⟨limit', rfl⟩ := Nat.exists_eq_add_of_le' (Nat.one_le_of_lt hlimit')
      refine .look (congrArg some (h.hasKind _)) ?_
      cases c.atKind .braceClose with
      | true => exact .pure h []
      | false =>
          refine .look (congrArg some h.isNone) ?_
          cases c.rest.isEmpty with
          | true => exact hunclosed r c h hlt
          | false =>
              refine (stringContent r c h hlt).bind fun value s d hvalue hs _ => ?_
              have hruns : Parse.Runs (Parse.stringContent "an enum value string") c
                  fun _ ts _ => ts ≠ [] :=
                (Parse.Takes.stringContent c).mono fun _ _ _ _ hpos =>
                  List.length_pos_iff.1 hpos
              have hless := length_lt_of_runs hruns hvalue
              refine (eat s d hs (by omega)).bind fun isMore t e _ ht he => ?_
              cases isMore with
              | false => exact .pure ht [value]
              | true =>
                  refine (ih limit' ht (by omega) (by omega) (by omega)).bind ?_
                  exact fun rest u f _ hu _ => .pure hu (value :: rest)

theorem enumerationBody : Agrees n Reader.enumerationBody DefinitionBody.parseEnumeration := by
  refine readName.bind fun name => look (fun _ _ h => h.span?) fun brace => expect.bind fun _ => ?_
  intro r c h hlt
  -- the bounds on the rounds differ
  refine .of_run_eq (run_look (a := r.marks.length + 1) rfl _) (.of_eq (parse_look _ _ c) ?_)
  refine (enumerationValues failAt _ _ h hlt (Nat.lt_succ_of_le h.length_le)
    (Nat.lt_succ_self _)).bind fun values s d _ hs hle => ?_
  exact (expect.bind fun _ => semicolon.bind fun _ => pure _) s d hs (Nat.lt_of_le_of_lt hle hlt)

theorem typedefBody : Agrees n Reader.typedefBody DefinitionBody.parseTypedef :=
  type.bind fun _ => readName.bind fun _ => semicolon.bind fun _ => pure _

theorem callbackBody : Agrees n Reader.callbackBody DefinitionBody.parseCallback :=
  readName.bind fun _ => expect.bind fun _ => type.bind fun _ => arguments.bind fun _ =>
    semicolon.bind fun _ => pure _

theorem includesBody : Agrees n Reader.includesBody DefinitionBody.parseIncludes :=
  readName.bind fun _ => expectWord.bind fun _ => readName.bind fun _ =>
    semicolon.bind fun _ => pure _

theorem namedBody : Agrees n Reader.namedBody DefinitionBody.parse := by
  refine eatWord.bind fun _ => ite ?_ (eatWord.bind fun _ => ite ?_ (eatWord.bind fun _ =>
    ite ?_ ?_))
  · exact eatWord.bind fun _ => ite (containerBody _ _) callbackBody
  · exact eatWord.bind fun _ => ite (containerBody _ _) (containerBody _ _)
  · refine partialKind?.bind fun kind => ?_
    cases kind with
    | some kind => exact containerBody kind true
    | none => exact fail
  refine eatWord.bind fun _ => ite (containerBody _ _) (eatWord.bind fun _ => ite ?_ ?_)
  · exact containerBody _ _
  refine eatWord.bind fun _ => ite enumerationBody (eatWord.bind fun _ => ite typedefBody ?_)
  refine look (fun r c h => ?_) fun _ => ite includesBody fail
  rw [h.hasWord?_one, h.hasKind]
  rfl

theorem definition : Agrees n Reader.definition Definition.parse := by
  refine start.bind fun first => extAttributes.bind fun extAttrs => namedBody.bind fun named => ?_
  exact (spanFrom first).bind fun span => pure _

theorem definitions : Agrees n Reader.definitions Definition.parseAll := by
  refine repeatWhile_look (fun r c h => by rw [h.isNone]) definition fun c => ?_
  exact (Definition.runs c).mono fun _ _ _ _ h => h.1

end Agrees

end Reader

end IdlBindings
