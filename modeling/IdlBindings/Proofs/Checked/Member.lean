import IdlBindings.Proofs.Checked.Type
import IdlBindings.Syntax.Member.Parser

/-! Reading the members of interfaces, mixins, dictionaries and namespaces by token index. -/

namespace IdlBindings

namespace Reader

def semicolon : Run Unit := expect .semicolon "`;`"

def qualifier? : Run (Option Qualifier) := do
  if ← eatWord "static" then
    return some .static
  else if ← eatWord "stringifier" then
    return some .stringifier
  else if ← eatWord "inherit" then
    return some .inherit
  else
    return none

def special? : Run (Option Special) := do
  if ← eatWord "getter" then
    return some .getter
  else if ← eatWord "setter" then
    return some .setter
  else if ← eatWord "deleter" then
    return some .deleter
  else
    return none

def iterationKind : Run IterationKind := do
  if ← eatWord "iterable" then
    return .iterable
  else if ← eatWord "async" then
    expectWord "iterable"
    return .asyncIterable
  else if ← eatWord "maplike" then
    return .maplike
  else
    expectWord "setlike"
    return .setlike

/-- Whether one of two words is next. -/
def hasEither? (r : Reader) (word word' : String) : Option Bool := do
  return (← r.hasWord? 0 word) || (← r.hasWord? 0 word')

def atIteration? (r : Reader) : Option Bool := do
  let isIterable ← r.hasWord? 0 "iterable"
  let isCollection ← r.hasEither? "maplike" "setlike"
  return isIterable || isCollection
    || ((← r.hasWord? 0 "async") && (← r.hasWord? 1 "iterable"))

def constantBody : Run MemberBody := do
  let type ← type
  let name ← readName
  expect .equals "`=`"
  let value ← constValue
  semicolon
  return .const name type value

def constructorBody : Run MemberBody := do
  let args ← arguments
  semicolon
  return .constructor args

def attributeBody (qualifier : Option Qualifier) (isReadonly : Bool) : Run MemberBody := do
  let type ← type
  let name ← readName
  semicolon
  return .attribute ⟨name, type, isReadonly, qualifier == some .static,
    qualifier == some .inherit, qualifier == some .stringifier⟩

def operationBody (isStatic : Bool) (special : Option Special) : Run MemberBody := do
  let result ← type
  let name ← if ← atKind .identifier then some <$> readName else pure none
  if name.isNone && special.isNone then
    fail .expectedIdentifier
  else
    let args ← arguments
    semicolon
    return .operation ⟨name, result, args, isStatic, special⟩

def iterationTypes (kind : IterationKind) : Run (Option IdlType × IdlType) := do
  let first ← type
  match kind with
  | .maplike =>
    expect .comma "`,`"
    return (some first, ← type)
  | .setlike => return (none, first)
  | .iterable | .asyncIterable =>
    if ← eat .comma then
      return (some first, ← type)
    else
      return (none, first)

def iterationBody (isReadonly : Bool) : Run MemberBody := do
  let kind ← iterationKind
  expect .angleOpen "`<`"
  let (key, value) ← iterationTypes kind
  expect .angleClose "`>`"
  let hasArgs ← look fun r => some (kind == .asyncIterable && r.hasKind 0 .parenOpen)
  let args ← if hasArgs then arguments else pure []
  semicolon
  return .iteration ⟨kind, isReadonly, key, value, args⟩

def qualified (qualifier : Option Qualifier) (isReadonly : Bool) : Run MemberBody := do
  if ← eatWord "attribute" then
    attributeBody qualifier isReadonly
  else if isReadonly || qualifier == some .inherit then
    unexpected "`attribute`"
  else if ← look atIteration? then
    iterationBody false
  else if qualifier == some .stringifier then
    operationBody false (some .stringifier)
  else
    let special ← special?
    operationBody (qualifier == some .static) special

def memberBody : Run MemberBody := do
  if ← eatWord "const" then
    constantBody
  else if ← look fun r => (r.hasWord? 0 "constructor").map (· && r.hasKind 1 .parenOpen) then
    let _ ← bump
    constructorBody
  else
    let qualifier ← qualifier?
    if ← eatIf (qualifier == some .stringifier) .semicolon then
      return .stringifier
    else if ← eatWord "readonly" then
      if ← look fun r => r.hasEither? "maplike" "setlike" then
        iterationBody true
      else
        qualified qualifier true
    else
      qualified qualifier false

def fieldBody : Run MemberBody := do
  let isRequired ← eatWord "required"
  let type ← type
  let name ← readName
  let default ← if ← eat .equals then some <$> defaultValue else pure none
  semicolon
  return .field ⟨name, type, isRequired, default⟩

def member (inDictionary : Bool) : Run Member := do
  let first ← start
  let extAttrs ← extAttributes
  let body ← if inDictionary then fieldBody else memberBody
  return ⟨body, extAttrs, ← spanFrom first⟩

/-! ### Agreement -/

namespace Follows

variable {r : Reader} {c : Cursor}

theorem hasEither? (h : Follows r c) (word word' : String) :
    r.hasEither? word word' = some (c.atWord word || c.atWord word') := by
  rw [Reader.hasEither?, h.hasWord?, h.hasWord?]
  rfl

theorem atIteration? (h : Follows r c) : r.atIteration? = some c.atIteration := by
  rw [Reader.atIteration?, h.hasWord?, h.hasEither?, h.hasWord?, h.hasWord?_one,
    Cursor.atIteration, Bool.or_assoc (c.atWord "iterable")]
  rfl

end Follows

namespace Agrees

variable {n : Nat}

theorem semicolon : Agrees n Reader.semicolon Parse.semicolon := expect

theorem qualifier? : Agrees n Reader.qualifier? Qualifier.parse? :=
  eatWord.bind fun _ => ite (pure _) (eatWord.bind fun _ => ite (pure _)
    (eatWord.bind fun _ => ite (pure _) (pure _)))

theorem special? : Agrees n Reader.special? Special.parse? :=
  eatWord.bind fun _ => ite (pure _) (eatWord.bind fun _ => ite (pure _)
    (eatWord.bind fun _ => ite (pure _) (pure _)))

theorem iterationKind : Agrees n Reader.iterationKind IterationKind.parse := by
  refine eatWord.bind fun _ => ite (pure _) (eatWord.bind fun _ => ite ?_ ?_)
  · exact expectWord.bind fun _ => pure _
  · exact eatWord.bind fun _ => ite (pure _) (expectWord.bind fun _ => pure _)

theorem constantBody : Agrees n Reader.constantBody MemberBody.parseConst :=
  type.bind fun _ => readName.bind fun _ => expect.bind fun _ => constValue.bind fun _ =>
    semicolon.bind fun _ => pure _

theorem constructorBody : Agrees n Reader.constructorBody MemberBody.parseConstructor :=
  arguments.bind fun _ => semicolon.bind fun _ => pure _

theorem attributeBody (qualifier : Option Qualifier) (isReadonly : Bool) :
    Agrees n (Reader.attributeBody qualifier isReadonly)
      (MemberBody.parseAttribute qualifier isReadonly) :=
  type.bind fun _ => readName.bind fun _ => semicolon.bind fun _ => pure _

theorem atKind {kind : TokenKind} {α : Type} {q : Bool → Run α} {p : Bool → Parse α}
    (h : ∀ b, Agrees n (q b) (p b)) :
    Agrees n (Reader.atKind kind >>= q) (Parse.atKind kind >>= p) :=
  look (fun _ _ hfollows => congrArg some (hfollows.hasKind kind)) h

theorem operationBody (isStatic : Bool) (special : Option Special) :
    Agrees n (Reader.operationBody isStatic special)
      (MemberBody.parseOperation isStatic special) := by
  have htail (result : IdlType) (name : Option String) : Agrees n
      (if name.isNone && special.isNone then Reader.fail .expectedIdentifier
        else do
          let args ← Reader.arguments
          Reader.semicolon
          return .operation ⟨name, result, args, isStatic, special⟩)
      (if name.isNone && special.isNone then Parse.fail .expectedIdentifier
        else do
          let args ← Argument.parseList
          Parse.semicolon
          return MemberBody.operation ⟨name, result, args, isStatic, special⟩) :=
    ite fail (arguments.bind fun _ => semicolon.bind fun _ => pure _)
  refine type.bind fun result => atKind fun _ => ite ?_ ?_
  · exact (map readName).bind (htail result)
  · exact (pure none).bind (htail result)

theorem iterationTypes (kind : IterationKind) :
    Agrees n (Reader.iterationTypes kind) (MemberBody.parseIterationTypes kind) := by
  refine type.bind fun first => ?_
  have hpair : Agrees n (do return (some first, ← Reader.type))
      (do return (some first, ← IdlType.parse)) := type.bind fun _ => pure _
  cases kind with
  | maplike => exact expect.bind fun _ => hpair
  | setlike => exact pure _
  | iterable => exact eat.bind fun _ => ite hpair (pure _)
  | asyncIterable => exact eat.bind fun _ => ite hpair (pure _)

theorem iterationBody (isReadonly : Bool) :
    Agrees n (Reader.iterationBody isReadonly) (MemberBody.parseIteration isReadonly) := by
  refine iterationKind.bind fun kind => expect.bind fun _ => (iterationTypes kind).bind fun types =>
    expect.bind fun _ => look (fun r c h => by rw [h.hasKind]) fun _ => ite ?_ ?_
  · exact arguments.bind fun args => semicolon.bind fun _ => pure _
  · exact (pure []).bind fun args => semicolon.bind fun _ => pure _

theorem qualified (qualifier : Option Qualifier) (isReadonly : Bool) :
    Agrees n (Reader.qualified qualifier isReadonly)
      (MemberBody.parseQualified qualifier isReadonly) := by
  refine eatWord.bind fun _ => ite (attributeBody qualifier isReadonly) (ite unexpected ?_)
  refine look (fun _ _ h => h.atIteration?) fun _ => ite (iterationBody false) (ite ?_ ?_)
  · exact operationBody false (some .stringifier)
  · exact special?.bind fun special => operationBody _ special

theorem memberBody : Agrees n Reader.memberBody MemberBody.parse := by
  refine eatWord.bind fun _ => ite constantBody (ite_look (fun r c h => ?_) ?_ ?_)
  · rw [h.hasWord?, h.hasKind_one]
    rfl
  · intro r c h hlt hnext
    obtain ⟨token, rest, hrest⟩ := exists_of_atWord (Bool.and_eq_true_iff.1 hnext).1
    exact .bump h hrest fun s hs _ =>
      constructorBody s c.advance hs (Nat.lt_of_le_of_lt (length_advance_le c) hlt)
  refine qualifier?.bind fun qualifier => eatIf.bind fun _ => ite (pure _) ?_
  refine eatWord.bind fun _ => ite ?_ (qualified qualifier false)
  refine look (fun r c h => h.hasEither? _ _) fun _ => ite (iterationBody true) ?_
  exact qualified qualifier true

theorem fieldBody : Agrees n Reader.fieldBody MemberBody.parseField := by
  refine eatWord.bind fun isRequired => type.bind fun type => readName.bind fun name =>
    eat.bind fun _ => ite ?_ ?_
  · exact (map defaultValue).bind fun default => semicolon.bind fun _ => pure _
  · exact (pure none).bind fun default => semicolon.bind fun _ => pure _

theorem member (inDictionary : Bool) :
    Agrees n (Reader.member inDictionary) (Member.parse inDictionary) := by
  have htail (first : Nat) (extAttrs : List ExtendedAttribute) (body : MemberBody) : Agrees n
      (do return Member.mk body extAttrs (← Reader.spanFrom first))
      (do return Member.mk body extAttrs (← Parse.spanFrom first)) :=
    (spanFrom first).bind fun span => pure _
  refine start.bind fun first => extAttributes.bind fun extAttrs => ite ?_ ?_
  · exact fieldBody.bind (htail first extAttrs)
  · exact memberBody.bind (htail first extAttrs)

end Agrees

end Reader

end IdlBindings
