import IdlBindings.Proofs.Checked.Agreement
import IdlBindings.Syntax.Type.Parser

/-!
Reading values, types, extended attributes and arguments by token index. The depth of types and
arguments has no bound: it is out of range as well when they use it up.
-/

namespace IdlBindings

namespace Reader

/-! ### Values -/

def constValue : Run ConstValue := do
  if ← atKind .integer then
    let text ← look text?
    let _ ← bump
    return .integer text
  else if ← atKind .decimal then
    let text ← look text?
    let _ ← bump
    return .decimal text
  else if ← atKind .identifier then
    match ConstValue.ofWord? (← look text?) with
    | some value =>
      let _ ← bump
      return value
    | none => fail .expectedValue
  else if ← atKind .minus then
    if ← beforeWord "Infinity" then
      let _ ← bump
      let _ ← bump
      return .negativeInfinity
    else
      fail .expectedValue
  else
    fail .expectedValue

def defaultValue : Run DefaultValue := do
  if ← atKind .string then
    return .string (← stringContent "a string")
  else if ← eat .bracketOpen then
    expect .bracketClose "`]`"
    return .emptySequence
  else if ← eat .braceOpen then
    expect .braceClose "`\x7d`"
    return .emptyDictionary
  else if ← eatWord "null" then
    return .null
  else if ← eatWord "undefined" then
    return .undefined
  else
    return .const (← constValue)

/-! ### Types, extended attributes and arguments -/

def argumentsWith (argument : Run Argument) : Run (List Argument) := do
  expect .parenOpen "`(`"
  if ← eat .parenClose then
    return []
  else
    let args ← commaSeparated argument
    expect .parenClose "`)`"
    return args

def attributeValue : Run AttributeValue := do
  if ← atKind .identifier then
    return .identifier (← readName)
  else if ← atKind .string then
    return .string (← stringContent "a string")
  else if ← atKind .integer then
    let source ← look text?
    let _ ← bump
    return .integer source
  else if ← atKind .decimal then
    let source ← look text?
    let _ ← bump
    return .decimal source
  else if ← eat .star then
    return .wildcard
  else if ← eat .parenOpen then
    let names ← commaSeparated readName
    expect .parenClose "`)`"
    return .identifierList names
  else
    fail .expectedValue

def extAttributeWith (argument : Run Argument) : Run ExtendedAttribute := do
  let name ← readName
  let value ← if ← eat .equals then some <$> attributeValue else pure none
  if ← look fun r => some (AttributeValue.allowsArguments value && r.hasKind 0 .parenOpen) then
    let args ← argumentsWith argument
    return ⟨name, value, some args⟩
  else
    return ⟨name, value, none⟩

def extAttributesWith (argument : Run Argument) : Run (List ExtendedAttribute) := do
  if ← eat .bracketOpen then
    let attrs ← commaSeparated (extAttributeWith argument)
    expect .bracketClose "`]`"
    return attrs
  else
    return []

def wrappedWith (type : Run IdlType) : Run IdlType := do
  expect .angleOpen "`<`"
  let item ← type
  expect .angleClose "`>`"
  return item

def recordWith (type : Run IdlType) : Run IdlType := do
  expect .angleOpen "`<`"
  let first ← start
  let key ← type
  if key.isRecordKey then
    expect .comma "`,`"
    let value ← type
    expect .angleClose "`>`"
    return .record key value
  else
    failAt .invalidRecordKey (← spanFrom first) key.text

def unsignedType : Run IdlType := do
  if ← eatWord "short" then
    return .primitive .unsignedShort
  else
    expectWord "long"
    if ← eatWord "long" then
      return .primitive .unsignedLongLong
    else
      return .primitive .unsignedLong

def unrestrictedType : Run IdlType := do
  if ← eatWord "float" then
    return .primitive .unrestrictedFloat
  else
    expectWord "double"
    return .primitive .unrestrictedDouble

def longType : Run IdlType := do
  if ← eatWord "long" then
    return .primitive .longLong
  else
    return .primitive .long

/-- A type that is one word. -/
def wordType (word : String) : Run IdlType := do
  match Primitive.ofWord? word with
  | some p =>
    let _ ← bump
    return .primitive p
  | none => return .named (← readName)

def singleWith (type : Run IdlType) : Run IdlType := do
  if ← atKind .identifier then
    let word ← look text?
    match IdlType.wrapper? word with
    | some wrap =>
      let _ ← bump
      return wrap (← wrappedWith type)
    | none =>
      match word with
      | "any" =>
        let _ ← bump
        return .any
      | "record" =>
        let _ ← bump
        recordWith type
      | "unsigned" =>
        let _ ← bump
        unsignedType
      | "unrestricted" =>
        let _ ← bump
        unrestrictedType
      | "long" =>
        let _ ← bump
        longType
      | _ => wordType word
  else
    fail .expectedType

def unionWith (type : Run IdlType) : Run IdlType := do
  expect .parenOpen "`(`"
  let first ← type
  let rest ← repeatWhile (eatWord "or") type
  if rest.isEmpty then
    unexpected "`or`"
  else
    expect .parenClose "`)`"
    return .union (first :: rest)

def typeWith (type : Run IdlType) (argument : Run Argument) : Run IdlType := do
  let extAttrs ← extAttributesWith argument
  let bare ← if ← atKind .parenOpen then unionWith type else singleWith type
  let inner := if ← eat .question then .nullable bare else bare
  return if extAttrs.isEmpty then inner else .annotated extAttrs inner

def argumentWith (type : Run IdlType) (argument : Run Argument) : Run Argument := do
  let extAttrs ← extAttributesWith argument
  if ← eatWord "optional" then
    let type ← type
    let name ← readName
    let default ← if ← eat .equals then some <$> defaultValue else pure none
    return ⟨name, type, true, false, default, extAttrs⟩
  else
    let type ← type
    let isVariadic ← eat .ellipsis
    let name ← readName
    return ⟨name, type, false, isVariadic, none, extAttrs⟩

mutual

def typeAt (depth : Nat) : Run IdlType :=
  match depth with
  | 0 => fun _ => none
  | depth + 1 => typeWith (typeAt depth) (argumentAt depth)

def argumentAt (depth : Nat) : Run Argument :=
  match depth with
  | 0 => fun _ => none
  | depth + 1 =>
    argumentWith (typeWith (typeAt depth) (argumentAt depth)) (argumentAt depth)

end

def type : Run IdlType := fun r => typeAt (r.marks.length + 1) r

def argument : Run Argument := fun r => argumentAt (r.marks.length + 1) r

def arguments : Run (List Argument) := argumentsWith argument

def extAttributes : Run (List ExtendedAttribute) := extAttributesWith argument

/-! ### Agreement -/

section Pointwise

variable {α β : Type}

theorem parse_look {γ : Type} (see : Cursor → γ) (f : γ → Parse β) (c : Cursor) :
    (Parse.look see >>= f) c = f (see c) c := rfl

theorem parse_ite (test : Bool) (u v : Parse α) (c : Cursor) :
    (if test then u else v) c = if test then u c else v c := by
  cases test <;> rfl

end Pointwise

/-- The value of a constant is told by the kind of the next token. -/
theorem parse_constValue : ConstValue.parse = (do
    if ← Parse.atKind .integer then
      let text ← Parse.look Cursor.text
      Parse.advance
      return .integer text
    else if ← Parse.atKind .decimal then
      let text ← Parse.look Cursor.text
      Parse.advance
      return .decimal text
    else if ← Parse.atKind .identifier then
      match ConstValue.ofWord? (← Parse.look Cursor.text) with
      | some value =>
        Parse.advance
        return value
      | none => Parse.fail .expectedValue
    else if ← Parse.atKind .minus then
      if ← Parse.look fun c => c.beforeWord "Infinity" then
        Parse.advance
        Parse.advance
        return .negativeInfinity
      else
        Parse.fail .expectedValue
    else
      Parse.fail .expectedValue) := by
  funext c
  simp only [Parse.atKind, parse_look, parse_ite]
  unfold ConstValue.parse ConstValue.next?
  cases c.atKind .integer with
  | true => rfl
  | false =>
  cases c.atKind .decimal with
  | true => rfl
  | false =>
  cases c.atKind .identifier with
  | true => cases ConstValue.ofWord? c.text <;> rfl
  | false =>
  cases c.atKind .minus with
  | true => cases c.beforeWord "Infinity" <;> rfl
  | false => rfl

theorem rest_advance_of_beforeWord {c : Cursor} {word : String} (h : c.beforeWord word = true) :
    ∃ token rest, c.advance.rest = token :: rest := by
  unfold Cursor.beforeWord at h
  split at h
  · rename_i first second rest hrest
    exact ⟨second, rest, by rw [Cursor.advance, hrest]⟩
  · cases h

namespace Agrees

variable {n : Nat}

theorem constValue : Agrees n Reader.constValue ConstValue.parse := by
  rw [parse_constValue]
  refine ite_kind ?_ (ite_kind ?_ (ite_kind ?_ (ite_kind ?_ fail)))
  · intro r c token rest h _ hrest _
    exact .look h.text? (bump_pure h hrest _)
  · intro r c token rest h _ hrest _
    exact .look h.text? (bump_pure h hrest _)
  · intro r c token rest h _ hrest _
    refine .look h.text? ?_
    cases ConstValue.ofWord? c.text with
    | none => exact .fail h
    | some value => exact bump_pure h hrest value
  · intro r c token rest h _ hrest _
    refine .look (h.hasWord?_one _) ?_
    cases hword : c.beforeWord "Infinity" with
    | false => exact .fail h
    | true =>
        obtain ⟨second, more, hsecond⟩ := rest_advance_of_beforeWord hword
        exact .bump h hrest fun s hs _ => bump_pure hs hsecond _

theorem defaultValue : Agrees n Reader.defaultValue DefaultValue.parse := by
  refine look (fun _ _ h => congrArg some (h.hasKind _)) fun _ => ite ?_ ?_
  · exact stringContent.bind fun content => pure _
  refine eat.bind fun _ => ite (expect.bind fun _ => pure _) ?_
  refine eat.bind fun _ => ite (expect.bind fun _ => pure _) ?_
  refine eatWord.bind fun _ => ite (pure _) (eatWord.bind fun _ => ite (pure _) ?_)
  exact constValue.bind fun value => pure _

section Parts

variable {type : Run IdlType} {type' : Parse IdlType} {argument : Run Argument}
  {argument' : Parse Argument}

theorem argumentsWith (h : Agrees n argument argument') :
    Agrees (n + 1) (Reader.argumentsWith argument) (Argument.parseListWith argument') := by
  refine expect_bind (eat.bind fun _ => ite (pure []) ?_)
  exact (commaSeparated h).bind fun args => expect.bind fun _ => pure args

theorem attributeValue : Agrees n Reader.attributeValue AttributeValue.parse := by
  refine ite_kind ?_ (ite_kind ?_ (ite_kind ?_ (ite_kind ?_ ?_)))
  · intro r c token rest h hlt _ _
    exact (readName.bind fun _ => pure _) r c h hlt
  · intro r c token rest h hlt _ _
    exact (stringContent.bind fun _ => pure _) r c h hlt
  · intro r c token rest h _ hrest _
    exact .look h.text? (bump_pure h hrest _)
  · intro r c token rest h _ hrest _
    exact .look h.text? (bump_pure h hrest _)
  refine eat.bind fun _ => ite (pure _) (eat.bind fun _ => ite ?_ fail)
  exact (commaSeparated readName).bind fun names => expect.bind fun _ => pure _

theorem extAttributeWith (h : Agrees n argument argument') :
    Agrees (n + 1) (Reader.extAttributeWith argument) (ExtendedAttribute.parseWith argument') := by
  have htail (name : String) (value : Option AttributeValue) : Agrees (n + 1)
      (do
        if ← Reader.look fun r =>
            some (AttributeValue.allowsArguments value && r.hasKind 0 .parenOpen) then
          let args ← Reader.argumentsWith argument
          return ExtendedAttribute.mk name value (some args)
        else
          return ⟨name, value, none⟩)
      (do
        if ← Parse.look fun c =>
            AttributeValue.allowsArguments value && c.atKind .parenOpen then
          let args ← Argument.parseListWith argument'
          return ExtendedAttribute.mk name value (some args)
        else
          return ⟨name, value, none⟩) := by
    refine look (fun r c hfollows => by rw [hfollows.hasKind]) fun _ => ite ?_ (pure _)
    exact (argumentsWith h).bind fun args => pure _
  refine readName.bind fun name => eat.bind fun _ => ite ?_ ?_
  · exact (map attributeValue).bind fun value => htail name value
  · exact (pure none).bind fun value => htail name value

theorem extAttributesWith (h : Agrees n argument argument') :
    Agrees (n + 1) (Reader.extAttributesWith argument)
      (ExtendedAttribute.parseListWith argument') := by
  refine eat.bind fun _ => ite ?_ (pure [])
  exact (commaSeparated (extAttributeWith h)).bind fun attrs => expect.bind fun _ => pure attrs

theorem wrappedWith (h : Agrees n type type') :
    Agrees (n + 1) (Reader.wrappedWith type) (IdlType.parseWrappedWith type') :=
  expect_bind (h.bind fun item => expect.bind fun _ => pure item)

theorem recordWith (h : Agrees n type type') :
    Agrees (n + 1) (Reader.recordWith type) (IdlType.parseRecordWith type') := by
  refine expect_bind (start.bind fun first => h.bind fun key => ite ?_ ?_)
  · exact expect.bind fun _ => h.bind fun value => expect.bind fun _ => pure _
  · exact (spanFrom first).bind fun span => failAt

theorem unsignedType : Agrees n Reader.unsignedType IdlType.parseUnsigned := by
  refine eatWord.bind fun _ => ite (pure _) (expectWord.bind fun _ => ?_)
  exact eatWord.bind fun _ => ite (pure _) (pure _)

theorem unrestrictedType : Agrees n Reader.unrestrictedType IdlType.parseUnrestricted :=
  eatWord.bind fun _ => ite (pure _) (expectWord.bind fun _ => pure _)

theorem longType : Agrees n Reader.longType IdlType.parseLong :=
  eatWord.bind fun _ => ite (pure _) (pure _)

theorem singleWith (h : Agrees n type type') :
    Agrees (n + 1) (Reader.singleWith type) (IdlType.parseSingleWith type') := by
  refine ite_kind ?_ fail
  intro r c token rest hfollows hlt hrest _
  have hbump {q : Run IdlType} {p : Parse IdlType} (h : Agrees (n + 1) q p) :
      AgreesAt (Reader.bump >>= fun _ => q) (Parse.advance >>= fun _ => p) r c :=
    .bump hfollows hrest fun s hs _ =>
      h s c.advance hs (Nat.lt_of_le_of_lt (length_advance_le c) hlt)
  refine .look hfollows.text? ?_
  generalize c.text = word
  cases IdlType.wrapper? word with
  | some wrap => exact hbump ((wrappedWith h).bind fun item => pure (wrap item))
  | none =>
      have hword : AgreesAt (Reader.wordType word)
          (match Primitive.ofWord? word with
          | some p => do
            Parse.advance
            return .primitive p
          | none => return .named (← Parse.readName)) r c := by
        unfold Reader.wordType
        cases Primitive.ofWord? word with
        | some p => exact hbump (pure _)
        | none => exact (readName.bind fun name => pure _) r c hfollows hlt
      dsimp only
      by_cases hany : word = "any"
      · subst hany
        exact hbump (pure _)
      by_cases hrecord : word = "record"
      · subst hrecord
        exact hbump (recordWith h)
      by_cases hunsigned : word = "unsigned"
      · subst hunsigned
        exact hbump unsignedType
      by_cases hunrestricted : word = "unrestricted"
      · subst hunrestricted
        exact hbump unrestrictedType
      by_cases hlong : word = "long"
      · subst hlong
        exact hbump longType
      -- no other word has a case of its own, on either side
      simp only
      exact hword

theorem unionWith (h : Agrees n type type') :
    Agrees (n + 1) (Reader.unionWith type) (IdlType.parseUnionWith type') := by
  refine expect_bind (h.bind fun first => (repeatWhile eatWord h ?_).bind fun rest => ?_)
  · intro c d e a hyes _ _ he
    exact Nat.lt_of_le_of_lt he (length_lt_of_eatWord hyes)
  · exact ite unexpected (expect.bind fun _ => pure _)

theorem typeWith (htype : Agrees n type type') (hargument : Agrees n argument argument') :
    Agrees (n + 1) (Reader.typeWith type argument) (IdlType.parseWith type' argument') := by
  have htail (extAttrs : List ExtendedAttribute) (bare : IdlType) : Agrees (n + 1)
      (do
        let inner := if ← Reader.eat .question then IdlType.nullable bare else bare
        return if extAttrs.isEmpty then inner else .annotated extAttrs inner)
      (do
        let inner := if ← Parse.eat .question then IdlType.nullable bare else bare
        return if extAttrs.isEmpty then inner else .annotated extAttrs inner) :=
    eat.bind fun _ => pure _
  refine (extAttributesWith hargument).bind fun extAttrs => ?_
  refine look (fun _ _ hfollows => congrArg some (hfollows.hasKind _)) fun _ => ite ?_ ?_
  · exact (unionWith htype).bind (htail extAttrs)
  · exact (singleWith htype).bind (htail extAttrs)

theorem argumentWith (htype : Agrees (n + 1) type type') (hargument : Agrees n argument argument') :
    Agrees (n + 1) (Reader.argumentWith type argument) (Argument.parseWith type' argument') := by
  refine (extAttributesWith hargument).bind fun extAttrs => eatWord.bind fun _ => ite ?_ ?_
  · refine htype.bind fun type => readName.bind fun name => eat.bind fun _ => ite ?_ ?_
    · exact (map defaultValue).bind fun default => pure _
    · exact (pure none).bind fun default => pure _
  · exact htype.bind fun type => eat.bind fun _ => readName.bind fun name => pure _

end Parts

/-! ### Any depth -/

theorem typeAt_argumentAt {depth depth' : Nat} (h : n ≤ depth) (h' : n ≤ depth') :
    Agrees n (Reader.typeAt depth) (IdlType.parseAt depth') ∧
      Agrees n (Reader.argumentAt depth) (Argument.parseAt depth') := by
  -- a type or an argument takes a token before it comes to the next one inside
  induction n generalizing depth depth' with
  | zero =>
      exact ⟨fun _ _ _ hlt => (Nat.not_lt_zero _ hlt).elim,
        fun _ _ _ hlt => (Nat.not_lt_zero _ hlt).elim⟩
  | succ n ih =>
      obtain ⟨depth, rfl⟩ := Nat.exists_eq_add_of_le' h
      obtain ⟨depth', rfl⟩ := Nat.exists_eq_add_of_le' h'
      obtain ⟨htype, hargument⟩ := ih (Nat.le_add_left n depth) (Nat.le_add_left n depth')
      exact ⟨typeWith htype hargument, argumentWith (typeWith htype hargument) hargument⟩

theorem type : Agrees n Reader.type IdlType.parse := by
  intro r c h _
  have hall := typeAt_argumentAt (Nat.succ_le_succ h.length_le) (Nat.le_refl (c.rest.length + 1))
  have hread : Reader.type r = Reader.typeAt (r.marks.length + 1) r := rfl
  have hparse : IdlType.parse c = IdlType.parseAt (c.rest.length + 1) c := rfl
  exact .of_run_eq hread (.of_eq hparse (hall.1 r c h (Nat.lt_succ_self _)))

theorem argument : Agrees n Reader.argument Argument.parse := by
  intro r c h _
  have hall := typeAt_argumentAt (Nat.succ_le_succ h.length_le) (Nat.le_refl (c.rest.length + 1))
  have hread : Reader.argument r = Reader.argumentAt (r.marks.length + 1) r := rfl
  have hparse : Argument.parse c = Argument.parseAt (c.rest.length + 1) c := rfl
  exact .of_run_eq hread (.of_eq hparse (hall.2 r c h (Nat.lt_succ_self _)))

theorem arguments : Agrees n Reader.arguments Argument.parseList :=
  (argumentsWith argument).mono (Nat.le_succ n)

theorem extAttributes : Agrees n Reader.extAttributes ExtendedAttribute.parseList :=
  (extAttributesWith argument).mono (Nat.le_succ n)

end Agrees

end Reader

end IdlBindings
