import IdlBindings.Proofs.Declaration.Reader
import IdlBindings.Proofs.Declaration.Union

/-!
Type expressions are read back from their text. The reader follows the usual precedences: function
types bind loosest, then unions, then intersections, then the `[]` of arrays, and parentheses group.
Each production is written over the reader of whole types; the recursion is tied once, on a depth
that the length of the text bounds.
-/

namespace IdlBindings

namespace TypeExpr

open TextReader

/-- Whether parameters stand behind a `(`, and not a type: they begin with `...`, with `)` or with a
name and a `:` or `?` behind it. -/
def beginsParameters (cs : List Char) : Bool :=
  [some ')', some '.'].contains (pastBlanks cs).head?
    || [some ':', some '?'].contains
      (pastBlanks ((pastBlanks cs).dropWhile Text.isNameRest)).head?

/-- Whether a function type is next. -/
def beginsFunction : List Char → Bool
  | '(' :: rest => beginsParameters rest
  | _ => false

section Productions

variable (type : TextReader TypeExpr)

/-- A name with its type, perhaps with a mark for more arguments or for an optional one. -/
def readTypedWith : TextReader TypeExpr := do
  let _ ← eat "..."
  let _ ← name
  let _ ← eat "?"
  expect ":"
  type

def readParameterWith : TextReader String := written (readTypedWith type)

def readFunctionWith : TextReader TypeExpr := do
  expect "("
  let params ← listUpTo ")" (readParameterWith type)
  expect "=>"
  return .function params (← type)

/-- A name with or without arguments. -/
def readNamedWith : TextReader TypeExpr := do
  let word ← name
  if ← eat "<" then
    let args ← separatedBy "," type
    expect ">"
    return .generic word args
  else
    return .reference word

/-- A type in parentheses, a tuple, a string literal, or a name. -/
def readPrimaryWith : TextReader TypeExpr := do
  if ← eat "(" then
    let inner ← type
    expect ")"
    return inner
  else if ← eat "[" then
    return .tuple (← listUpTo "]" type)
  else if ← look (·.head? == some '"') then
    return .stringLiteral (Text.quote (← stringContent))
  else
    readNamedWith type

/-- The arrays that the `[]` directly behind a type make of it. -/
def arraysOf (item : TypeExpr) : List Char → TypeExpr × List Char
  | '[' :: ']' :: rest => arraysOf (.array item) rest
  | rest => (item, rest)

def readPostfixWith : TextReader TypeExpr := do
  let item ← readPrimaryWith type
  modifyGet (arraysOf item)

/-- The type itself, if it is the only one. -/
def groupOf (group : List TypeExpr → TypeExpr) : List TypeExpr → TypeExpr
  | [only] => only
  | members => group members

def readIntersectionWith : TextReader TypeExpr :=
  groupOf .intersection <$> separatedBy "&" (readPostfixWith type)

def readUnionWith : TextReader TypeExpr :=
  groupOf .union <$> separatedBy "|" (readIntersectionWith type)

def readWith : TextReader TypeExpr := do
  if ← look beginsFunction then readFunctionWith type else readUnionWith type

end Productions

/-- Read a type with parts nested less than `depth` deep. -/
def readAt : Nat → TextReader TypeExpr
  | 0 => failure
  | depth + 1 => readWith (readAt depth)

/-- The type expression that a text is. A word is a reference: a built-in type is one by its name
only. -/
def read? (text : String) : Option TypeExpr :=
  (readAt (text.length + 1) text.toList).bind fun (type, rest) =>
    if (pastBlanks rest).isEmpty then some type else none

/-! ### The trees -/

mutual

/-- A type expression that has a syntax: names are words, and unions and intersections have two
members or more. -/
inductive Expressible : TypeExpr → Prop
  | keyword {word : String} (hword : Text.isIdentifier word = true) : Expressible (.keyword word)
  | reference {name : String} (hname : Text.isIdentifier name = true) :
      Expressible (.reference name)
  | generic {name : String} {args : List TypeExpr} (hname : Text.isIdentifier name = true)
      (hargs : ∀ arg ∈ args, Expressible arg) (hsome : args ≠ []) : Expressible (.generic name args)
  | array {item : TypeExpr} (hitem : Expressible item) : Expressible (.array item)
  | tuple {items : List TypeExpr} (hitems : ∀ item ∈ items, Expressible item) :
      Expressible (.tuple items)
  | union {members : List TypeExpr} (hmembers : ∀ member ∈ members, Expressible member)
      (hmany : 2 ≤ members.length) : Expressible (.union members)
  | intersection {members : List TypeExpr} (hmembers : ∀ member ∈ members, Expressible member)
      (hmany : 2 ≤ members.length) : Expressible (.intersection members)
  | stringLiteral (content : String) : Expressible (.stringLiteral (Text.quote content))
  | function {params : List String} {result : TypeExpr}
      (hparams : ∀ param ∈ params, IsParameter param) (hresult : Expressible result) :
      Expressible (.function params result)

/-- The text of a parameter with its type. -/
inductive IsParameter : String → Prop
  | required {name : String} {type : TypeExpr} (hname : Text.isIdentifier name = true)
      (htype : Expressible type) : IsParameter (name ++ ": " ++ type.text)
  | optional {name : String} {type : TypeExpr} (hname : Text.isIdentifier name = true)
      (htype : Expressible type) : IsParameter (name ++ "?: " ++ type.text)
  | variadic {name : String} {type : TypeExpr} (hname : Text.isIdentifier name = true)
      (htype : Expressible type) : IsParameter ("..." ++ name ++ ": " ++ type.text)

end

mutual

/-- The type expression with a reference for each keyword. -/
def asReferences : TypeExpr → TypeExpr
  | .keyword word => .reference word
  | .reference name => .reference name
  | .generic name args => .generic name (asReferencesEach args)
  | .array item => .array item.asReferences
  | .tuple items => .tuple (asReferencesEach items)
  | .union members => .union (asReferencesEach members)
  | .intersection members => .intersection (asReferencesEach members)
  | .stringLiteral quoted => .stringLiteral quoted
  | .literal source => .literal source
  | .object members => .object members
  | .function params result => .function params result.asReferences

def asReferencesEach : List TypeExpr → List TypeExpr
  | [] => []
  | type :: rest => type.asReferences :: asReferencesEach rest

end

theorem asReferencesEach_eq_map (types : List TypeExpr) :
    asReferencesEach types = types.map asReferences := by
  induction types with
  | nil => simp [asReferencesEach]
  | cons type rest ih => simp [asReferencesEach, ih]

/-! ### Texts -/

/-- The text of a type in a place that needs this strength at least. -/
def placed (least : Nat) (type : TypeExpr) : List Char :=
  (parenthesize type.strength least type.text).toList

variable {type item : TypeExpr} {least : Nat}

theorem placed_of_lt (h : type.strength < least) :
    placed least type = '(' :: (type.text.toList ++ [')']) := by
  rw [placed, parenthesize, if_pos h, String.toList_append, String.toList_append]
  rfl

theorem placed_of_le (h : least ≤ type.strength) : placed least type = type.text.toList := by
  rw [placed, parenthesize, if_neg (Nat.not_lt.2 h)]

theorem textsAt_eq_map (least : Nat) (types : List TypeExpr) :
    (textsAt least types).map String.toList = types.map (placed least) := by
  induction types with
  | nil => simp [textsAt]
  | cons type rest ih => simp [textsAt, ih, placed]

theorem toList_generic (name : String) (args : List TypeExpr) : (generic name args).text.toList
    = name.toList ++ '<' :: ([',', ' '].intercalate (args.map (placed 0)) ++ ['>']) := by
  rw [text, ← textsAt_eq_map]
  simp

theorem toList_array (item : TypeExpr) :
    (array item).text.toList = placed 3 item ++ ['[', ']'] := by
  rw [text, placed]
  simp

theorem toList_tuple (items : List TypeExpr) : (tuple items).text.toList
    = '[' :: ([',', ' '].intercalate (items.map (placed 0)) ++ [']']) := by
  rw [text, ← textsAt_eq_map]
  simp

theorem toList_union (members : List TypeExpr) :
    (union members).text.toList = [' ', '|', ' '].intercalate (members.map (placed 2)) := by
  rw [text, ← textsAt_eq_map]
  simp

theorem toList_intersection (members : List TypeExpr) :
    (intersection members).text.toList = [' ', '&', ' '].intercalate (members.map (placed 3)) := by
  rw [text, ← textsAt_eq_map]
  simp

theorem toList_function (params : List String) (result : TypeExpr) :
    (function params result).text.toList
      = '(' :: ([',', ' '].intercalate (params.map String.toList)
        ++ ')' :: ' ' :: '=' :: '>' :: ' ' :: result.text.toList) := by
  rw [text]
  simp

/-- How the text of a type that is no function type begins. -/
inductive Opens : List Char → Prop
  | group {type : TypeExpr} {rest : List Char} (htype : Expressible type) (hrest : Ends [] rest) :
      Opens ('(' :: (type.text.toList ++ rest))
  | mark {c : Char} {rest : List Char} (hc : c = '[' ∨ c = '"') : Opens (c :: rest)
  | word {word : String} {rest : List Char} (hword : Text.isIdentifier word = true)
      (hrest : Ends [] rest) : Opens (word.toList ++ rest)

variable {rest : List Char}

theorem opens_placed (htype : Expressible type) (hleast : 0 < least)
    (hopens : type.strength ≠ 0 → Opens (type.text.toList ++ rest)) :
    Opens (placed least type ++ rest) := by
  rcases Nat.lt_or_ge type.strength least with hlt | hle
  · rw [placed_of_lt hlt, List.cons_append, List.append_assoc]
    exact .group htype (.cons (by decide) (by decide) (by decide))
  · rw [placed_of_le hle]
    exact hopens (by omega)

theorem opens : ∀ {type : TypeExpr}, Expressible type → type.strength ≠ 0 → ∀ {rest : List Char},
    Ends [] rest → Opens (type.text.toList ++ rest)
  | .keyword _, .keyword hword, _, _, hrest => .word hword hrest
  | .reference _, .reference hname, _, _, hrest => .word hname hrest
  | .generic _ _, .generic hname _ _, _, _, _ => by
      rw [toList_generic, List.append_assoc, List.cons_append]
      exact .word hname (.cons (by decide) (by decide) (by decide))
  | .array item, .array hitem, _, _, _ => by
      rw [toList_array, List.append_assoc]
      exact opens_placed hitem (by decide) fun hstrength =>
        opens hitem hstrength (.cons (by decide) (by decide) (by decide))
  | .tuple _, _, _, _, _ => by
      rw [toList_tuple]
      exact .mark (.inl rfl)
  | .union (first :: second :: members), .union hmembers _, _, _, _ => by
      rw [toList_union, List.map_cons, List.map_cons, List.intercalate_cons_cons,
        List.append_assoc, List.append_assoc]
      have hfirst := hmembers first List.mem_cons_self
      exact opens_placed hfirst (by decide) fun hstrength =>
        opens hfirst hstrength (.blank (by decide) (by decide))
  | .intersection (first :: second :: members), .intersection hmembers _, _, _, _ => by
      rw [toList_intersection, List.map_cons, List.map_cons, List.intercalate_cons_cons,
        List.append_assoc, List.append_assoc]
      have hfirst := hmembers first List.mem_cons_self
      exact opens_placed hfirst (by decide) fun hstrength =>
        opens hfirst hstrength (.blank (by decide) (by decide))
  | .stringLiteral _, .stringLiteral content, _, _, _ => by
      have htext : (stringLiteral (Text.quote content)).text.toList
          = '"' :: (content.toList.flatMap Text.escape ++ ['"']) := by
        simp [text, Text.quote]
      rw [htext]
      exact .mark (.inr rfl)

/-! ### What a type begins with -/

theorem beginsParameters_cons {c : Char} {cs : List Char} (hname : Text.isNameRest c = false)
    (hblank : c.isWhitespace = false) (hc : c ∉ [')', '.', ':', '?']) :
    beginsParameters (c :: cs) = false := by
  rw [beginsParameters, pastBlanks_cons hblank, List.dropWhile_cons_of_neg (by simp [hname]),
    pastBlanks_cons hblank]
  simp_all

theorem beginsParameters_word {word : String} (hword : Text.isIdentifier word = true)
    (hrest : Ends [] rest) : beginsParameters (word.toList ++ rest) = false := by
  obtain ⟨c, cs, hlist, hc⟩ := head_of_isIdentifier hword
  have hclose : c ≠ ')' := ne_of_apply_ne Text.isNameRest (by rw [hc]; decide)
  have hdot : c ≠ '.' := ne_of_apply_ne Text.isNameRest (by rw [hc]; decide)
  have hcolon := hrest.head_ne (c := ':') (by simp)
  have hquestion := hrest.head_ne (c := '?') (by simp)
  rw [beginsParameters, (solid_of_isIdentifier hword).pastBlanks, dropWhile_name hword hrest.1,
    hlist]
  simp [hclose, hdot, hcolon, hquestion]

theorem Opens.beginsParameters {cs : List Char} (h : Opens cs) : beginsParameters cs = false := by
  cases h with
  | group htype hrest => exact beginsParameters_cons (by decide) (by decide) (by decide)
  | mark hc =>
      rcases hc with rfl | rfl <;> exact beginsParameters_cons (by decide) (by decide) (by decide)
  | word hword hrest => exact beginsParameters_word hword hrest

theorem exists_function (h : type.strength = 0) :
    ∃ params result, type = .function params result := by
  cases type with
  | function params result => exact ⟨params, result, rfl⟩
  | _ => cases h

theorem exists_union (h : type.strength = 1) : ∃ members, type = .union members := by
  cases type with
  | union members => exact ⟨members, rfl⟩
  | _ => cases h

theorem exists_intersection (h : type.strength = 2) : ∃ members, type = .intersection members := by
  cases type with
  | intersection members => exact ⟨members, rfl⟩
  | _ => cases h

/-- A type in parentheses is not taken for parameters. -/
theorem Expressible.beginsParameters (htype : Expressible type) (hrest : Ends [] rest) :
    beginsParameters (type.text.toList ++ rest) = false := by
  by_cases hfunction : type.strength = 0
  · obtain ⟨params, result, rfl⟩ := exists_function hfunction
    rw [toList_function]
    exact beginsParameters_cons (by decide) (by decide) (by decide)
  · exact (opens htype hfunction hrest).beginsParameters

theorem Opens.beginsFunction {cs : List Char} (h : Opens cs) : beginsFunction cs = false := by
  cases h with
  | group htype hrest => exact htype.beginsParameters hrest
  | mark hc => rcases hc with rfl | rfl <;> rfl
  | word hword hrest =>
      obtain ⟨c, cs, hlist, hc⟩ := head_of_isIdentifier hword
      rw [hlist]
      refine TypeExpr.beginsFunction.eq_2 _ ?_
      rintro _ ⟨⟩
      exact absurd hc (by decide)

theorem Opens.head {cs : List Char} (h : Opens cs) :
    ∃ c rest, cs = c :: rest ∧ c.isWhitespace = false ∧ c ≠ ']' := by
  cases h with
  | group _ _ => exact ⟨_, _, rfl, by decide, by decide⟩
  | mark hc => rcases hc with rfl | rfl <;> exact ⟨_, _, rfl, by decide, by decide⟩
  | word hword hrest =>
      obtain ⟨c, cs, hlist, hc⟩ := head_of_isIdentifier hword
      rw [hlist]
      refine ⟨c, _, rfl, not_isWhitespace_of_isNameRest hc, ?_⟩
      exact ne_of_apply_ne Text.isNameRest (by rw [hc]; decide)

/-- A type begins with something else than a blank or a closing bracket. -/
theorem Expressible.head (htype : Expressible type) :
    ∃ c cs, type.text.toList = c :: cs ∧ c.isWhitespace = false ∧ c ≠ ']' := by
  by_cases hfunction : type.strength = 0
  · obtain ⟨params, result, rfl⟩ := exists_function hfunction
    rw [toList_function]
    exact ⟨_, _, rfl, by decide, by decide⟩
  · have hopens := opens htype hfunction .nil
    rw [List.append_nil] at hopens
    exact hopens.head

theorem Expressible.solid (htype : Expressible type) : Solid type.text.toList := by
  obtain ⟨c, cs, hlist, hblank, -⟩ := htype.head
  exact ⟨c, hlist ▸ rfl, hblank⟩

theorem Expressible.solid_placed (htype : Expressible type) (least : Nat) :
    Solid (placed least type) := by
  rcases Nat.lt_or_ge type.strength least with hlt | hle
  · rw [placed_of_lt hlt]
    exact ⟨'(', rfl, by decide⟩
  · rw [placed_of_le hle]
    exact htype.solid

theorem length_text_le {n : Nat} (hstrength : type.strength = 3)
    (h : (placed 3 type).length ≤ n) : type.text.length ≤ n := by
  rwa [placed_of_le (Nat.le_of_eq hstrength.symm), String.length_toList] at h

theorem placed_zero (type : TypeExpr) : placed 0 type = type.text.toList :=
  placed_of_le (Nat.zero_le _)

/-! ### The productions -/

/-- The marks that a type goes on with. -/
abbrev typeMarks : List Char := ['|', '&', '[', '<']

/-- The reader reads the types with a text of fewer than `n` characters, in front of what continues
no type: a parenthesis in the text makes the parts shorter than the whole. -/
def ReadsBelow (type : TextReader TypeExpr) (n : Nat) : Prop :=
  ∀ part : TypeExpr, part.Expressible → part.text.length < n →
    Gives type typeMarks part.text.toList part.asReferences

theorem forall₂_gives {reader : TextReader TypeExpr} {marks : List Char} {types : List TypeExpr}
    {texts : TypeExpr → List Char}
    (h : ∀ type ∈ types, Gives reader marks (texts type) type.asReferences) :
    List.Forall₂ (Gives reader marks) (types.map texts) (asReferencesEach types) := by
  rw [asReferencesEach_eq_map, List.forall₂_map_left_iff, List.forall₂_map_right_iff,
    List.forall₂_same]
  exact h

section Productions

variable {reader : TextReader TypeExpr} {n : Nat} {input : List Char}

theorem readPrimary_group (hreader : ReadsBelow reader n) (hinner : item.Expressible)
    (hlength : item.text.length < n)
    (hinput : pastBlanks input = '(' :: (item.text.toList ++ ')' :: rest)) :
    readPrimaryWith reader input = some (item.asReferences, rest) := by
  have hopen : eat "(" input = some (true, item.text.toList ++ ')' :: rest) := eat_eq hinput
  have hread := hreader item hinner hlength _ _ (hinner.solid.pastBlanks (')' :: rest))
    (.cons (by decide) (by decide) (by decide))
  have hclose : expect ")" (')' :: rest) = some ((), rest) := expect_eq rfl
  rw [readPrimaryWith, bind_eq hopen, if_pos rfl, bind_eq hread, bind_eq hclose]
  rfl

/-- Whole types in a list are read when the list is no longer than `n`. -/
theorem gives_list (hreader : ReadsBelow reader n) {items : List TypeExpr}
    (hitems : ∀ item ∈ items, item.Expressible)
    (hlength : ([',', ' '].intercalate (items.map (placed 0))).length < n) :
    List.Forall₂ (Gives reader typeMarks) (items.map (placed 0))
      (asReferencesEach items) := by
  refine forall₂_gives fun item hitem => ?_
  have hle : (placed 0 item).length ≤ ([',', ' '].intercalate (items.map (placed 0))).length :=
    length_le_of_mem (List.mem_map_of_mem hitem)
  rw [placed_zero] at hle ⊢
  exact hreader item (hitems item hitem) (Nat.lt_of_le_of_lt (String.length_toList ▸ hle) hlength)

theorem readPrimary_tuple (hreader : ReadsBelow reader n) {items : List TypeExpr}
    (hitems : ∀ item ∈ items, item.Expressible) (hlength : (tuple items).text.length ≤ n)
    (hinput : pastBlanks input = (tuple items).text.toList ++ rest) :
    readPrimaryWith reader input = some ((tuple items).asReferences, rest) := by
  rw [toList_tuple, List.cons_append, List.append_assoc] at hinput
  rw [← String.length_toList, toList_tuple, List.length_cons, List.length_append] at hlength
  have hgroup : eat "(" input = some (false, input) :=
    eat_other (c := '(') rfl (by simp [hinput])
  have hopen : eat "[" input
      = some (true, [',', ' '].intercalate (items.map (placed 0)) ++ ']' :: rest) := eat_eq hinput
  have hclose : ∀ text ∈ items.map (placed 0), Solid text ∧ text.head? ≠ some ']' := by
    refine List.forall_mem_map.2 fun item hitem => ?_
    rw [placed_zero]
    obtain ⟨c, cs, hlist, hblank, hclose⟩ := (hitems item hitem).head
    exact ⟨(hitems item hitem).solid, by simpa [hlist] using hclose⟩
  have hread : listUpTo "]" reader
      ([',', ' '].intercalate (items.map (placed 0)) ++ ']' :: rest)
        = some (asReferencesEach items, rest) :=
    listUpTo_eq rfl (by decide) (fun _ => .cons (by decide) (by decide) (by decide)) (by decide)
      (gives_list hreader hitems (by omega)) hclose
  rw [readPrimaryWith, bind_eq hgroup, if_neg (by decide), bind_eq hopen, if_pos rfl, bind_eq hread]
  rfl

theorem readPrimary_stringLiteral (content : String)
    (hinput : pastBlanks input = (Text.quote content).toList ++ rest) :
    readPrimaryWith reader input = some (.stringLiteral (Text.quote content), rest) := by
  have hhead : (pastBlanks input).head? = some '"' := by
    rw [hinput, Text.quote, String.toList_append, String.toList_append]
    rfl
  have hgroup : eat "(" input = some (false, input) :=
    eat_other (c := '(') rfl (by rw [hhead]; decide)
  have htuple : eat "[" input = some (false, input) :=
    eat_other (c := '[') rfl (by rw [hhead]; decide)
  have hquote : look (·.head? == some '"') input = some (true, input) := by
    rw [look_eq, hhead]
    rfl
  rw [readPrimaryWith, bind_eq hgroup, if_neg (by decide), bind_eq htuple, if_neg (by decide),
    bind_eq hquote, if_pos rfl, bind_eq (stringContent_eq hinput)]
  rfl

/-- A name begins neither a group nor a tuple nor a string literal. -/
theorem readPrimary_eq_readNamed {word : String} (hword : Text.isIdentifier word = true)
    (hinput : pastBlanks input = word.toList ++ rest) :
    readPrimaryWith reader input = readNamedWith reader input := by
  obtain ⟨c, cs, hlist, hc⟩ := head_of_isIdentifier hword
  have hhead : (pastBlanks input).head? = some c := by rw [hinput, hlist]; rfl
  have hne {d : Char} (hd : Text.isNameRest d = false) : (pastBlanks input).head? ≠ some d := by
    rw [hhead]
    rintro ⟨⟩
    rw [hc] at hd
    cases hd
  have hgroup : eat "(" input = some (false, input) := eat_other (c := '(') rfl (hne (by decide))
  have htuple : eat "[" input = some (false, input) := eat_other (c := '[') rfl (hne (by decide))
  have hquote : look (·.head? == some '"') input = some (false, input) := by
    rw [look_eq, beq_false_of_ne (hne (by decide))]
  rw [readPrimaryWith, bind_eq hgroup, if_neg (by decide), bind_eq htuple, if_neg (by decide),
    bind_eq hquote, if_neg (by decide)]

theorem readPrimary_word {word : String} (hword : Text.isIdentifier word = true)
    (hinput : pastBlanks input = word.toList ++ rest) (hrest : Ends ['<'] rest) :
    readPrimaryWith reader input = some (.reference word, rest) := by
  have hname : name input = some (word, rest) := name_eq hword hrest.1 hinput
  have hargs : eat "<" rest = some (false, rest) :=
    eat_other (c := '<') rfl (hrest.head_ne (by simp))
  rw [readPrimary_eq_readNamed hword hinput, readNamedWith, bind_eq hname, bind_eq hargs,
    if_neg (by decide)]
  rfl

theorem readPrimary_generic (hreader : ReadsBelow reader n) {word : String} {args : List TypeExpr}
    (hword : Text.isIdentifier word = true) (hargs : ∀ arg ∈ args, arg.Expressible)
    (hsome : args ≠ []) (hlength : (generic word args).text.length ≤ n)
    (hinput : pastBlanks input = (generic word args).text.toList ++ rest) :
    readPrimaryWith reader input = some ((generic word args).asReferences, rest) := by
  rw [toList_generic, List.append_assoc, List.cons_append, List.append_assoc] at hinput
  rw [← String.length_toList, toList_generic, List.length_append, List.length_cons,
    List.length_append] at hlength
  have hname : name input = some (word,
      '<' :: ([',', ' '].intercalate (args.map (placed 0)) ++ '>' :: rest)) :=
    name_eq hword (by rintro _ ⟨⟩; decide) hinput
  have hopen : eat "<" ('<' :: ([',', ' '].intercalate (args.map (placed 0)) ++ '>' :: rest))
      = some (true, [',', ' '].intercalate (args.map (placed 0)) ++ '>' :: rest) := eat_eq rfl
  have hsolid : ∀ text ∈ args.map (placed 0), Solid text :=
    List.forall_mem_map.2 fun arg harg => (hargs arg harg).solid_placed 0
  have hread : separatedBy "," reader ([',', ' '].intercalate (args.map (placed 0)) ++ '>' :: rest)
      = some (asReferencesEach args, '>' :: rest) := by
    refine separatedBy_eq (separates_comma (by decide))
      (gives_list hreader hargs (by omega)) hsolid (by simpa using hsome) ?_
      (.cons (by decide) (by decide) (by decide))
    obtain ⟨arg, others, rfl⟩ := List.exists_cons_of_ne_nil hsome
    exact (hsolid _ List.mem_cons_self).intercalate.pastBlanks _
  have hclose : expect ">" ('>' :: rest) = some ((), rest) := expect_eq rfl
  rw [readPrimary_eq_readNamed hword hinput, readNamedWith, bind_eq hname, bind_eq hopen,
    if_pos rfl, bind_eq hread, bind_eq hclose]
  rfl

/-! ### Binding strength -/

theorem readPostfix_of_primary (hinput : pastBlanks input = placed 3 type ++ rest)
    (hstrength : type.strength = 3)
    (hprimary : pastBlanks input = type.text.toList ++ rest →
      readPrimaryWith reader input = some (type.asReferences, rest)) :
    readPostfixWith reader input = some (arraysOf type.asReferences rest) := by
  rw [placed_of_le (Nat.le_of_eq hstrength.symm)] at hinput
  rw [readPostfixWith, bind_eq (hprimary hinput)]
  rfl

theorem readPostfix_group (hreader : ReadsBelow reader n) (htype : type.Expressible)
    (hstrength : type.strength < 3) (hlength : (placed 3 type).length ≤ n)
    (hinput : pastBlanks input = placed 3 type ++ rest) :
    readPostfixWith reader input = some (arraysOf type.asReferences rest) := by
  rw [placed_of_lt hstrength, List.cons_append, List.append_assoc] at hinput
  rw [placed_of_lt hstrength, List.length_cons, List.length_append, String.length_toList] at hlength
  rw [readPostfixWith, bind_eq (readPrimary_group hreader htype (by omega) hinput)]
  rfl

/-- In front of any `[]`, which all go to the type. -/
theorem readPostfix_eq (hreader : ReadsBelow reader n) : ∀ {type : TypeExpr}, type.Expressible →
    (placed 3 type).length ≤ n → ∀ {input rest : List Char},
      pastBlanks input = placed 3 type ++ rest → Ends ['<'] rest →
        readPostfixWith reader input = some (arraysOf type.asReferences rest)
  | .keyword _, .keyword hword => fun _ _ _ hinput hrest =>
      readPostfix_of_primary hinput rfl fun hinput => readPrimary_word hword hinput hrest
  | .reference _, .reference hname => fun _ _ _ hinput hrest =>
      readPostfix_of_primary hinput rfl fun hinput => readPrimary_word hname hinput hrest
  | .generic _ _, .generic hname hargs hsome => fun hlength _ _ hinput _ =>
      readPostfix_of_primary hinput rfl
        (readPrimary_generic hreader hname hargs hsome (length_text_le rfl hlength))
  | .tuple _, .tuple hitems => fun hlength _ _ hinput _ =>
      readPostfix_of_primary hinput rfl
        (readPrimary_tuple hreader hitems (length_text_le rfl hlength))
  | .stringLiteral _, .stringLiteral content => fun _ _ _ hinput _ =>
      readPostfix_of_primary hinput rfl (readPrimary_stringLiteral content)
  -- The reader takes all `[]` in one go, so the item is read in front of the `[]` of its array.
  | .array item, .array hitem => by
      intro hlength input rest hinput _
      have htext : placed 3 (array item) = placed 3 item ++ ['[', ']'] :=
        (placed_of_le (Nat.le_refl 3)).trans (toList_array item)
      rw [htext, List.append_assoc] at hinput
      rw [htext, List.length_append] at hlength
      exact readPostfix_eq hreader hitem (by omega) hinput
        (.cons (by decide) (by decide) (by decide))
  | .union _, htype => fun hlength _ _ hinput _ =>
      readPostfix_group hreader htype (by decide : (1 : Nat) < 3) hlength hinput
  | .intersection _, htype => fun hlength _ _ hinput _ =>
      readPostfix_group hreader htype (by decide : (2 : Nat) < 3) hlength hinput
  | .function _ _, htype => fun hlength _ _ hinput _ =>
      readPostfix_group hreader htype (by decide : (0 : Nat) < 3) hlength hinput
termination_by structural type => type

theorem arraysOf_of_ends (h : Ends ['[', '<'] rest) (type : TypeExpr) :
    arraysOf type rest = (type, rest) := by
  refine arraysOf.eq_2 type rest ?_
  rintro _ rfl
  exact h.head_ne (c := '[') (by simp) rfl

theorem gives_arrays (hreader : ReadsBelow reader n) (htype : type.Expressible)
    (hlength : (placed 3 type).length ≤ n) :
    Gives (readPostfixWith reader) ['[', '<'] (placed 3 type) type.asReferences := by
  intro input rest hinput hrest
  rw [readPostfix_eq hreader htype hlength hinput (hrest.mono (by simp)), arraysOf_of_ends hrest]

/-- Two or more parts are a group of their own. -/
theorem groupOf_asReferencesEach (group : List TypeExpr → TypeExpr) {members : List TypeExpr}
    (hmany : 2 ≤ members.length) :
    groupOf group (asReferencesEach members) = group (asReferencesEach members) := by
  match members with
  | _ :: _ :: _ => rfl

theorem map_eq {α β : Type} {r : TextReader α} {f : α → β} {a : α} (h : r input = some (a, rest)) :
    (f <$> r) input = some (f a, rest) := by
  change (r input).bind (fun result => some (f result.1, result.2)) = _
  rw [h]
  rfl

section Groups

variable {part : TextReader TypeExpr} {symbol : String} {c : Char} {marks between : List Char}
  (group : List TypeExpr → TypeExpr)

/-- Members with a separator between. -/
theorem gives_members (hsep : Separates symbol c between marks) {members : List TypeExpr}
    (hmembers : ∀ member ∈ members, member.Expressible)
    (hparts : ∀ member ∈ members, Gives part marks (placed least member) member.asReferences)
    (hsome : members ≠ []) :
    Gives (groupOf group <$> separatedBy symbol part) (c :: marks)
      (between.intercalate (members.map (placed least)))
      (groupOf group (asReferencesEach members)) := by
  intro input rest hinput hrest
  refine map_eq (separatedBy_eq hsep (forall₂_gives hparts) ?_ (by simpa using hsome) hinput hrest)
  exact List.forall_mem_map.2 fun member hmember => (hmembers member hmember).solid_placed least

/-- A type that is no group at this strength is one at the next. -/
theorem gives_single (hsep : Separates symbol c between marks) (htype : type.Expressible)
    (hstrength : type.strength ≠ least)
    (hpart : (placed (least + 1) type).length ≤ n →
      Gives part marks (placed (least + 1) type) type.asReferences)
    (hlength : (placed least type).length ≤ n) :
    Gives (groupOf group <$> separatedBy symbol part) (c :: marks) (placed least type)
      type.asReferences := by
  -- The two places write the type alike: in parentheses, or bare.
  have hplaced : placed least type = placed (least + 1) type := by
    rcases Nat.lt_or_gt_of_ne hstrength with hlt | hgt
    · rw [placed_of_lt hlt, placed_of_lt (Nat.lt_succ_of_lt hlt)]
    · rw [placed_of_le (Nat.le_of_lt hgt), placed_of_le hgt]
  have hone := gives_members group hsep (List.forall_mem_singleton.2 htype)
    (List.forall_mem_singleton.2 (hpart (hplaced ▸ hlength))) (List.cons_ne_nil _ _)
  rw [List.map_singleton, List.intercalate_singleton] at hone
  rw [hplaced]
  exact hone

theorem length_placed_le {least : Nat} {members : List TypeExpr}
    (h : (between.intercalate (members.map (placed least))).length ≤ n) :
    ∀ member ∈ members, (placed least member).length ≤ n :=
  fun _ hmember => Nat.le_trans (length_le_of_mem (List.mem_map_of_mem hmember)) h

end Groups

theorem gives_intersection (hreader : ReadsBelow reader n) (htype : type.Expressible)
    (hlength : (placed 2 type).length ≤ n) :
    Gives (readIntersectionWith reader) ['&', '[', '<'] (placed 2 type) type.asReferences := by
  have hsep : Separates "&" '&' [' ', '&', ' '] ['[', '<'] :=
    separates_blank rfl (by decide) (by decide)
  by_cases hstrength : type.strength = 2
  · obtain ⟨members, rfl⟩ := exists_intersection hstrength
    cases htype with
    | intersection hmembers hmany =>
        rw [placed_of_le (Nat.le_refl 2), toList_intersection] at hlength ⊢
        have hparts := length_placed_le hlength
        rw [asReferences, ← groupOf_asReferencesEach intersection hmany]
        exact gives_members intersection hsep hmembers
          (fun member hmember => gives_arrays hreader (hmembers member hmember)
            (hparts member hmember)) (List.ne_nil_of_length_pos (by omega))
  · exact gives_single intersection hsep htype hstrength (gives_arrays hreader htype) hlength

theorem gives_union (hreader : ReadsBelow reader n) (htype : type.Expressible)
    (hlength : (placed 1 type).length ≤ n) :
    Gives (readUnionWith reader) typeMarks (placed 1 type) type.asReferences := by
  have hsep : Separates "|" '|' [' ', '|', ' '] ['&', '[', '<'] :=
    separates_blank rfl (by decide) (by decide)
  by_cases hstrength : type.strength = 1
  · obtain ⟨members, rfl⟩ := exists_union hstrength
    cases htype with
    | union hmembers hmany =>
        rw [placed_of_le (Nat.le_refl 1), toList_union] at hlength ⊢
        have hparts := length_placed_le hlength
        rw [asReferences, ← groupOf_asReferencesEach union hmany]
        exact gives_members union hsep hmembers
          (fun member hmember => gives_intersection hreader (hmembers member hmember)
            (hparts member hmember)) (List.ne_nil_of_length_pos (by omega))
  · exact gives_single union hsep htype hstrength (gives_intersection hreader htype) hlength

/-! ### Function types -/

/-- What is behind the name of a parameter. -/
theorem head_behind_name (question : Bool) (cs : List Char) :
    ∃ c rest, mark "?" question ++ ':' :: cs = c :: rest ∧ Text.isNameRest c = false
      ∧ c.isWhitespace = false ∧ (c = '?' ∨ c = ':') := by
  cases question with
  | true => exact ⟨_, _, rfl, by decide, by decide, .inl rfl⟩
  | false => exact ⟨_, _, rfl, by decide, by decide, .inr rfl⟩

section Parameters

variable {param : String}

theorem IsParameter.parts (h : IsParameter param) : ∃ dots word question type,
    Text.isIdentifier word = true ∧ Expressible type ∧ param.toList = mark "..." dots
      ++ (word.toList ++ (mark "?" question ++ ':' :: ' ' :: type.text.toList)) := by
  cases h with
  | required hname htype => exact ⟨false, _, false, _, hname, htype, by simp [mark]⟩
  | optional hname htype => exact ⟨false, _, true, _, hname, htype, by simp [mark]⟩
  | variadic hname htype => exact ⟨true, _, false, _, hname, htype, by simp [mark]⟩

/-- A parameter begins with something else than a blank or a closing parenthesis. -/
theorem IsParameter.head (h : IsParameter param) :
    ∃ c cs, param.toList = c :: cs ∧ c.isWhitespace = false ∧ c ≠ ')' := by
  obtain ⟨dots, word, question, type, hword, -, hparam⟩ := h.parts
  cases dots with
  | true => exact ⟨_, _, hparam, by decide, by decide⟩
  | false =>
      obtain ⟨c, cs, hlist, hc⟩ := head_of_isIdentifier hword
      rw [hlist] at hparam
      refine ⟨c, _, hparam, not_isWhitespace_of_isNameRest hc, ?_⟩
      exact ne_of_apply_ne Text.isNameRest (by rw [hc]; decide)

theorem IsParameter.beginsParameters (h : IsParameter param) (rest : List Char) :
    beginsParameters (param.toList ++ rest) = true := by
  obtain ⟨dots, word, question, type, hword, -, hparam⟩ := h.parts
  obtain ⟨c, cs, hlist, hname, hblank, hc⟩ :=
    head_behind_name question (' ' :: type.text.toList)
  rw [hparam, hlist]
  cases dots with
  | true => rfl
  | false =>
      have hlist : mark "..." false ++ (word.toList ++ c :: cs) ++ rest
          = word.toList ++ c :: (cs ++ rest) := by simp [mark]
      rw [hlist, TypeExpr.beginsParameters, (solid_of_isIdentifier hword).pastBlanks,
        dropWhile_name hword (by rintro _ ⟨⟩; exact hname), pastBlanks_cons hblank]
      rcases hc with rfl | rfl <;> exact Bool.or_true _

theorem readTyped_eq {dots question : Bool} {word : String} (hword : Text.isIdentifier word = true)
    (hsolid : Solid type.text.toList)
    (htype : Gives reader typeMarks type.text.toList type.asReferences)
    (hinput : pastBlanks input = mark "..." dots
      ++ (word.toList ++ (mark "?" question ++ ':' :: ' ' :: (type.text.toList ++ rest))))
    (hrest : Ends typeMarks rest) :
    readTypedWith reader input = some (type.asReferences, rest) := by
  obtain ⟨d, ds, hlist, hd⟩ := head_of_isIdentifier hword
  have hnoDot : (word.toList ++ (mark "?" question
      ++ ':' :: ' ' :: (type.text.toList ++ rest))).head? ≠ some '.' := by
    rw [hlist]
    rintro ⟨⟩
    exact absurd hd (by decide)
  obtain ⟨c, cs, hbehind, hname, hblank, -⟩ :=
    head_behind_name question (' ' :: (type.text.toList ++ rest))
  obtain ⟨behindDots, hdots, hinput⟩ := eat_mark (c := '.') rfl hinput
    ((solid_of_isIdentifier hword).pastBlanks _) hnoDot
  have hnext : name behindDots = some (word, c :: cs) :=
    name_eq hword (by rintro _ ⟨⟩; exact hname) (hbehind ▸ hinput)
  obtain ⟨behindQuestion, hquestion, hinput⟩ := eat_mark (c := '?') rfl
    ((pastBlanks_cons hblank).trans hbehind.symm) (pastBlanks_cons (by decide)) (by rintro ⟨⟩)
  have hcolon : expect ":" behindQuestion = some ((), ' ' :: (type.text.toList ++ rest)) :=
    expect_eq hinput
  rw [readTypedWith, bind_eq hdots, bind_eq hnext, bind_eq hquestion, bind_eq hcolon]
  exact htype _ rest (hsolid.pastBlanks rest) hrest

theorem gives_parameter (hreader : ReadsBelow reader n) (hparam : IsParameter param)
    (hlength : param.length ≤ n) :
    Gives (readParameterWith reader) typeMarks param.toList param := by
  intro input rest hinput hrest
  obtain ⟨dots, word, question, type, hword, htype, htext⟩ := hparam.parts
  have hshorter : type.text.length < n := by
    have htotal := congrArg List.length htext
    simp only [List.length_append, List.length_cons, String.length_toList] at htotal
    omega
  have hsplit : param.toList ++ rest = mark "..." dots
      ++ (word.toList ++ (mark "?" question ++ ':' :: ' ' :: (type.text.toList ++ rest))) := by
    simp [htext]
  obtain ⟨c, cs, hlist, hblank, -⟩ := hparam.head
  have hsolid : Solid param.toList := ⟨c, hlist ▸ rfl, hblank⟩
  have hread : readTypedWith reader (param.toList ++ rest) = some (type.asReferences, rest) :=
    readTyped_eq hword htype.solid (hreader type htype hshorter)
      ((hsolid.pastBlanks rest).trans hsplit) hrest
  rw [readParameterWith, written_eq hread hinput, String.ofList_toList]

end Parameters

theorem gives_function (hreader : ReadsBelow reader n) {params : List String} {result : TypeExpr}
    (hparams : ∀ param ∈ params, IsParameter param) (hresult : result.Expressible)
    (hlength : (function params result).text.length ≤ n) :
    Gives (readFunctionWith reader) typeMarks (function params result).text.toList
      (function params result).asReferences := by
  intro input rest hinput hrest
  rw [toList_function, List.cons_append, List.append_assoc] at hinput
  rw [← String.length_toList, toList_function] at hlength
  simp only [List.length_append, List.length_cons, String.length_toList] at hlength
  have hopen : expect "(" input = some ((), [',', ' '].intercalate (params.map String.toList)
      ++ ')' :: ' ' :: '=' :: '>' :: ' ' :: (result.text.toList ++ rest)) := expect_eq hinput
  have hitems : List.Forall₂ (Gives (readParameterWith reader) typeMarks)
      (params.map String.toList) params := by
    rw [List.forall₂_map_left_iff, List.forall₂_same]
    intro param hmem
    have hle : param.toList.length ≤ ([',', ' '].intercalate (params.map String.toList)).length :=
      length_le_of_mem (List.mem_map_of_mem hmem)
    rw [String.length_toList] at hle
    exact gives_parameter hreader (hparams param hmem) (by omega)
  have hstart : ∀ text ∈ params.map String.toList, Solid text ∧ text.head? ≠ some ')' := by
    refine List.forall_mem_map.2 fun param hmem => ?_
    obtain ⟨c, cs, hlist, hblank, hclose⟩ := (hparams param hmem).head
    rw [hlist]
    exact ⟨⟨c, rfl, hblank⟩, by simpa using hclose⟩
  have hread : listUpTo ")" (readParameterWith reader)
      ([',', ' '].intercalate (params.map String.toList)
        ++ ')' :: ' ' :: '=' :: '>' :: ' ' :: (result.text.toList ++ rest))
        = some (params, ' ' :: '=' :: '>' :: ' ' :: (result.text.toList ++ rest)) :=
    listUpTo_eq rfl (by decide) (fun _ => .cons (by decide) (by decide) (by decide)) (by decide)
      hitems hstart
  have harrow : expect "=>" (' ' :: '=' :: '>' :: ' ' :: (result.text.toList ++ rest))
      = some ((), ' ' :: (result.text.toList ++ rest)) := expect_eq rfl
  have hresult := hreader result hresult (by omega) (' ' :: (result.text.toList ++ rest)) rest
    (hresult.solid.pastBlanks rest) hrest
  rw [readFunctionWith, bind_eq hopen, bind_eq hread, bind_eq harrow, bind_eq hresult]
  rfl

theorem beginsFunction_function {params : List String}
    (hparams : ∀ param ∈ params, IsParameter param) (result : TypeExpr) (rest : List Char) :
    beginsFunction ((function params result).text.toList ++ rest) = true := by
  rw [toList_function, List.cons_append, List.append_assoc]
  cases params with
  | nil => rfl
  | cons first params =>
      have hfirst := hparams first List.mem_cons_self
      rw [beginsFunction, List.map_cons]
      cases params with
      | nil =>
          rw [List.map_nil, List.intercalate_singleton]
          exact hfirst.beginsParameters _
      | cons second params =>
          rw [List.map_cons, List.intercalate_cons_cons, List.append_assoc, List.append_assoc]
          exact hfirst.beginsParameters _

/-! ### Whole types -/

/-- One more level of the reader reads the types that are one character longer. -/
theorem gives_with (hreader : ReadsBelow reader n) (htype : type.Expressible)
    (hlength : type.text.length ≤ n) :
    Gives (readWith reader) typeMarks type.text.toList type.asReferences := by
  intro input rest hinput hrest
  have hlook : look beginsFunction input
      = some (beginsFunction (type.text.toList ++ rest), input) := by
    rw [look_eq, hinput]
  -- A function type shows by its first parameter; all others begin as `opens` says.
  by_cases hstrength : type.strength = 0
  · obtain ⟨params, result, rfl⟩ := exists_function hstrength
    cases htype with
    | function hparams hresult =>
        rw [beginsFunction_function hparams] at hlook
        rw [readWith, bind_eq hlook, if_pos rfl]
        exact gives_function hreader hparams hresult hlength input rest hinput hrest
  · have hplaced : placed 1 type = type.text.toList := placed_of_le (Nat.pos_of_ne_zero hstrength)
    rw [← hplaced] at hinput
    rw [← String.length_toList, ← hplaced] at hlength
    rw [(opens htype hstrength (hrest.mono (by simp))).beginsFunction] at hlook
    rw [readWith, bind_eq hlook, if_neg (by decide)]
    exact gives_union hreader htype hlength input rest hinput hrest

theorem readsBelow_readAt (depth : Nat) : ReadsBelow (readAt depth) depth := by
  induction depth with
  | zero => exact fun _ _ hlength => absurd hlength (Nat.not_lt_zero _)
  | succ depth ih =>
      exact fun type htype hlength => gives_with ih htype (Nat.le_of_lt_succ hlength)

end Productions

theorem read?_text (htype : type.Expressible) : read? type.text = some type.asReferences := by
  have hinput : pastBlanks type.text.toList = type.text.toList ++ [] := by
    have hsolid := htype.solid.pastBlanks []
    rwa [List.append_nil] at hsolid ⊢
  have hread := readsBelow_readAt (type.text.length + 1) type htype (Nat.lt_succ_self _) _ []
    hinput .nil
  rw [read?, hread]
  rfl

/-- The text of a type expression is read as the expression itself, up to keywords and references.
So two expressions with the same text are equal up to these. -/
theorem read?_text_unique (htype : type.Expressible) :
    read? type.text = some type.asReferences ∧
      ∀ other : TypeExpr, other.Expressible → other.text = type.text →
        other.asReferences = type.asReferences := by
  refine ⟨read?_text htype, fun other hother htext => ?_⟩
  have hread := read?_text hother
  rw [htext, read?_text htype] at hread
  exact (Option.some.inj hread).symm

theorem read?_text_unique_nested : ∃ type : TypeExpr, type.Expressible
    ∧ type.text = "(A & (B | string)[] | ((x: any, y?: \"\\\"\", ...rest: [C, D]) => void))[]"
    ∧ read? type.text = some type.asReferences ∧ type.asReferences ≠ type
    ∧ ∀ other : TypeExpr, other.Expressible → other.text = type.text →
      other.asReferences = type.asReferences := by
  have hpair {a b : TypeExpr} (ha : a.Expressible) (hb : b.Expressible) :
      ∀ type ∈ [a, b], type.Expressible :=
    List.forall_mem_cons.2 ⟨ha, List.forall_mem_singleton.2 hb⟩
  have hrequired : IsParameter ("x" ++ ": " ++ (keyword "any").text) :=
    .required (by decide) (.keyword (by decide))
  have hoptional : IsParameter ("y" ++ "?: " ++ (stringLiteral (Text.quote "\"")).text) :=
    .optional (by decide) (.stringLiteral "\"")
  have hvariadic : IsParameter
      ("..." ++ "rest" ++ ": " ++ (tuple [reference "C", reference "D"]).text) :=
    .variadic (by decide) (.tuple (hpair (.reference (by decide)) (.reference (by decide))))
  have hfunction := Expressible.function (List.forall_mem_cons.2
    ⟨hrequired, List.forall_mem_cons.2 ⟨hoptional, List.forall_mem_singleton.2 hvariadic⟩⟩)
    (.keyword (by decide : Text.isIdentifier "void" = true))
  have hunion : Expressible (union [reference "B", keyword "string"]) :=
    .union (hpair (.reference (by decide)) (.keyword (by decide))) (by decide)
  have hintersection : Expressible
      (intersection [reference "A", array (union [reference "B", keyword "string"])]) :=
    .intersection (hpair (.reference (by decide)) (.array hunion)) (by decide)
  have htype := Expressible.array (.union (hpair hintersection hfunction) (by decide))
  obtain ⟨hread, hunique⟩ := read?_text_unique htype
  exact ⟨_, htype, by decide, hread, by decide, hunique⟩

end TypeExpr

end IdlBindings
