import IdlBindings.Declaration.Mapping
import IdlBindings.Proofs.Declaration.Reader
import IdlBindings.Proofs.Text.Identifier

/-!
The parameters in a line of a declaration. A reader goes through the line and takes for the name of
a parameter what stands before a colon inside parentheses or brackets (`Text.parameterNames`).
-/

namespace IdlBindings

namespace Text

/-- Where in a line a character stands. -/
inductive Place where
  | code
  /-- In a string literal. -/
  | literal
  /-- In a string literal, behind a backslash. -/
  | escape
  deriving DecidableEq

/-- How far a line has been read. -/
structure Scan where
  place : Place
  /-- How many parentheses and brackets are open. -/
  depth : Nat
  /-- What stands behind the last mark, without the blanks at its beginning. -/
  word : List Char
  /-- The names of parameters. -/
  names : List String

namespace Scan

def start : Scan := ⟨.code, 0, [], []⟩

/-- The name of the parameter before a colon. The dots of a parameter that takes more arguments and
the question mark of an optional one are no part of it. -/
def nameOf (word : List Char) : String :=
  let name := (dropWord "..." (String.ofList word)).toList
  String.ofList (if name.getLast? = some '?' then name.dropLast else name)

/-- What a colon gives a type to: a parameter inside parentheses or brackets, else a property. -/
def bound (s : Scan) : List String :=
  if 0 < s.depth then [nameOf s.word] else []

def step (s : Scan) (c : Char) : Scan :=
  match s.place with
  | .escape => { s with place := .literal }
  | .literal =>
    if c = '\\' then { s with place := .escape }
    else if c = '"' then { s with place := .code }
    else s
  | .code =>
    if c = '"' then { s with place := .literal, word := s.word ++ [c] }
    else if c = ':' then { s with word := [], names := s.names ++ s.bound }
    else if c = '(' ∨ c = '[' then { s with depth := s.depth + 1, word := [] }
    else if c = ')' ∨ c = ']' then { s with depth := s.depth - 1, word := [] }
    else if c = ',' ∨ c = ';' then { s with word := [] }
    else if c = ' ' ∧ s.word = [] then s
    else { s with word := s.word ++ [c] }

def read (s : Scan) (text : String) : Scan := text.toList.foldl step s

theorem read_append (s : Scan) (first second : String) :
    s.read (first ++ second) = (s.read first).read second := by
  rw [read, String.toList_append, List.foldl_append]
  rfl

end Scan

/-- The names that a line gives to parameters, in their order. -/
def parameterNames (line : String) : List String := (Scan.start.read line).names

example : parameterNames "f(a: (x | y)[], ...b-c?: string): \"d: e\";" = ["a", "b-c"] := by decide

/-! ### Texts without parameters -/

/-- The characters that begin a string literal, give a type or are brackets. -/
def marks : List Char := ['"', ':', '(', ')', '[', ']']

def isMark (c : Char) : Bool := marks.contains c

def Unmarked (text : String) : Prop := ∀ c ∈ text.toList, isMark c = false

instance : DecidablePred Unmarked := fun text =>
  decidable_of_iff (text.toList.any isMark = false) (by simp [Unmarked])

theorem unmarked_of_all {p : Char → Bool} (hmarks : marks.any p = false) {text : String}
    (h : ∀ c ∈ text.toList, p c = true) : Unmarked text := by
  intro c hc
  rw [Bool.eq_false_iff]
  intro hmark
  exact List.any_eq_false.1 hmarks c (List.contains_iff_mem.1 hmark) (h c hc)

/-- The text leaves no trace but in the word that is being read: it has no parameters, and what is
opened in it is closed again. -/
def Quiet (text : String) : Prop :=
  ∀ depth word names, ∃ word',
    (Scan.mk .code depth word names).read text = ⟨.code, depth, word', names⟩

/-- The text has no parameters if no bracket is open before it. -/
def Silent (text : String) : Prop :=
  ∀ word names, ((Scan.mk .code 0 word names).read text).names = names

variable {first second text type : String}

theorem Scan.step_of_not_isMark {c : Char} (h : isMark c = false) (depth : Nat) (word : List Char)
    (names : List String) :
    ∃ word', (Scan.mk .code depth word names).step c = ⟨.code, depth, word', names⟩ := by
  have hne : ∀ d ∈ marks, c ≠ d := by
    rintro d hd rfl
    rw [isMark, List.contains_iff_mem.2 hd] at h
    cases h
  simp only [marks, List.forall_mem_cons] at hne
  obtain ⟨hquote, hcolon, hopen, hclose, hopen', hclose', -⟩ := hne
  simp only [step, hquote, hcolon, hopen, hclose, hopen', hclose', if_false, or_self]
  split
  · exact ⟨[], rfl⟩
  split
  · exact ⟨word, rfl⟩
  · exact ⟨word ++ [c], rfl⟩

theorem quiet_empty : Quiet "" := fun _ word _ => ⟨word, rfl⟩

theorem Quiet.append (hfirst : Quiet first) (hsecond : Quiet second) : Quiet (first ++ second) := by
  intro depth word names
  obtain ⟨word', hword'⟩ := hfirst depth word names
  rw [Scan.read_append, hword']
  exact hsecond depth word' names

theorem Scan.foldl_of_unmarked {cs : List Char} (h : ∀ c ∈ cs, isMark c = false) (depth : Nat)
    (word : List Char) (names : List String) :
    ∃ word', cs.foldl step ⟨.code, depth, word, names⟩ = ⟨.code, depth, word', names⟩ := by
  induction cs generalizing word with
  | nil => exact ⟨word, rfl⟩
  | cons c cs ih =>
      obtain ⟨hc, hcs⟩ := List.forall_mem_cons.1 h
      obtain ⟨word', hword'⟩ := Scan.step_of_not_isMark hc depth word names
      rw [List.foldl_cons, hword']
      exact ih hcs word'

theorem Unmarked.quiet (h : Unmarked text) : Quiet text := Scan.foldl_of_unmarked h

/-- What opens a list of parameters, with what closes it. -/
def brackets : List (String × String) := [("(", ")"), ("[", "]")]

section Brackets

variable {opening closing : String} (hpair : (opening, closing) ∈ brackets) (depth : Nat)
  (word : List Char) (names : List String)

include hpair

theorem Scan.read_opening :
    (Scan.mk .code depth word names).read opening = ⟨.code, depth + 1, [], names⟩ := by
  simp only [brackets, List.mem_cons, Prod.mk.injEq, List.not_mem_nil, or_false] at hpair
  rcases hpair with ⟨rfl, -⟩ | ⟨rfl, -⟩ <;> rfl

theorem Scan.read_closing :
    (Scan.mk .code (depth + 1) word names).read closing = ⟨.code, depth, [], names⟩ := by
  simp only [brackets, List.mem_cons, Prod.mk.injEq, List.not_mem_nil, or_false] at hpair
  rcases hpair with ⟨-, rfl⟩ | ⟨-, rfl⟩ <;> rfl

omit depth word names in
theorem Quiet.enclose (h : Quiet text) : Quiet (opening ++ text ++ closing) := by
  intro depth word names
  obtain ⟨word', hword'⟩ := h (depth + 1) [] names
  refine ⟨[], ?_⟩
  rw [Scan.read_append, Scan.read_append, Scan.read_opening hpair, hword',
    Scan.read_closing hpair]

end Brackets

theorem Quiet.intercalate {separator : String} (hseparator : Quiet separator) {texts : List String}
    (h : ∀ text ∈ texts, Quiet text) : Quiet (separator.intercalate texts) := by
  induction texts with
  | nil => exact quiet_empty
  | cons text texts ih =>
      obtain ⟨htext, htexts⟩ := List.forall_mem_cons.1 h
      cases texts with
      | nil => rwa [String.intercalate_singleton]
      | cons next more =>
          rw [String.intercalate_cons_cons]
          exact (htext.append hseparator).append (ih htexts)

/-- In a string literal, what is escaped is passed over. -/
theorem Scan.foldl_escape (depth : Nat) (word : List Char) (names : List String)
    (content : List Char) :
    (content.flatMap Text.escape).foldl step ⟨.literal, depth, word, names⟩
      = ⟨.literal, depth, word, names⟩ := by
  induction content with
  | nil => rfl
  | cons c cs ih =>
      have hc : (Text.escape c).foldl step ⟨.literal, depth, word, names⟩
          = ⟨.literal, depth, word, names⟩ := by
        unfold Text.escape
        split
        · rfl
        · rfl
        · rfl
        · rename_i hquote hslash _
          rw [List.foldl_cons, List.foldl_nil, step, if_neg hslash, if_neg hquote]
      rw [List.flatMap_cons, List.foldl_append, hc, ih]

theorem quiet_quote (text : String) : Quiet (quote text) := by
  intro depth word names
  have hcontent : (Scan.mk .literal depth (word ++ ['"']) names).read
      (String.ofList (text.toList.flatMap escape))
      = ⟨.literal, depth, word ++ ['"'], names⟩ := by
    rw [Scan.read, String.toList_ofList]
    exact Scan.foldl_escape ..
  have hopen : (Scan.mk .code depth word names).read "\""
      = ⟨.literal, depth, word ++ ['"'], names⟩ := rfl
  exact ⟨word ++ ['"'], by rw [quote, Scan.read_append, Scan.read_append, hopen, hcontent]; rfl⟩

theorem unmarked_of_isIdentifier (h : isIdentifier text = true) : Unmarked text :=
  unmarked_of_all (by decide) (all_of_isIdentifier h)

theorem quiet_propertyName (name : String) : Quiet (propertyName name) := by
  unfold propertyName
  split
  · exact (unmarked_of_isIdentifier ‹_›).quiet
  · exact quiet_quote name

theorem Quiet.silent (h : Quiet text) : Silent text := by
  intro word names
  obtain ⟨word', hword'⟩ := h 0 word names
  rw [hword']

theorem Quiet.append_silent (hfirst : Quiet first) (hsecond : Silent second) :
    Silent (first ++ second) := by
  intro word names
  obtain ⟨word', hword'⟩ := hfirst 0 word names
  rw [Scan.read_append, hword']
  exact hsecond word' names

/-- A colon outside of all brackets stands behind a property. -/
theorem Quiet.silent_colon (h : Quiet text) : Silent (": " ++ text) := by
  intro word names
  have hcolon : (Scan.mk .code 0 word names).read ": " = ⟨.code, 0, [], names⟩ := by
    change Scan.mk .code 0 [] (names ++ []) = _
    rw [List.append_nil]
  rw [Scan.read_append, hcolon]
  exact h.silent [] names

theorem parameterNames_of_silent (h : Silent text) : parameterNames text = [] := h [] []

/-! ### Parameters -/

/-- Behind an opening bracket or a comma, the text is a parameter of this name. -/
def Binds (text name : String) : Prop :=
  ∀ depth names, ∃ word, (Scan.mk .code (depth + 1) [] names).read text
    = ⟨.code, depth + 1, word, names ++ [name]⟩

/-- What a parameter may have before its colon. -/
def isNamePart (c : Char) : Bool :=
  isNameRest c || c == '.' || c == '?'

theorem Scan.foldl_of_isNamePart {cs : List Char} (h : ∀ c ∈ cs, isNamePart c = true) (depth : Nat)
    (word : List Char) (names : List String) :
    cs.foldl step ⟨.code, depth, word, names⟩ = ⟨.code, depth, word ++ cs, names⟩ := by
  induction cs generalizing word with
  | nil => rw [List.append_nil]; rfl
  | cons c cs ih =>
      obtain ⟨hc, hcs⟩ := List.forall_mem_cons.1 h
      have hplain : ['"', ':', '(', '[', ')', ']', ',', ';', ' '].any isNamePart = false := by
        decide
      have hne : ∀ d ∈ ['"', ':', '(', '[', ')', ']', ',', ';', ' '], c ≠ d := by
        rintro d hd rfl
        exact List.any_eq_false.1 hplain c hd hc
      have hstep : (Scan.mk .code depth word names).step c
          = ⟨.code, depth, word ++ [c], names⟩ := by
        simp only [List.forall_mem_cons] at hne
        simp [step, hne]
      rw [List.foldl_cons, hstep, ih hcs, List.append_assoc, List.singleton_append]

section Names

variable {name dots : String} (hname : isIdentifier name = true) (hdots : dots ∈ ["", "..."])

include hname hdots

theorem Scan.nameOf_eq {question : String} (hquestion : question ∈ ["", "?"]) :
    nameOf (dots ++ name ++ question).toList = name := by
  have hchars := all_of_isIdentifier hname
  have hlast : name.toList.getLast? ≠ some '?' := fun h =>
    absurd (hchars '?' (List.mem_of_getLast? h)) (by decide)
  have hundotted : dropWord "..." (dots ++ (name ++ question)) = name ++ question := by
    simp only [List.mem_cons, List.not_mem_nil, or_false] at hdots
    rcases hdots with rfl | rfl
    · -- no dots to drop, since a name does not begin with one
      rw [String.empty_append]
      apply dropWord_of_head
      obtain ⟨c, cs, hcs, hc⟩ := TextReader.head_of_isIdentifier hname
      rw [String.toList_append, hcs]
      rintro ⟨⟩
      exact absurd hc (by decide)
    · exact dropWord_append ..
  rw [nameOf, String.ofList_toList, String.append_assoc, hundotted]
  simp only [List.mem_cons, List.not_mem_nil, or_false] at hquestion
  rcases hquestion with rfl | rfl
  · rw [String.append_empty]
    simp only [hlast, if_false, String.ofList_toList]
  · simp

/-- A name that can stand bare, with its marks and a type. -/
theorem binds_of_isIdentifier {mark : String} (hmark : mark ∈ [": ", "?: "]) (htype : Quiet type) :
    Binds (dots ++ name ++ mark ++ type) name := by
  intro depth names
  obtain ⟨question, hquestion, rfl⟩ : ∃ question ∈ ["", "?"], mark = question ++ ": " := by
    simp only [List.mem_cons, List.not_mem_nil, or_false] at hmark
    rcases hmark with rfl | rfl
    · exact ⟨"", by decide, rfl⟩
    · exact ⟨"?", by decide, rfl⟩
  have hparts : ∀ c ∈ (dots ++ name ++ question).toList, isNamePart c = true := by
    have hdotsParts : ∀ dots ∈ ["", "..."], dots.toList.all isNamePart = true := by decide
    have hquestionParts : ∀ mark ∈ ["", "?"], mark.toList.all isNamePart = true := by decide
    rw [String.toList_append, String.toList_append, List.forall_mem_append,
      List.forall_mem_append]
    refine ⟨⟨List.all_eq_true.1 (hdotsParts dots hdots), fun c hc => ?_⟩,
      List.all_eq_true.1 (hquestionParts question hquestion)⟩
    rw [isNamePart, all_of_isIdentifier hname c hc, Bool.true_or, Bool.true_or]
  have hword : (Scan.mk .code (depth + 1) [] names).read (dots ++ name ++ question)
      = ⟨.code, depth + 1, (dots ++ name ++ question).toList, names⟩ :=
    Scan.foldl_of_isNamePart hparts ..
  have hcolon : (Scan.mk .code (depth + 1) (dots ++ name ++ question).toList names).read ": "
      = ⟨.code, depth + 1, [], names ++ [name]⟩ := by
    conv_rhs => rw [← Scan.nameOf_eq hname hdots hquestion]
    rfl
  obtain ⟨word, hread⟩ := htype (depth + 1) [] (names ++ [name])
  refine ⟨word, ?_⟩
  rw [← String.append_assoc, Scan.read_append, Scan.read_append, hword, hcolon, hread]

end Names

/-- Parameters with commas between, in parentheses. -/
theorem Scan.read_list {texts names : List String} (h : List.Forall₂ Binds texts names)
    (depth : Nat) (before : List String) :
    ∃ word, (Scan.mk .code (depth + 1) [] before).read (", ".intercalate texts)
      = ⟨.code, depth + 1, word, before ++ names⟩ := by
  induction h generalizing before with
  | nil => exact ⟨[], by simp [Scan.read]⟩
  | cons hfirst hmore ih =>
      rename_i text name texts names
      obtain ⟨word, hword⟩ := hfirst depth before
      cases texts with
      | nil =>
          cases hmore
          exact ⟨word, by rw [String.intercalate_singleton, hword]⟩
      | cons next texts =>
          -- the comma empties the word, so the next parameter begins as the first one does
          have hcomma : (Scan.mk .code (depth + 1) word (before ++ [name])).read ", "
              = ⟨.code, depth + 1, [], before ++ [name]⟩ := rfl
          obtain ⟨word', hword'⟩ := ih (before ++ [name])
          refine ⟨word', ?_⟩
          rw [String.intercalate_cons_cons, Scan.read_append, Scan.read_append, hword, hcomma,
            hword', List.append_assoc, List.singleton_append]

/-- The names of the parameters between parentheses or brackets are read. -/
theorem parameterNames_list (hfirst : Quiet first) {opening closing : String}
    (hpair : (opening, closing) ∈ brackets) {texts names : List String}
    (h : List.Forall₂ Binds texts names) (hsecond : Silent second) :
    parameterNames (first ++ (opening ++ (", ".intercalate texts ++ (closing ++ second))))
      = names := by
  obtain ⟨word, hword⟩ := hfirst 0 [] []
  obtain ⟨word', hword'⟩ := Scan.read_list h 0 []
  simp only [parameterNames, Scan.start, Scan.read_append, hword, Scan.read_opening hpair, hword',
    Scan.read_closing hpair]
  exact hsecond [] names

end Text

open Text

/-! ### Types -/

/-- The names that the type refers to have no marks. -/
def IdlType.Unmarked (type : IdlType) : Prop := ∀ name ∈ type.references, Text.Unmarked name

namespace TypeExpr

/-- The type is made of words without marks, and of string literals. -/
inductive Unmarked : TypeExpr → Prop
  | keyword {word : String} (hword : Text.Unmarked word) : Unmarked (.keyword word)
  | reference {name : String} (hname : Text.Unmarked name) : Unmarked (.reference name)
  | literal {source : String} (hsource : Text.Unmarked source) : Unmarked (.literal source)
  | stringLiteral (content : String) : Unmarked (.stringLiteral (quote content))
  | generic {name : String} {args : List TypeExpr} (hname : Text.Unmarked name)
      (hargs : ∀ arg ∈ args, Unmarked arg) : Unmarked (.generic name args)
  | array {item : TypeExpr} (hitem : Unmarked item) : Unmarked (.array item)
  | tuple {items : List TypeExpr} (hitems : ∀ item ∈ items, Unmarked item) :
      Unmarked (.tuple items)
  | union {members : List TypeExpr} (hmembers : ∀ member ∈ members, Unmarked member) :
      Unmarked (.union members)

variable {type : TypeExpr} {types : List TypeExpr}

theorem quiet_parenthesize {text : String} (h : Quiet text) (strength least : Nat) :
    Quiet (parenthesize strength least text) := by
  unfold parenthesize
  split
  · exact h.enclose (by decide)
  · exact h

theorem quiet_textsAt (h : ∀ type ∈ types, Quiet type.text) (least : Nat) :
    ∀ text ∈ textsAt least types, Quiet text := by
  induction types with
  | nil => simp [textsAt]
  | cons type rest ih =>
      obtain ⟨htype, hrest⟩ := List.forall_mem_cons.1 h
      rw [textsAt]
      exact List.forall_mem_cons.2 ⟨quiet_parenthesize htype _ _, ih hrest⟩

theorem Unmarked.quiet (h : type.Unmarked) : Quiet type.text := by
  have hcomma : Quiet ", " := Text.Unmarked.quiet (by decide)
  induction h with
  | keyword hword => exact hword.quiet
  | reference hname => exact hname.quiet
  | literal hsource => exact hsource.quiet
  | stringLiteral content => exact quiet_quote content
  | generic hname hargs ih =>
      have hopen : Quiet "<" := Text.Unmarked.quiet (by decide)
      have hclose : Quiet ">" := Text.Unmarked.quiet (by decide)
      rw [text]
      exact ((hname.quiet.append hopen).append (hcomma.intercalate (quiet_textsAt ih 0))).append
        hclose
  | array hitem ih =>
      rw [text]
      exact (quiet_parenthesize ih _ _).append (@Quiet.enclose "" "[" "]" (by decide) quiet_empty)
  | tuple hitems ih =>
      rw [text]
      exact (hcomma.intercalate (quiet_textsAt ih 0)).enclose (by decide)
  | union hmembers ih =>
      rw [text]
      exact (Text.Unmarked.quiet (by decide)).intercalate (quiet_textsAt ih 2)

theorem Unmarked.unionMembers (h : type.Unmarked) :
    ∀ member ∈ type.unionMembers, member.Unmarked := by
  cases h with
  | union hmembers => exact hmembers
  | _ => exact List.forall_mem_singleton.2 (by constructor <;> assumption)

theorem unmarked_unionOf (h : ∀ type ∈ types, type.Unmarked) : (unionOf types).Unmarked := by
  have hmembers : ∀ member ∈ (types.flatMap TypeExpr.unionMembers).eraseDups,
      member.Unmarked := by
    intro member hmember
    obtain ⟨type, htype, hmember⟩ := List.mem_flatMap.1 (List.mem_eraseDups.1 hmember)
    exact (h type htype).unionMembers member hmember
  unfold unionOf
  dsimp only
  split
  · exact .keyword (by decide)
  split
  · exact .keyword (by decide)
  · rename_i only honly
    exact hmembers only (honly ▸ List.mem_singleton_self only)
  · exact .union hmembers

theorem unmarked_ofPrimitive (p : Primitive) : (ofPrimitive p).Unmarked := by
  have hbuffer : Text.Unmarked p.text := by
    cases p <;> decide
  unfold ofPrimitive
  split
  · exact .keyword (by decide)
  split
  · exact .keyword (by decide)
  split
  · exact .reference hbuffer
  split <;> exact .keyword (by decide)

mutual

theorem unmarked_ofType (style : Style) : ∀ type : IdlType,
    type.Unmarked → (ofType style type).Unmarked
  | .primitive p, _ => unmarked_ofPrimitive p
  | .named name, h => .reference (h name (List.mem_singleton_self name))
  | .sequence item, h | .observableArray item, h => .array (unmarked_ofType style item h)
  | .frozenArray item, h => by
      have hitem := unmarked_ofType style item h
      rw [ofType]
      split
      · exact .generic (by decide) (List.forall_mem_singleton.2 hitem)
      · exact .array hitem
  | .record key value, h => by
      have hvalue := unmarked_ofType style value
        fun name hname => h name (List.mem_append_right key.references hname)
      exact .generic (by decide) (List.forall_mem_cons.2
        ⟨.keyword (by decide), List.forall_mem_singleton.2 hvalue⟩)
  | .promise result, h => by
      have hresult := unmarked_ofType style result h
      refine .generic (by decide) (List.forall_mem_singleton.2 ?_)
      split
      · exact .keyword (by decide)
      · exact hresult
  | .nullable inner, h => unmarked_unionOf (List.forall_mem_cons.2
      ⟨unmarked_ofType style inner h, List.forall_mem_singleton.2 (.keyword (by decide))⟩)
  | .union members, h => unmarked_unionOf (unmarked_ofTypes style members h)
  | .any, _ => .keyword (by decide)
  | .annotated _ inner, h => unmarked_ofType style inner h

theorem unmarked_ofTypes (style : Style) : ∀ types : List IdlType,
    (∀ name ∈ IdlType.referencesOfAll types, Text.Unmarked name) →
      ∀ type ∈ ofTypes style types, type.Unmarked
  | [], _ => List.forall_mem_nil _
  | type :: rest, h => List.forall_mem_cons.2
      ⟨unmarked_ofType style type fun name hname => h name (List.mem_append_left _ hname),
        unmarked_ofTypes style rest fun name hname => h name (List.mem_append_right _ hname)⟩

end

theorem unmarked_ofResult (style : Style) {type : IdlType} (h : type.Unmarked) :
    (ofResult style type).Unmarked := by
  unfold ofResult
  split
  · exact .keyword (by decide)
  · exact unmarked_ofType style type h

end TypeExpr

/-! ### Argument lists -/

/-- The names of the parameters that are written for arguments. -/
def Argument.parameterNames (args : List Argument) : List String :=
  args.map fun arg => Text.parameterName arg.name

/-- The types of the arguments name types without marks. -/
def Argument.TypesUnmarked (args : List Argument) : Prop :=
  ∀ arg ∈ args, arg.type.Unmarked

namespace Style

variable (style : Style) {args : List Argument}

theorem binds_parameter {arg : Argument} (h : arg.type.Unmarked) :
    Binds (style.parameter arg) (Text.parameterName arg.name) := by
  have hname := isIdentifier_parameterName arg.name
  have htype := TypeExpr.unmarked_ofType style arg.type h
  have hplain : "" ∈ ["", "..."] := by decide
  unfold parameter
  dsimp only
  split
  · exact binds_of_isIdentifier hname (by decide) (by decide) (TypeExpr.Unmarked.array htype).quiet
  split
  · have hbare := binds_of_isIdentifier hname hplain (by decide : "?: " ∈ _) htype.quiet
    rwa [String.empty_append] at hbare
  · have hbare := binds_of_isIdentifier hname hplain (by decide : ": " ∈ _) htype.quiet
    rwa [String.empty_append] at hbare

theorem binds_parameters (h : Argument.TypesUnmarked args) :
    List.Forall₂ Binds (style.parameters args) (Argument.parameterNames args) := by
  rw [parameters, Argument.parameterNames, List.forall₂_map_left_iff, List.forall₂_map_right_iff,
    List.forall₂_same]
  exact fun arg harg => style.binds_parameter (h arg harg)

end Style

end IdlBindings
