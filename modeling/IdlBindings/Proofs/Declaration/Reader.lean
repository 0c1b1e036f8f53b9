import IdlBindings.Proofs.Text.Key
import Mathlib.Data.List.Forall2

/-!
Readers of declaration text: symbols, names, string literals, and items with a symbol between
(`TextReader.separatedBy_eq`). Blanks before a token do not count.
-/

namespace IdlBindings

/-- Reads a part at the beginning of a text, and leaves what is behind it. -/
abbrev TextReader := StateT (List Char) Option

namespace TextReader

variable {α : Type}

/-- The text without the blanks at its beginning. -/
def pastBlanks (cs : List Char) : List Char :=
  cs.dropWhile Char.isWhitespace

/-- Look at what is next. -/
def look (test : List Char → Bool) : TextReader Bool := fun cs =>
  some (test (pastBlanks cs), cs)

/-- Read a symbol, if it is next. -/
def eat (symbol : String) : TextReader Bool := fun cs =>
  if symbol.toList.isPrefixOf (pastBlanks cs) then
    some (true, (pastBlanks cs).drop symbol.toList.length)
  else some (false, cs)

/-- Read a symbol, which has to be next. -/
def expect (symbol : String) : TextReader Unit := do
  guard (← eat symbol)

/-- Read a name. -/
def name : TextReader String := fun cs =>
  let word := String.ofList ((pastBlanks cs).takeWhile Text.isNameRest)
  if Text.isIdentifier word then some (word, (pastBlanks cs).dropWhile Text.isNameRest) else none

/-- Read the content of a string literal. -/
def stringContent : TextReader String := do
  expect "\""
  fun cs => (Text.readQuoted cs).map fun (content, rest) => (String.ofList content, rest)

/-- Read a part, and give its text. -/
def written (part : TextReader α) : TextReader String := fun cs =>
  (part (pastBlanks cs)).map fun (_, rest) =>
    (String.ofList ((pastBlanks cs).take ((pastBlanks cs).length - rest.length)), rest)

/-- Read one or more items with a symbol between, at most `limit` behind the first one. -/
def separatedUpTo (symbol : String) (item : TextReader α) : Nat → TextReader (List α)
  | 0 => return [← item]
  | limit + 1 => do
    let first ← item
    if ← eat symbol then
      let rest ← separatedUpTo symbol item limit
      return first :: rest
    else
      return [first]

/-- Read one or more items with a symbol between. Each symbol is a character at least, so their
number bounds the items. -/
def separatedBy (symbol : String) (item : TextReader α) : TextReader (List α) := fun cs =>
  separatedUpTo symbol item cs.length cs

/-- Read items with commas between up to a closing mark, perhaps none. -/
def listUpTo (close : String) (item : TextReader α) : TextReader (List α) := do
  if ← eat close then
    return []
  else
    let items ← separatedBy "," item
    expect close
    return items

/-! ### One step -/

variable {β : Type} {input middle rest cs : List Char} {symbol : String} {c : Char}

theorem bind_eq {r : TextReader α} {f : α → TextReader β} {a : α} (h : r input = some (a, middle)) :
    (r >>= f) input = f a middle := by
  change (r input).bind (fun result => f result.1 result.2) = _
  rw [h]
  rfl

theorem pastBlanks_cons (h : c.isWhitespace = false) : pastBlanks (c :: cs) = c :: cs :=
  List.dropWhile_cons_of_neg (by rw [h]; decide)

theorem pastBlanks_blank : pastBlanks (' ' :: cs) = pastBlanks cs :=
  rfl

theorem look_eq {test : List Char → Bool} :
    look test input = some (test (pastBlanks input), input) :=
  rfl

theorem eat_eq (h : pastBlanks input = symbol.toList ++ rest) :
    eat symbol input = some (true, rest) := by
  have hbegins : symbol.toList.isPrefixOf (pastBlanks input) = true := by
    rw [h, List.isPrefixOf_iff_prefix]
    exact List.prefix_append _ _
  rw [eat, if_pos hbegins, h, List.drop_left]

theorem eat_other (hsymbol : symbol.toList.head? = some c) (h : (pastBlanks input).head? ≠ some c) :
    eat symbol input = some (false, input) := by
  have hnot : ¬symbol.toList.isPrefixOf (pastBlanks input) = true := by
    rw [List.isPrefixOf_iff_prefix]
    rintro ⟨rest, hrest⟩
    rw [← hrest, List.head?_append, hsymbol] at h
    exact h rfl
  rw [eat, if_neg hnot]

/-- The symbol, if it is there. -/
def mark (symbol : String) (present : Bool) : List Char :=
  if present then symbol.toList else []

theorem eat_mark {present : Bool} (hsymbol : symbol.toList.head? = some c)
    (hinput : pastBlanks input = mark symbol present ++ rest) (hrest : pastBlanks rest = rest)
    (hhead : rest.head? ≠ some c) :
    ∃ behind, eat symbol input = some (present, behind) ∧ pastBlanks behind = rest := by
  cases present with
  | true => exact ⟨rest, eat_eq hinput, hrest⟩
  | false => exact ⟨input, eat_other hsymbol (hinput ▸ hhead), hinput⟩

theorem expect_eq (h : pastBlanks input = symbol.toList ++ rest) :
    expect symbol input = some ((), rest) := by
  rw [expect, bind_eq (eat_eq h)]
  rfl

/-- The text goes on with no name, and what is next is no mark of a parameter and none of the
marks. -/
def Ends (marks : List Char) (rest : List Char) : Prop :=
  (∀ c ∈ rest.head?, Text.isNameRest c = false) ∧
    ∀ c ∈ (pastBlanks rest).head?, c ∉ ':' :: '?' :: marks

variable {marks others : List Char}

theorem Ends.mono (h : Ends marks rest) (hsub : others ⊆ marks) : Ends others rest := by
  refine ⟨h.1, fun c hc hmem => h.2 c hc ?_⟩
  simp only [List.mem_cons] at hmem ⊢
  exact hmem.imp_right (Or.imp_right (@hsub c))

theorem Ends.nil : Ends marks [] :=
  ⟨by simp, by simp [pastBlanks]⟩

theorem Ends.cons (hname : Text.isNameRest c = false) (hblank : c.isWhitespace = false)
    (hc : c ∉ ':' :: '?' :: marks) : Ends marks (c :: cs) := by
  refine ⟨by simpa using hname, ?_⟩
  rw [pastBlanks_cons hblank]
  rintro _ ⟨⟩
  exact hc

theorem Ends.blank (hblank : c.isWhitespace = false) (hc : c ∉ ':' :: '?' :: marks) :
    Ends marks (' ' :: c :: cs) := by
  refine ⟨?_, ?_⟩
  · rintro _ ⟨⟩
    decide
  · rw [pastBlanks_blank, pastBlanks_cons hblank]
    rintro _ ⟨⟩
    exact hc

theorem Ends.head_ne (h : Ends marks rest) (hc : c ∈ ':' :: '?' :: marks) :
    (pastBlanks rest).head? ≠ some c :=
  fun hhead => h.2 c hhead hc

theorem not_isWhitespace_of_isNameRest (h : Text.isNameRest c = true) : c.isWhitespace = false := by
  rw [Bool.eq_false_iff]
  intro hblank
  simp only [Char.isWhitespace, decide_eq_true_eq, Bool.or_eq_true] at hblank
  rcases hblank with ((rfl | rfl) | rfl) | rfl <;> exact absurd h (by decide)

variable {word : String}

/-- The text begins with something else than a blank. -/
def Solid (text : List Char) : Prop := ∃ c ∈ text.head?, c.isWhitespace = false

theorem Solid.pastBlanks (h : Solid cs) (rest : List Char) :
    pastBlanks (cs ++ rest) = cs ++ rest := by
  obtain ⟨c, hc, hblank⟩ := h
  obtain ⟨cs, rfl⟩ := List.head?_eq_some_iff.1 hc
  exact pastBlanks_cons hblank

theorem head_of_isIdentifier (hword : Text.isIdentifier word = true) :
    ∃ c cs, word.toList = c :: cs ∧ Text.isNameRest c = true := by
  cases hlist : word.toList with
  | nil => simp [Text.isIdentifier, hlist] at hword
  | cons c cs =>
      exact ⟨c, cs, rfl, Text.all_of_isIdentifier hword c (hlist ▸ List.mem_cons_self)⟩

theorem solid_of_isIdentifier (hword : Text.isIdentifier word = true) : Solid word.toList := by
  obtain ⟨c, cs, hlist, hc⟩ := head_of_isIdentifier hword
  exact ⟨c, hlist ▸ rfl, not_isWhitespace_of_isNameRest hc⟩

theorem dropWhile_name (hword : Text.isIdentifier word = true)
    (hrest : ∀ c ∈ rest.head?, Text.isNameRest c = false) :
    (word.toList ++ rest).dropWhile Text.isNameRest = rest := by
  rw [List.dropWhile_append_of_pos (Text.all_of_isIdentifier hword)]
  cases rest with
  | nil => rfl
  | cons c cs => exact List.dropWhile_cons_of_neg (by simp [hrest c rfl])

theorem name_eq (hword : Text.isIdentifier word = true)
    (hrest : ∀ c ∈ rest.head?, Text.isNameRest c = false)
    (h : pastBlanks input = word.toList ++ rest) : name input = some (word, rest) := by
  have htake := Text.takeWhile_append_of_head (Text.all_of_isIdentifier hword) hrest
  rw [name, h, htake, String.ofList_toList, dropWhile_name hword hrest]
  exact if_pos hword

theorem stringContent_eq {content : String}
    (h : pastBlanks input = (Text.quote content).toList ++ rest) :
    stringContent input = some (content, rest) := by
  have htext : (Text.quote content).toList ++ rest
      = "\"".toList ++ (content.toList.flatMap Text.escape ++ '"' :: rest) := by
    simp [Text.quote]
  rw [stringContent, bind_eq (expect_eq (h.trans htext)), Text.readQuoted_escape]
  exact congrArg (fun content => some (content, rest)) String.ofList_toList

theorem written_eq {part : TextReader α} {a : α} {text : List Char}
    (h : part (text ++ rest) = some (a, rest)) (hinput : pastBlanks input = text ++ rest) :
    written part input = some (String.ofList text, rest) := by
  have htake : (text ++ rest).take ((text ++ rest).length - rest.length) = text := by
    rw [List.length_append, Nat.add_sub_cancel, List.take_left]
  rw [written, hinput, h, Option.map_some]
  dsimp only
  rw [htake]

/-- The reader gives the value for the text, in front of what ends that. -/
def Gives (item : TextReader α) (marks : List Char) (text : List Char) (value : α) : Prop :=
  ∀ input rest : List Char, pastBlanks input = text ++ rest → Ends marks rest →
    item input = some (value, rest)

theorem Solid.intercalate {between text : List Char} {texts : List (List Char)} (h : Solid text) :
    Solid (between.intercalate (text :: texts)) := by
  obtain ⟨c, hc, hblank⟩ := h
  refine ⟨c, ?_, hblank⟩
  obtain ⟨cs, rfl⟩ := List.head?_eq_some_iff.1 hc
  cases texts with
  | nil => rw [List.intercalate_singleton]; rfl
  | cons next texts => rw [List.intercalate_cons_cons]; rfl

/-- A symbol with what is written around it between two items: behind it, there is a blank. -/
structure Separates (symbol : String) (c : Char) (between marks : List Char) : Prop where
  isSymbol : symbol.toList = [c]
  isBetween : ∀ cs, pastBlanks (between ++ cs) = c :: ' ' :: cs
  ends : ∀ cs, Ends marks (between ++ cs)

variable {item : TextReader α} {between : List Char} {texts : List (List Char)} {values : List α}

theorem separatedUpTo_eq {limit : Nat} (hsep : Separates symbol c between marks)
    (hitems : List.Forall₂ (Gives item marks) texts values) (hstart : ∀ text ∈ texts, Solid text)
    (hne : texts ≠ []) (hlimit : texts.length ≤ limit + 1)
    (hinput : pastBlanks input = between.intercalate texts ++ rest)
    (hrest : Ends (c :: marks) rest) :
    separatedUpTo symbol item limit input = some (values, rest) := by
  induction hitems generalizing limit input with
  | nil => exact absurd rfl hne
  | cons hfirst hmore ih =>
      rename_i text value texts values
      cases hmore with
      | nil =>
          rw [List.intercalate_singleton] at hinput
          have hread := hfirst input rest hinput (hrest.mono (List.subset_cons_self _ _))
          have hstop : eat symbol rest = some (false, rest) :=
            eat_other (by rw [hsep.isSymbol]; rfl) (hrest.head_ne (by simp))
          cases limit with
          | zero =>
              rw [separatedUpTo, bind_eq hread]
              rfl
          | succ limit =>
              rw [separatedUpTo, bind_eq hread, bind_eq hstop]
              rfl
      | cons hsecond hmore =>
          rename_i next value' texts values
          rw [List.intercalate_cons_cons, List.append_assoc, List.append_assoc] at hinput
          have hread := hfirst input _ hinput (hsep.ends _)
          have hstart := (List.forall_mem_cons.1 hstart).2
          cases limit with
          | zero => simp at hlimit
          | succ limit =>
              have heat : eat symbol (between ++ (between.intercalate (next :: texts) ++ rest))
                  = some (true, ' ' :: (between.intercalate (next :: texts) ++ rest)) :=
                eat_eq (by rw [hsep.isBetween, hsep.isSymbol]; rfl)
              have hbehind : pastBlanks (' ' :: (between.intercalate (next :: texts) ++ rest))
                  = between.intercalate (next :: texts) ++ rest :=
                (hstart next List.mem_cons_self).intercalate.pastBlanks rest
              have hmore := ih hstart (List.cons_ne_nil _ _) (Nat.le_of_succ_le_succ hlimit) hbehind
              rw [separatedUpTo, bind_eq hread, bind_eq heat]
              exact bind_eq hmore

theorem length_le_intercalate (hbetween : between ≠ []) :
    texts.length ≤ (between.intercalate texts).length + 1 := by
  induction texts with
  | nil => exact Nat.zero_le _
  | cons text texts ih =>
      cases texts with
      | nil => exact Nat.le_add_left 1 _
      | cons next texts =>
          have hpos := List.length_pos_iff.2 hbetween
          rw [List.intercalate_cons_cons, List.length_append, List.length_append]
          simp only [List.length_cons] at ih ⊢
          omega

theorem length_pastBlanks_le (cs : List Char) : (pastBlanks cs).length ≤ cs.length :=
  (List.dropWhile_suffix _).length_le

/-- Items with a separator between are read one by one. -/
theorem separatedBy_eq (hsep : Separates symbol c between marks)
    (hitems : List.Forall₂ (Gives item marks) texts values) (hstart : ∀ text ∈ texts, Solid text)
    (hne : texts ≠ []) (hinput : pastBlanks input = between.intercalate texts ++ rest)
    (hrest : Ends (c :: marks) rest) :
    separatedBy symbol item input = some (values, rest) := by
  have hbetween : between ≠ [] := by
    rintro rfl
    exact absurd (hsep.isBetween []) (by simp [pastBlanks])
  have hnumber : texts.length ≤ (between.intercalate texts).length + 1 :=
    length_le_intercalate hbetween
  have hlength := length_pastBlanks_le input
  rw [hinput, List.length_append] at hlength
  exact separatedUpTo_eq hsep hitems hstart hne (by omega) hinput hrest

theorem separates_comma (h : ',' ∉ ':' :: '?' :: marks) : Separates "," ',' [',', ' '] marks :=
  ⟨rfl, fun _ => rfl, fun _ => .cons (by decide) (by decide) h⟩

theorem separates_blank (hsymbol : symbol.toList = [c]) (hblank : c.isWhitespace = false)
    (h : c ∉ ':' :: '?' :: marks) : Separates symbol c [' ', c, ' '] marks where
  isSymbol := hsymbol
  isBetween := fun cs => by
    rw [List.cons_append, pastBlanks_blank]
    exact pastBlanks_cons hblank
  ends := fun _ => .blank hblank h

theorem listUpTo_eq {close : String} (hclose : close.toList = [c]) (hblank : c.isWhitespace = false)
    (hends : ∀ cs, Ends (',' :: marks) (c :: cs)) (hcomma : ',' ∉ ':' :: '?' :: marks)
    (hitems : List.Forall₂ (Gives item marks) texts values)
    (hstart : ∀ text ∈ texts, Solid text ∧ text.head? ≠ some c) :
    listUpTo close item ([',', ' '].intercalate texts ++ c :: rest) = some (values, rest) := by
  have hexpect : expect close (c :: rest) = some ((), rest) :=
    expect_eq (by rw [pastBlanks_cons hblank, hclose]; rfl)
  cases texts with
  | nil =>
      cases hitems
      have heat : eat close (c :: rest) = some (true, rest) :=
        eat_eq (by rw [pastBlanks_cons hblank, hclose]; rfl)
      rw [listUpTo, List.intercalate_nil, List.nil_append, bind_eq heat, if_pos rfl]
      rfl
  | cons text texts =>
      have hsolid : ∀ text' ∈ text :: texts, Solid text' := fun text' h => (hstart text' h).1
      obtain ⟨hfirst, hhead⟩ := hstart text List.mem_cons_self
      have hlist : Solid ([',', ' '].intercalate (text :: texts)) := hfirst.intercalate
      have hinput := hlist.pastBlanks (c :: rest)
      have hother : eat close ([',', ' '].intercalate (text :: texts) ++ c :: rest)
          = some (false, [',', ' '].intercalate (text :: texts) ++ c :: rest) := by
        refine eat_other (by rw [hclose]; rfl) ?_
        rw [hinput]
        obtain ⟨d, hd, -⟩ := hfirst
        obtain ⟨cs, rfl⟩ := List.head?_eq_some_iff.1 hd
        cases texts with
        | nil => rwa [List.intercalate_singleton]
        | cons next texts => rwa [List.intercalate_cons_cons]
      have hread := separatedBy_eq (separates_comma hcomma) hitems hsolid (List.cons_ne_nil _ _)
        hinput (hends rest)
      rw [listUpTo, bind_eq hother, if_neg (by decide), bind_eq hread, bind_eq hexpect]
      rfl

theorem length_le_of_mem {text : List Char} (h : text ∈ texts) :
    text.length ≤ (between.intercalate texts).length := by
  induction texts with
  | nil => cases h
  | cons first texts ih =>
      cases texts with
      | nil =>
          obtain rfl := List.mem_singleton.1 h
          rw [List.intercalate_singleton]
      | cons next texts =>
          rw [List.intercalate_cons_cons, List.length_append, List.length_append]
          rcases List.mem_cons.1 h with rfl | hmem
          · omega
          · have hle := ih hmem
            omega

end TextReader

end IdlBindings
