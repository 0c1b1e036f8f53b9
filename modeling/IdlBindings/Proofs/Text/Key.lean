import IdlBindings.Text.Name
import Mathlib.Data.List.TakeWhile

/-!
Reading declarations back. A quoted name is read to its closing quote (`Text.readQuoted_escape`),
and a line of a declaration has the property key that was written at its beginning
(`Text.lineKey?_propertyName`).
-/

namespace IdlBindings.Text

/-! ### Words -/

/-- The text without this word at its beginning. -/
def dropWord (word text : String) : String :=
  if word.toList.isPrefixOf text.toList then String.ofList (text.toList.drop word.toList.length)
  else text

theorem dropWord_append (word text : String) : dropWord word (word ++ text) = text := by
  have hbegins : word.toList.isPrefixOf (word ++ text).toList = true := by
    rw [String.toList_append, List.isPrefixOf_iff_prefix]
    exact List.prefix_append _ _
  rw [dropWord, if_pos hbegins, String.toList_append, List.drop_left, String.ofList_toList]

theorem dropWord_of_not_begins {word text : String} (h : ¬ word.toList <+: text.toList) :
    dropWord word text = text := by
  rw [dropWord, if_neg (mt List.isPrefixOf_iff_prefix.1 h)]

theorem dropWord_of_head {word text : String} (h : word.toList.head? ≠ text.toList.head?) :
    dropWord word text = text := by
  by_cases hbegins : word.toList <+: text.toList
  · obtain ⟨rest, hrest⟩ := hbegins
    cases hword : word.toList with
    | nil =>
        rw [dropWord, hword, List.length_nil, List.drop_zero, String.ofList_toList, ite_self]
    | cons c cs => rw [← hrest, hword] at h; exact absurd rfl h
  · exact dropWord_of_not_begins hbegins

/-! ### String literals -/

/-- The content of a string literal whose opening quote has been read, and what follows the closing
one. -/
def readQuoted : List Char → Option (List Char × List Char)
  | [] => none
  | '"' :: rest => some ([], rest)
  | '\\' :: 'n' :: rest => (readQuoted rest).map fun (content, after) => ('\n' :: content, after)
  | '\\' :: c :: rest => (readQuoted rest).map fun (content, after) => (c :: content, after)
  | c :: rest => (readQuoted rest).map fun (content, after) => (c :: content, after)

/-- What was escaped is read as it was. -/
theorem readQuoted_escape (content after : List Char) :
    readQuoted (content.flatMap escape ++ '"' :: after) = some (content, after) := by
  induction content with
  | nil => rfl
  | cons c cs ih =>
      rw [List.flatMap_cons, List.append_assoc]
      by_cases hquote : c = '"'
      · subst hquote
        simp [escape, readQuoted, ih]
      by_cases hslash : c = '\\'
      · subst hslash
        simp [escape, readQuoted, ih]
      by_cases hfeed : c = '\n'
      · subst hfeed
        simp [escape, readQuoted, ih]
      · have hescape : escape c = [c] := escape.eq_4 c hquote hslash hfeed
        rw [hescape, List.singleton_append, readQuoted.eq_5 c _ hquote (fun _ h _ => hslash h)
          (fun _ _ h _ => hslash h), ih]
        rfl

/-! ### Property keys -/

/-- The property key at the beginning of a text: none where a bracket stands. -/
def key? : List Char → Option (List Char)
  | '[' :: _ => none
  | '"' :: rest => (readQuoted rest).map Prod.fst
  | cs => some (cs.takeWhile isNameRest)

/-- The property key of a line in a declaration. -/
def lineKey? (line : String) : Option String :=
  (key? (dropWord "readonly " line).toList).map String.ofList

theorem key?_quote (name : String) (rest : List Char) :
    key? ((quote name).toList ++ rest) = some name.toList := by
  have htext : (quote name).toList ++ rest
      = '"' :: (name.toList.flatMap escape ++ '"' :: rest) := by
    simp [quote]
  rw [htext, key?, readQuoted_escape]
  rfl

theorem all_of_isIdentifier {name : String} (h : isIdentifier name = true) :
    ∀ c ∈ name.toList, isNameRest c = true := by
  unfold isIdentifier at h
  split at h
  · exact absurd h Bool.false_ne_true
  · rename_i first others heq
    obtain ⟨hfirst, hothers⟩ := Bool.and_eq_true_iff.1 h
    rw [heq, List.forall_mem_cons]
    refine ⟨?_, List.all_eq_true.1 hothers⟩
    simp only [isNameStart, isNameRest, Char.isAlphanum, Bool.or_eq_true] at hfirst ⊢
    exact hfirst.imp_left (Or.imp_left .inl)

theorem takeWhile_append_of_head {name rest : List Char} (hname : ∀ c ∈ name, isNameRest c = true)
    (hrest : ∀ c ∈ rest.head?, isNameRest c = false) :
    (name ++ rest).takeWhile isNameRest = name := by
  rw [List.takeWhile_append_of_pos hname]
  cases rest with
  | nil => rw [List.takeWhile_nil, List.append_nil]
  | cons c cs => rw [List.takeWhile_cons_of_neg (by simp [hrest c rfl]), List.append_nil]

/-- What begins with neither bracket nor quote has a bare key. -/
theorem key?_of_head {cs : List Char} (hbracket : cs.head? ≠ some '[')
    (hquote : cs.head? ≠ some '"') : key? cs = some (cs.takeWhile isNameRest) :=
  key?.eq_3 cs (fun _ h => hbracket (h ▸ rfl)) fun _ h => hquote (h ▸ rfl)

theorem key?_identifier {name rest : List Char} (hne : name ≠ [])
    (hname : ∀ c ∈ name, isNameRest c = true) (hrest : ∀ c ∈ rest.head?, isNameRest c = false) :
    key? (name ++ rest) = some name := by
  obtain ⟨c, cs, rfl⟩ := List.exists_cons_of_ne_nil hne
  have hc : isNameRest c = true := hname c List.mem_cons_self
  rw [key?_of_head, takeWhile_append_of_head hname hrest]
  · rintro ⟨⟩
    exact absurd hc (by decide)
  · rintro ⟨⟩
    exact absurd hc (by decide)

/-- What can stand behind the key of a property: neither a part of a name nor a blank. -/
def EndsKey (rest : String) : Prop := ∀ c ∈ rest.toList.head?, isNameRest c = false ∧ c ≠ ' '

variable (name : String) {rest : String}

theorem key?_propertyName (h : EndsKey rest) :
    key? (propertyName name ++ rest).toList = some name.toList := by
  rw [propertyName, String.toList_append]
  split
  · rename_i hname
    have hne : name.toList ≠ [] := fun hnil => by simp [isIdentifier, hnil] at hname
    exact key?_identifier hne (all_of_isIdentifier hname) fun c hc => (h c hc).1
  · exact key?_quote name rest.toList

/-- A key is not taken for the word that may stand before it, also where it is that word. -/
theorem dropWord_propertyName (h : EndsKey rest) :
    dropWord "readonly " (propertyName name ++ rest) = propertyName name ++ rest := by
  rw [propertyName]
  split
  · rename_i hname
    refine dropWord_of_not_begins fun ⟨after, hafter⟩ => ?_
    rw [String.toList_append] at hafter
    have hkey : name.toList = "readonly".toList := by
      rw [← takeWhile_append_of_head (all_of_isIdentifier hname) fun c hc => (h c hc).1, ← hafter]
      rfl
    rw [hkey] at hafter
    have hbehind : " ".toList ++ after = rest.toList :=
      @List.append_cancel_left _ "readonly".toList _ _ hafter
    exact (h ' ' (hbehind ▸ rfl)).2 rfl
  · refine dropWord_of_head ?_
    simp [quote, String.toList_append]

/-- The key of a property is the name that it was written for. -/
theorem lineKey?_propertyName (h : EndsKey rest) :
    lineKey? (propertyName name ++ rest) = some name := by
  rw [lineKey?, dropWord_propertyName name h, key?_propertyName name h, Option.map_some,
    String.ofList_toList]

theorem propertyName_injective : Function.Injective propertyName := by
  intro first second hsame
  have hends : EndsKey "" := fun _ h => nomatch h
  have hkey := lineKey?_propertyName second hends
  rw [← hsame, lineKey?_propertyName first hends] at hkey
  exact Option.some.inj hkey

theorem lineKey?_readonly (h : EndsKey rest) :
    lineKey? ("readonly " ++ (propertyName name ++ rest)) = some name := by
  rw [lineKey?, dropWord_append, key?_propertyName name h, Option.map_some, String.ofList_toList]

end IdlBindings.Text
