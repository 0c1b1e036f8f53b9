import IdlBindings.Proofs.Markup.Attribute
import Mathlib

/-!
Which tags mark their block as interface definitions. Names of attributes are compared in any case
(`asciiLower_eq_iff`), and the words of a value are its parts between ASCII whitespace
(`mem_words_iff`). A written tag marks its block by its first attribute of the right name
(`carriesIdl_written`).
-/

namespace IdlBindings.Markup

/-! ### Words of a value -/

/-- The word stands in the text, with ASCII whitespace or nothing on both sides. -/
def HasWord (word text : List Char) : Prop :=
  ∃ before after, text = before ++ word ++ after ∧
    (∀ c ∈ before.getLast?, isAsciiSpace c = true) ∧ ∀ c ∈ after.head?, isAsciiSpace c = true

/-- Not empty, and without ASCII whitespace. -/
structure Solid (word : List Char) : Prop where
  ne_nil : word ≠ []
  isAsciiSpace_of_mem : ∀ c ∈ word, isAsciiSpace c = false

section Words

variable {word acc cs : List Char} {c : Char}

/-- No whitespace stands within a text that has none. -/
theorem eq_nil_of_isAsciiSpace {part : List Char} (hpart : ∀ d ∈ part, isAsciiSpace d = false)
    (hspace : (∀ d ∈ part.head?, isAsciiSpace d = true) ∨
      ∀ d ∈ part.getLast?, isAsciiSpace d = true) : part = [] := by
  by_contra hne
  rcases hspace with hhead | hlast
  · have hfirst := hhead _ (List.head?_eq_some_head hne)
    simp [hpart _ (List.head_mem hne)] at hfirst
  · have hend := hlast _ (List.getLast?_eq_some_getLast hne)
    simp [hpart _ (List.getLast_mem hne)] at hend

variable (hword : Solid word) (hacc : ∀ d ∈ acc, isAsciiSpace d = false)

include hacc

/-- In a text without whitespace, the only word is the text. -/
theorem hasWord_iff_eq : HasWord word acc ↔ word = acc := by
  constructor
  · rintro ⟨before, after, rfl, hbefore, hafter⟩
    obtain ⟨hfront, hback⟩ := List.forall_mem_append.1 hacc
    have hnone := eq_nil_of_isAsciiSpace (List.forall_mem_append.1 hfront).1 (.inr hbefore)
    have hnothing := eq_nil_of_isAsciiSpace hback (.inl hafter)
    rw [hnone, hnothing, List.nil_append, List.append_nil]
  · rintro rfl
    exact ⟨[], [], by simp, nofun, nofun⟩

include hword

/-- Whitespace ends a word. -/
theorem hasWord_append_cons (hc : isAsciiSpace c = true) :
    HasWord word (acc ++ c :: cs) ↔ word = acc ∨ HasWord word cs := by
  constructor
  · rintro ⟨before, after, htext, hbefore, hafter⟩
    have hin : c ∉ word := fun hmem => by
      have hnot := hword.isAsciiSpace_of_mem c hmem
      rw [hc] at hnot
      cases hnot
    rcases List.append_eq_append_iff.1 htext with ⟨part, hfront, hback⟩ | ⟨part, hfront, hback⟩
    · cases part with
      | nil =>
          rw [List.append_nil] at hfront
          exact .inl ((hasWord_iff_eq hacc).1 ⟨before, [], by simp [hfront], hbefore, nofun⟩)
      | cons d part =>
          obtain ⟨rfl, rfl⟩ := List.cons.inj hback
          -- the word stands behind the whitespace, as it does not contain it
          rcases List.append_eq_append_iff.1 hfront with ⟨gap, -, hcut⟩ | ⟨gap, hgap, hcut⟩
          · exact absurd (hcut ▸ List.mem_append_right gap List.mem_cons_self) hin
          · cases gap with
            | nil =>
                rw [List.nil_append] at hcut
                exact absurd (hcut ▸ List.mem_cons_self) hin
            | cons e gap =>
                obtain ⟨rfl, rfl⟩ := List.cons.inj hcut
                refine .inr ⟨gap, after, rfl, fun d hd => hbefore d ?_, hafter⟩
                rw [hgap, List.getLast?_append, List.getLast?_cons, Option.mem_def.1 hd]
                rfl
    · refine .inl ((hasWord_iff_eq hacc).1 ⟨before, part, hfront, hbefore, fun d hd => ?_⟩)
      exact hafter d (by rw [hback, List.head?_append, Option.mem_def.1 hd]; rfl)
  · rintro (rfl | ⟨before, after, rfl, hbefore, hafter⟩)
    · refine ⟨[], c :: cs, rfl, nofun, ?_⟩
      rintro _ ⟨⟩
      exact hc
    · refine ⟨acc ++ c :: before, after, by simp, ?_, hafter⟩
      intro d hd
      rw [List.getLast?_append, List.getLast?_cons, Option.some_or] at hd
      cases hlast : before.getLast? with
      | none =>
          rw [hlast] at hd
          obtain rfl := Option.some.inj hd
          exact hc
      | some last =>
          rw [hlast] at hd
          obtain rfl := Option.some.inj hd
          exact hbefore _ hlast

end Words

theorem mem_wordsFrom_iff {word acc cs : List Char} (hword : Solid word)
    (hacc : ∀ d ∈ acc, isAsciiSpace d = false) :
    word ∈ wordsFrom acc cs ↔ HasWord word (acc ++ cs) := by
  have hne {ds : List Char} (hds : ds.isEmpty = true) : word ≠ ds := by
    rw [List.isEmpty_iff.1 hds]
    exact hword.ne_nil
  induction cs generalizing acc with
  | nil =>
      rw [List.append_nil, hasWord_iff_eq hacc, wordsFrom]
      split
      · rename_i hnil
        simp [hne hnil]
      · exact List.mem_singleton
  | cons c cs ih =>
      rw [wordsFrom]
      split
      · rename_i hc
        have hrest : word ∈ wordsFrom [] cs ↔ HasWord word cs := ih (List.forall_mem_nil _)
        rw [hasWord_append_cons hword hacc hc]
        split
        · rename_i hnil
          rw [hrest, or_iff_right (hne hnil)]
        · rw [List.mem_cons, hrest]
      · rename_i hc
        have hmore : ∀ d ∈ acc ++ [c], isAsciiSpace d = false := by
          rw [List.forall_mem_append, List.forall_mem_singleton]
          exact ⟨hacc, Bool.eq_false_iff.2 hc⟩
        have hrest := ih hmore
        rwa [List.append_assoc, List.singleton_append] at hrest

/-- The words of a value are what stands between its whitespace. -/
theorem mem_words_iff {word text : String} (hword : Solid word.toList) :
    word ∈ words text ↔ HasWord word.toList text.toList := by
  have hfrom : word.toList ∈ wordsFrom [] text.toList ↔ HasWord word.toList text.toList :=
    mem_wordsFrom_iff hword (List.forall_mem_nil _)
  rw [← hfrom, words, List.mem_map]
  constructor
  · rintro ⟨cs, hcs, rfl⟩
    rwa [String.toList_ofList]
  · exact fun h => ⟨word.toList, h, String.ofList_toList⟩

/-! ### Letters in any case -/

/-- The text is the word, each letter in lower or upper case. -/
def InAnyCase (word text : String) : Prop :=
  List.Forall₂ (fun c letter => c = letter ∨ c = letter.toUpper) text.toList word.toList

theorem toLower_eq_iff {letter c : Char} (h : letter.toLower = letter) :
    c.toLower = letter ↔ c = letter ∨ c = letter.toUpper := by
  constructor
  · rintro rfl
    by_cases hupper : c.isUpper
    · right
      rw [Char.toUpper_toLower_eq_toUpper, Char.toUpper_eq_of_not_isLower]
      exact Char.not_isLower_of_isUpper hupper
    · exact .inl (Char.toLower_eq_of_not_isUpper hupper).symm
  · rintro (rfl | rfl)
    · exact h
    · rw [Char.toLower_toUpper_eq_toLower, h]

theorem map_toLower_eq_iff {letters cs : List Char} (h : letters.map Char.toLower = letters) :
    cs.map Char.toLower = letters ↔
      List.Forall₂ (fun c letter => c = letter ∨ c = letter.toUpper) cs letters := by
  induction cs generalizing letters with
  | nil => cases letters <;> simp
  | cons c cs ih =>
      cases letters with
      | nil => simp
      | cons letter letters =>
          obtain ⟨hletter, hletters⟩ := List.cons.inj h
          rw [List.map_cons, List.cons_eq_cons, toLower_eq_iff hletter, ih hletters,
            List.forall₂_cons]

theorem asciiLower_eq_iff {word text : String}
    (h : word.toList.map Char.toLower = word.toList) :
    asciiLower text = word ↔ InAnyCase word text := by
  rw [← String.toList_inj, asciiLower, String.toList_map]
  exact map_toLower_eq_iff h

/-! ### Marked blocks -/

/-- The first attribute of a name, in any case, has this value. -/
def FirstValue (attributes : List TagAttribute) (name value : String) : Prop :=
  ∃ before a after, attributes = before ++ a :: after ∧ a.value = value ∧ InAnyCase name a.name ∧
    ∀ b ∈ before, ¬InAnyCase name b.name

theorem attribute?_eq_some_iff {attributes : List TagAttribute} {name value : String}
    (h : name.toList.map Char.toLower = name.toList) :
    attribute? attributes name = some value ↔ FirstValue attributes name value := by
  simp only [attribute?, Option.map_eq_some_iff, List.find?_eq_some_iff_append, beq_iff_eq,
    asciiLower_eq_iff h, Bool.not_eq_true', beq_eq_false_iff_ne, ne_eq]
  constructor
  · rintro ⟨a, ⟨hname, before, after, hattributes, hbefore⟩, hvalue⟩
    exact ⟨before, a, after, hattributes, hvalue, hname, hbefore⟩
  · rintro ⟨before, a, after, hattributes, hvalue, hname, hbefore⟩
    exact ⟨a, ⟨hname, before, after, hattributes, hbefore⟩, hvalue⟩

/-- The attributes of a tag mark the block of the element. -/
def Marks (attributes : List TagAttribute) : Element → Prop
  | .pre | .xmp => ∃ value, FirstValue attributes "class" value ∧
      HasWord "idl".toList value.toList
  | .script => ∃ value, FirstValue attributes "type" value ∧ InAnyCase "idl" value

theorem carriesIdl_iff {element : Element} {tag : List Char} :
    carriesIdl element tag = true ↔ Marks (attributes tag) element := by
  have hsolid : Solid "idl".toList := by
    refine ⟨by decide, fun c hc => ?_⟩
    rcases (by simpa using hc : c = 'i' ∨ c = 'd' ∨ c = 'l') with rfl | rfl | rfl <;> rfl
  have hclass : ((attribute? (attributes tag) "class").any fun value =>
      (words value).contains "idl") = true ↔ Marks (attributes tag) .pre := by
    have hlower : "class".toList.map Char.toLower = "class".toList := by decide
    simp only [Option.any_eq_true, attribute?_eq_some_iff hlower, List.contains_iff_mem,
      mem_words_iff hsolid, Marks]
  cases element with
  | pre => exact hclass
  | xmp => exact hclass
  | script =>
      have htype : "type".toList.map Char.toLower = "type".toList := by decide
      have hidl : "idl".toList.map Char.toLower = "idl".toList := by decide
      simp only [carriesIdl, Option.any_eq_true, beq_iff_eq, attribute?_eq_some_iff htype,
        asciiLower_eq_iff hidl, Marks]

/-- The attributes of a tag are read as they were written, so a `pre` or `xmp` is marked by the word
`idl` in its first class, and a `script` by its first type. -/
theorem carriesIdl_written (tag : WrittenTag) :
    attributes tag.text = tag.attributes.map WrittenAttribute.read ∧
      ∀ element, carriesIdl element tag.text = true ↔
        Marks (tag.attributes.map WrittenAttribute.read) element := by
  refine ⟨attributes_text tag, fun element => ?_⟩
  rw [carriesIdl_iff, attributes_text]

/-- Behind an attribute without a value, one class in quotes and one without. -/
def twoClasses : WrittenTag where
  element := ⟨['P', 'R', 'E'], List.cons_ne_nil _ _, List.all_eq_true.1 rfl⟩
  attributes := [
    ⟨⟨[' '], List.all_eq_true.1 rfl⟩, List.cons_ne_nil _ _,
      ⟨['i', 'd'], List.cons_ne_nil _ _, List.all_eq_true.1 rfl⟩, .absent⟩,
    ⟨⟨['\t'], List.all_eq_true.1 rfl⟩, List.cons_ne_nil _ _,
      ⟨['C', 'l', 'a', 's', 's'], List.cons_ne_nil _ _, List.all_eq_true.1 rfl⟩,
      .quoted ⟨[' '], List.all_eq_true.1 rfl⟩ ⟨[], List.forall_mem_nil _⟩
        ⟨'"', .inl rfl, ['a', ' ', 'i', 'd', 'l'], by decide, by decide⟩⟩,
    ⟨⟨['\n'], List.all_eq_true.1 rfl⟩, List.cons_ne_nil _ _,
      ⟨['c', 'l', 'a', 's', 's'], List.cons_ne_nil _ _, List.all_eq_true.1 rfl⟩,
      .bare ⟨[], List.forall_mem_nil _⟩ ⟨[' '], List.all_eq_true.1 rfl⟩
        ⟨['b'], List.cons_ne_nil _ _, List.all_eq_true.1 rfl⟩⟩]
  trailing := ⟨[], List.forall_mem_nil _⟩

/-- The first class has the word. -/
theorem carriesIdl_written_twoClasses :
    twoClasses.text = "<PRE id\tClass =\"a idl\"\nclass= b>".toList ∧
    attributes twoClasses.text = [⟨"id", ""⟩, ⟨"Class", "a idl"⟩, ⟨"class", "b"⟩] ∧
    carriesIdl .pre twoClasses.text = true := by
  have hread : twoClasses.attributes.map WrittenAttribute.read
      = [⟨"id", ""⟩, ⟨"Class", "a idl"⟩, ⟨"class", "b"⟩] := rfl
  obtain ⟨hattributes, hmarks⟩ := carriesIdl_written twoClasses
  rw [hread] at hattributes hmarks
  refine ⟨rfl, hattributes, (hmarks .pre).2 ⟨"a idl", ?_, ['a', ' '], [], rfl, ?_, nofun⟩⟩
  · refine ⟨[⟨"id", ""⟩], ⟨"Class", "a idl"⟩, [⟨"class", "b"⟩], rfl, rfl, ?_, ?_⟩
    · simp [InAnyCase]
    · simp [InAnyCase]
  · rintro _ ⟨⟩
    rfl

end IdlBindings.Markup
