import IdlBindings.Markup.Tag
import IdlBindings.Proofs.Automaton
import Mathlib.Data.List.TakeWhile

/-!
Tags as they are written. `WrittenTag` is an opening tag with the blanks and quotes of its
attributes. Each part of its text is one piece, as the next part does not go on with it
(`scan_attributes`), and the pieces are read back to the attributes that were written
(`attributes_text`).
-/

namespace IdlBindings.Markup

/-! ### Written tags -/

/-- Spaces, tabs and line breaks, or nothing. -/
structure Blanks where
  chars : List Char
  isBlank_of_mem : ∀ c ∈ chars, isBlank c = true

/-- A bare word, as an element name, an attribute name or a value. -/
structure Word where
  chars : List Char
  ne_nil : chars ≠ []
  isWordChar_of_mem : ∀ c ∈ chars, isWordChar c = true

/-- What can stand in quotes. -/
structure Quoted where
  quote : Char
  isQuote : quote = '"' ∨ quote = '\''
  content : List Char
  quote_notMem : quote ∉ content
  end_notMem : '>' ∉ content

inductive WrittenValue where
  | absent
  | bare (before after : Blanks) (word : Word)
  | quoted (before after : Blanks) (text : Quoted)

structure WrittenAttribute where
  /-- The blanks that part the attribute from what stands before it. -/
  gap : Blanks
  gap_ne_nil : gap.chars ≠ []
  name : Word
  value : WrittenValue

structure WrittenTag where
  element : Word
  attributes : List WrittenAttribute
  trailing : Blanks

def Quoted.text (q : Quoted) : List Char := q.quote :: (q.content ++ [q.quote])

namespace WrittenValue

def text : WrittenValue → List Char
  | .absent => []
  | .bare before after word => before.chars ++ '=' :: (after.chars ++ word.chars)
  | .quoted before after q => before.chars ++ '=' :: (after.chars ++ q.text)

/-- What the value says; nothing if it is absent. -/
def content : WrittenValue → List Char
  | .absent => []
  | .bare _ _ word => word.chars
  | .quoted _ _ q => q.content

end WrittenValue

namespace WrittenAttribute

def text (a : WrittenAttribute) : List Char := a.gap.chars ++ a.name.chars ++ a.value.text

/-- The name and the value of an attribute, however it is written. -/
def read (a : WrittenAttribute) : TagAttribute :=
  ⟨String.ofList a.name.chars, String.ofList a.value.content⟩

end WrittenAttribute

/-- What stands between the `<` and the `>`. -/
def WrittenTag.inner (tag : WrittenTag) : List Char :=
  tag.element.chars ++ (tag.attributes.flatMap WrittenAttribute.text ++ tag.trailing.chars)

def WrittenTag.text (tag : WrittenTag) : List Char := '<' :: (tag.inner ++ ['>'])

/-! ### Pieces of a written tag -/

/-- The text is empty or begins with a character that no word has. -/
def PartsWord (rest : List Char) : Prop := ∀ c ∈ rest.head?, isWordChar c = false

/-- The text is empty or begins with a character that is no blank. -/
def PartsBlanks (rest : List Char) : Prop := ∀ c ∈ rest.head?, isBlank c = false

theorem isBlank_eq_false {c : Char} (h : isWordChar c = true) : isBlank c = false := by
  apply Bool.eq_false_iff.2
  intro hblank
  simp [isWordChar, hblank] at h

theorem step_start {c : Char} (h : isWordChar c = true) : TagState.step .start c = some .word := by
  simp only [TagState.step, isBlank_eq_false h, Bool.false_eq_true, if_false]
  split <;> first
    | rfl
    | cases h

variable {rest : List Char}

theorem scan_word (word : Word) (h : PartsWord rest) :
    tagAutomaton.scan (word.chars ++ rest)
      = ⟨some .word, word.chars⟩ :: tagAutomaton.scan rest := by
  have hkind : tagAutomaton.accept .word = some .word := rfl
  refine Automaton.scan_of_stay word.ne_nil (fun c hc => ?_) (fun c hc => ?_) hkind fun c hc => ?_
  · exact step_start (word.isWordChar_of_mem c hc)
  · exact if_pos (word.isWordChar_of_mem c hc)
  · exact if_neg (by simp [h c hc])

namespace Blanks

/-- Blanks are one lexeme if there are any. -/
def lexemes (b : Blanks) : List (Lexeme TagPiece) :=
  if b.chars = [] then [] else [⟨some .blank, b.chars⟩]

theorem scan_append (b : Blanks) (h : PartsBlanks rest) :
    tagAutomaton.scan (b.chars ++ rest) = b.lexemes ++ tagAutomaton.scan rest := by
  rw [lexemes]
  split
  · rename_i hnil
    rw [hnil]
    rfl
  · rename_i hne
    have hkind : tagAutomaton.accept .blank = some .blank := rfl
    refine Automaton.scan_of_stay hne (fun c hc => ?_) (fun c hc => ?_) hkind fun c hc => ?_
    · exact if_pos (b.isBlank_of_mem c hc)
    · exact if_pos (b.isBlank_of_mem c hc)
    · exact if_neg (by simp [h c hc])

end Blanks

theorem scan_equals (rest : List Char) :
    tagAutomaton.scan ('=' :: rest) = ⟨some .equals, ['=']⟩ :: tagAutomaton.scan rest :=
  Automaton.scan_append (List.cons_ne_nil '=' []) rfl rfl fun _ _ => rfl

theorem scan_quoted (q : Quoted) (rest : List Char) :
    tagAutomaton.scan (q.text ++ rest) = ⟨some .quoted, q.text⟩ :: tagAutomaton.scan rest := by
  obtain ⟨quote, hquote, content, hcontent, -⟩ := q
  have hne {c : Char} (hc : c ∈ content) : (c == quote) = false := by
    apply beq_false_of_ne
    rintro rfl
    exact hcontent hc
  have hrun : tagAutomaton.run .start (quote :: (content ++ [quote]))
      = some (.complete .quoted) := by
    rcases hquote with rfl | rfl
    · have hstay : tagAutomaton.run .doubleQuoted content = some .doubleQuoted :=
        Automaton.run_of_stay fun c hc => if_neg (by simp [hne hc])
      exact (Automaton.run_append ..).trans (by rw [hstay]; rfl)
    · have hstay : tagAutomaton.run .singleQuoted content = some .singleQuoted :=
        Automaton.run_of_stay fun c hc => if_neg (by simp [hne hc])
      exact (Automaton.run_append ..).trans (by rw [hstay]; rfl)
  exact Automaton.scan_append (List.cons_ne_nil _ _) hrun rfl fun _ _ => rfl

/-- The text is empty or begins with a blank. -/
def BeginsBlank (rest : List Char) : Prop := ∀ c ∈ rest.head?, isBlank c = true

theorem BeginsBlank.partsWord (h : BeginsBlank rest) : PartsWord rest := fun c hc => by
  simp [isWordChar, h c hc]

theorem Blanks.beginsBlank (b : Blanks) : BeginsBlank b.chars := fun c hc =>
  b.isBlank_of_mem c (List.mem_of_mem_head? hc)

theorem Word.partsBlanks (word : Word) (rest : List Char) : PartsBlanks (word.chars ++ rest) := by
  obtain ⟨cs, hne, hcs⟩ := word
  obtain ⟨c, cs, rfl⟩ := List.exists_cons_of_ne_nil hne
  rintro _ ⟨⟩
  exact isBlank_eq_false (hcs c List.mem_cons_self)

theorem Quoted.partsBlanks (q : Quoted) (rest : List Char) : PartsBlanks (q.text ++ rest) := by
  rintro _ ⟨⟩
  rcases q.isQuote with h | h <;> rw [h] <;> rfl

/-- In front of a value stands its `=` with blanks around it. -/
theorem scan_before (before after : Blanks) (h : PartsBlanks rest) :
    tagAutomaton.scan (before.chars ++ '=' :: (after.chars ++ rest))
      = before.lexemes ++ ⟨some .equals, ['=']⟩ :: (after.lexemes ++ tagAutomaton.scan rest) := by
  have hequals : PartsBlanks ('=' :: (after.chars ++ rest)) := by
    rintro _ ⟨⟩
    rfl
  rw [before.scan_append hequals, scan_equals, after.scan_append h]

namespace WrittenValue

def lexemes : WrittenValue → List (Lexeme TagPiece)
  | .absent => []
  | .bare before after word =>
    before.lexemes ++ ⟨some .equals, ['=']⟩ :: (after.lexemes ++ [⟨some .word, word.chars⟩])
  | .quoted before after q =>
    before.lexemes ++ ⟨some .equals, ['=']⟩ :: (after.lexemes ++ [⟨some .quoted, q.text⟩])

theorem partsWord (value : WrittenValue) (h : BeginsBlank rest) :
    PartsWord (value.text ++ rest) := by
  have hequals (before : Blanks) (later : List Char) :
      PartsWord (before.chars ++ '=' :: later) := by
    obtain ⟨cs, hcs⟩ := before
    cases cs with
    | nil =>
        rintro _ ⟨⟩
        rfl
    | cons c cs =>
        rintro _ ⟨⟩
        simp [isWordChar, hcs c List.mem_cons_self]
  cases value with
  | absent => exact h.partsWord
  | bare before after word =>
      rw [text, List.append_assoc, List.cons_append]
      exact hequals before _
  | quoted before after q =>
      rw [text, List.append_assoc, List.cons_append]
      exact hequals before _

theorem scan_append (value : WrittenValue) (h : BeginsBlank rest) :
    tagAutomaton.scan (value.text ++ rest) = value.lexemes ++ tagAutomaton.scan rest := by
  cases value with
  | absent => rfl
  | bare before after word =>
      simp only [text, lexemes, List.append_assoc, List.cons_append,
        scan_before before after (word.partsBlanks rest), scan_word word h.partsWord,
        List.nil_append]
  | quoted before after q =>
      simp only [text, lexemes, List.append_assoc, List.cons_append,
        scan_before before after (q.partsBlanks rest), scan_quoted, List.nil_append]

end WrittenValue

namespace WrittenAttribute

def lexemes (a : WrittenAttribute) : List (Lexeme TagPiece) :=
  a.gap.lexemes ++ ⟨some .word, a.name.chars⟩ :: a.value.lexemes

theorem scan_append (a : WrittenAttribute) (h : BeginsBlank rest) :
    tagAutomaton.scan (a.text ++ rest) = a.lexemes ++ tagAutomaton.scan rest := by
  rw [text, List.append_assoc, List.append_assoc, a.gap.scan_append (a.name.partsBlanks _),
    scan_word a.name (a.value.partsWord h), a.value.scan_append h, lexemes, List.append_assoc,
    List.cons_append]

theorem beginsBlank (a : WrittenAttribute) (rest : List Char) : BeginsBlank (a.text ++ rest) := by
  obtain ⟨⟨gap, hgap⟩, hne, name, value⟩ := a
  obtain ⟨c, cs, rfl⟩ := List.exists_cons_of_ne_nil hne
  rintro _ ⟨⟩
  exact hgap c List.mem_cons_self

end WrittenAttribute

/-- What stands behind the element name of a tag, cut into pieces. -/
theorem scan_attributes (attributes : List WrittenAttribute) (trailing : Blanks) :
    BeginsBlank (attributes.flatMap WrittenAttribute.text ++ trailing.chars) ∧
      tagAutomaton.scan (attributes.flatMap WrittenAttribute.text ++ trailing.chars)
        = attributes.flatMap WrittenAttribute.lexemes ++ trailing.lexemes := by
  induction attributes with
  | nil =>
      refine ⟨trailing.beginsBlank, ?_⟩
      have hnothing : PartsBlanks [] := nofun
      have hscan := trailing.scan_append hnothing
      rwa [List.append_nil, Automaton.scan, List.append_nil] at hscan
  | cons a attributes ih =>
      obtain ⟨hbegins, hscan⟩ := ih
      rw [List.flatMap_cons, List.append_assoc]
      refine ⟨a.beginsBlank _, ?_⟩
      rw [a.scan_append hbegins, hscan, List.flatMap_cons, List.append_assoc]

/-! ### Reading the pieces -/

theorem Blanks.readAttributes_append (b : Blanks) (pending : Pending)
    (pieces : List (Lexeme TagPiece)) :
    readAttributes pending (b.lexemes ++ pieces) = readAttributes pending pieces := by
  rw [lexemes]
  split
  · rfl
  · cases pending <;> rfl

theorem Word.unquote_chars (word : Word) : unquote word.chars = word.chars := by
  obtain ⟨cs, -, hcs⟩ := word
  have hquote {c : Char} {ds : List Char} (hds : cs = c :: ds) : c ≠ '"' ∧ c ≠ '\'' := by
    have hword := hcs c (hds ▸ List.mem_cons_self)
    constructor <;>
    · rintro rfl
      exact absurd hword (by decide)
  change unquote cs = cs
  unfold unquote
  split
  · exact absurd rfl (hquote rfl).1
  · exact absurd rfl (hquote rfl).2
  · rfl

theorem Quoted.unquote_text (q : Quoted) : unquote q.text = q.content := by
  have hrest : (q.content ++ [q.quote]).isEmpty = false := by simp
  rw [text]
  rcases q.isQuote with h | h <;>
    rw [h] at hrest ⊢ <;> simp only [unquote, hrest, Bool.false_eq_true, if_false,
      List.dropLast_concat]

/-- Whether the `=` of an attribute has been read. -/
def Pending.AwaitsValue : Pending → Prop
  | .value _ => True
  | _ => False

/-- The name of an attribute ends the attribute before it, if that has no value. -/
theorem readAttributes_name {pending : Pending} (h : ¬pending.AwaitsValue) (a : WrittenAttribute)
    (pieces : List (Lexeme TagPiece)) :
    readAttributes pending (a.lexemes ++ pieces)
      = pending.flush ++ readAttributes (.name a.name.chars) (a.value.lexemes ++ pieces) := by
  rw [WrittenAttribute.lexemes, List.append_assoc, a.gap.readAttributes_append, List.cons_append]
  cases pending with
  | value name => exact absurd trivial h
  | nothing => rfl
  | name name => rfl

/-- A value belongs to the name before it, and without one the name is kept. -/
theorem readAttributes_value (a : WrittenAttribute) (pieces : List (Lexeme TagPiece)) :
    ∃ pending : Pending, ¬pending.AwaitsValue ∧ ∃ attributes,
      readAttributes (.name a.name.chars) (a.value.lexemes ++ pieces)
        = attributes ++ readAttributes pending pieces ∧ attributes ++ pending.flush = [a.read] := by
  obtain ⟨gap, -, name, value⟩ := a
  -- up to the value, only its `=` counts
  have hequals (before after : Blanks) (later : List (Lexeme TagPiece)) :
      readAttributes (.name name.chars)
          (before.lexemes ++ ⟨some .equals, ['=']⟩ :: (after.lexemes ++ later))
        = readAttributes (.value name.chars) later := by
    rw [before.readAttributes_append, readAttributes, after.readAttributes_append]
  cases value with
  | absent => exact ⟨.name name.chars, id, [], rfl, rfl⟩
  | bare before after word =>
      refine ⟨.nothing, id, [⟨_, _⟩], ?_, rfl⟩
      simp only [WrittenValue.lexemes, List.append_assoc, List.cons_append, hequals,
        List.nil_append, readAttributes, word.unquote_chars, WrittenValue.content]
  | quoted before after q =>
      refine ⟨.nothing, id, [⟨_, _⟩], ?_, rfl⟩
      simp only [WrittenValue.lexemes, List.append_assoc, List.cons_append, hequals,
        List.nil_append, readAttributes, q.unquote_text, WrittenValue.content]

/-- The attributes are read in order behind the one that is pending. -/
theorem readAttributes_lexemes (attributes : List WrittenAttribute) (trailing : Blanks)
    {pending : Pending} (h : ¬pending.AwaitsValue) :
    readAttributes pending (attributes.flatMap WrittenAttribute.lexemes ++ trailing.lexemes)
      = pending.flush ++ attributes.map WrittenAttribute.read := by
  induction attributes generalizing pending with
  | nil =>
      have hread := trailing.readAttributes_append pending []
      rw [List.append_nil] at hread
      rw [List.flatMap_nil, List.nil_append, hread, readAttributes, List.map_nil, List.append_nil]
  | cons a attributes ih =>
      rw [List.flatMap_cons, List.append_assoc, readAttributes_name h]
      obtain ⟨next, hnext, before, hread, hflush⟩ := readAttributes_value a
        (attributes.flatMap WrittenAttribute.lexemes ++ trailing.lexemes)
      rw [hread, ih hnext, ← List.append_assoc before, hflush]
      rfl

/-! ### The ends of a tag -/

theorem Word.end_notMem (word : Word) : '>' ∉ word.chars := fun h =>
  absurd (word.isWordChar_of_mem '>' h) (by decide)

theorem Blanks.end_notMem (b : Blanks) : '>' ∉ b.chars := fun h =>
  absurd (b.isBlank_of_mem '>' h) (by decide)

theorem Quoted.end_notMem_text (q : Quoted) : '>' ∉ q.text := by
  have hquote : '>' ≠ q.quote := by
    rcases q.isQuote with h | h <;> rw [h] <;> decide
  simp [text, hquote, q.end_notMem]

theorem WrittenAttribute.end_notMem (a : WrittenAttribute) : '>' ∉ a.text := by
  obtain ⟨gap, -, name, value⟩ := a
  cases value <;> simp [text, WrittenValue.text, Blanks.end_notMem, Word.end_notMem,
    Quoted.end_notMem_text]

/-- The first `>` of a tag is its end. -/
theorem WrittenTag.end_notMem (tag : WrittenTag) : '>' ∉ tag.inner := by
  simp [inner, Word.end_notMem, Blanks.end_notMem, WrittenAttribute.end_notMem]

/-- The text between the `<` and the `>` is what is cut into pieces. -/
theorem WrittenTag.stripped_text (tag : WrittenTag) :
    ((tag.text.dropWhile (· == '<')).reverse.dropWhile (· == '>')).reverse = tag.inner := by
  have hopen : (tag.inner ++ ['>']).dropWhile (· == '<') = tag.inner ++ ['>'] := by
    obtain ⟨⟨cs, hne, hcs⟩, attributes, trailing⟩ := tag
    obtain ⟨c, cs, rfl⟩ := List.exists_cons_of_ne_nil hne
    refine List.dropWhile_cons_of_neg fun hc => ?_
    obtain rfl := beq_iff_eq.1 hc
    exact absurd (hcs '<' List.mem_cons_self) (by decide)
  have hclose : tag.inner.reverse.dropWhile (· == '>') = tag.inner.reverse := by
    refine List.dropWhile_eq_self_iff.2 fun hpos hend => tag.end_notMem ?_
    rw [← beq_iff_eq.1 hend]
    exact List.mem_reverse.1 (List.getElem_mem hpos)
  rw [text, List.dropWhile_cons_of_pos rfl, hopen, List.reverse_append, List.reverse_singleton,
    List.singleton_append, List.dropWhile_cons_of_pos rfl, hclose, List.reverse_reverse]

/-- The attributes of a tag are read as they were written. -/
theorem attributes_text (tag : WrittenTag) :
    attributes tag.text = tag.attributes.map WrittenAttribute.read := by
  obtain ⟨hbegins, hscan⟩ := scan_attributes tag.attributes tag.trailing
  rw [attributes, tag.stripped_text, WrittenTag.inner, scan_word tag.element hbegins.partsWord,
    afterElementName, hscan]
  exact readAttributes_lexemes tag.attributes tag.trailing id

end IdlBindings.Markup
