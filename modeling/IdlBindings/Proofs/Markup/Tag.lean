import IdlBindings.Markup.Token
import IdlBindings.Proofs.Automaton

/-!
The text of a piece of markup. `ScanState.Spells` says for each state what has been read on the way
to it, so a tag is read only where the text has one. Text in which no tag begins is therefore passed
over piece by piece, and no piece goes on into a tag behind it (`first_append_lessThan`).
-/

namespace IdlBindings.Markup

/-! ### Where tags begin -/

def Element.all : List Element :=
  [.pre, .xmp, .script]

theorem Element.mem_all (element : Element) : element ∈ all := by
  cases element <;> decide

/-- What a tag has in lower case behind its `<`. -/
def tagWord (closing : Bool) (element : Element) : List Char :=
  (if closing then ['/'] else []) ++ element.name.toList

/-- Whether a text begins like a tag: `<`, perhaps `/`, and the name of an element in any case. -/
def beginsTag (text : List Char) : Bool :=
  [false, true].any fun closing => Element.all.any fun element =>
    ('<' :: tagWord closing element).isPrefixOf (text.map Char.toLower)

/-- Whether a tag begins somewhere in a text. -/
def hasTag : List Char → Bool
  | [] => false
  | c :: rest => beginsTag (c :: rest) || hasTag rest

/-- A character that no tag has behind its `<` up to the end of the name. -/
def Parts (c : Char) : Prop :=
  ∀ closing element, c.toLower ∉ tagWord closing element

theorem parts_lessThan : Parts '<' := by
  rintro (_ | _) (_ | _ | _) <;> decide

theorem parts_newline : Parts '\n' := by
  rintro (_ | _) (_ | _ | _) <;> decide

theorem beginsTag_iff {text : List Char} : beginsTag text = true ↔
    ∃ closing element, '<' :: tagWord closing element <+: text.map Char.toLower := by
  simp only [beginsTag, List.any_eq_true, List.isPrefixOf_iff_prefix, Element.mem_all, true_and]
  constructor
  · rintro ⟨closing, -, h⟩
    exact ⟨closing, h⟩
  · rintro ⟨closing, h⟩
    exact ⟨closing, by cases closing <;> decide, h⟩

/-- What begins a text without a character begins the part before that character. -/
theorem beginning_of_notMem {word text rest : List Char} {c : Char} (h : word <+: text ++ c :: rest)
    (hc : c ∉ word) : word <+: text := by
  induction text generalizing word with
  | nil =>
      cases word with
      | nil => exact List.nil_prefix
      | cons first word =>
          obtain rfl := (List.cons_prefix_cons.1 h).1
          exact absurd List.mem_cons_self hc
  | cons first text ih =>
      cases word with
      | nil => exact List.nil_prefix
      | cons other word =>
          obtain ⟨rfl, htail⟩ := List.cons_prefix_cons.1 h
          exact List.cons_prefix_cons.2 ⟨rfl, ih htail fun hmem => hc (List.mem_cons_of_mem _ hmem)⟩

/-- A tag does not begin before a character that parts it. -/
theorem beginsTag_of_append {text rest : List Char} {c : Char} (hc : Parts c) (hne : text ≠ [])
    (h : beginsTag (text ++ c :: rest) = true) : beginsTag text = true := by
  obtain ⟨closing, element, htaken⟩ := beginsTag_iff.1 h
  cases text with
  | nil => exact absurd rfl hne
  | cons first text =>
      rw [List.cons_append, List.map_cons, List.map_append, List.map_cons] at htaken
      obtain ⟨hfirst, htail⟩ := List.cons_prefix_cons.1 htaken
      refine beginsTag_iff.2 ⟨closing, element, ?_⟩
      exact List.cons_prefix_cons.2 ⟨hfirst, beginning_of_notMem htail (hc closing element)⟩

theorem hasTag_append {text rest : List Char} {c : Char} (hc : Parts c)
    (htext : hasTag text = false) (hrest : hasTag (c :: rest) = false) :
    hasTag (text ++ c :: rest) = false := by
  induction text with
  | nil => exact hrest
  | cons first text ih =>
      rw [hasTag, Bool.or_eq_false_iff] at htext
      rw [List.cons_append, hasTag, Bool.or_eq_false_iff]
      refine ⟨Bool.eq_false_iff.2 fun hbegin => ?_, ih htext.2⟩
      have hfirst := beginsTag_of_append hc (List.cons_ne_nil first text) hbegin
      rw [htext.1] at hfirst
      cases hfirst

theorem hasTag_drop {text : List Char} (h : hasTag text = false) (n : Nat) :
    hasTag (text.drop n) = false := by
  induction n generalizing text with
  | zero => exact h
  | succ n ih =>
      cases text with
      | nil => rfl
      | cons c rest => exact ih (Bool.or_eq_false_iff.1 h).2

theorem beginsTag_eq_false {text : List Char} (h : hasTag text = false) :
    beginsTag text = false := by
  cases text with
  | nil => rfl
  | cons c rest => exact (Bool.or_eq_false_iff.1 h).1

/-! ### What a state has read -/

/-- The letters of the name of an element, in any case. -/
def Element.Names (element : Element) (letters : List Char) : Prop :=
  letters.map Char.toLower = element.name.toList

/-- What stands in front of the name in a tag. -/
def tagMark (closing : Bool) : List Char :=
  if closing then ['<', '/'] else ['<']

/-- What has been read on the way to a state. -/
def ScanState.Spells : ScanState → List Char → Prop
  | .start, text => text = []
  | .prose, text => text ≠ [] ∧ '<' ∉ text
  | .lessThan, text => text = ['<']
  | .bang, text => text = ['<', '!']
  | .bangDash, text => text = ['<', '!', '-']
  | .slash, text => text = ['<', '/']
  | .name closing element rest, text => ∃ letters : List Char,
      letters.map Char.toLower ++ rest = element.name.toList ∧ text = tagMark closing ++ letters
  | .attributes element, text => ∃ letters blank inner, element.Names letters ∧
      isBlank blank = true ∧ '>' ∉ inner ∧ text = tagMark false ++ letters ++ blank :: inner
  | .closeBlank element, text => ∃ letters blanks, element.Names letters ∧
      (∀ c ∈ blanks, isBlank c = true) ∧ text = tagMark true ++ letters ++ blanks
  | .complete .commentOpen, text => text = ['<', '!', '-', '-']
  | .complete (.blockOpen element), text => ∃ letters inner, element.Names letters ∧ '>' ∉ inner ∧
      (∀ c ∈ inner.head?, isBlank c = true) ∧ text = tagMark false ++ letters ++ inner ++ ['>']
  | .complete (.blockClose element), text => ∃ letters blanks, element.Names letters ∧
      (∀ c ∈ blanks, isBlank c = true) ∧ text = tagMark true ++ letters ++ blanks ++ ['>']
  | .complete _, _ => False

theorem Element.lower_cons_afterInitial {c : Char} {element : Element}
    (h : ofInitial? c = some element) : c.toLower :: element.afterInitial = element.name.toList := by
  unfold ofInitial? at h
  split at h
  all_goals cases h
  all_goals
    rename_i hlower
    rw [hlower]
    rfl

namespace ScanState

variable {s s' : ScanState} {c : Char} {text : List Char}

theorem spells_beginName (closing : Bool) (h : beginName? closing c = some s) :
    s.Spells (tagMark closing ++ [c]) := by
  obtain ⟨element, helement, rfl⟩ := Option.map_eq_some_iff.1 h
  exact ⟨[c], Element.lower_cons_afterInitial helement, rfl⟩

/-- Behind the last letter of the name comes the end of the tag or a blank. -/
theorem spells_behindName {closing : Bool} {element : Element}
    (h : (name closing element []).Spells text)
    (hstep : step (.name closing element []) c = some s') : s'.Spells (text ++ [c]) := by
  obtain ⟨letters, hletters, rfl⟩ := h
  rw [List.append_nil] at hletters
  cases closing with
  | false =>
      rw [step] at hstep
      split at hstep
      · rename_i hend
        cases hstep
        obtain rfl := beq_iff_eq.1 hend
        exact ⟨letters, [], hletters, List.not_mem_nil, by simp, by simp⟩
      · split at hstep
        · rename_i hblank
          cases hstep
          exact ⟨letters, c, [], hletters, hblank, List.not_mem_nil, rfl⟩
        · cases hstep
  | true =>
      rw [step] at hstep
      split at hstep
      · rename_i hend
        cases hstep
        obtain rfl := beq_iff_eq.1 hend
        exact ⟨letters, [], hletters, by simp, by simp⟩
      · split at hstep
        · rename_i hblank
          cases hstep
          exact ⟨letters, [c], hletters, List.forall_mem_singleton.2 hblank, rfl⟩
        · cases hstep

/-- A letter of the name, or what comes right behind it. -/
theorem spells_name {closing : Bool} {element : Element} {rest : List Char}
    (h : (name closing element rest).Spells text)
    (hstep : step (.name closing element rest) c = some s') : s'.Spells (text ++ [c]) := by
  cases rest with
  | nil => exact spells_behindName h hstep
  | cons letter rest =>
      obtain ⟨letters, hletters, rfl⟩ := h
      have hletter : c.toLower = letter ∧ name closing element rest = s' := by
        simpa [step] using hstep
      obtain ⟨hlower, rfl⟩ := hletter
      refine ⟨letters ++ [c], ?_, List.append_assoc ..⟩
      rw [List.map_append, List.map_singleton, hlower, List.append_assoc]
      exact hletters

/-- A text that lacks a character does not get it from another one. -/
theorem notMem_concat {d : Char} (h : d ∉ text) (hother : ¬(c == d) = true) : d ∉ text ++ [c] := by
  rw [List.mem_append, List.mem_singleton, not_or]
  exact ⟨h, fun heq => hother (beq_iff_eq.2 heq.symm)⟩

theorem spells_start (hstep : step .start c = some s') : s'.Spells [c] := by
  rw [step] at hstep
  split at hstep
  · rename_i hopen
    cases hstep
    exact congrArg (· :: []) (beq_iff_eq.1 hopen)
  · rename_i hopen
    cases hstep
    exact ⟨List.cons_ne_nil c [], notMem_concat List.not_mem_nil hopen⟩

theorem spells_prose (h : prose.Spells text) (hstep : step .prose c = some s') :
    s'.Spells (text ++ [c]) := by
  rw [step] at hstep
  split at hstep
  · cases hstep
  · rename_i hopen
    cases hstep
    exact ⟨List.append_ne_nil_of_left_ne_nil h.1 _, notMem_concat h.2 hopen⟩

theorem spells_lessThan (hstep : step .lessThan c = some s') : s'.Spells ['<', c] := by
  rw [step] at hstep
  split at hstep
  · rename_i hbang
    cases hstep
    obtain rfl := beq_iff_eq.1 hbang
    rfl
  · split at hstep
    · rename_i hslash
      cases hstep
      obtain rfl := beq_iff_eq.1 hslash
      rfl
    · exact spells_beginName false hstep

theorem spells_attributes {element : Element} (h : (attributes element).Spells text)
    (hstep : step (.attributes element) c = some s') : s'.Spells (text ++ [c]) := by
  obtain ⟨letters, blank, inner, hletters, hblank, hinner, rfl⟩ := h
  rw [step] at hstep
  split at hstep
  · rename_i hend
    cases hstep
    obtain rfl := beq_iff_eq.1 hend
    have hne : '>' ≠ blank := by
      rintro rfl
      exact absurd hblank (by decide)
    refine ⟨letters, blank :: inner, hletters, List.not_mem_cons_of_ne_of_not_mem hne hinner, ?_, rfl⟩
    rintro _ ⟨⟩
    exact hblank
  · rename_i hend
    cases hstep
    refine ⟨letters, blank, inner ++ [c], hletters, hblank, notMem_concat hinner hend, ?_⟩
    rw [List.append_assoc, List.cons_append]

theorem spells_closeBlank {element : Element} (h : (closeBlank element).Spells text)
    (hstep : step (.closeBlank element) c = some s') : s'.Spells (text ++ [c]) := by
  obtain ⟨letters, blanks, hletters, hblanks, rfl⟩ := h
  rw [step] at hstep
  split at hstep
  · rename_i hend
    cases hstep
    obtain rfl := beq_iff_eq.1 hend
    exact ⟨letters, blanks, hletters, hblanks, rfl⟩
  · split at hstep
    · rename_i hblank
      cases hstep
      refine ⟨letters, blanks ++ [c], hletters, ?_, List.append_assoc ..⟩
      exact List.forall_mem_append.2 ⟨hblanks, List.forall_mem_singleton.2 hblank⟩
    · cases hstep

/-- One character more. -/
theorem spells_step (h : s.Spells text) (hstep : step s c = some s') : s'.Spells (text ++ [c]) := by
  cases s with
  | start =>
      obtain rfl : text = [] := h
      exact spells_start hstep
  | prose => exact spells_prose h hstep
  | lessThan =>
      obtain rfl : text = ['<'] := h
      exact spells_lessThan hstep
  | bang =>
      obtain rfl : text = ['<', '!'] := h
      have hdash : c = '-' ∧ bangDash = s' := by simpa [step] using hstep
      obtain ⟨rfl, rfl⟩ := hdash
      rfl
  | bangDash =>
      obtain rfl : text = ['<', '!', '-'] := h
      have hdash : c = '-' ∧ complete .commentOpen = s' := by simpa [step] using hstep
      obtain ⟨rfl, rfl⟩ := hdash
      rfl
  | slash =>
      obtain rfl : text = ['<', '/'] := h
      exact spells_beginName true hstep
  | name closing element rest => exact spells_name h hstep
  | attributes element => exact spells_attributes h hstep
  | closeBlank element => exact spells_closeBlank h hstep
  | complete kind => cases hstep

/-- What a run reads. -/
theorem spells_run (h : s.Spells text) {more : List Char} (hrun : automaton.run s more = some s') :
    s'.Spells (text ++ more) := by
  induction more generalizing s text with
  | nil =>
      obtain rfl : s = s' := Option.some.inj hrun
      rw [List.append_nil]
      exact h
  | cons c more ih =>
      obtain ⟨next, hstep, hrun⟩ := Option.bind_eq_some_iff.1 hrun
      have hmore := ih (spells_step h hstep) hrun
      rwa [List.append_assoc] at hmore

end ScanState

/-! ### Tags -/

def TokenKind.isTag : TokenKind → Bool
  | .blockOpen _ | .blockClose _ => true
  | _ => false

variable {kind : TokenKind} {text : List Char}

/-- A tag is read to its end. -/
theorem run_of_isTag (htag : kind.isTag = true) (h : automaton.Accepts kind text) :
    automaton.run automaton.start text = some (.complete kind) := by
  obtain ⟨s, hrun, haccept⟩ := h
  cases s with
  | complete found =>
      obtain rfl : found = kind := Option.some.inj haccept
      exact hrun
  | prose =>
      obtain rfl : .prose = kind := Option.some.inj haccept
      cases htag
  | lessThan =>
      obtain rfl : .lessThan = kind := Option.some.inj haccept
      cases htag
  | _ => cases haccept

theorem exists_cons_of_isTag (htag : kind.isTag = true) (h : automaton.Accepts kind text) :
    ∃ rest, text = '<' :: rest := by
  have hspells := ScanState.spells_run (s := .start) rfl (run_of_isTag htag h)
  cases kind with
  | blockOpen element =>
      obtain ⟨letters, inner, -, -, -, rfl⟩ := hspells
      exact ⟨_, rfl⟩
  | blockClose element =>
      obtain ⟨letters, blanks, -, -, rfl⟩ := hspells
      exact ⟨_, rfl⟩
  | _ => cases htag

/-- Nothing extends a tag. -/
theorem first_append_of_isTag (htag : kind.isTag = true) (h : automaton.Accepts kind text)
    (rest : List Char) : automaton.first (text ++ rest) = (some kind, text.length) := by
  have hne : text ≠ [] := by
    obtain ⟨more, rfl⟩ := exists_cons_of_isTag htag h
    exact List.cons_ne_nil _ _
  exact Automaton.first_append hne (run_of_isTag htag h) rfl fun _ _ => rfl

/-! ### The form of a tag -/

/-- An opening tag: the name in any case, and attributes behind a blank. -/
def OpeningTag (element : Element) (tag : List Char) : Prop :=
  ∃ letters attributes, element.Names letters ∧ '>' ∉ attributes ∧
    (∀ c ∈ attributes.head?, isBlank c = true) ∧
    tag = tagMark false ++ letters ++ attributes ++ ['>']

/-- A closing tag: the name in any case, and blanks behind it. -/
def ClosingTag (element : Element) (tag : List Char) : Prop :=
  ∃ letters blanks, element.Names letters ∧ (∀ c ∈ blanks, isBlank c = true) ∧
    tag = tagMark true ++ letters ++ blanks ++ ['>']

theorem Element.Names.notMem {element : Element} {letters : List Char} (h : element.Names letters)
    {c : Char} (hc : c.toLower ∉ element.name.toList) : c ∉ letters := by
  intro hmem
  have hlower := List.mem_map_of_mem (f := Char.toLower) hmem
  rw [show letters.map Char.toLower = element.name.toList from h] at hlower
  exact hc hlower

theorem OpeningTag.split {element : Element} {tag : List Char} (h : OpeningTag element tag) :
    ∃ inner, tag = '<' :: inner ++ ['>'] ∧ '>' ∉ inner := by
  obtain ⟨letters, attributes, hletters, hinner, -, rfl⟩ := h
  refine ⟨letters ++ attributes, rfl, ?_⟩
  rw [List.mem_append, not_or]
  exact ⟨hletters.notMem (by cases element <;> decide), hinner⟩

theorem ClosingTag.split {element : Element} {tag : List Char} (h : ClosingTag element tag) :
    ∃ inner, tag = '<' :: inner ++ ['>'] ∧ '<' ∉ inner ∧ '>' ∉ inner := by
  obtain ⟨letters, blanks, hletters, hblanks, rfl⟩ := h
  have hnot (c : Char) (hslash : c ≠ '/') (hname : c.toLower ∉ element.name.toList)
      (hblank : isBlank c = false) : c ∉ '/' :: (letters ++ blanks) := by
    rw [List.mem_cons, List.mem_append, not_or, not_or]
    refine ⟨hslash, hletters.notMem hname, fun hmem => ?_⟩
    rw [hblanks c hmem] at hblank
    cases hblank
  exact ⟨'/' :: (letters ++ blanks), rfl,
    hnot '<' (by decide) (by cases element <;> decide) rfl,
    hnot '>' (by decide) (by cases element <;> decide) rfl⟩

/-! ### Text without tags -/

theorem beginsTag_of_names (closing : Bool) {element : Element} {letters : List Char}
    (h : element.Names letters) (rest : List Char) :
    beginsTag (tagMark closing ++ letters ++ rest) = true := by
  have hlower : (tagMark closing ++ letters ++ rest).map Char.toLower
      = '<' :: tagWord closing element ++ rest.map Char.toLower := by
    rw [List.map_append, List.map_append, show letters.map Char.toLower = _ from h]
    cases closing <;> rfl
  refine beginsTag_iff.2 ⟨closing, element, ?_⟩
  rw [hlower]
  exact List.prefix_append ..

/-- A piece that is no opening tag has a `<` at its front only. -/
theorem ScanState.notMem_tail {s : ScanState} (h : s.Spells text) (haccept : s.accept = some kind)
    (hkind : ∀ element, kind ≠ .blockOpen element) : '<' ∉ text.tail := by
  cases s with
  | prose => exact fun hmem => h.2 (List.mem_of_mem_tail hmem)
  | lessThan =>
      obtain rfl : text = ['<'] := h
      exact List.not_mem_nil
  | complete found =>
      cases haccept
      cases kind with
      | commentOpen =>
          obtain rfl : text = ['<', '!', '-', '-'] := h
          decide
      | blockOpen element => exact absurd rfl (hkind element)
      | blockClose element =>
          obtain ⟨inner, rfl, hinner, -⟩ := ClosingTag.split h
          rw [List.cons_append, List.tail_cons, List.mem_append, not_or]
          exact ⟨hinner, by decide⟩
      | lessThan => cases h
      | prose => cases h
  | _ => cases haccept

/-- A text in which no tag begins is no tag. -/
theorem isTag_eq_false (h : automaton.Accepts kind text) (hplain : beginsTag text = false) :
    kind.isTag = false := by
  refine Bool.eq_false_iff.2 fun htag => ?_
  have hspells := ScanState.spells_run (s := .start) rfl (run_of_isTag htag h)
  cases kind with
  | blockOpen element =>
      obtain ⟨letters, inner, hletters, -, -, rfl⟩ := hspells
      rw [List.append_assoc, beginsTag_of_names false hletters] at hplain
      cases hplain
  | blockClose element =>
      obtain ⟨letters, blanks, hletters, -, rfl⟩ := hspells
      rw [List.append_assoc, beginsTag_of_names true hletters] at hplain
      cases hplain
  | _ => cases htag

theorem first_ne_none {cs : List Char} (hne : cs ≠ []) :
    ∃ kind, (automaton.first cs).1 = some kind := by
  cases cs with
  | nil => exact absurd rfl hne
  | cons c cs =>
      obtain ⟨next, kind, hstep, haccept⟩ : ∃ next kind, ScanState.step .start c = some next ∧
          next.accept = some kind := by
        rw [ScanState.step]
        split
        · exact ⟨_, _, rfl, rfl⟩
        · exact ⟨_, _, rfl, rfl⟩
      obtain ⟨best, hbest⟩ := Automaton.munch_of_accept (A := automaton) haccept cs
      refine ⟨best.1, ?_⟩
      rw [Automaton.first, Automaton.munch,
        show automaton.step automaton.start c = some next from hstep]
      simp only [hbest]

theorem beginsTag_take {n : Nat} (h : beginsTag text = false) : beginsTag (text.take n) = false := by
  refine Bool.eq_false_iff.2 fun hbegin => ?_
  obtain ⟨closing, element, hword⟩ := beginsTag_iff.1 hbegin
  have hwhole : beginsTag text = true :=
    beginsTag_iff.2 ⟨closing, element, hword.trans ((List.take_prefix n text).map Char.toLower)⟩
  rw [h] at hwhole
  cases hwhole

/-- What comes first in text where no tag begins is no tag, and it has a `<` at its front only. -/
theorem first_of_beginsTag (hne : text ≠ []) (hplain : beginsTag text = false) :
    ∃ kind n, automaton.first text = (some kind, n) ∧ automaton.Accepts kind (text.take n) ∧
      kind.isTag = false ∧ '<' ∉ (text.take n).tail := by
  obtain ⟨kind, hkind⟩ := first_ne_none hne
  have haccepts := Automaton.accepts_of_first rfl hkind
  obtain ⟨s, hrun, haccept⟩ := haccepts
  have hspells := ScanState.spells_run (s := .start) rfl hrun
  have htag := isTag_eq_false ⟨s, hrun, haccept⟩ (beginsTag_take hplain)
  refine ⟨kind, _, Prod.ext hkind rfl, ⟨s, hrun, haccept⟩, htag, ?_⟩
  refine ScanState.notMem_tail hspells haccept ?_
  rintro element rfl
  cases htag

/-- What comes first in text where no tag begins is no tag, and it ends before the `<` behind the
text. -/
theorem first_append_lessThan (hne : text ≠ []) (hplain : beginsTag text = false)
    (rest : List Char) : ∃ kind n, automaton.first (text ++ '<' :: rest) = (some kind, n) ∧
      n ≤ text.length ∧ kind.isTag = false := by
  have hall : text ++ '<' :: rest ≠ [] := by simp
  have hwhole : beginsTag (text ++ '<' :: rest) = false := by
    refine Bool.eq_false_iff.2 fun hbegin => ?_
    rw [beginsTag_of_append parts_lessThan hne hbegin] at hplain
    cases hplain
  obtain ⟨kind, n, hfirst, -, htag, htail⟩ := first_of_beginsTag hall hwhole
  refine ⟨kind, n, hfirst, ?_, htag⟩
  have hshort : ((text ++ '<' :: rest).take n).length ≤ text.length := by
    cases text with
    | nil => exact absurd rfl hne
    | cons c text =>
        cases n with
        | zero => exact Nat.zero_le _
        | succ n =>
            rw [List.cons_append, List.take_succ_cons] at htail ⊢
            have hwithin := beginning_of_notMem (List.take_prefix n (text ++ '<' :: rest)) htail
            simpa using hwithin.length_le
  rw [List.length_take, List.length_append, List.length_cons] at hshort
  omega

/-! ### Reading a tag -/

theorem run_letters (closing : Bool) (element : Element) {letters word : List Char}
    (h : letters.map Char.toLower = word) :
    automaton.run (.name closing element word) letters = some (.name closing element []) := by
  subst h
  induction letters with
  | nil => rfl
  | cons c letters ih =>
      have hstep : automaton.step (.name closing element ((c :: letters).map Char.toLower)) c
          = some (.name closing element (letters.map Char.toLower)) := by
        simp [automaton, ScanState.step]
      rw [Automaton.run, hstep]
      exact ih

/-- Reading the name behind `<` or `</`. -/
theorem run_name (closing : Bool) {element : Element} {letters : List Char}
    (h : element.Names letters) : automaton.run (if closing then .slash else .lessThan) letters
      = some (.name closing element []) := by
  cases letters with
  | nil => cases element <;> cases h
  | cons c letters =>
      have hinitial : some c.toLower = element.name.toList.head? := congrArg List.head? h
      have hletters : letters.map Char.toLower = element.afterInitial := by
        cases element <;> exact (List.cons.inj h).2
      have helement : Element.ofInitial? c = some element := by
        unfold Element.ofInitial?
        cases element with
        | pre =>
            rw [show c.toLower = 'p' from Option.some.inj hinitial]
            rfl
        | xmp =>
            rw [show c.toLower = 'x' from Option.some.inj hinitial]
            rfl
        | script =>
            rw [show c.toLower = 's' from Option.some.inj hinitial]
            rfl
      have hstep : automaton.step (if closing then .slash else .lessThan) c
          = some (.name closing element element.afterInitial) := by
        have hbegin : ScanState.beginName? closing c
            = some (.name closing element element.afterInitial) := by
          rw [ScanState.beginName?, helement]
          rfl
        cases closing with
        | true => exact hbegin
        | false =>
            have hbang : c ≠ '!' := by
              rintro rfl
              cases element <;> exact absurd hinitial (by decide)
            have hslash : c ≠ '/' := by
              rintro rfl
              cases element <;> exact absurd hinitial (by decide)
            simpa [automaton, ScanState.step, hbang, hslash] using hbegin
      rw [Automaton.run, hstep]
      exact run_letters closing element hletters

theorem run_tagMark (closing : Bool) : automaton.run automaton.start (tagMark closing)
    = some (if closing then .slash else .lessThan) := by
  cases closing <;> rfl

theorem run_attributes (element : Element) {inner : List Char} (h : '>' ∉ inner) :
    automaton.run (.attributes element) (inner ++ ['>']) = some (.complete (.blockOpen element)) := by
  have hstay : automaton.run (.attributes element) inner = some (.attributes element) := by
    refine Automaton.run_of_stay fun c hc => ?_
    have hne : c ≠ '>' := fun hend => h (hend ▸ hc)
    simp [automaton, ScanState.step, hne]
  rw [Automaton.run_append, hstay]
  rfl

theorem run_closeBlank (element : Element) {blanks : List Char}
    (h : ∀ c ∈ blanks, isBlank c = true) :
    automaton.run (.closeBlank element) (blanks ++ ['>'])
      = some (.complete (.blockClose element)) := by
  have hstay : automaton.run (.closeBlank element) blanks = some (.closeBlank element) := by
    refine Automaton.run_of_stay fun c hc => ?_
    have hne : c ≠ '>' := by
      rintro rfl
      exact absurd (h '>' hc) (by decide)
    simp [automaton, ScanState.step, hne, h c hc]
  rw [Automaton.run_append, hstay]
  rfl

theorem accepts_blockOpen_iff {element : Element} {tag : List Char} :
    automaton.Accepts (.blockOpen element) tag ↔ OpeningTag element tag := by
  constructor
  · intro h
    exact ScanState.spells_run (s := .start) rfl (run_of_isTag rfl h)
  · rintro ⟨letters, attributes, hletters, hinner, hblank, rfl⟩
    refine ⟨.complete (.blockOpen element), ?_, rfl⟩
    rw [List.append_assoc, List.append_assoc, Automaton.run_append, run_tagMark,
      Option.bind_some, Automaton.run_append, run_name false hletters, Option.bind_some]
    cases attributes with
    | nil => rfl
    | cons c inner =>
        obtain ⟨hc, hinner⟩ := List.ne_and_not_mem_of_not_mem_cons hinner
        have hstep : automaton.step (.name false element []) c = some (.attributes element) := by
          simp [automaton, ScanState.step, Ne.symm hc, hblank c rfl]
        rw [List.cons_append, Automaton.run, hstep]
        exact run_attributes element hinner

theorem accepts_blockClose_iff {element : Element} {tag : List Char} :
    automaton.Accepts (.blockClose element) tag ↔ ClosingTag element tag := by
  constructor
  · intro h
    exact ScanState.spells_run (s := .start) rfl (run_of_isTag rfl h)
  · rintro ⟨letters, blanks, hletters, hblanks, rfl⟩
    refine ⟨.complete (.blockClose element), ?_, rfl⟩
    rw [List.append_assoc, List.append_assoc, Automaton.run_append, run_tagMark,
      Option.bind_some, Automaton.run_append, run_name true hletters, Option.bind_some]
    cases blanks with
    | nil => rfl
    | cons c blanks =>
        obtain ⟨hc, hblanks⟩ := List.forall_mem_cons.1 hblanks
        have hne : c ≠ '>' := by
          rintro rfl
          exact absurd hc (by decide)
        have hstep : automaton.step (.name true element []) c = some (.closeBlank element) := by
          simp [automaton, ScanState.step, hne, hc]
        rw [List.cons_append, Automaton.run, hstep]
        exact run_closeBlank element hblanks

end IdlBindings.Markup
