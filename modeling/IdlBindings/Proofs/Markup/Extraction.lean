import IdlBindings.Markup.Fragment
import IdlBindings.Proofs.Markup.Tag

/-!
Extraction turn by turn. A turn takes a piece of prose, a comment or a block off the front of the
text (`Turn`) unless something is wrong there (`Fault`). `Passes` is a run of turns; extraction
gives what such a run to the end finds (`fragmentsFrom_eq_ok_iff`), or the fault at which one stops
(`fragmentsFrom_eq_error_iff`).
-/

namespace IdlBindings.Markup

theorem exists_append_of_commentBody? {text body : List Char} (h : commentBody? text = some body) :
    ∃ rest, text = body ++ rest := by
  fun_induction commentBody? text generalizing body with
  | case1 rest =>
      cases h
      exact ⟨rest, rfl⟩
  | case2 => cases h
  | case3 c rest _ ih =>
      obtain ⟨inner, hinner, rfl⟩ := Option.map_eq_some_iff.1 h
      obtain ⟨behind, rfl⟩ := ih hinner
      exact ⟨behind, rfl⟩

/-- Extraction goes by the first piece of markup. -/
theorem fragmentsFrom_first {offset : Nat} {piece rest : List Char} (hne : piece ≠ [])
    (hlength : (automaton.first (piece ++ rest)).2 = piece.length) :
    fragmentsFrom offset (piece ++ rest) =
      let stop := offset + byteLength piece
      match (automaton.first (piece ++ rest)).1 with
      | some .commentOpen =>
        match commentBody? rest with
        | some body => fragmentsFrom (stop + byteLength body) (rest.drop body.length)
        | none => .error (.ofKind .unterminatedComment ⟨offset, stop⟩ none)
      | some (.blockOpen element) =>
        match findClose element stop rest with
        | .closed content tag => do
          let block := content ++ tag
          let others ← fragmentsFrom (stop + byteLength block) (rest.drop block.length)
          if carriesIdl element piece then
            return ⟨element, stop, ⟨offset, stop⟩, String.ofList content⟩ :: others
          else
            return others
        | .interrupted opening =>
          .error <| (Diagnostic.report .interruptedBlock ⟨offset, stop⟩ element.name).withRelated
            "IDL block opens here" opening
        | .missing => .error (.report .unterminatedBlock ⟨offset, stop⟩ element.name)
      | _ => fragmentsFrom stop rest := by
  obtain ⟨c, cs, rfl⟩ := List.exists_cons_of_ne_nil hne
  rw [List.cons_append] at hlength ⊢
  have hround := fragmentsFrom.eq_2 offset c (cs ++ rest)
  rw [hlength, ← List.cons_append, List.take_left, List.drop_left] at hround
  exact hround

theorem exists_append_of_findClose {element : Element} {offset : Nat} {text content tag : List Char}
    (h : findClose element offset text = .closed content tag) :
    ∃ rest, text = content ++ (tag ++ rest) := by
  fun_induction findClose element offset text generalizing content tag with
  | case2 =>
      cases h
      exact ⟨_, (List.take_append_drop ..).symm⟩
  | case4 =>
      rename_i hfound ih
      cases h
      obtain ⟨rest, hrest⟩ := ih hfound
      exact ⟨rest, by rw [List.append_assoc, ← hrest, List.take_append_drop]⟩
  | _ => cases h

/-- Whether a piece of markup begins a comment or a block. -/
def opens : Option TokenKind → Bool
  | some .commentOpen | some (.blockOpen _) => true
  | _ => false

/-- What a block gives: its content, if the opening tag marks it. -/
def blockFragments (element : Element) (offset : Nat) (opening content : List Char) :
    List Fragment :=
  let start := offset + byteLength opening
  if carriesIdl element opening then [⟨element, start, ⟨offset, start⟩, String.ofList content⟩]
  else []

/-- Extraction at byte `offset` takes `piece` off the text, in front of `rest`, and finds `found`. -/
inductive Turn (offset : Nat) (rest : List Char) : List Char → List Fragment → Prop
  | prose {piece : List Char} {kind : Option TokenKind} (hne : piece ≠ [])
      (hfirst : automaton.first (piece ++ rest) = (kind, piece.length)) (hkind : opens kind = false) :
      Turn offset rest piece []
  | comment {opening body : List Char} (hne : opening ≠ [])
      (hfirst : automaton.first (opening ++ (body ++ rest)) = (some .commentOpen, opening.length))
      (hbody : commentBody? (body ++ rest) = some body) : Turn offset rest (opening ++ body) []
  | block {element : Element} {opening content closing : List Char} (hne : opening ≠ [])
      (hfirst : automaton.first (opening ++ (content ++ (closing ++ rest)))
        = (some (.blockOpen element), opening.length))
      (hclose : findClose element (offset + byteLength opening) (content ++ (closing ++ rest))
        = .closed content closing) :
      Turn offset rest (opening ++ (content ++ closing))
        (blockFragments element offset opening content)

/-- What is wrong at the front of the text. -/
inductive Fault (offset : Nat) : List Char → Diagnostic → Prop
  | comment {opening rest : List Char} (hne : opening ≠ [])
      (hfirst : automaton.first (opening ++ rest) = (some .commentOpen, opening.length))
      (hbody : commentBody? rest = none) :
      Fault offset (opening ++ rest)
        (.ofKind .unterminatedComment ⟨offset, offset + byteLength opening⟩ none)
  | interrupted {element : Element} {opening rest : List Char} {inner : Span} (hne : opening ≠ [])
      (hfirst : automaton.first (opening ++ rest) = (some (.blockOpen element), opening.length))
      (hclose : findClose element (offset + byteLength opening) rest = .interrupted inner) :
      Fault offset (opening ++ rest)
        ((Diagnostic.report .interruptedBlock ⟨offset, offset + byteLength opening⟩
          element.name).withRelated "IDL block opens here" inner)
  | unterminated {element : Element} {opening rest : List Char} (hne : opening ≠ [])
      (hfirst : automaton.first (opening ++ rest) = (some (.blockOpen element), opening.length))
      (hclose : findClose element (offset + byteLength opening) rest = .missing) :
      Fault offset (opening ++ rest)
        (.report .unterminatedBlock ⟨offset, offset + byteLength opening⟩ element.name)

variable {offset : Nat} {text rest piece : List Char} {found : List Fragment} {d : Diagnostic}

/-- The text in front of which a turn stands or fails. -/
theorem exists_first {text : List Char} (hne : text ≠ []) : ∃ kind piece rest,
    text = piece ++ rest ∧ piece ≠ [] ∧ automaton.first text = (kind, piece.length) := by
  have hle := Automaton.first_le_length (A := automaton) hne
  have hpos := automaton.one_le_first text
  have hlength : (text.take (automaton.first text).2).length = (automaton.first text).2 :=
    List.length_take_of_le hle
  refine ⟨(automaton.first text).1, text.take (automaton.first text).2,
    text.drop (automaton.first text).2, (List.take_append_drop ..).symm, ?_, by rw [hlength]⟩
  rw [← List.length_pos_iff, hlength]
  exact hpos

theorem turn_or_fault (offset : Nat) (hne : text ≠ []) :
    (∃ piece rest found, text = piece ++ rest ∧ Turn offset rest piece found) ∨
      ∃ d, Fault offset text d := by
  obtain ⟨kind, opening, behind, rfl, hopening, hfirst⟩ := exists_first hne
  cases hopens : opens kind with
  | false => exact .inl ⟨opening, behind, [], rfl, .prose hopening hfirst hopens⟩
  | true =>
      unfold opens at hopens
      split at hopens
      · cases hbody : commentBody? behind with
        | none => exact .inr ⟨_, .comment hopening hfirst hbody⟩
        | some body =>
            obtain ⟨rest, rfl⟩ := exists_append_of_commentBody? hbody
            exact .inl ⟨opening ++ body, rest, [], (List.append_assoc ..).symm,
              .comment hopening hfirst hbody⟩
      · rename_i element
        cases hclose : findClose element (offset + byteLength opening) behind with
        | missing => exact .inr ⟨_, .unterminated hopening hfirst hclose⟩
        | interrupted inner => exact .inr ⟨_, .interrupted hopening hfirst hclose⟩
        | closed content closing =>
            obtain ⟨rest, rfl⟩ := exists_append_of_findClose hclose
            refine .inl ⟨opening ++ (content ++ closing), rest, _, ?_,
              .block hopening hfirst hclose⟩
            rw [List.append_assoc, List.append_assoc]
      · cases hopens

theorem fragmentsFrom_nil (offset : Nat) : fragmentsFrom offset [] = .ok [] := by
  rw [fragmentsFrom.eq_def]

namespace Turn

theorem ne_nil (h : Turn offset rest piece found) : piece ≠ [] := by
  cases h with
  | prose hne => exact hne
  | comment hne => exact List.append_ne_nil_of_left_ne_nil hne _
  | block hne => exact List.append_ne_nil_of_left_ne_nil hne _

/-- Extraction goes on behind a turn. -/
theorem fragmentsFrom_eq (h : Turn offset rest piece found) : fragmentsFrom offset (piece ++ rest)
    = (found ++ ·) <$> fragmentsFrom (offset + byteLength piece) rest := by
  have hnone (result : Except Diagnostic (List Fragment)) :
      result = (([] : List Fragment) ++ ·) <$> result := (id_map result).symm
  cases h with
  | prose hne hfirst hkind =>
      rw [fragmentsFrom_first hne (by rw [hfirst]), hfirst, ← hnone]
      unfold opens at hkind
      split at hkind
      · cases hkind
      · cases hkind
      · rfl
  | comment hne hfirst hbody =>
      rw [List.append_assoc, fragmentsFrom_first hne (by rw [hfirst]), hfirst, ← hnone]
      simp only [hbody]
      rw [List.drop_left, byteLength_append, Nat.add_assoc]
  | block hne hfirst hclose =>
      rename_i element opening content closing
      rw [List.append_assoc, List.append_assoc, fragmentsFrom_first hne (by rw [hfirst]), hfirst]
      simp only [hclose]
      rw [← List.append_assoc content, List.drop_left, byteLength_append opening, ← Nat.add_assoc,
        blockFragments]
      cases carriesIdl element opening <;> rfl

end Turn

/-- Extraction stops at a fault. -/
theorem Fault.fragmentsFrom_eq (h : Fault offset text d) : fragmentsFrom offset text = .error d := by
  cases h with
  | comment hne hfirst hbody =>
      rw [fragmentsFrom_first hne (by rw [hfirst]), hfirst]
      simp only [hbody]
  | interrupted hne hfirst hclose =>
      rw [fragmentsFrom_first hne (by rw [hfirst]), hfirst]
      simp only [hclose]
  | unterminated hne hfirst hclose =>
      rw [fragmentsFrom_first hne (by rw [hfirst]), hfirst]
      simp only [hclose]

/-- Extraction takes `text` turn by turn, in front of `rest`, and finds `found`. -/
inductive Passes : Nat → List Char → List Char → List Fragment → Prop
  | nil {offset : Nat} {rest : List Char} : Passes offset rest [] []
  | cons {offset : Nat} {piece text rest : List Char} {here found : List Fragment}
      (hturn : Turn offset (text ++ rest) piece here)
      (hrest : Passes (offset + byteLength piece) rest text found) :
      Passes offset rest (piece ++ text) (here ++ found)

namespace Passes

theorem single (h : Turn offset rest piece found) : Passes offset rest piece found := by
  have hpasses : Passes offset rest (piece ++ []) (found ++ []) := .cons h .nil
  rwa [List.append_nil, List.append_nil] at hpasses

theorem append {more : List Char} {others : List Fragment}
    (h : Passes offset (more ++ rest) text found)
    (hmore : Passes (offset + byteLength text) rest more others) :
    Passes offset rest (text ++ more) (found ++ others) := by
  generalize hbehind : more ++ rest = behind at h
  induction h with
  | nil => exact hmore
  | cons hturn hrest ih =>
      subst hbehind
      rw [List.append_assoc, List.append_assoc]
      rw [byteLength_append, ← Nat.add_assoc] at hmore
      refine .cons ?_ (ih hmore rfl)
      rwa [List.append_assoc]

/-- Extraction goes on behind a run. -/
theorem fragmentsFrom_eq (h : Passes offset rest text found) : fragmentsFrom offset (text ++ rest)
    = (found ++ ·) <$> fragmentsFrom (offset + byteLength text) rest := by
  induction h with
  | nil => exact (id_map _).symm
  | cons hturn hrest ih =>
      rw [List.append_assoc, hturn.fragmentsFrom_eq, ih, byteLength_append, Nat.add_assoc,
        ← comp_map]
      simp only [Function.comp_def, List.append_assoc]

end Passes

/-- A run comes to the end of the text or to a fault. -/
theorem passes_or_fault (offset : Nat) (text : List Char) :
    (∃ found, Passes offset [] text found) ∨ ∃ before rest found d, text = before ++ rest ∧
      Passes offset rest before found ∧ Fault (offset + byteLength before) rest d := by
  -- every turn takes something, so the induction is on the length of what is left
  induction hlength : text.length using Nat.strongRecOn generalizing offset text with
  | ind length ih =>
      by_cases hne : text = []
      · subst hne
        exact .inl ⟨[], .nil⟩
      rcases turn_or_fault offset hne with ⟨piece, rest, here, rfl, hturn⟩ | ⟨d, hfault⟩
      · have hpiece := List.length_pos_iff.2 hturn.ne_nil
        rw [List.length_append] at hlength
        rcases ih rest.length (by omega) (offset + byteLength piece) rest rfl with
          ⟨found, hrest⟩ | ⟨before, behind, found, d, rfl, hrest, hfault⟩
        · exact .inl ⟨here ++ found, .cons (by rwa [List.append_nil]) hrest⟩
        · refine .inr ⟨piece ++ before, behind, here ++ found, d, ?_, .cons hturn hrest, ?_⟩
          · rw [List.append_assoc]
          · rwa [byteLength_append, ← Nat.add_assoc]
      · exact .inr ⟨[], text, [], d, rfl, .nil, hfault⟩

theorem fragmentsFrom_eq_ok_iff :
    fragmentsFrom offset text = .ok found ↔ Passes offset [] text found := by
  constructor
  · intro hrun
    rcases passes_or_fault offset text with ⟨others, h⟩ | ⟨before, rest, others, d, rfl, h, hfault⟩
    · have hall := h.fragmentsFrom_eq
      rw [List.append_nil, hrun, fragmentsFrom_nil] at hall
      obtain rfl : found = others ++ [] := Except.ok.inj hall
      rwa [List.append_nil]
    · rw [h.fragmentsFrom_eq, hfault.fragmentsFrom_eq] at hrun
      cases hrun
  · intro h
    have hall := h.fragmentsFrom_eq
    rw [List.append_nil, fragmentsFrom_nil] at hall
    rw [hall]
    exact congrArg Except.ok (List.append_nil found)

theorem fragmentsFrom_eq_error_iff : fragmentsFrom offset text = .error d ↔
    ∃ before rest found, text = before ++ rest ∧ Passes offset rest before found ∧
      Fault (offset + byteLength before) rest d := by
  constructor
  · intro hrun
    rcases passes_or_fault offset text with ⟨found, h⟩ | ⟨before, rest, found, e, rfl, h, hfault⟩
    · rw [fragmentsFrom_eq_ok_iff.2 h] at hrun
      cases hrun
    · rw [h.fragmentsFrom_eq, hfault.fragmentsFrom_eq] at hrun
      cases hrun
      exact ⟨before, rest, found, rfl, h, hfault⟩
  · rintro ⟨before, rest, found, rfl, h, hfault⟩
    rw [h.fragmentsFrom_eq, hfault.fragmentsFrom_eq]
    rfl

end IdlBindings.Markup
