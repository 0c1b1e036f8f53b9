import IdlBindings.Proofs.Text.Key
import IdlBindings.Proofs.Token.Valid

/-!
Names as they are stored and as they are written. A stored name is made of letters, digits, `_` and
`-` and begins with a letter or a `-`, so it can stand bare exactly if it has no `-`
(`Text.isIdentifier_iff`). A parameter is written with `_` in place of each `-`, or with a `_` more
for a reserved word (`Text.parameterName_of_proper`).
-/

namespace IdlBindings

open Glyph
open Token (LexState)

/-! ### Characters -/

namespace Token

theorem isAsciiLetter_eq (c : Char) : isAsciiLetter c = c.isAlpha := by
  have hupper : (decide ('A' ≤ c) && decide (c ≤ 'Z')) = c.isUpper := by
    rw [Bool.eq_iff_iff, Bool.and_eq_true, decide_eq_true_eq, decide_eq_true_eq]
    exact decide_eq_true_iff.symm
  calc isAsciiLetter c = (c.isLower || (decide ('A' ≤ c) && decide (c ≤ 'Z'))) := rfl
    _ = (c.isLower || c.isUpper) := by rw [hupper]
    _ = c.isAlpha := Bool.or_comm ..

theorem isAsciiDigit_eq (c : Char) : isAsciiDigit c = c.isDigit := rfl

/-- A character of a name is one of a bare name or a `-`. -/
theorem isIdentifierRest_iff {c : Char} :
    isIdentifierRest c = true ↔ c.isAlphanum = true ∨ c = '_' ∨ c = '-' := by
  simp only [isIdentifierRest, isAsciiLetter_eq, isAsciiDigit_eq, Char.isAlphanum, Bool.or_eq_true,
    beq_iff_eq, or_assoc]

namespace LexState

/-- Only a letter, a `-` or a `_` begins a name. -/
theorem first_of_begin {c : Char} {s : LexState} (h : begin? c = some s)
    (hkind : .identifier ∈ s.kinds) : isAsciiLetter c = true ∨ c = '-' ∨ c = '_' := by
  unfold begin? at h
  split at h
  · rename_i kind hpunctuation
    cases h
    obtain rfl : TokenKind.identifier = kind := List.mem_singleton.1 hkind
    unfold punctuation? at hpunctuation
    split at hpunctuation <;> cases hpunctuation
  · repeat' split at h
    all_goals cases h
    all_goals simp_all [kinds]

/-- Inside a name only the characters of names lead on. -/
theorem isIdentifierRest_of_step {s t : LexState} {c : Char} (h : s.step c = some t)
    (hs : .identifier ∈ s.kinds) (ht : .identifier ∈ t.kinds) : isIdentifierRest c = true := by
  cases s <;> simp only [kinds, List.mem_cons, List.not_mem_nil, reduceCtorEq, or_false] at hs
  all_goals simp only [step] at h
  all_goals repeat' split at h
  all_goals cases h
  all_goals simp_all [kinds, isIdentifierRest]

theorem isIdentifierRest_of_run {s t : LexState} {cs : List Char} (hs : s ≠ .start)
    (hrun : automaton.run s cs = some t) (haccept : t.accept = some .identifier) :
    ∀ c ∈ cs, isIdentifierRest c = true := by
  induction cs generalizing s with
  | nil => exact List.forall_mem_nil _
  | cons c cs ih =>
      have hkind := accept_mem_kinds_of_run hs hrun haccept
      obtain ⟨next, hstep, hrest⟩ := Option.bind_eq_some_iff.1 hrun
      have hnext := ne_start_of_step hstep
      have hnextKind := accept_mem_kinds_of_run hnext hrest haccept
      exact List.forall_mem_cons.2
        ⟨isIdentifierRest_of_step hstep hkind hnextKind, ih hnext hrest⟩

end LexState

end Token

/-- A stored name begins with a letter or a `-`. -/
theorem Glyph.Proper.first {name : String} (h : (word name).Proper) :
    ∃ c cs, name.toList = c :: cs ∧ (c.isAlpha = true ∨ c = '-') ∧
      ∀ d ∈ cs, Token.isIdentifierRest d = true := by
  obtain ⟨c, cs, s, t, htext, hbegin, hrun, haccept, hmem⟩ := h.1.begin
  have hstart : s ≠ .start := LexState.ne_start_of_step (s := .start) hbegin
  refine ⟨c, cs, htext, ?_, LexState.isIdentifierRest_of_run hstart hrun haccept⟩
  rw [← Token.isAsciiLetter_eq]
  rcases LexState.first_of_begin hbegin hmem with hletter | hminus | rfl
  · exact .inl hletter
  · exact .inr hminus
  · have hbare := h.head?_ne
    rw [show name.toList = '_' :: cs from htext] at hbare
    exact absurd rfl hbare

theorem Glyph.Proper.isIdentifierRest {name : String} (h : (word name).Proper) :
    ∀ c ∈ name.toList, Token.isIdentifierRest c = true := by
  obtain ⟨c, cs, htext, hfirst, hrest⟩ := h.first
  rw [htext]
  refine List.forall_mem_cons.2 ⟨Token.isIdentifierRest_iff.2 ?_, hrest⟩
  exact hfirst.imp (fun hletter => by simp [Char.isAlphanum, hletter]) .inr

/-! ### Bare names -/

namespace Text

theorem isNameRest_iff {c : Char} :
    isNameRest c = true ↔ c.isAlphanum = true ∨ c = '_' ∨ c = '$' := by
  simp only [isNameRest, Bool.or_eq_true, beq_iff_eq, or_assoc]

variable {name : String}

/-- A stored name can stand bare exactly if it has no `-`. -/
theorem isIdentifier_iff (h : (word name).Proper) :
    isIdentifier name = true ↔ '-' ∉ name.toList := by
  obtain ⟨c, cs, htext, hfirst, hrest⟩ := h.first
  constructor
  · intro hname hmem
    exact absurd (all_of_isIdentifier hname '-' hmem) (by decide)
  · intro hminus
    rw [htext, List.mem_cons, not_or] at hminus
    obtain ⟨hc, hcs⟩ := hminus
    have hletter : c.isAlpha = true := hfirst.resolve_right (Ne.symm hc)
    rw [isIdentifier, htext, Bool.and_eq_true, List.all_eq_true]
    refine ⟨by simp [isNameStart, hletter], fun d hd => ?_⟩
    rcases Token.isIdentifierRest_iff.1 (hrest d hd) with halnum | hscore | rfl
    · exact isNameRest_iff.2 (.inl halnum)
    · exact isNameRest_iff.2 (.inr (.inl hscore))
    · exact absurd hd hcs

/-! ### The names of parameters -/

/-- The name with a `_` in place of each `-`. -/
def underscored (name : String) : String :=
  String.ofList (name.toList.map fun c => if c = '-' then '_' else c)

theorem underscored_eq_self (h : '-' ∉ name.toList) : underscored name = name := by
  have hsame : ∀ c ∈ name.toList, (if c = '-' then '_' else c) = c := by
    intro c hc
    have hminus : c ≠ '-' := fun heq => h (heq ▸ hc)
    exact if_neg hminus
  rw [underscored, List.map_congr_left hsame, List.map_id', String.ofList_toList]

theorem mem_underscored (h : '-' ∈ name.toList) : '_' ∈ (underscored name).toList := by
  rw [underscored, String.toList_ofList, List.mem_map]
  exact ⟨'-', h, if_pos rfl⟩

theorem not_mem_of_isReservedWord (h : isReservedWord name = true) :
    '_' ∉ name.toList ∧ '-' ∉ name.toList := by
  have hall : ∀ word ∈ reservedWords, '_' ∉ word.toList ∧ '-' ∉ word.toList := by decide
  exact hall name (List.contains_iff_mem.1 h)

theorem underscored_of_isReservedWord (h : isReservedWord name = true) : underscored name = name :=
  underscored_eq_self (not_mem_of_isReservedWord h).2

/-- No reserved word comes from another name. -/
theorem isReservedWord_underscored : isReservedWord (underscored name) = isReservedWord name := by
  rw [Bool.eq_iff_iff]
  constructor
  · intro h
    have hminus : '-' ∉ name.toList := fun hmem =>
      (not_mem_of_isReservedWord h).1 (mem_underscored hmem)
    rwa [underscored_eq_self hminus] at h
  · intro h
    rwa [underscored_of_isReservedWord h]

/-- Whatever a parameter is called, the name that is written for it can stand bare. -/
theorem isIdentifier_parameterName (name : String) : isIdentifier (parameterName name) = true := by
  unfold parameterName
  extract_lets bare written
  by_cases hreserved : isReservedWord written = true
  · have hall : ∀ word ∈ reservedWords, isIdentifier (word ++ "_") = true := by decide
    rw [if_pos hreserved]
    exact hall written (List.contains_iff_mem.1 hreserved)
  rw [if_neg hreserved]
  by_cases hname : isIdentifier written = true
  · rw [if_pos hname]
    exact hname
  · rw [if_neg hname, isIdentifier, String.toList_append]
    change (isNameStart '_' && written.toList.all isNameRest) = true
    rw [Bool.and_eq_true, List.all_eq_true]
    refine ⟨by decide, fun d hd => ?_⟩
    obtain ⟨c, -, rfl⟩ := List.mem_map.1 (String.toList_ofList ▸ hd)
    split
    · rename_i hc
      rcases Bool.or_eq_true_iff.1 hc with halnum | hdollar
      · exact isNameRest_iff.2 (.inl halnum)
      · exact isNameRest_iff.2 (.inr (.inr (beq_iff_eq.1 hdollar)))
    · decide

theorem isIdentifier_underscored (h : (word name).Proper) :
    isIdentifier (underscored name) = true := by
  obtain ⟨c, cs, htext, hfirst, hrest⟩ := h.first
  rw [isIdentifier, underscored, String.toList_ofList, htext, List.map_cons]
  change (isNameStart (if c = '-' then '_' else c) && _) = true
  rw [Bool.and_eq_true, List.all_eq_true, List.forall_mem_map]
  constructor
  · split
    · decide
    · rename_i hc
      simp [isNameStart, hfirst.resolve_right hc]
  · intro d hd
    split
    · decide
    · rename_i hminus
      rcases Token.isIdentifierRest_iff.1 (hrest d hd) with halnum | hscore | hd
      · exact isNameRest_iff.2 (.inl halnum)
      · exact isNameRest_iff.2 (.inr (.inl hscore))
      · exact absurd hd hminus

/-- The name with a `_` in place of each character that no name of a parameter has. -/
def cleaned (name : String) : String :=
  String.ofList (name.toList.map fun c => if c.isAlphanum || c == '$' then c else '_')

/-- Without a `_` at its beginning nothing is taken from the name. -/
theorem parameterName_of_head (h : name.toList.head? ≠ some '_') :
    parameterName name = if isReservedWord (cleaned name) then cleaned name ++ "_"
      else if isIdentifier (cleaned name) then cleaned name else "_" ++ cleaned name := by
  unfold parameterName
  extract_lets bare written
  have hbare : bare = name.toList := by
    simp only [bare]
    split
    · rename_i heq
      exact absurd (heq ▸ rfl) h
    · rfl
  have hwritten : written = cleaned name := by
    simp only [written, hbare, cleaned]
  rw [hwritten]

/-- The name of a parameter is the stored name with a `_` in place of each `-`, and a reserved word
gets a `_` more. -/
theorem parameterName_of_proper (h : (word name).Proper) :
    parameterName name = if isReservedWord name then name ++ "_" else underscored name := by
  have hcleaned : cleaned name = underscored name := by
    rw [cleaned, underscored]
    congr 1
    apply List.map_congr_left
    intro d hd
    rcases Token.isIdentifierRest_iff.1 (h.isIdentifierRest d hd) with halnum | rfl | rfl
    · have hminus : d ≠ '-' := by
        rintro rfl
        cases halnum
      rw [if_neg hminus, halnum, Bool.true_or, if_pos rfl]
    · rfl
    · rfl
  rw [parameterName_of_head h.head?_ne, hcleaned, isReservedWord_underscored,
    isIdentifier_underscored h, if_pos rfl]
  by_cases hreserved : isReservedWord name = true
  · rw [if_pos hreserved, if_pos hreserved, underscored_of_isReservedWord hreserved]
  · rw [if_neg hreserved, if_neg hreserved]

end Text

end IdlBindings
