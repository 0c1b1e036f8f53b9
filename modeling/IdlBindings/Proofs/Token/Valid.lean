import IdlBindings.Proofs.Token.Glyph
import IdlBindings.Token.Cursor

/-!
What a valid token looks like: a mark has its one text, a string has its quotes, and a name behind
its `_` is a name.
-/

namespace IdlBindings

open Token (LexState automaton)

namespace Token.LexState

/-- The kinds of the tokens that begin as the state says. -/
def kinds : LexState → List TokenKind
  | .start => []
  | .complete kind => [kind]
  | .dot => [.ellipsis, .decimal]
  | .dotDot => [.ellipsis]
  | .minus => [.minus, .identifier, .integer, .decimal]
  | .minusDot | .digits | .point | .fraction | .exponentMark | .exponentSign | .exponent => [.decimal]
  | .escape | .identifier => [.identifier]
  | .zero | .octal | .integer => [.integer, .decimal]
  | .hexMark | .hex => [.integer]
  | .quoted => [.string]
  | .blank => [.whitespace]
  | .slash => [.lineComment, .blockComment]
  | .lineComment => [.lineComment]
  | .blockComment | .blockCommentStar => [.blockComment]

theorem kinds_of_step {s t : LexState} {c : Char} (hs : s ≠ .start) (h : s.step c = some t) :
    t.kinds ⊆ s.kinds := by
  cases s with
  | start => exact absurd rfl hs
  | _ =>
      simp only [step, number?] at h
      repeat' split at h
      all_goals cases h
      all_goals decide

theorem ne_start_of_step {s t : LexState} {c : Char} (h : s.step c = some t) : t ≠ .start := by
  rintro rfl
  cases s <;> simp only [step, begin?, punctuation?, number?] at h <;> (repeat' split at h) <;> cases h

theorem accept_mem_kinds {s : LexState} {kind : TokenKind} (h : s.accept = some kind) :
    kind ∈ s.kinds := by
  cases s <;> simp_all [accept, kinds]

theorem accept_mem_kinds_of_run {s t : LexState} {cs : List Char} {kind : TokenKind}
    (hs : s ≠ .start) (hrun : automaton.run s cs = some t) (h : t.accept = some kind) :
    kind ∈ s.kinds := by
  induction cs generalizing s with
  | nil =>
      obtain rfl : s = t := Option.some.inj hrun
      exact accept_mem_kinds h
  | cons c cs ih =>
      obtain ⟨next, hstep, hrest⟩ := Option.bind_eq_some_iff.1 hrun
      exact kinds_of_step hs hstep (ih (ne_start_of_step hstep) hrest)

/-- Nothing comes behind a token that nothing extends. -/
theorem eq_nil_of_run_complete {kind : TokenKind} {cs : List Char} {t : LexState}
    (h : automaton.run (.complete kind) cs = some t) : cs = [] ∧ t = .complete kind := by
  cases cs with
  | nil => exact ⟨rfl, (Option.some.inj h).symm⟩
  | cons c cs => cases h

/-- A minus is a token only if it stands alone. -/
theorem eq_nil_of_run_minus {cs : List Char} {t : LexState} (h : automaton.run .minus cs = some t)
    (haccept : t.accept = some .minus) : cs = [] := by
  cases cs with
  | nil => rfl
  | cons c cs =>
      obtain ⟨next, hstep, hrest⟩ := Option.bind_eq_some_iff.1 h
      change LexState.step .minus c = some next at hstep
      have hmem := accept_mem_kinds_of_run (ne_start_of_step hstep) hrest haccept
      simp only [step] at hstep
      repeat' split at hstep
      all_goals cases hstep
      all_goals simp [kinds] at hmem

/-- Only more dots follow the first dot of an ellipsis. -/
theorem eq_dots_of_run_dot {cs : List Char} {t : LexState} (h : automaton.run .dot cs = some t)
    (haccept : t.accept = some .ellipsis) : cs = ['.', '.'] := by
  cases cs with
  | nil =>
      obtain rfl : LexState.dot = t := Option.some.inj h
      cases haccept
  | cons c cs =>
      obtain ⟨next, hstep, hrest⟩ := Option.bind_eq_some_iff.1 h
      change LexState.step .dot c = some next at hstep
      have hmem := accept_mem_kinds_of_run (ne_start_of_step hstep) hrest haccept
      simp only [step] at hstep
      split at hstep
      · cases hstep
        simp [kinds] at hmem
      · split at hstep
        · cases hstep
          cases cs with
          | nil =>
              obtain rfl : LexState.dotDot = t := Option.some.inj hrest
              cases haccept
          | cons d cs =>
              obtain ⟨last, hlast, hend⟩ := Option.bind_eq_some_iff.1 hrest
              change LexState.step .dotDot d = some last at hlast
              simp only [step] at hlast
              split at hlast
              · cases hlast
                obtain ⟨rfl, -⟩ := eq_nil_of_run_complete hend
                simp_all
              · cases hlast
        · cases hstep

/-- The content of a string ends with its closing quote. -/
theorem eq_append_of_run_quoted {cs : List Char} {t : LexState}
    (h : automaton.run .quoted cs = some t) (haccept : t.accept = some .string) :
    ∃ content, cs = content ++ ['"'] := by
  induction cs with
  | nil =>
      obtain rfl : LexState.quoted = t := Option.some.inj h
      cases haccept
  | cons c cs ih =>
      obtain ⟨next, hstep, hrest⟩ := Option.bind_eq_some_iff.1 h
      change LexState.step .quoted c = some next at hstep
      simp only [step] at hstep
      split at hstep
      · cases hstep
        obtain ⟨rfl, -⟩ := eq_nil_of_run_complete hrest
        exact ⟨[], by simp_all⟩
      · cases hstep
        obtain ⟨content, rfl⟩ := ih hrest
        exact ⟨c :: content, rfl⟩

/-- No state inside a name goes on with a blank. -/
theorem isBlank_eq_false_of_step {s t : LexState} {c : Char} (h : s.step c = some t)
    (hkind : .identifier ∈ s.kinds) : Token.isBlank c = false := by
  apply Bool.eq_false_iff.2
  intro hblank
  simp only [Token.isBlank, Bool.or_eq_true, beq_iff_eq] at hblank
  cases s <;> simp [kinds] at hkind <;> rcases hblank with ((rfl | rfl) | rfl) | rfl <;> cases h

/-- What every step inside a token of a kind tells of its character. -/
theorem forall_of_run {kind : TokenKind} {P : Char → Prop}
    (hP : ∀ s t c, LexState.step s c = some t → kind ∈ s.kinds → P c) {s t : LexState}
    {cs : List Char} (hs : s ≠ .start) (hrun : automaton.run s cs = some t)
    (haccept : t.accept = some kind) : ∀ c ∈ cs, P c := by
  induction cs generalizing s with
  | nil => exact List.forall_mem_nil _
  | cons c cs ih =>
      have hkind := accept_mem_kinds_of_run hs hrun haccept
      obtain ⟨next, hstep, hrest⟩ := Option.bind_eq_some_iff.1 hrun
      exact List.forall_mem_cons.2 ⟨hP s next c hstep hkind, ih (ne_start_of_step hstep) hrest⟩

theorem isBlank_eq_false_of_run {s t : LexState} {cs : List Char} (hs : s ≠ .start)
    (hrun : automaton.run s cs = some t) (haccept : t.accept = some .identifier) :
    ∀ c ∈ cs, Token.isBlank c = false :=
  forall_of_run (fun _ _ _ => isBlank_eq_false_of_step) hs hrun haccept

/-- No state inside an integer goes on with a sign. -/
theorem ne_minus_of_step {s t : LexState} {c : Char} (h : s.step c = some t)
    (hkind : .integer ∈ s.kinds) : c ≠ '-' := by
  rintro rfl
  cases s <;> simp [kinds] at hkind <;> cases h

end Token.LexState

namespace Glyph

/-- The first character of a token, and the state that it leads to. -/
theorem Valid.begin {g : Glyph} (h : g.Valid) : ∃ c cs s t, g.text.toList = c :: cs ∧
    LexState.begin? c = some s ∧ automaton.run s cs = some t ∧ t.accept = some g.kind ∧
      g.kind ∈ s.kinds := by
  obtain ⟨t, hrun, haccept⟩ := h
  cases hcs : g.text.toList with
  | nil =>
      rw [hcs] at hrun
      obtain rfl : LexState.start = t := Option.some.inj hrun
      cases haccept
  | cons c cs =>
      rw [hcs] at hrun
      obtain ⟨s, hstep, hrest⟩ := Option.bind_eq_some_iff.1 hrun
      change LexState.step .start c = some s at hstep
      exact ⟨c, cs, s, t, rfl, hstep, hrest, haccept,
        LexState.accept_mem_kinds_of_run (LexState.ne_start_of_step hstep) hrest haccept⟩

theorem eq_of_toList {g g' : Glyph} (hkind : g.kind = g'.kind)
    (htext : g.text.toList = g'.text.toList) : g = g' := by
  obtain ⟨kind, text⟩ := g
  obtain ⟨kind', text'⟩ := g'
  obtain rfl : kind = kind' := hkind
  obtain rfl : text = text' := String.toList_inj.1 htext
  rfl

theorem toList_markText_of_punctuation {c : Char} {kind : TokenKind}
    (h : LexState.punctuation? c = some kind) : (markText kind).toList = [c] := by
  unfold LexState.punctuation? at h
  split at h <;> cases h <;> rfl

/-- A mark is always written alike. -/
theorem Valid.eq_mark {g : Glyph} (h : g.Valid) (hmark : markText g.kind ≠ "") :
    g = mark g.kind := by
  obtain ⟨c, cs, s, t, htext, hbegin, hrun, haccept, hmem⟩ := h.begin
  refine eq_of_toList rfl ?_
  rw [htext]
  unfold LexState.begin? at hbegin
  split at hbegin
  · rename_i kind hkind
    cases hbegin
    obtain ⟨rfl, rfl⟩ := LexState.eq_nil_of_run_complete hrun
    obtain rfl : kind = g.kind := Option.some.inj haccept
    exact (toList_markText_of_punctuation hkind).symm
  · -- of the other first characters, only a minus and a dot can begin a mark
    have hother {s : LexState} (hmem : g.kind ∈ s.kinds) (hs : ∀ kind ∈ s.kinds, markText kind = "") :
        False := hmark (hs _ hmem)
    repeat' split at hbegin
    all_goals cases hbegin
    · exact absurd (by decide) (hother hmem)
    · exact absurd (by decide) (hother hmem)
    · exact absurd (by decide) (hother hmem)
    · exact absurd (by decide) (hother hmem)
    · simp only [LexState.kinds, List.mem_cons, List.not_mem_nil, or_false] at hmem
      rcases hmem with hkind | hkind
      · rw [hkind] at haccept ⊢
        rw [LexState.eq_dots_of_run_dot hrun haccept]
        rfl
      · rw [hkind] at hmark
        exact absurd rfl hmark
    · simp only [LexState.kinds, List.mem_cons, List.not_mem_nil, or_false] at hmem
      rcases hmem with hkind | hkind | hkind | hkind
      · rw [hkind] at haccept ⊢
        rw [LexState.eq_nil_of_run_minus hrun haccept]
        rfl
      all_goals
        rw [hkind] at hmark
        exact absurd rfl hmark
    · exact absurd (by decide) (hother hmem)
    · exact absurd (by decide) (hother hmem)
    · exact absurd (by decide) (hother hmem)

/-- A string is its content in quotes. -/
theorem Valid.eq_quoted {g : Glyph} (h : g.Valid) (hkind : g.kind = .string) :
    g = quoted (Parse.unquote g.text) := by
  obtain ⟨c, cs, s, t, htext, hbegin, hrun, haccept, hmem⟩ := h.begin
  rw [hkind] at haccept hmem
  have hquote : c = '"' ∧ s = .quoted := by
    unfold LexState.begin? at hbegin
    split at hbegin
    · rename_i kind hpunctuation
      cases hbegin
      simp only [LexState.kinds, List.mem_singleton] at hmem
      subst hmem
      unfold LexState.punctuation? at hpunctuation
      split at hpunctuation <;> cases hpunctuation
    · repeat' split at hbegin
      all_goals cases hbegin
      all_goals first
        | exact ⟨rfl, rfl⟩
        | simp [LexState.kinds] at hmem
  obtain ⟨rfl, rfl⟩ := hquote
  obtain ⟨content, rfl⟩ := LexState.eq_append_of_run_quoted hrun haccept
  refine eq_of_toList hkind ?_
  rw [quoted, Parse.unquote, htext]
  simp

theorem begin_letter {c : Char} (h : Token.isAsciiLetter c = true) :
    LexState.begin? c = some .identifier := by
  have hnone : LexState.punctuation? c = none := by
    unfold LexState.punctuation?
    split <;> first
      | rfl
      | cases h
  unfold LexState.begin?
  rw [hnone]
  exact if_pos h

/-- A name without its `_` is a name. -/
theorem Valid.unescape {g : Glyph} (h : g.Valid) (hkind : g.kind = .identifier) :
    (word (Parse.unescape g.text)).Proper := by
  obtain ⟨c, cs, s, t, htext, hbegin, hrun, haccept, hmem⟩ := h.begin
  by_cases hescape : c = '_'
  · subst hescape
    have hname : Parse.unescape g.text = String.ofList cs := by
      rw [Parse.unescape, htext]
      rfl
    obtain rfl : LexState.escape = s := Option.some.inj hbegin
    -- a letter comes behind the `_`
    cases cs with
    | nil =>
        obtain rfl : LexState.escape = t := Option.some.inj hrun
        cases haccept
    | cons d ds =>
        obtain ⟨next, hstep, hrest⟩ := Option.bind_eq_some_iff.1 hrun
        change LexState.step .escape d = some next at hstep
        simp only [LexState.step] at hstep
        split at hstep
        · rename_i hletter
          cases hstep
          rw [hname]
          refine ⟨⟨t, ?_, haccept.trans (congrArg some hkind)⟩, ?_⟩
          · simp only [word, String.toList_ofList, Automaton.run]
            rw [show automaton.step automaton.start d = some .identifier from begin_letter hletter]
            exact hrest
          · have hd : d ≠ '_' := by
              rintro rfl
              cases hletter
            simp [isEscaped, word, hd]
        · cases hstep
  · have hname : Parse.unescape g.text = g.text := by
      rw [Parse.unescape, htext]
      split
      · rename_i heq
        exact absurd (List.cons.inj heq).1 hescape
      · rfl
    rw [hname]
    have hword : g = word g.text := eq_of_toList hkind rfl
    refine ⟨hword ▸ h, ?_⟩
    rw [isEscaped, word, htext]
    simpa using hescape

/-- A name has no blanks. -/
theorem Valid.isBlank_eq_false {name : String} (h : (word name).Valid) :
    ∀ c ∈ name.toList, Token.isBlank c = false := by
  obtain ⟨c, cs, s, t, htext, hbegin, hrun, haccept, hmem⟩ := h.begin
  have hfirst : Token.isBlank c = false := by
    apply Bool.eq_false_iff.2
    intro hblank
    obtain rfl := Option.some.inj ((begin_blank hblank).symm.trans hbegin)
    simp [word, LexState.kinds] at hmem
  have hstep : LexState.step .start c = some s := hbegin
  have hrest := LexState.isBlank_eq_false_of_run (LexState.ne_start_of_step hstep) hrun haccept
  rw [show name.toList = c :: cs from htext]
  exact List.forall_mem_cons.2 ⟨hfirst, hrest⟩

/-- A stored name does not begin with the `_` that escapes a name. -/
theorem Proper.head?_ne {name : String} (h : (word name).Proper) :
    name.toList.head? ≠ some '_' := by
  have hbare := h.2
  simpa [isEscaped, word] using hbare

end Glyph

end IdlBindings
