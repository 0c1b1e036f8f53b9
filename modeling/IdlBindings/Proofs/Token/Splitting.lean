import IdlBindings.Proofs.Token.Place
import IdlBindings.Proofs.Token.Valid

/-!
The tokens of two texts with a line feed between. A line feed only goes on with blanks, or with a
string or a comment that is still open. A text that stops inside one of the last two leaves garbage
at its end; behind any other text the line feed begins anew (`Token.significant_newline`).
-/

namespace IdlBindings

namespace Automaton

variable {σ κ : Type} {A : Automaton σ κ} {c : Char} {cs rest : List Char}

/-- A character that does not go on with the text changes nothing before it. -/
theorem munch_append_of_stop {s : σ} (h : ∀ t, A.run s cs = some t → A.step t c = none) :
    A.munch s (cs ++ c :: rest) = A.munch s cs := by
  induction cs generalizing s with
  | nil => simp only [List.nil_append, munch, h s rfl]
  | cons d cs ih =>
      rw [List.cons_append, munch, munch]
      cases hstep : A.step s d with
      | none => rfl
      | some next =>
          have hnext : ∀ t, A.run next cs = some t → A.step t c = none := by
            intro t ht
            apply h t
            rw [run, hstep]
            exact ht
          simp only [ih hnext]

theorem scan_of_ne_nil (hne : cs ≠ []) :
    A.scan cs = ⟨(A.first cs).1, cs.take (A.first cs).2⟩ :: A.scan (cs.drop (A.first cs).2) := by
  cases cs with
  | nil => exact absurd rfl hne
  | cons d cs => rw [scan]

theorem scan_append_of_stop (hne : cs ≠ [])
    (h : ∀ t, A.run A.start cs = some t → A.step t c = none) :
    A.scan (cs ++ c :: rest) = ⟨(A.first cs).1, cs.take (A.first cs).2⟩
      :: A.scan (cs.drop (A.first cs).2 ++ c :: rest) := by
  have hfirst : A.first (cs ++ c :: rest) = A.first cs := by
    rw [first, first, munch_append_of_stop h]
  have hle := A.first_le_length hne
  rw [scan_of_ne_nil (List.append_ne_nil_of_left_ne_nil hne _), hfirst,
    List.take_append_of_le_length hle, List.drop_append_of_le_length hle]

end Automaton

namespace Token

open Glyph (scan_takeWhile_blank)

/-! ### States that a line feed goes on from -/

namespace LexState

/-- The states in which nothing has been a token yet and a character may be anything. -/
def waiting : List LexState := [.start, .slash, .quoted, .blockComment, .blockCommentStar]

theorem mem_waiting_of_step {s t : LexState} {c : Char} (h : s.step c = some t)
    (ht : t ∈ waiting) : s ∈ waiting := by
  cases s <;> simp only [step, begin?, punctuation?, number?] at h <;> (repeat' split at h) <;>
    cases h <;> first
      | decide
      | exact absurd ht (by decide)

theorem blank_of_step {s : LexState} {c : Char} (h : s.step c = some .blank) :
    (s = .start ∨ s = .blank) ∧ isBlank c = true := by
  cases s <;> simp only [step, begin?, number?] at h <;> (repeat' split at h) <;> cases h
  · exact ⟨.inl rfl, ‹_›⟩
  · exact ⟨.inr rfl, ‹_›⟩

/-- A line feed goes on from a state that waits, or between blanks. -/
theorem eq_blank_or_mem_waiting {s t : LexState} (h : s.step '\n' = some t) :
    s = .blank ∨ s ∈ waiting := by
  cases s <;> first
    | exact .inl rfl
    | exact .inr (by decide)
    | cases h

theorem accept_of_mem_waiting {s : LexState} (h : s ∈ waiting) : s.accept = none := by
  revert s
  decide

/-- Nothing is accepted on the way to a state that waits. -/
theorem munch_of_mem_waiting {s t : LexState} {cs : List Char} (hrun : automaton.run s cs = some t)
    (ht : t ∈ waiting) : s ∈ waiting ∧ automaton.munch s cs = ⟨none, cs.length⟩ := by
  induction cs generalizing s with
  | nil =>
      obtain rfl : s = t := Option.some.inj hrun
      refine ⟨ht, ?_⟩
      rw [Automaton.munch, show automaton.accept s = none from accept_of_mem_waiting ht]
      rfl
  | cons c cs ih =>
      obtain ⟨next, hstep, hrest⟩ := Option.bind_eq_some_iff.1 hrun
      obtain ⟨hnext, hmunch⟩ := ih hrest
      have hs : s ∈ waiting := mem_waiting_of_step hstep hnext
      refine ⟨hs, ?_⟩
      rw [Automaton.munch, hstep]
      simp only [hmunch]
      rw [show automaton.accept s = none from accept_of_mem_waiting hs]
      rfl

theorem forall_blank_of_run {s : LexState} {cs : List Char}
    (hrun : automaton.run s cs = some .blank) :
    (s = .start ∨ s = .blank) ∧ ∀ c ∈ cs, isBlank c = true := by
  induction cs generalizing s with
  | nil => exact ⟨.inr (Option.some.inj hrun), List.forall_mem_nil _⟩
  | cons c cs ih =>
      obtain ⟨next, hstep, hrest⟩ := Option.bind_eq_some_iff.1 hrun
      obtain ⟨hnext, hblank⟩ := ih hrest
      obtain rfl : next = .blank := hnext.resolve_left (ne_start_of_step hstep)
      obtain ⟨hs, hc⟩ := blank_of_step hstep
      exact ⟨hs, List.forall_mem_cons.2 ⟨hc, hblank⟩⟩

end LexState

/-! ### Pieces of a scan -/

/-- A text leaves garbage at its end, or it ends with some blanks in front of which a line feed
leaves all the lexemes as they are. -/
theorem scan_newline (cs : List Char) :
    (∃ front text, automaton.scan cs = front ++ [⟨none, text⟩]) ∨
      ∃ front blanks, (∀ c ∈ blanks, isBlank c = true)
        ∧ automaton.scan cs = front ++ automaton.scan blanks
        ∧ ∀ rest, automaton.scan (cs ++ '\n' :: rest)
          = front ++ automaton.scan (blanks ++ '\n' :: rest) := by
  fun_induction Automaton.scan automaton cs with
  | case1 => exact .inr ⟨[], [], List.forall_mem_nil _, by rw [Automaton.scan]; rfl, fun _ => rfl⟩
  | case2 c cs next ih =>
      have hne : c :: cs ≠ [] := List.cons_ne_nil c cs
      by_cases hgoes : ∃ t after, automaton.run .start (c :: cs) = some t
          ∧ LexState.step t '\n' = some after
      · obtain ⟨t, after, hrun, hafter⟩ := hgoes
        rcases LexState.eq_blank_or_mem_waiting hafter with rfl | hwaiting
        · exact .inr ⟨[], c :: cs, (LexState.forall_blank_of_run hrun).2,
            (Automaton.scan_of_ne_nil hne).symm, fun _ => rfl⟩
        · -- the whole text is one lexeme, which is no token
          have hmunch := (LexState.munch_of_mem_waiting hrun hwaiting).2
          have hnext : next = (none, (c :: cs).length) := by
            change automaton.first (c :: cs) = _
            rw [Automaton.first, show automaton.munch automaton.start (c :: cs) = _ from hmunch]
            simp only [Nat.max_eq_left (Nat.succ_le_succ (Nat.zero_le cs.length)), List.length_cons]
          refine .inl ⟨[], c :: cs, ?_⟩
          rw [hnext, List.take_length, List.drop_length, Automaton.scan]
          rfl
      · have hstop (t : LexState) (hrun : automaton.run .start (c :: cs) = some t) :
            LexState.step t '\n' = none :=
          Option.eq_none_iff_forall_ne_some.2 fun after hafter => hgoes ⟨t, after, hrun, hafter⟩
        rcases ih with ⟨front, text, hscan⟩ | ⟨front, blanks, hblanks, hscan, hnewline⟩
        · exact .inl ⟨⟨next.1, (c :: cs).take next.2⟩ :: front, text, by rw [hscan]; rfl⟩
        · refine .inr ⟨⟨next.1, (c :: cs).take next.2⟩ :: front, blanks, hblanks, ?_, ?_⟩
          · rw [hscan, List.cons_append]
          · intro rest
            rw [Automaton.scan_append_of_stop hne hstop, hnewline rest, List.cons_append]

theorem place_append (offset : Nat) (lexemes others : List (Lexeme TokenKind)) :
    place offset (lexemes ++ others) = place offset lexemes
      ++ place (offset + byteLength (lexemes.flatMap Lexeme.text)) others := by
  induction lexemes generalizing offset with
  | nil => rfl
  | cons lexeme rest ih =>
      rw [List.cons_append, place, place, ih, List.flatMap_cons, byteLength_append, Nat.add_assoc]
      rfl

theorem joinGarbage_append {kind : TokenKind} {text : List Char}
    (lexemes others : List (Lexeme TokenKind)) :
    joinGarbage (lexemes ++ ⟨some kind, text⟩ :: others)
      = joinGarbage lexemes ++ joinGarbage (⟨some kind, text⟩ :: others) := by
  fun_induction joinGarbage lexemes with
  | case1 => rfl
  | case2 found first rest ih => rw [List.cons_append, joinGarbage, ih, List.cons_append]
  | case3 first rest more rest' hjoined ih =>
      rw [hjoined] at ih
      simp only [List.cons_append, joinGarbage, ih]
  | case4 first rest hjoined ih =>
      cases hrest : joinGarbage rest with
      | nil => simp only [List.cons_append, joinGarbage, ih, hrest, List.nil_append]
      | cons lexeme rest' =>
          obtain ⟨- | found, more⟩ := lexeme
          · exact absurd hrest (hjoined more rest')
          · simp only [List.cons_append, joinGarbage, ih, hrest]

/-- Garbage at the end is there when garbage is joined. -/
theorem exists_joinGarbage_append (lexemes : List (Lexeme TokenKind)) (text : List Char) :
    ∃ front more, joinGarbage (lexemes ++ [⟨none, text⟩]) = front ++ [⟨none, more⟩] := by
  induction lexemes with
  | nil => exact ⟨[], text, rfl⟩
  | cons lexeme rest ih =>
      obtain ⟨front, more, hrest⟩ := ih
      obtain ⟨- | kind, first⟩ := lexeme
      · rw [List.cons_append, joinGarbage, hrest]
        rcases front with - | ⟨⟨- | kind, second⟩, front⟩
        · exact ⟨[], first ++ more, rfl⟩
        · exact ⟨⟨none, first ++ second⟩ :: front, more, rfl⟩
        · exact ⟨⟨none, first⟩ :: ⟨some kind, second⟩ :: front, more, rfl⟩
      · exact ⟨⟨some kind, first⟩ :: front, more, by rw [List.cons_append, joinGarbage, hrest]; rfl⟩

/-! ### The tokens of both texts -/

/-- The tokens of these lexemes that the grammar sees, the first one at byte `offset`. -/
def ofLexemes (offset : Nat) (lexemes : List (Lexeme TokenKind)) : List Token :=
  significant (place offset (joinGarbage lexemes))

theorem ofLexemes_cons_blank (offset : Nat) (blanks : List Char)
    (lexemes : List (Lexeme TokenKind)) :
    ofLexemes offset (⟨some .whitespace, blanks⟩ :: lexemes)
      = ofLexemes (offset + byteLength blanks) lexemes := rfl

theorem ofLexemes_append {kind : TokenKind} {text : List Char} (offset : Nat)
    (lexemes others : List (Lexeme TokenKind)) :
    ofLexemes offset (lexemes ++ ⟨some kind, text⟩ :: others) = ofLexemes offset lexemes
      ++ ofLexemes (offset + byteLength (lexemes.flatMap Lexeme.text))
        (⟨some kind, text⟩ :: others) := by
  rw [ofLexemes, joinGarbage_append, place_append, joinGarbage_flatten, significant,
    List.filter_append]
  rfl

/-- The tokens behind the blanks at the beginning of a text. -/
theorem ofLexemes_dropWhile_blank (offset : Nat) (cs : List Char) :
    ofLexemes offset (automaton.scan cs) = ofLexemes (offset + byteLength (cs.takeWhile isBlank))
      (automaton.scan (cs.dropWhile isBlank)) := by
  by_cases hne : cs.takeWhile isBlank = []
  · rw [hne, List.dropWhile_eq_self_iff.2 (List.takeWhile_eq_nil_iff.1 hne)]
    rfl
  · rw [scan_takeWhile_blank hne]
    rfl

/-- Blanks in front of a text only move its tokens. -/
theorem ofLexemes_append_blanks {blanks : List Char} (hne : blanks ≠ [])
    (hblanks : ∀ c ∈ blanks, isBlank c = true) (offset : Nat) (front : List (Lexeme TokenKind))
    (rest : List Char) :
    ofLexemes offset (front ++ automaton.scan (blanks ++ rest)) = ofLexemes offset front
      ++ ofLexemes (offset + byteLength (front.flatMap Lexeme.text ++ blanks))
        (automaton.scan rest) := by
  have htake : (blanks ++ rest).takeWhile isBlank = blanks ++ rest.takeWhile isBlank :=
    List.takeWhile_append_of_pos hblanks
  have hdrop : (blanks ++ rest).dropWhile isBlank = rest.dropWhile isBlank :=
    List.dropWhile_append_of_pos hblanks
  have htaken : (blanks ++ rest).takeWhile isBlank ≠ [] := by
    rw [htake]
    exact List.append_ne_nil_of_left_ne_nil hne _
  rw [ofLexemes_dropWhile_blank _ rest, scan_takeWhile_blank htaken, ofLexemes_append, hdrop, htake,
    ofLexemes_cons_blank, byteLength_append, byteLength_append, ← Nat.add_assoc, ← Nat.add_assoc]

/-- A text that stops inside a string or a comment has garbage for its last token. -/
theorem getLast?_significant_of_garbage {source : String} (base : Nat)
    {front : List (Lexeme TokenKind)} {text : List Char}
    (h : automaton.scan source.toList = front ++ [⟨none, text⟩]) :
    ∃ token ∈ (significant (lex source base)).getLast?, token.kind = .garbage := by
  obtain ⟨before, more, hjoined⟩ := exists_joinGarbage_append front text
  rw [lex, h, hjoined, place_append, significant, List.filter_append]
  exact ⟨_, List.getLast?_concat, rfl⟩

/-- Behind a text that does not leave garbage at its end, a line feed begins anew. -/
theorem significant_newline {first second : String} {base : Nat}
    (h : ∀ token ∈ (significant (lex first base)).getLast?, token.kind ≠ .garbage) :
    significant (lex (first ++ "\n" ++ second) base) = significant (lex first base)
      ++ significant (lex second (base + byteLength first.toList + 1)) := by
  rcases scan_newline first.toList with ⟨front, text, hscan⟩ |
    ⟨front, blanks, hblanks, hscan, hnewline⟩
  · obtain ⟨token, hmem, hkind⟩ := getLast?_significant_of_garbage base hscan
    exact absurd hkind (h token hmem)
  have htext : (first ++ "\n" ++ second).toList = first.toList ++ '\n' :: second.toList := by simp
  have hfirst : front.flatMap Lexeme.text ++ blanks = first.toList := by
    rw [← automaton.scan_flatten first.toList, hscan, List.flatMap_append, automaton.scan_flatten]
  have hkept : ofLexemes base (front ++ automaton.scan blanks) = ofLexemes base front := by
    by_cases hne : blanks = []
    · rw [hne, Automaton.scan, List.append_nil]
    · have hempty := ofLexemes_append_blanks hne hblanks base front []
      rw [Automaton.scan, List.append_nil] at hempty
      rw [hempty]
      exact List.append_nil _
  have hblanks' : ∀ c ∈ blanks ++ ['\n'], isBlank c = true :=
    List.forall_mem_append.2 ⟨hblanks, List.forall_mem_singleton.2 rfl⟩
  change ofLexemes base (automaton.scan (first ++ "\n" ++ second).toList)
    = ofLexemes base (automaton.scan first.toList)
      ++ ofLexemes (base + byteLength first.toList + 1) (automaton.scan second.toList)
  calc ofLexemes base (automaton.scan (first ++ "\n" ++ second).toList)
      = ofLexemes base (front ++ automaton.scan ((blanks ++ ['\n']) ++ second.toList)) := by
        rw [htext, hnewline, List.append_assoc]
        rfl
    _ = _ := by
        rw [ofLexemes_append_blanks (List.append_ne_nil_of_right_ne_nil _ (List.cons_ne_nil _ _))
          hblanks', ← List.append_assoc, hfirst, byteLength_append, hscan, hkept, ← Nat.add_assoc]
        rfl

end Token

end IdlBindings
