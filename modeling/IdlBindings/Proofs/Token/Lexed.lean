import IdlBindings.Proofs.Token.Valid

/-! The tokens of any text are valid, but for the garbage among them. -/

namespace IdlBindings

open Glyph

/-- Joining garbage leaves the other lexemes as they are. -/
theorem Token.mem_of_mem_joinGarbage {lexemes : List (Lexeme TokenKind)} {kind : TokenKind}
    {text : List Char} (h : ⟨some kind, text⟩ ∈ joinGarbage lexemes) :
    ⟨some kind, text⟩ ∈ lexemes := by
  induction lexemes with
  | nil => exact h
  | cons lexeme rest ih =>
      obtain ⟨found, first⟩ := lexeme
      cases found with
      | some found =>
          rcases List.mem_cons.1 h with heq | hrest
          · exact heq ▸ List.mem_cons_self
          · exact List.mem_cons_of_mem _ (ih hrest)
      | none =>
          apply List.mem_cons_of_mem
          rw [joinGarbage] at h
          split at h
          · rename_i more rest' hjoin
            apply ih
            rw [hjoin]
            rcases List.mem_cons.1 h with heq | hrest
            · cases heq
            · exact List.mem_cons_of_mem _ hrest
          · rcases List.mem_cons.1 h with heq | hrest
            · cases heq
            · exact ih hrest

theorem Glyph.mem_ofLexemes {lexemes : List (Lexeme TokenKind)} {g : Glyph}
    (h : g ∈ ofLexemes lexemes) :
    ∃ lexeme ∈ lexemes, g = ⟨lexeme.kind.getD .garbage, String.ofList lexeme.text⟩ := by
  induction lexemes with
  | nil => cases h
  | cons lexeme rest ih =>
      obtain ⟨kind, text⟩ := lexeme
      have hrest : g ∈ ofLexemes rest → ∃ lexeme ∈ (⟨kind, text⟩ :: rest : List (Lexeme TokenKind)),
          g = ⟨lexeme.kind.getD .garbage, String.ofList lexeme.text⟩ := by
        intro hg
        obtain ⟨lexeme, hmem, heq⟩ := ih hg
        exact ⟨lexeme, List.mem_cons_of_mem _ hmem, heq⟩
      rw [ofLexemes] at h
      split at h
      · exact hrest h
      · rcases List.mem_cons.1 h with heq | hg
        · exact ⟨_, List.mem_cons_self, heq⟩
        · exact hrest hg

/-- What is no garbage is a token of its kind. -/
theorem Glyph.valid_of_mem_ofText {cs : List Char} {g : Glyph} (h : g ∈ ofText cs) :
    g.kind = .garbage ∨ g.Valid := by
  obtain ⟨⟨kind, text⟩, hmem, rfl⟩ := mem_ofLexemes h
  cases kind with
  | none => exact .inl rfl
  | some kind =>
      right
      have hscan := Token.mem_of_mem_joinGarbage hmem
      have haccepts := Token.automaton.accepts_of_mem_scan rfl cs hscan rfl
      rw [Valid, String.toList_ofList]
      exact haccepts

namespace Token

variable {source : String} {base : Nat} {token : Token}

theorem valid_of_mem_lex (h : token ∈ significant (lex source base)) :
    token.kind = .garbage ∨ token.glyph.Valid := by
  have hmem : token.glyph ∈ ofText source.toList := by
    rw [← map_glyph_lex source base]
    exact List.mem_map_of_mem h
  exact valid_of_mem_ofText hmem

/-- A text that is one token is cut into that token. -/
theorem lex_of_valid {kind : TokenKind} {text : String} (h : Glyph.Valid ⟨kind, text⟩)
    (base : Nat) : lex text base = [⟨kind, ⟨base, base + byteLength text.toList⟩, text⟩] := by
  obtain ⟨c, cs, -, -, htext, -⟩ := h.begin
  obtain ⟨s, hrun, haccept⟩ := h
  have hne : text.toList ≠ [] := by
    rw [show text.toList = c :: cs from htext]
    exact List.cons_ne_nil c cs
  have hstop : ∀ c ∈ ([] : List Char).head?, automaton.step s c = none := nofun
  have hscan := Automaton.scan_append hne hrun haccept hstop
  rw [List.append_nil, Automaton.scan] at hscan
  rw [lex, hscan, joinGarbage, joinGarbage, place, place, String.ofList_toList]
  rfl

end Token

end IdlBindings
