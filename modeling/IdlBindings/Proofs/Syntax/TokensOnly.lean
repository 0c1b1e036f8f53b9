import IdlBindings.Proofs.Syntax.Moving

/-!
The grammar sees nothing but glyphs. The tokens of all texts with the same glyphs are those of one
cursor, `Cursor.spaced`, moved by a map that keeps the order of places. Such texts give the same
definitions or the same fault, places apart (`Definition.ofSource_of_eq_glyphs`).
-/

namespace IdlBindings

open Parse

namespace Definition

/-- The definitions or the fault of a text that stands `offset` bytes later. -/
def shifted (offset : Nat) : Except Diagnostic (List Definition) →
    Except Diagnostic (List Definition)
  | .ok definitions => .ok (definitions.map (relabel (Span.shift · offset)))
  | .error fault => .error (fault.relabel (Span.shift · offset))

theorem ofSource_shifted (source : String) (base offset : Nat) :
    ofSource source (base + offset) = shifted offset (ofSource source base) := by
  have hmonotone : Monotone (· + offset) := fun _ _ hle => Nat.add_le_add_right hle offset
  rw [ofSource_move hmonotone fun n _ => Nat.add_right_comm base n offset]
  cases ofSource source base <;> rfl

/-- A text gives what its glyphs give when they are spaced, at other places. -/
theorem exists_ofSource_spaced (source : String) (base : Nat) :
    ∃ f, ofSource source base
      = match parseAll (.spaced (cursor source base).glyphs) with
        | .ok (definitions, _) => .ok (definitions.map (relabel (Span.move f)))
        | .error fault => .error (fault.relabel (Span.move f)) := by
  have hordered : (cursor source base).Ordered :=
    (Token.tiled_lex source base).ordered (Nat.le_refl base)
  obtain ⟨f, hf, hcursor⟩ := hordered.exists_spaced
  have hparse := moves_all hf (.spaced (cursor source base).glyphs)
  rw [← hcursor] at hparse
  have hsource : ofSource source base = (parseAll (cursor source base)).map Prod.fst := rfl
  refine ⟨f, ?_⟩
  rw [hsource, hparse]
  cases parseAll (.spaced (cursor source base).glyphs) <;> rfl

theorem map_unplaced_relabel (g : Span → Span) (definitions : List Definition) :
    (definitions.map (relabel g)).map unplaced = definitions.map unplaced := by
  rw [List.map_map]
  exact List.map_congr_left fun d _ => unplaced_relabel g d

/-- Texts with the same glyphs both give the same definitions, places apart, or they both give a
fault with the same words. What the same text gives stands as much later as the text does. -/
theorem ofSource_of_eq_glyphs {source source' : String} {base base' : Nat}
    (h : (Token.significant (Token.lex source base)).map Token.glyph
      = (Token.significant (Token.lex source' base')).map Token.glyph) :
    ((∃ definitions definitions', ofSource source base = .ok definitions
        ∧ ofSource source' base' = .ok definitions'
        ∧ definitions.map unplaced = definitions'.map unplaced)
      ∨ ∃ fault fault', ofSource source base = .error fault
        ∧ ofSource source' base' = .error fault' ∧ fault.kind = fault'.kind
        ∧ fault.message = fault'.message ∧ fault.hints = fault'.hints)
      ∧ (source = source' → ∀ offset,
        (base' = base + offset →
          ofSource source' base' = shifted offset (ofSource source base))
        ∧ (base = base' + offset →
          ofSource source base = shifted offset (ofSource source' base'))) := by
  constructor
  · obtain ⟨f, hfirst⟩ := exists_ofSource_spaced source base
    obtain ⟨f', hsecond⟩ := exists_ofSource_spaced source' base'
    have hglyphs : (cursor source base).glyphs = (cursor source' base').glyphs := h
    rw [← hglyphs] at hsecond
    cases hparse : parseAll (.spaced (cursor source base).glyphs) with
    | ok result =>
        rw [hparse] at hfirst hsecond
        exact .inl ⟨_, _, hfirst, hsecond, by rw [map_unplaced_relabel, map_unplaced_relabel]⟩
    | error fault =>
        rw [hparse] at hfirst hsecond
        exact .inr ⟨_, _, hfirst, hsecond, rfl, rfl, rfl⟩
  · rintro rfl offset
    constructor
    · rintro rfl
      exact ofSource_shifted source base offset
    · rintro rfl
      exact ofSource_shifted source base' offset

def plainAlias : String := "typedef long A;"

/-- The same tokens, with comments and blanks. -/
def spacedAlias : String := "// first\n typedef long/* 32 bits */A ;"

def unnamedAlias : String := "typedef long;"

/-- A name in a comment is no token. -/
def commentedOut : String := "typedef long /* A */;"

theorem ofSource_of_eq_glyphs_commented : ∃ definitions definitions' fault fault',
    ofSource plainAlias 3 = .ok definitions
      ∧ ofSource spacedAlias 10 = .ok definitions'
      ∧ definitions.map unplaced = definitions'.map unplaced
      ∧ ofSource plainAlias 8 = .ok (definitions.map (relabel (Span.shift · 5)))
      ∧ ofSource unnamedAlias 3 = .error fault
      ∧ ofSource commentedOut 0 = .error fault'
      ∧ fault.kind = fault'.kind ∧ fault.message = fault'.message ∧ fault.hints = fault'.hints := by
  have hcomments : (Token.significant (Token.lex plainAlias 3)).map Token.glyph
      = (Token.significant (Token.lex spacedAlias 10)).map Token.glyph := by decide +kernel
  have hshift : (Token.significant (Token.lex plainAlias 3)).map Token.glyph
      = (Token.significant (Token.lex plainAlias 8)).map Token.glyph := by decide +kernel
  have hcomment : (Token.significant (Token.lex unnamedAlias 3)).map Token.glyph
      = (Token.significant (Token.lex commentedOut 0)).map Token.glyph := by
    decide +kernel
  have hcommented := (ofSource_of_eq_glyphs hcomments).1
  have hlater := ((ofSource_of_eq_glyphs hshift).2 rfl 5).1 rfl
  have hunnamed := (ofSource_of_eq_glyphs hcomment).1
  have hok : (ofSource plainAlias 3).isOk = true := by decide +kernel
  have herror : (ofSource unnamedAlias 3).isOk = false := by decide +kernel
  rcases hcommented with ⟨definitions, definitions', hfirst, hsecond, hsame⟩ | ⟨_, _, hfirst, -⟩
  · rcases hunnamed with ⟨_, _, hdefined, -⟩ | ⟨fault, fault', hfault, hfault', hsays⟩
    · rw [hdefined] at herror
      cases herror
    · rw [hfirst] at hlater
      exact ⟨definitions, definitions', fault, fault', hfirst, hsecond, hsame, hlater, hfault,
        hfault', hsays⟩
  · rw [hfirst] at hok
    cases hok

end Definition

end IdlBindings
