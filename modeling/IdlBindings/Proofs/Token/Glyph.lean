import IdlBindings.Proofs.Automaton
import IdlBindings.Token.Lexer
import Mathlib.Data.List.TakeWhile

/-!
What the grammar sees of a text: the kinds and texts of its tokens, without blanks, comments and
places. `Spells stop text gs` says that a piece of text is read as the glyphs `gs` wherever a
character of `stop` follows, so that a text is read piece by piece (`Spells.append`).
-/

namespace IdlBindings

/-- What the grammar sees of a token. -/
structure Glyph where
  kind : TokenKind
  text : String
  deriving DecidableEq, Repr

def Token.glyph (token : Token) : Glyph :=
  ⟨token.kind, token.text⟩

namespace Glyph

open Token (automaton)

/-- An identifier, which may be a keyword where it stands. -/
def word (text : String) : Glyph := ⟨.identifier, text⟩

/-- The text of the tokens that are always written alike. -/
def markText : TokenKind → String
  | .parenOpen => "("
  | .parenClose => ")"
  | .bracketOpen => "["
  | .bracketClose => "]"
  | .braceOpen => "\x7b"
  | .braceClose => "\x7d"
  | .angleOpen => "<"
  | .angleClose => ">"
  | .comma => ","
  | .semicolon => ";"
  | .colon => ":"
  | .equals => "="
  | .question => "?"
  | .star => "*"
  | .ellipsis => "..."
  | .minus => "-"
  | _ => ""

/-- A token that is always written alike. -/
def mark (kind : TokenKind) : Glyph := ⟨kind, markText kind⟩

/-- A string with its quotes. -/
def quoted (content : String) : Glyph := ⟨.string, "\"" ++ content ++ "\""⟩

/-- Parts with a separator between. -/
def joined (sep : Glyph) : List (List Glyph) → List Glyph
  | [] => []
  | gs :: rest => gs ++ rest.flatMap (sep :: ·)

/-- The text is one token of the kind. -/
def Valid (g : Glyph) : Prop := automaton.Accepts g.kind g.text.toList

instance : DecidablePred Valid := fun g =>
  decidable_of_iff ((automaton.run .start g.text.toList).bind automaton.accept = some g.kind)
    Option.bind_eq_some_iff

/-- Whether this is a name behind the `_` that keeps it from being a keyword. -/
def isEscaped (g : Glyph) : Bool :=
  g.kind == .identifier && g.text.toList.head? == some '_'

/-- A token as the printer writes it: names stand without their `_`. -/
def Proper (g : Glyph) : Prop := g.Valid ∧ g.isEscaped = false

instance : DecidablePred Proper := fun _ => inferInstanceAs (Decidable (_ ∧ _))

def AllProper (gs : List Glyph) : Prop := ∀ g ∈ gs, g.Proper

/-- The glyphs of lexemes, blanks and comments left out. -/
def ofLexemes : List (Lexeme TokenKind) → List Glyph
  | [] => []
  | ⟨kind, text⟩ :: rest =>
    if (kind.getD .garbage).isTrivia then ofLexemes rest
    else ⟨kind.getD .garbage, String.ofList text⟩ :: ofLexemes rest

/-- The glyphs of a text. -/
def ofText (cs : List Char) : List Glyph :=
  ofLexemes (Token.joinGarbage (automaton.scan cs))

theorem map_glyph_place (lexemes : List (Lexeme TokenKind)) (base : Nat) :
    (Token.significant (Token.place base lexemes)).map Token.glyph = ofLexemes lexemes := by
  induction lexemes generalizing base with
  | nil => rfl
  | cons lexeme rest ih =>
      have hrest := ih (base + byteLength lexeme.text)
      simp only [Token.significant] at hrest
      cases htrivia : (lexeme.kind.getD .garbage).isTrivia <;>
        simp [Token.significant, Token.place, ofLexemes, htrivia, hrest, Token.glyph]

/-- The grammar sees the same glyphs wherever in the document the text begins. -/
theorem map_glyph_lex (source : String) (base : Nat) :
    (Token.significant (Token.lex source base)).map Token.glyph = ofText source.toList :=
  map_glyph_place _ base

@[simp] theorem ofText_nil : ofText [] = [] := by
  simp [ofText, Automaton.scan, Token.joinGarbage, ofLexemes]

/-! ### Proper tokens -/

@[simp] theorem allProper_nil : AllProper [] := by simp [AllProper]

@[simp] theorem allProper_cons {g : Glyph} {gs : List Glyph} :
    AllProper (g :: gs) ↔ g.Proper ∧ AllProper gs := List.forall_mem_cons

@[simp] theorem allProper_append {gs hs : List Glyph} :
    AllProper (gs ++ hs) ↔ AllProper gs ∧ AllProper hs := List.forall_mem_append

theorem allProper_flatten {parts : List (List Glyph)} :
    AllProper parts.flatten ↔ ∀ gs ∈ parts, AllProper gs := by
  simp only [AllProper, List.mem_flatten]
  constructor
  · exact fun h gs hgs g hg => h g ⟨gs, hgs, hg⟩
  · rintro h g ⟨gs, hgs, hg⟩
    exact h gs hgs g hg

@[simp] theorem proper_marks :
    (mark .parenOpen).Proper ∧ (mark .parenClose).Proper ∧ (mark .bracketOpen).Proper ∧
      (mark .bracketClose).Proper ∧ (mark .braceOpen).Proper ∧ (mark .braceClose).Proper ∧
      (mark .angleOpen).Proper ∧ (mark .angleClose).Proper ∧ (mark .comma).Proper ∧
      (mark .semicolon).Proper ∧ (mark .colon).Proper ∧ (mark .equals).Proper ∧
      (mark .question).Proper ∧ (mark .star).Proper ∧ (mark .ellipsis).Proper ∧
      (mark .minus).Proper := by
  decide

theorem allProper_joined {sep : Glyph} (hsep : sep.Proper) {parts : List (List Glyph)} :
    AllProper (joined sep parts) ↔ ∀ gs ∈ parts, AllProper gs := by
  cases parts with
  | nil => simp [joined]
  | cons gs rest =>
      rw [joined, allProper_append, List.forall_mem_cons, List.flatMap_def, allProper_flatten]
      simp [hsep]

/-! ### Cutting off one token -/

theorem ofText_append {s : Token.LexState} {kind : TokenKind} {cs rest : List Char} (hne : cs ≠ [])
    (hrun : automaton.run .start cs = some s) (hkind : s.accept = some kind)
    (hstop : ∀ c ∈ rest.head?, s.step c = none) :
    ofText (cs ++ rest) =
      if kind.isTrivia then ofText rest else ⟨kind, String.ofList cs⟩ :: ofText rest := by
  rw [ofText, Automaton.scan_append hne hrun hkind hstop, Token.joinGarbage, ofLexemes]
  rfl

theorem begin_blank {c : Char} (h : Token.isBlank c = true) :
    automaton.step .start c = some .blank := by
  simp only [Token.isBlank, Bool.or_eq_true, beq_iff_eq] at h
  rcases h with ((rfl | rfl) | rfl) | rfl <;> decide

/-- Blanks at the beginning of a text are one lexeme. -/
theorem scan_takeWhile_blank {cs : List Char} (hne : cs.takeWhile Token.isBlank ≠ []) :
    automaton.scan cs = ⟨some .whitespace, cs.takeWhile Token.isBlank⟩
      :: automaton.scan (cs.dropWhile Token.isBlank) := by
  have hblank : ∀ c ∈ cs.takeWhile Token.isBlank, Token.isBlank c = true :=
    List.all_eq_true.1 List.all_takeWhile
  have hkind : automaton.accept .blank = some .whitespace := rfl
  have hstop : ∀ c ∈ (cs.dropWhile Token.isBlank).head?, Token.LexState.step .blank c = none := by
    intro c hc
    have hnot := List.head?_dropWhile_not Token.isBlank cs
    rw [Option.mem_def.1 hc] at hnot
    simpa [Token.LexState.step] using hnot
  calc automaton.scan cs
      = automaton.scan (cs.takeWhile Token.isBlank ++ cs.dropWhile Token.isBlank) := by
        rw [List.takeWhile_append_dropWhile]
    _ = _ := Automaton.scan_of_stay hne (fun c hc => begin_blank (hblank c hc))
        (fun c hc => if_pos (hblank c hc)) hkind hstop

theorem ofText_dropWhile_blank (cs : List Char) :
    ofText (cs.dropWhile Token.isBlank) = ofText cs := by
  by_cases hne : cs.takeWhile Token.isBlank = []
  · rw [List.dropWhile_eq_self_iff.2 (List.takeWhile_eq_nil_iff.1 hne)]
  · rw [ofText, ofText, scan_takeWhile_blank hne]
    rfl

/-- A blank separates tokens and is nothing itself. -/
theorem ofText_cons_blank {c : Char} (h : Token.isBlank c = true) (rest : List Char) :
    ofText (c :: rest) = ofText rest := by
  rw [← ofText_dropWhile_blank (c :: rest), List.dropWhile_cons_of_pos h, ofText_dropWhile_blank]

end Glyph

end IdlBindings
