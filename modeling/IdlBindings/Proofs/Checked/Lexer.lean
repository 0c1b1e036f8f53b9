import IdlBindings.Proofs.Checked.Definition
import IdlBindings.Proofs.Token.Lexed
import IdlBindings.Proofs.Token.Place
import IdlBindings.Proofs.Token.Valid

/-!
The tokens of a text as they are placed in a document of fewer than `2 ^ 32` bytes. Every token is
cut out of the text between characters and every string has its quotes, so a reader that starts in
front of them follows the parser to the end (`Reader.ofSource?_eq`).
-/

namespace IdlBindings

open Checked

namespace Reader

/-- The lexemes from byte `start` of the text on, with their places in the document. -/
def marks? (base : Nat) : Nat → List (Lexeme TokenKind) → Option (List Mark)
  | _, [] => some []
  | start, lexeme :: rest => do
    let stop := start + byteLength lexeme.text
    let span ← shift? ⟨← word? start, ← word? stop⟩ base
    let others ← marks? base stop rest
    return ⟨lexeme.kind.getD .garbage, span⟩ :: others

/-- The tokens of a text, blanks and comments included. -/
def lex? (source : List Char) (base : Nat) : Option (List Mark) :=
  marks? base 0 (Token.joinGarbage (Token.automaton.scan source))

/-- In front of the tokens that the grammar sees. -/
def begin? (source : String) (base : Nat) : Option Reader := do
  let marks ← lex? source.toList base
  return ⟨source.toList, base, marks.filter fun mark => !mark.kind.isTrivia, 0, base⟩

/-- The definitions of a text. -/
def ofSource? (source : String) (base : Nat) : Option (Except Diagnostic (List Definition)) := do
  let r ← begin? source base
  let result ← (definitions r).run
  return result.map Prod.fst

/-! ### Places -/

theorem marks?_eq {base start : Nat} {lexemes : List (Lexeme TokenKind)}
    (h : start + base + byteLength (lexemes.flatMap Lexeme.text) < UInt32.size) :
    marks? base start lexemes = some ((Token.place (start + base) lexemes).map Token.mark) := by
  induction lexemes generalizing start with
  | nil => rfl
  | cons lexeme rest ih =>
      rw [List.flatMap_cons, byteLength_append] at h
      have hstart : word? start = some start := word?_of_lt (by omega)
      have hstop : word? (start + byteLength lexeme.text) = some (start + byteLength lexeme.text) :=
        word?_of_lt (by omega)
      have hspan : shift? ⟨start, start + byteLength lexeme.text⟩ base =
          some (Span.shift ⟨start, start + byteLength lexeme.text⟩ base) :=
        shift?_of_lt (Nat.le_add_right _ _) (by simp only; omega)
      have hrest : marks? base (start + byteLength lexeme.text) rest =
          some ((Token.place (start + byteLength lexeme.text + base) rest).map Token.mark) :=
        ih (by omega)
      simp only [marks?, hstart, hstop, hspan, hrest, Option.bind_eq_bind, Option.bind_some,
        Span.shift, Token.place, Nat.add_right_comm start _ base]
      rfl

theorem lex?_eq {source : String} {base : Nat} (h : base + byteLength source.toList < UInt32.size) :
    lex? source.toList base = some ((Token.lex source base).map Token.mark) := by
  have hflatten : (Token.joinGarbage (Token.automaton.scan source.toList)).flatMap Lexeme.text =
      source.toList := by
    rw [Token.joinGarbage_flatten, Automaton.scan_flatten]
  rw [lex?, marks?_eq (by rw [hflatten, Nat.zero_add]; exact h), Nat.zero_add]
  rfl

/-! ### Texts -/

/-- A string token is its content in quotes. -/
theorem unquote?_of_valid {token : Token} (h : token.glyph.Valid) (hkind : token.kind = .string) :
    unquote? token.text = some (Parse.unquote token.text) := by
  have htext : token.text = "\"" ++ Parse.unquote token.text ++ "\"" :=
    congrArg Glyph.text (h.eq_quoted hkind)
  generalize Parse.unquote token.text = content at htext
  have hchars : token.text.toList = ['"'] ++ (content.toList ++ ['"']) := by
    rw [htext, String.toList_append, String.toList_append]
    rfl
  have hstop : sub? (byteLength token.text.toList) 1 = some (1 + byteLength content.toList) := by
    rw [hchars, byteLength_append, byteLength_append, ← Nat.add_assoc, Nat.add_comm]
    exact sub?_add 1 _
  have hslice : slice? token.text.toList 1 (1 + byteLength content.toList) =
      some content.toList := by
    rw [hchars]
    exact slice?_append ['"'] content.toList ['"']
  rw [unquote?, hstop, Option.bind_eq_bind, Option.bind_some, hslice, Option.bind_eq_bind,
    Option.bind_some, String.ofList_toList]
  rfl

/-- A quote alone is no string. -/
example : unquote? "\"" = none := by decide

/-- A token of the text is cut out of it. -/
theorem markText?_of_tiled {r : Reader} {tokens : List Token}
    (h : Token.Tiled r.base r.source tokens) {token : Token} (hmem : token ∈ tokens) :
    r.markText? token.mark = some token.text := by
  obtain ⟨before, after, htext, -, hstart, hstop⟩ := h.exists_append hmem
  have hfirst : sub? token.span.start r.base = some (byteLength before) := by
    rw [hstart]
    exact sub?_add r.base _
  have hlast : sub? token.span.stop r.base =
      some (byteLength before + byteLength token.text.toList) := by
    rw [hstop, hstart, Nat.add_assoc]
    exact sub?_add r.base _
  have hslice := slice?_append before token.text.toList after
  rw [← htext] at hslice
  rw [markText?, Token.mark, hfirst, hlast]
  simp only [Option.bind_eq_bind, Option.bind_some, hslice, String.ofList_toList]
  rfl

/-! ### A whole text -/

theorem begin?_eq {source : String} {base : Nat} (h : base + byteLength source.toList < UInt32.size) :
    begin? source base = some ⟨source.toList, base,
      (Definition.cursor source base).rest.map Token.mark, 0, base⟩ := by
  rw [begin?, lex?_eq h]
  simp only [Option.bind_eq_bind, Option.bind_some, List.filter_map]
  rfl

/-- In front of the tokens the reader is where the parser is. -/
theorem follows_begin {source : String} {base : Nat}
    (h : base + byteLength source.toList < UInt32.size) :
    Follows ⟨source.toList, base, (Definition.cursor source base).rest.map Token.mark, 0, base⟩
      (Definition.cursor source base) where
  marks := rfl
  texts token hmem :=
    markText?_of_tiled (Token.tiled_lex source base) (List.mem_filter.1 hmem).1
  quoted token hmem hkind := by
    rcases Token.valid_of_mem_lex hmem with hgarbage | hvalid
    · cases hgarbage.symm.trans hkind
    · exact unquote?_of_valid hvalid hkind
  lastEnd := rfl
  eof := by
    have hlength : word? (byteLength source.toList) = some (byteLength source.toList) :=
      word?_of_lt (by omega)
    have hstop : add? base (byteLength source.toList) = some (base + byteLength source.toList) :=
      word?_of_lt h
    simp only [eofSpan?, hlength, hstop, Option.bind_eq_bind, Option.bind_some]
    rfl

/-- A text whose bytes all lie below `2 ^ 32` is read without going out of range. -/
theorem ofSource?_eq {source : String} {base : Nat}
    (h : base + byteLength source.toList < UInt32.size) :
    ofSource? source base = some (Definition.ofSource source base) := by
  have hagrees : AgreesAt definitions Definition.parseAll _ _ :=
    Agrees.definitions _ _ (follows_begin h) (Nat.lt_succ_self _)
  have hparse : Definition.ofSource source base =
      (Definition.parseAll (Definition.cursor source base)).map Prod.fst := rfl
  rw [ofSource?, begin?_eq h, hparse]
  unfold AgreesAt at hagrees
  cases hall : Definition.parseAll (Definition.cursor source base) with
  | error fault =>
      rw [hall] at hagrees
      simp only [Option.bind_eq_bind, Option.bind_some, ExceptT.run, hagrees]
      rfl
  | ok result =>
      rw [hall] at hagrees
      obtain ⟨last, hread, -⟩ := hagrees
      simp only [Option.bind_eq_bind, Option.bind_some, ExceptT.run, hread]
      rfl

end Reader

end IdlBindings
