import IdlBindings.Proofs.Span
import IdlBindings.Proofs.Token.Passing
import IdlBindings.Token.Lexer

/-!
Where the tokens of a text stand. The lexer cuts a text into pieces without gaps (`tiled_lex`), so a
place among its tokens holds whole characters wherever the text stands in a document
(`Cursor.Located.shown`).
-/

namespace IdlBindings

namespace Token

/-- The tokens are the pieces of the text, one after the other from byte `offset` on. -/
inductive Tiled : Nat → List Char → List Token → Prop
  | nil {offset : Nat} : Tiled offset [] []
  | cons {offset : Nat} {kind : TokenKind} {piece text : List Char} {tokens : List Token}
      (hne : piece ≠ []) (hrest : Tiled (offset + byteLength piece) text tokens) :
      Tiled offset (piece ++ text)
        (⟨kind, ⟨offset, offset + byteLength piece⟩, String.ofList piece⟩ :: tokens)

theorem joinGarbage_flatten (lexemes : List (Lexeme TokenKind)) :
    (joinGarbage lexemes).flatMap Lexeme.text = lexemes.flatMap Lexeme.text := by
  fun_induction joinGarbage lexemes with
  | case1 => rfl
  | case2 kind text rest ih => rw [List.flatMap_cons, List.flatMap_cons, ih]
  | case3 text rest more rest' hjoined ih =>
      rw [hjoined, List.flatMap_cons] at ih
      rw [List.flatMap_cons, List.flatMap_cons, ← ih, List.append_assoc]
  | case4 text rest _ ih => rw [List.flatMap_cons, List.flatMap_cons, ih]

theorem joinGarbage_ne_nil {lexemes : List (Lexeme TokenKind)}
    (h : ∀ lexeme ∈ lexemes, lexeme.text ≠ []) :
    ∀ lexeme ∈ joinGarbage lexemes, lexeme.text ≠ [] := by
  fun_induction joinGarbage lexemes with
  | case1 => exact h
  | case2 kind text rest ih =>
      obtain ⟨hfirst, hrest⟩ := List.forall_mem_cons.1 h
      exact List.forall_mem_cons.2 ⟨hfirst, ih hrest⟩
  | case3 text rest more rest' hjoined ih =>
      obtain ⟨hfirst, hrest⟩ := List.forall_mem_cons.1 h
      have hmore := ih hrest
      rw [hjoined] at hmore
      exact List.forall_mem_cons.2 ⟨List.append_ne_nil_of_left_ne_nil hfirst more,
        (List.forall_mem_cons.1 hmore).2⟩
  | case4 text rest _ ih =>
      obtain ⟨hfirst, hrest⟩ := List.forall_mem_cons.1 h
      exact List.forall_mem_cons.2 ⟨hfirst, ih hrest⟩

theorem tiled_place {lexemes : List (Lexeme TokenKind)} (h : ∀ lexeme ∈ lexemes, lexeme.text ≠ [])
    (offset : Nat) : Tiled offset (lexemes.flatMap Lexeme.text) (place offset lexemes) := by
  induction lexemes generalizing offset with
  | nil => exact .nil
  | cons lexeme rest ih =>
      obtain ⟨hfirst, hrest⟩ := List.forall_mem_cons.1 h
      exact .cons hfirst (ih hrest _)

/-- The tokens of a text are its pieces. -/
theorem tiled_lex (source : String) (base : Nat) : Tiled base source.toList (lex source base) := by
  have htiled := tiled_place (joinGarbage_ne_nil (automaton.scan_ne_nil source.toList)) base
  rwa [joinGarbage_flatten, Automaton.scan_flatten] at htiled

namespace Tiled

variable {offset : Nat} {text : List Char} {tokens : List Token}

/-- A token is a piece of the text at its place. -/
theorem exists_append (h : Tiled offset text tokens) {token : Token} (hmem : token ∈ tokens) :
    ∃ before after, text = before ++ (token.text.toList ++ after) ∧ token.text.toList ≠ [] ∧
      token.span.start = offset + byteLength before ∧
      token.span.stop = token.span.start + byteLength token.text.toList := by
  induction h with
  | nil => cases hmem
  | cons hne hrest ih =>
      rename_i offset kind piece text tokens
      rcases List.mem_cons.1 hmem with rfl | hmem
      · refine ⟨[], text, ?_, ?_, rfl, ?_⟩
        · rw [String.toList_ofList]
          rfl
        · rwa [String.toList_ofList]
        · rw [String.toList_ofList]
      · obtain ⟨before, after, rfl, htext, hstart, hstop⟩ := ih hmem
        refine ⟨piece ++ before, after, (List.append_assoc ..).symm, htext, ?_, hstop⟩
        rw [hstart, byteLength_append, Nat.add_assoc]

theorem le_start (h : Tiled offset text tokens) {token : Token} (hmem : token ∈ tokens) :
    offset ≤ token.span.start := by
  obtain ⟨before, after, -, -, hstart, -⟩ := h.exists_append hmem
  rw [hstart]
  exact Nat.le_add_right _ _

theorem start_le_stop (h : Tiled offset text tokens) {token : Token} (hmem : token ∈ tokens) :
    token.span.start ≤ token.span.stop := by
  obtain ⟨before, after, -, -, -, hstop⟩ := h.exists_append hmem
  rw [hstop]
  exact Nat.le_add_right _ _

theorem stop_le (h : Tiled offset text tokens) {token : Token} (hmem : token ∈ tokens) :
    token.span.stop ≤ offset + byteLength text := by
  obtain ⟨before, after, htext, -, hstart, hstop⟩ := h.exists_append hmem
  rw [hstop, hstart, htext, byteLength_append, byteLength_append]
  omega

/-- A token ends before the next ones begin. -/
theorem pairwise (h : Tiled offset text tokens) :
    tokens.Pairwise fun first later => first.span.stop ≤ later.span.start := by
  induction h with
  | nil => exact .nil
  | cons hne hrest ih => exact .cons (fun later hlater => hrest.le_start hlater) ih

end Tiled

/-- The tokens are not empty, and each ends before the next ones begin. -/
structure Ordered (tokens : List Token) : Prop where
  nonempty : ∀ token ∈ tokens, token.span.start < token.span.stop
  pairwise : tokens.Pairwise fun first later => first.span.stop ≤ later.span.start

namespace Ordered

variable {ts us : List Token}

theorem sublist (h : Ordered us) (hsublist : ts.Sublist us) : Ordered ts :=
  ⟨fun token hmem => h.nonempty token (hsublist.subset hmem), h.pairwise.sublist hsublist⟩

theorem start_lt_stop (h : Ordered ts) {first last : Token} (hfirst : ts.head? = some first)
    (hlast : ts.getLast? = some last) : first.span.start < last.span.stop := by
  obtain ⟨rest, rfl⟩ := List.head?_eq_some_iff.1 hfirst
  have hne := h.nonempty first List.mem_cons_self
  rcases List.mem_cons.1 (List.mem_of_getLast? hlast) with rfl | hrest
  · exact hne
  · have hle := (List.pairwise_cons.1 h.pairwise).1 last hrest
    have hne' := h.nonempty last (List.mem_cons_of_mem first hrest)
    omega

end Ordered

/-- The tokens of a text that are no blanks and no comments. -/
theorem ordered_lex (source : String) (base : Nat) : Ordered (significant (lex source base)) := by
  have htiled := tiled_lex source base
  constructor
  · intro token hmem
    obtain ⟨before, after, -, htext, -, hstop⟩ := htiled.exists_append (List.mem_filter.1 hmem).1
    rw [hstop]
    exact Nat.lt_add_of_pos_right (byteLength_pos htext)
  · exact htiled.pairwise.sublist List.filter_sublist

end Token

namespace Cursor

/-- The tokens ahead and the end have their places in the text. -/
structure Located (text : List Char) (c : Cursor) : Prop where
  tokens : ∀ token ∈ c.rest, token.span.Shown text ∧ token.span.start < token.span.stop
  ordered : c.rest.Pairwise fun first later => first.span.stop ≤ later.span.start
  eof : Boundary text c.eof ∧ Boundary text (c.eof + 1)

variable {text : List Char} {c d : Cursor}

theorem Located.of_passed {ts : List Token} (h : c.Located text) (hpassed : c.Passed ts d) :
    d.Located text := by
  refine ⟨fun token hmem => h.tokens token ?_, ?_, by rw [hpassed.eof]; exact h.eof⟩
  · rw [hpassed.rest]
    exact List.mem_append_right ts hmem
  · have hordered := h.ordered
    rw [hpassed.rest] at hordered
    exact (List.pairwise_append.1 hordered).2.1

/-- The place of the next token, or of the end. -/
theorem Located.next (h : c.Located text) : c.span.Shown text := by
  rw [Cursor.span]
  split
  · rename_i token rest hrest
    exact (h.tokens token (by rw [hrest]; exact List.mem_cons_self)).1
  · exact ⟨⟨Nat.le_refl _, h.eof.1, h.eof.1⟩, fun _ => h.eof.2⟩

/-- The tokens that were read have a first and a last one. -/
theorem Passed.exists_span {ts : List Token} (h : c.Passed ts d) (hne : ts ≠ [])
    (hordered : Token.Ordered ts) : ∃ first last, ts.head? = some first ∧ ts.getLast? = some last ∧
      Span.mk c.span.start (max d.lastEnd c.span.start) = ⟨first.span.start, last.span.stop⟩ := by
  obtain ⟨first, more, rfl⟩ := List.exists_cons_of_ne_nil hne
  have hlast := List.getLast?_eq_some_getLast hne
  have hlt := hordered.start_lt_stop rfl hlast
  have hspan : c.span = first.span := by rw [Cursor.span, h.rest]; rfl
  have hend : d.lastEnd = ((first :: more).getLast hne).span.stop := by rw [h.lastEnd, hlast]; rfl
  refine ⟨first, _, rfl, hlast, ?_⟩
  rw [hspan, hend, Nat.max_eq_left (Nat.le_of_lt hlt)]

/-- The place of tokens that were read. -/
theorem Located.part {ts : List Token} (h : c.Located text) (hpassed : c.Passed ts d)
    (hne : ts ≠ []) : Span.Shown ⟨c.span.start, max d.lastEnd c.span.start⟩ text := by
  have hmem {token : Token} (hread : token ∈ ts) : token ∈ c.rest := by
    rw [hpassed.rest]
    exact List.mem_append_left _ hread
  have hordered : Token.Ordered ts := by
    refine ⟨fun token hread => (h.tokens token (hmem hread)).2, ?_⟩
    have hpairwise := h.ordered
    rw [hpassed.rest] at hpairwise
    exact (List.pairwise_append.1 hpairwise).1
  obtain ⟨first, last, hfirst, hlast, hspan⟩ := hpassed.exists_span hne hordered
  rw [hspan]
  exact .of_lt (hordered.start_lt_stop hfirst hlast)
    (h.tokens first (hmem (List.mem_of_head? hfirst))).1.start
    (h.tokens last (hmem (List.mem_of_getLast? hlast))).1.stop

/-- Every place ahead holds whole characters. -/
theorem Located.shown {span : Span} (h : c.Located text) (hspot : c.Spot span) :
    span.Shown text := by
  cases hspot with
  | next hpassed => exact (h.of_passed hpassed).next
  | part hpassed hpart hne => exact (h.of_passed hpassed).part hpart hne

end Cursor

end IdlBindings
