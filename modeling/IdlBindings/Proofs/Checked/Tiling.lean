import IdlBindings.Proofs.Checked.Lexer
import Mathlib.Data.List.Chain

/-!
The places of the tokens of a text. They cover the text without gaps and without overlaps, each
holds whole characters, and what stands at them put together is the text again (`Mark.Tiling`).
Lexemes that are no token are joined, so no garbage stands next to garbage
(`Token.isChain_joinGarbage`).
-/

namespace IdlBindings

open Checked

namespace Token

/-! ### Places -/

namespace Tiled

variable {offset : Nat} {text : List Char} {tokens : List Token}

theorem eq_nil_iff (h : Tiled offset text tokens) : tokens = [] ↔ text = [] := by
  cases h with
  | nil => simp
  | cons hne => simp [hne]

theorem start_of_head? (h : Tiled offset text tokens) :
    ∀ token ∈ tokens.head?, token.span.start = offset := by
  cases h with
  | nil => simp
  | cons => simp

theorem stop_of_getLast? (h : Tiled offset text tokens) :
    ∀ token ∈ tokens.getLast?, token.span.stop = offset + byteLength text := by
  induction h with
  | nil => simp
  | cons hne hrest ih =>
      rename_i offset kind piece text tokens
      intro token htoken
      rw [byteLength_append, ← Nat.add_assoc]
      by_cases hlast : tokens = []
      · obtain rfl := hrest.eq_nil_iff.1 hlast
        rw [hlast, List.getLast?_singleton, Option.mem_some_iff] at htoken
        rw [← htoken, byteLength_nil, Nat.add_zero]
      · apply ih
        rwa [List.getLast?_cons_of_ne_nil hlast] at htoken

/-- Each token begins where the one before it ends. -/
theorem isChain (h : Tiled offset text tokens) :
    tokens.IsChain fun former later => former.span.stop = later.span.start := by
  induction h with
  | nil => exact .nil
  | cons hne hrest ih =>
      exact List.isChain_cons.2 ⟨fun later hlater => (hrest.start_of_head? later hlater).symm, ih⟩

theorem flatMap_text (h : Tiled offset text tokens) :
    tokens.flatMap (fun token => token.text.toList) = text := by
  induction h with
  | nil => rfl
  | cons hne hrest ih => rw [List.flatMap_cons, ih, String.toList_ofList]

end Tiled

/-! ### Garbage -/

/-- Joined lexemes that are no token do not stand next to each other. -/
theorem isChain_joinGarbage (lexemes : List (Lexeme TokenKind)) :
    (joinGarbage lexemes).IsChain fun former later =>
      ¬(former.kind = none ∧ later.kind = none) := by
  fun_induction joinGarbage lexemes with
  | case1 => exact .nil
  | case2 kind text rest ih =>
      exact List.isChain_cons.2 ⟨fun _ _ h => Option.some_ne_none kind h.1, ih⟩
  | case3 text rest more rest' hjoined ih =>
      rw [hjoined] at ih
      exact List.isChain_cons.2 (List.isChain_cons.1 ih)
  | case4 text rest hjoined ih =>
      refine List.isChain_cons.2 ⟨fun later hlater h => ?_, ih⟩
      obtain ⟨rest', hrest⟩ := List.head?_eq_some_iff.1 hlater
      obtain ⟨kind, more⟩ := later
      obtain rfl : kind = none := h.2
      exact hjoined more rest' hrest

theorem map_kind_place (offset : Nat) (lexemes : List (Lexeme TokenKind)) :
    (place offset lexemes).map Token.kind
      = lexemes.map fun lexeme => lexeme.kind.getD .garbage := by
  induction lexemes generalizing offset with
  | nil => rfl
  | cons lexeme rest ih => rw [place, List.map_cons, ih, List.map_cons]

/-- No character begins a token that is garbage. -/
theorem LexState.garbage_notMem_kinds {c : Char} {s : LexState} (h : LexState.begin? c = some s) :
    .garbage ∉ s.kinds := by
  unfold LexState.begin? at h
  split at h
  · rename_i kind hkind
    cases h
    unfold LexState.punctuation? at hkind
    split at hkind <;> cases hkind <;> decide
  · repeat' split at h
    all_goals cases h
    all_goals decide

/-- A word of the lexical grammar is no garbage. -/
theorem ne_garbage_of_accepts {kind : TokenKind} {text : List Char}
    (h : automaton.Accepts kind text) : kind ≠ .garbage := by
  have hvalid : (Glyph.mk kind (String.ofList text)).Valid := by
    rwa [Glyph.Valid, String.toList_ofList]
  obtain ⟨c, cs, s, t, -, hbegin, -, -, hmem⟩ := hvalid.begin
  exact fun hkind => LexState.garbage_notMem_kinds hbegin (hkind ▸ hmem)

/-- No garbage stands next to garbage. -/
theorem isChain_lex (source : String) (base : Nat) : (lex source base).IsChain
    fun former later => ¬(former.kind = .garbage ∧ later.kind = .garbage) := by
  have hnone : ∀ lexeme ∈ joinGarbage (automaton.scan source.toList),
      lexeme.kind.getD .garbage = .garbage → lexeme.kind = none := by
    rintro ⟨- | kind, text⟩ hmem hkind
    · rfl
    · have haccepts := automaton.accepts_of_mem_scan rfl source.toList
        (mem_of_mem_joinGarbage hmem) rfl
      exact absurd hkind (ne_garbage_of_accepts haccepts)
  have hkinds : ((lex source base).map Token.kind).IsChain
      fun former later => ¬(former = .garbage ∧ later = .garbage) := by
    rw [lex, map_kind_place, List.isChain_map]
    refine (isChain_joinGarbage _).imp_of_mem_imp fun former later hformer hlater hapart h => ?_
    exact hapart ⟨hnone former hformer h.1, hnone later hlater h.2⟩
  exact (List.isChain_map _).1 hkinds

end Token

namespace Mark

/-- Tokens tile a text whose first byte is byte `base` of the document. -/
structure Tiling (source : List Char) (base : Nat) (marks : List Mark) : Prop where
  nonempty : ∀ mark ∈ marks, mark.span.start < mark.span.stop
  first : ∀ mark ∈ marks.head?, mark.span.start = base
  adjacent : marks.IsChain fun former later => former.span.stop = later.span.start
  last : ∀ mark ∈ marks.getLast?, mark.span.stop = base + byteLength source
  empty : marks = [] ↔ source = []
  boundaries : ∀ mark ∈ marks, ∃ start stop, mark.span = ⟨base + start, base + stop⟩ ∧
    Boundary source start ∧ Boundary source stop
  apart : marks.IsChain fun former later => ¬(former.kind = .garbage ∧ later.kind = .garbage)

theorem tiling_lex (source : String) (base : Nat) :
    Tiling source.toList base ((Token.lex source base).map Token.mark) := by
  have htiled := Token.tiled_lex source base
  constructor
  · refine List.forall_mem_map.2 fun token htoken => ?_
    obtain ⟨before, after, -, htext, -, hstop⟩ := htiled.exists_append htoken
    show token.span.start < token.span.stop
    rw [hstop]
    exact Nat.lt_add_of_pos_right (byteLength_pos htext)
  · rw [List.head?_map]
    rintro mark hmark
    obtain ⟨token, htoken, rfl⟩ := Option.map_eq_some_iff.1 hmark
    exact htiled.start_of_head? token htoken
  · exact (List.isChain_map _).2 htiled.isChain
  · rw [List.getLast?_map]
    rintro mark hmark
    obtain ⟨token, htoken, rfl⟩ := Option.map_eq_some_iff.1 hmark
    exact htiled.stop_of_getLast? token htoken
  · rw [List.map_eq_nil_iff]
    exact htiled.eq_nil_iff
  · refine List.forall_mem_map.2 fun token htoken => ?_
    obtain ⟨before, after, hsource, -, hstart, hstop⟩ := htiled.exists_append htoken
    refine ⟨byteLength before, byteLength before + byteLength token.text.toList, ?_, ?_, ?_⟩
    · rw [← Nat.add_assoc, ← hstart, ← hstop]
      rfl
    · rw [hsource]
      exact .of_append before _
    · rw [hsource, ← byteLength_append, ← List.append_assoc]
      exact .of_append (before ++ token.text.toList) after
  · exact (List.isChain_map _).2 (Token.isChain_lex source base)

end Mark

namespace Reader

/-- A text whose bytes all lie below `2 ^ 32` is cut into tokens without going out of range. The
tokens tile the text, and what is cut out at their places is the text. -/
theorem lex_tiles {source : String} {base : Nat}
    (h : base + byteLength source.toList < UInt32.size) : ∃ marks texts,
      lex? source.toList base = some marks ∧ marks = (Token.lex source base).map Token.mark ∧
      Mark.Tiling source.toList base marks ∧
      marks.mapM (markText? ⟨source.toList, base, marks, 0, base⟩) = some texts ∧
      String.join texts = source := by
  refine ⟨_, (Token.lex source base).map Token.text, lex?_eq h, rfl, Mark.tiling_lex source base,
    ?_, ?_⟩
  · rw [List.mapM_map]
    exact mapM_eq_some fun token htoken => markText?_of_tiled (Token.tiled_lex source base) htoken
  · apply String.toList_injective
    rw [String.toList_join, List.flatMap_map]
    exact (Token.tiled_lex source base).flatMap_text

/-- Two error runs, each of several lexemes that are no token: one ends at a token, the other, with
an open string, at the end of the text. -/
theorem lex_tiles_errors : ∃ marks texts,
    10 + byteLength "..é# a/**/\"b".toList < UInt32.size ∧
    lex? "..é# a/**/\"b".toList 10 = some marks ∧
    marks.map (fun mark => (mark.kind, mark.span)) =
      [(.garbage, ⟨10, 15⟩), (.whitespace, ⟨15, 16⟩), (.identifier, ⟨16, 17⟩),
        (.blockComment, ⟨17, 21⟩), (.garbage, ⟨21, 23⟩)] ∧
    Mark.Tiling "..é# a/**/\"b".toList 10 marks ∧
    marks.mapM (markText? ⟨"..é# a/**/\"b".toList, 10, marks, 0, 10⟩) = some texts ∧
    String.join texts = "..é# a/**/\"b" := by
  have hsize : 10 + byteLength "..é# a/**/\"b".toList < UInt32.size := by decide +kernel
  obtain ⟨marks, texts, hlex, rfl, htiling, htexts, hjoin⟩ := lex_tiles hsize
  exact ⟨_, texts, hsize, hlex, by decide +kernel, htiling, htexts, hjoin⟩

end Reader

end IdlBindings
