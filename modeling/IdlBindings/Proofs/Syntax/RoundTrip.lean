import IdlBindings.Proofs.Syntax.Definition.Parsed
import IdlBindings.Proofs.Syntax.Definition.Passing
import IdlBindings.Proofs.Token.Lexed

/-!
The round trip of parser and printer: the definitions of a text without escaped names are read back
from what is printed for them. The tokens of any text are valid, so the glyphs of whatever was read
from it are proper (`Definition.allProper_of_ofSource`), and without escaped names the definitions
are readable (`Definition.readable_of_ofSource`).
-/

namespace IdlBindings

open Glyph

namespace Definition

variable {source : String} {base : Nat} {definitions : List Definition}

theorem lexed_cursor (source : String) (base : Nat) : (cursor source base).Lexed :=
  fun _ => Token.valid_of_mem_lex

theorem plain_cursor (base : Nat) (hplain : ∀ g ∈ ofText source.toList, g.isEscaped = false) :
    (cursor source base).Plain := by
  intro token htoken
  apply hplain
  rw [← map_glyph_lex source base]
  exact List.mem_map_of_mem htoken

theorem parsed_of_ofSource (h : ofSource source base = .ok definitions) :
    ∃ last, parseAll (cursor source base) = .ok (definitions, last) ∧
      (cursor source base).Parsed (definitions.flatMap slots) (∀ d ∈ definitions, d.Readable)
        last := by
  rw [ofSource] at h
  cases hrun : parseAll (cursor source base) with
  | error diagnostic =>
      rw [cursor] at hrun
      simp only [hrun] at h
      cases h
  | ok result =>
      rw [cursor] at hrun
      simp only [hrun] at h
      obtain rfl : result.1 = definitions := Except.ok.inj h
      exact ⟨result.2, rfl, gives_all _ _ _ hrun⟩

/-- What is printed for definitions that were read has no escaped name. -/
theorem allProper_of_ofSource (h : ofSource source base = .ok definitions) :
    ∀ d ∈ definitions, AllProper d.glyphs := by
  obtain ⟨last, -, hparsed⟩ := parsed_of_ofSource h
  intro d hd
  have hproper := hparsed.proper (lexed_cursor source base)
  rw [print_flatMap_slots, List.flatMap_def, allProper_flatten, List.forall_mem_map] at hproper
  exact hproper d hd

theorem readable_of_ofSource (h : ofSource source base = .ok definitions)
    (hplain : ∀ g ∈ ofText source.toList, g.isEscaped = false) :
    ∀ d ∈ definitions, d.Readable := by
  obtain ⟨last, -, hparsed⟩ := parsed_of_ofSource h
  exact hparsed.holds (lexed_cursor source base) (plain_cursor base hplain)

/-- A text with the glyphs of definitions that were read has no escaped name. -/
theorem readable_of_ofSource_glyphs (h : ofSource source base = .ok definitions)
    {others : List Definition} (hproper : ∀ d ∈ others, AllProper d.glyphs)
    (hsource : ofText source.toList = others.flatMap glyphs) : ∀ d ∈ definitions, d.Readable := by
  refine readable_of_ofSource h ?_
  rw [hsource]
  intro g hg
  obtain ⟨d, hd, hmem⟩ := List.mem_flatMap.1 hg
  exact (hproper d hd g hmem).2

theorem isEscaped_eq_false_of_lex (hplain : ∀ token ∈ Token.lex source base,
    token.kind = .identifier → token.text.toList.head? ≠ some '_') :
    ∀ g ∈ ofText source.toList, g.isEscaped = false := by
  rw [← map_glyph_lex source base]
  intro g hg
  obtain ⟨token, htoken, rfl⟩ := List.mem_map.1 hg
  rw [isEscaped, Bool.and_eq_false_iff, beq_eq_false_iff_ne, beq_eq_false_iff_ne]
  by_cases hkind : token.kind = .identifier
  · exact .inr (hplain token (List.mem_of_mem_filter htoken) hkind)
  · exact .inl hkind

end Definition

end IdlBindings
