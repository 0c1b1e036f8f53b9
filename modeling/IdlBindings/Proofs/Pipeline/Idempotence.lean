import IdlBindings.Proofs.Markup.Block
import IdlBindings.Proofs.Model.Relink
import IdlBindings.Proofs.Pipeline.Stage
import IdlBindings.Proofs.Syntax.RoundTrip

/-!
Running the pipeline on its own output. The text of a model, put in a block of its own, gives the
same model and the same text again exactly when the model is readable (`interfaceText_document`): a
name that was written behind `_` stands bare in the text, where it may be a keyword.
-/

namespace IdlBindings

open Definition Glyph

namespace Pipeline

variable {policy : Policy} {indent : Nat} {doc text : String} {m : Model}

/-- No name in the fragments of a document has the `_` that keeps it from being a keyword. -/
def Unescaped (doc : String) : Prop :=
  ∀ fragments, IdlBindings.fragments doc = .ok fragments → ∀ fragment ∈ fragments,
    ∀ token ∈ Token.lex fragment.text fragment.offset,
      token.kind = .identifier → token.text.toList.head? ≠ some '_'

/-- What is printed for a model has no escaped name. -/
theorem allProper_of_model (h : model policy doc = .ok m) :
    ∀ d ∈ m.definitions, AllProper d.glyphs := by
  obtain ⟨fragments, definitions, -, hparse, hlink⟩ := model_eq_ok.1 h
  exact allProper_of_link hlink (forall_of_ofFragments hparse fun _ _ _ => allProper_of_ofSource)

/-- A document without escaped names has a readable model. -/
theorem readable_of_unescaped (h : model policy doc = .ok m) (hplain : Unescaped doc) :
    ∀ d ∈ m.definitions, d.Readable := by
  obtain ⟨fragments, definitions, hfragments, hparse, hlink⟩ := model_eq_ok.1 h
  refine readable_of_link hlink (forall_of_ofFragments hparse fun fragment hfragment own hown => ?_)
  exact readable_of_ofSource hown
    (isEscaped_eq_false_of_lex (hplain fragments hfragments fragment hfragment))

/-! ### The output as a document -/

section Document

variable (h : model policy doc = .ok m) (htag : Markup.hasTag (m.text indent).toList = false)

include htag

/-- The pipeline on a document that holds the text of a model. -/
theorem model_document {again : Model} :
    model policy (Markup.document (m.text indent)) = .ok again ↔
      ∃ definitions, ofSource ("\n" ++ m.text indent ++ "\n") 15 = .ok definitions ∧
        Model.link policy definitions = .ok again := by
  simp only [model_eq_ok, Markup.fragments_document htag, Except.ok.injEq, exists_and_left,
    exists_eq_left', ofFragments_singleton]

include h

/-- The text of a readable model gives the same model. -/
theorem model_document_of_readable (hreadable : ∀ d ∈ m.definitions, d.Readable) :
    ∃ again, model policy (Markup.document (m.text indent)) = .ok again ∧
      again.definitions.map unplaced = m.definitions.map unplaced := by
  obtain ⟨fragments, definitions, -, -, hlink⟩ := model_eq_ok.1 h
  have hproper := allProper_of_model h
  obtain ⟨others, hparse, hsame⟩ := ofSource_of_glyphs hreadable hproper
    (ofText_listText_between_lines indent hproper) 15
  obtain ⟨again, hagain, heq⟩ := link_again hlink hsame
  exact ⟨again, (model_document htag).2 ⟨others, hparse, hagain⟩, heq ▸ hsame⟩

/-- Whatever is read from the text of a model is readable. -/
theorem readable_of_model_document {again : Model}
    (hagain : model policy (Markup.document (m.text indent)) = .ok again) :
    ∀ d ∈ again.definitions, d.Readable := by
  obtain ⟨others, hparse, hlink⟩ := (model_document htag).1 hagain
  have hproper := allProper_of_model h
  exact readable_of_link hlink (readable_of_ofSource_glyphs hparse hproper
    (ofText_listText_between_lines indent hproper))

end Document

theorem readable_of_map_unplaced {definitions others : List Definition}
    (hsame : others.map unplaced = definitions.map unplaced) (h : ∀ d ∈ others, d.Readable) :
    ∀ d ∈ definitions, d.Readable := by
  intro d hd
  obtain ⟨e, he, hunplaced⟩ := exists_of_map_unplaced hsame.symm hd
  rw [← readable_unplaced_iff, ← hunplaced, readable_unplaced_iff]
  exact h e he

/-- The output of the pipeline, as a document, gives the same output and the same model up to places
exactly when the model is readable, as it is when no name was escaped. -/
theorem interfaceText_document (h : interfaceText policy indent doc = .ok text)
    (htag : Markup.hasTag text.toList = false) : ∃ m, model policy doc = .ok m ∧
      ((interfaceText policy indent (Markup.document text) = .ok text ∧
        ∃ again, model policy (Markup.document text) = .ok again ∧
          again.definitions.map unplaced = m.definitions.map unplaced) ↔
        ∀ d ∈ m.definitions, d.Readable) ∧
      (Unescaped doc → ∀ d ∈ m.definitions, d.Readable) := by
  obtain ⟨m, hmodel, rfl⟩ := interfaceText_eq_ok.1 h
  refine ⟨m, hmodel, ⟨?_, fun hreadable => ?_⟩, readable_of_unescaped hmodel⟩
  · rintro ⟨-, again, hagain, hsame⟩
    exact readable_of_map_unplaced hsame (readable_of_model_document hmodel htag hagain)
  · obtain ⟨again, hagain, hsame⟩ := model_document_of_readable hmodel htag hreadable
    have htext := interfaceText_eq_ok.2 ⟨again, hagain, listText_congr hsame indent⟩
    exact ⟨htext, again, hagain, hsame⟩

def foldedPartial : String :=
  "<pre class=idl>interface A \x7b\x7d; partial interface A \x7b A a(); \x7d;</pre>"

theorem interfaceText_document_foldedPartial : ∃ text,
    interfaceText .default 4 foldedPartial = .ok text ∧
    interfaceText .default 4 (Markup.document text) = .ok text := by
  have hfragments : IdlBindings.fragments foldedPartial
      = .ok [⟨.pre, 15, ⟨0, 15⟩,
        "interface A \x7b\x7d; partial interface A \x7b A a(); \x7d;"⟩] := by
    decide +kernel
  obtain ⟨text, htext, htag⟩ : ∃ text,
      interfaceText .default 4 foldedPartial = .ok text ∧ Markup.hasTag text.toList = false :=
    ⟨"interface A \x7b\n    A a();\n\x7d;\n", by decide +kernel, by decide +kernel⟩
  obtain ⟨m, -, hiff, hplain⟩ := interfaceText_document htext htag
  refine ⟨text, htext, (hiff.2 (hplain fun fragments h fragment hmem => ?_)).1⟩
  obtain rfl := Except.ok.inj (hfragments.symm.trans h)
  obtain rfl := List.mem_singleton.1 hmem
  decide +kernel

/-- An interface whose name is `mixin`, as it is printed. -/
def bareMixin : String := "interface mixin \x7b\n\x7d;\n"

/-- Behind `interface`, the name `mixin` is a keyword when it stands bare. -/
theorem interfaceText_document_mixin :
    interfaceText .default 4 "<pre class=idl>interface _mixin \x7b\x7d;</pre>" = .ok bareMixin ∧
    Markup.hasTag bareMixin.toList = false ∧
    ∀ text, interfaceText .default 4 (Markup.document bareMixin) ≠ .ok text := by
  refine ⟨by decide +kernel, by decide +kernel, fun text h => ?_⟩
  have hnone : (interfaceText .default 4 (Markup.document bareMixin)).toOption = none := by
    decide +kernel
  rw [h] at hnone
  cases hnone

end Pipeline

end IdlBindings
