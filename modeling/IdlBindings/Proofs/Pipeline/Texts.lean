import IdlBindings.Proofs.Declaration.Relabel
import IdlBindings.Proofs.Markup.Spacing
import IdlBindings.Proofs.Pipeline.Stage
import IdlBindings.Proofs.Syntax.Moving

/-!
Only the texts of the fragments matter. What a document gives is what its texts give when they are
laid side by side, at other places that keep their order (`Pipeline.model_eq_ofTexts`), and places
are not in the output (`Pipeline.output_of_texts`).
-/

namespace IdlBindings

open Definition Fragment

/-- What a diagnostic says, places left out. -/
def Diagnostic.wording (d : Diagnostic) : FaultKind × String × List String × List String :=
  (d.kind, d.message, d.related.map Related.message, d.hints)

theorem Diagnostic.wording_relabel (g : Span → Span) (d : Diagnostic) :
    (d.relabel g).wording = d.wording := by
  simp [wording, relabel]

def Failure.relabel (g : Span → Span) (failure : Failure) : Failure :=
  { failure with diagnostics := failure.diagnostics.map (Diagnostic.relabel g) }

theorem Failure.map_wording_relabel (g : Span → Span) (failure : Failure) :
    (failure.relabel g).diagnostics.map Diagnostic.wording
      = failure.diagnostics.map Diagnostic.wording := by
  rw [relabel, List.map_map]
  exact List.map_congr_left fun d _ => d.wording_relabel g

/-- Fragments are read as their texts are that stand side by side. -/
theorem Definition.ofFragments_move {f : Nat → Nat} (hf : Monotone f) {base : Nat}
    {fragments : List Fragment} (h : Carries f base fragments) :
    ofFragments fragments = match ofFragments (sideBySide base (fragments.map Fragment.text)) with
      | .ok definitions => .ok (definitions.map (Definition.relabel (Span.move f)))
      | .error faults => .error (faults.map (Diagnostic.relabel (Span.move f))) := by
  induction fragments generalizing base with
  | nil => rfl
  | cons fragment rest ih =>
      obtain ⟨hfirst, hrest⟩ := h
      have hside : sideBySide base ((fragment :: rest).map Fragment.text)
          = ⟨.pre, base, ⟨0, 0⟩, fragment.text⟩
            :: sideBySide (base + fragment.size + 1) (rest.map Fragment.text) := rfl
      rw [hside, ofFragments, ofFragments, ofSource_move hf hfirst, ih hrest]
      cases ofSource fragment.text base <;>
        cases ofFragments (sideBySide (base + fragment.size + 1) (rest.map Fragment.text)) <;>
          simp only [List.map_append, List.map_cons, List.map_nil]

namespace Pipeline

variable {policy : Policy} {style : Style} {indent : Nat} {doc other : String}
  {found others : List Fragment}

/-- The model of texts that stand side by side. -/
def ofTexts (policy : Policy) (texts : List String) : Except Failure Model :=
  match ofFragments (sideBySide 0 texts) with
  | .error faults => .error ⟨.parsing, faults⟩
  | .ok definitions =>
    match Model.link policy definitions with
    | .error faults => .error ⟨.linking, faults⟩
    | .ok model => .ok model

/-- What a document gives is what its texts give, at other places in the same order. -/
theorem model_eq_ofTexts (policy : Policy) (h : IdlBindings.fragments doc = .ok found) :
    ∃ f, StrictMono f ∧ model policy doc = match ofTexts policy (found.map Fragment.text) with
      | .ok m => .ok (m.relabel (Span.move f))
      | .error failure => .error (failure.relabel (Span.move f)) := by
  obtain ⟨f, hf, hcarries⟩ := exists_carries h
  refine ⟨f, hf, ?_⟩
  have hparse := ofFragments_move hf.monotone hcarries
  have hlink := Model.link_relabel (Span.move_injective hf.injective) policy
  unfold model definitions fragments ofTexts
  rw [h]
  simp only [bind, Except.bind, hparse]
  cases ofFragments (sideBySide 0 (found.map Fragment.text)) with
  | error faults => rfl
  | ok definitions =>
      simp only [hlink]
      cases Model.link policy definitions <;> rfl

/-- Two documents with the same fragment texts give the same declaration file and the same
definitions as text, or they fail in the same step with the same faults, whatever stands around the
fragments and wherever they begin. -/
theorem output_of_texts (hfound : IdlBindings.fragments doc = .ok found)
    (hothers : IdlBindings.fragments other = .ok others)
    (htexts : found.map Fragment.text = others.map Fragment.text) (policy : Policy)
    (style : Style) (indent : Nat) :
    (∃ declared text,
      declarations policy style doc = .ok declared ∧
      declarations policy style other = .ok declared ∧
      interfaceText policy indent doc = .ok text ∧ interfaceText policy indent other = .ok text) ∨
    ∃ failure failure',
      declarations policy style doc = .error failure ∧
      declarations policy style other = .error failure' ∧
      interfaceText policy indent doc = .error failure ∧
      interfaceText policy indent other = .error failure' ∧ failure.stage = failure'.stage ∧
      failure.diagnostics.map Diagnostic.wording = failure'.diagnostics.map Diagnostic.wording := by
  obtain ⟨f, -, hfirst⟩ := model_eq_ofTexts policy hfound
  obtain ⟨f', -, hsecond⟩ := model_eq_ofTexts policy hothers
  rw [htexts] at hfirst
  cases hmodel : ofTexts policy (others.map Fragment.text) with
  | ok m =>
      rw [hmodel] at hfirst hsecond
      refine .inl ⟨style.declarations m, m.text indent, ?_, ?_, ?_, ?_⟩
      · exact declarations_eq_ok.2 ⟨_, hfirst, style.declarations_relabel _ m⟩
      · exact declarations_eq_ok.2 ⟨_, hsecond, style.declarations_relabel _ m⟩
      · exact interfaceText_eq_ok.2 ⟨_, hfirst, Model.text_relabel _ m indent⟩
      · exact interfaceText_eq_ok.2 ⟨_, hsecond, Model.text_relabel _ m indent⟩
  | error failure =>
      rw [hmodel] at hfirst hsecond
      refine .inr ⟨_, _, declarations_eq_error.2 hfirst, declarations_eq_error.2 hsecond,
        interfaceText_eq_error.2 hfirst, interfaceText_eq_error.2 hsecond, rfl, ?_⟩
      rw [Failure.map_wording_relabel, Failure.map_wording_relabel]

def unresolvedInPre : String := "<pre class=idl>typedef B A;</pre>"

def unresolvedInXmp : String := "A <xmp class=\"x idl\">typedef B A;</xmp>"

/-- A name that is not defined, in blocks of different elements at different places. -/
theorem output_of_texts_unresolved : ∃ failure failure',
    declarations .default .default unresolvedInPre = .error failure ∧
    declarations .default .default unresolvedInXmp = .error failure' ∧
    failure.diagnostics.map Diagnostic.span = [⟨15, 27⟩] ∧
    failure'.diagnostics.map Diagnostic.span = [⟨21, 33⟩] ∧
    failure.stage = failure'.stage ∧
    failure.diagnostics.map Diagnostic.wording = failure'.diagnostics.map Diagnostic.wording := by
  have hfound : IdlBindings.fragments unresolvedInPre
      = .ok [⟨.pre, 15, ⟨0, 15⟩, "typedef B A;"⟩] := by decide +kernel
  have hothers : IdlBindings.fragments unresolvedInXmp
      = .ok [⟨.xmp, 21, ⟨2, 21⟩, "typedef B A;"⟩] := by decide +kernel
  have hfirst : declarations .default .default unresolvedInPre
      = .error ⟨.linking, [.report .unresolvedName ⟨15, 27⟩ "B"]⟩ := by decide +kernel
  have hsecond : declarations .default .default unresolvedInXmp
      = .error ⟨.linking, [.report .unresolvedName ⟨21, 33⟩ "B"]⟩ := by decide +kernel
  rcases output_of_texts hfound hothers rfl .default .default 4 with
    ⟨declared, text, hok, -⟩ | ⟨failure, failure', hfailure, hfailure', -, -, hstage, hwording⟩
  · rw [hfirst] at hok
    cases hok
  · obtain rfl := Except.error.inj (hfirst.symm.trans hfailure)
    obtain rfl := Except.error.inj (hsecond.symm.trans hfailure')
    exact ⟨_, _, hfirst, hsecond, rfl, rfl, hstage, hwording⟩

end Pipeline

end IdlBindings
