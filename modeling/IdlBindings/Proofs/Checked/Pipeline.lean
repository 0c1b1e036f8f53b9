import IdlBindings.Proofs.Checked.Emission
import IdlBindings.Proofs.Checked.Lexer
import IdlBindings.Proofs.Checked.Link
import IdlBindings.Proofs.Checked.Markup
import IdlBindings.Proofs.Markup.Cut
import IdlBindings.Proofs.Pipeline.Idempotence

/-!
The pipeline with every index, slice, removal and sum checked. On a document of fewer than `2 ^ 32`
bytes each step gives what the unchecked one gives, whatever the configuration, and so nothing is
ever out of range (`Pipeline.checked_eq`).
-/

namespace IdlBindings

/-- The definitions of all fragments, or one diagnostic for each fragment that cannot be read. -/
def Definition.ofFragments? :
    List Fragment → Option (Except (List Diagnostic) (List Definition))
  | [] => some (.ok [])
  | fragment :: rest => do
    match ← Reader.ofSource? fragment.text fragment.offset, ← ofFragments? rest with
    | .ok definitions, .ok others => return .ok (definitions ++ others)
    | .ok _, .error diagnostics => return .error diagnostics
    | .error diagnostic, .ok _ => return .error [diagnostic]
    | .error diagnostic, .error diagnostics => return .error (diagnostic :: diagnostics)

theorem Definition.ofFragments?_eq {fragments : List Fragment}
    (h : ∀ fragment ∈ fragments, fragment.offset + byteLength fragment.text.toList < UInt32.size) :
    ofFragments? fragments = some (ofFragments fragments) := by
  induction fragments with
  | nil => rfl
  | cons fragment rest ih =>
      obtain ⟨hfirst, hrest⟩ := List.forall_mem_cons.1 h
      rw [ofFragments?, Reader.ofSource?_eq hfirst, ih hrest, ofFragments]
      simp only [Option.bind_eq_bind, Option.bind_some]
      cases ofSource fragment.text fragment.offset <;> cases ofFragments rest <;> rfl

namespace Pipeline

/-! ### Steps -/

/-- The fragments of a document. -/
def fragments? (doc : String) : Option (Except Failure (List Fragment)) := do
  match ← IdlBindings.fragments? doc.toList with
  | .ok fragments => return .ok fragments
  | .error d => return .error ⟨.extraction, [d]⟩

/-- The definitions of a document. -/
def definitions? (doc : String) : Option (Except Failure (List Definition)) := do
  match ← fragments? doc with
  | .ok fragments =>
    match ← Definition.ofFragments? fragments with
    | .ok definitions => return .ok definitions
    | .error ds => return .error ⟨.parsing, ds⟩
  | .error failure => return .error failure

/-- The linked model of a document. -/
def model? (policy : Policy) (doc : String) : Option (Except Failure Model) := do
  match ← definitions? doc with
  | .ok definitions =>
    match ← Model.link? policy definitions with
    | .ok model => return .ok model
    | .error ds => return .error ⟨.linking, ds⟩
  | .error failure => return .error failure

/-- The declaration file of a document. -/
def declarations? (policy : Policy) (style : Style) (doc : String) :
    Option (Except Failure String) := do
  match ← model? policy doc with
  | .ok model => return .ok (← style.declarations? model)
  | .error failure => return .error failure

/-- The linked definitions of a document as text. -/
def interfaceText? (policy : Policy) (indent : Nat) (doc : String) :
    Option (Except Failure String) := do
  match ← model? policy doc with
  | .ok model => return .ok (← model.text? indent)
  | .error failure => return .error failure

/-! ### Agreement -/

section Agreement

variable {doc : String} (h : doc.utf8ByteSize < UInt32.size) (policy : Policy)

include h

theorem fragments?_eq : fragments? doc = some (fragments doc) := by
  rw [fragments?, IdlBindings.fragments?_eq h, fragments]
  cases IdlBindings.fragments doc <;> rfl

theorem definitions?_eq : definitions? doc = some (definitions doc) := by
  rw [definitions?, fragments?_eq h, definitions, fragments]
  cases hfound : IdlBindings.fragments doc with
  | error d => rfl
  | ok found =>
      have hparse : Definition.ofFragments? found = some (Definition.ofFragments found) :=
        Definition.ofFragments?_eq fun fragment hmem =>
          Nat.lt_of_le_of_lt (Fragment.stop_le hfound hmem) h
      simp only [Option.bind_eq_bind, Option.bind_some, hparse]
      cases hall : Definition.ofFragments found <;> simp [bind, Except.bind, hall]

theorem model?_eq : model? policy doc = some (model policy doc) := by
  rw [model?, definitions?_eq h, model]
  cases definitions doc with
  | error failure => rfl
  | ok all =>
      simp only [Option.bind_eq_bind, Option.bind_some, Model.link?_eq]
      cases hlink : Model.link policy all <;> simp [bind, Except.bind, hlink]

theorem declarations?_eq (style : Style) :
    declarations? policy style doc = some (declarations policy style doc) := by
  rw [declarations?, model?_eq h, declarations]
  cases hmodel : model policy doc with
  | error failure => rfl
  | ok m =>
      simp only [Option.bind_eq_bind, Option.bind_some,
        Style.declarations?_eq (allProper_of_model hmodel)]
      rfl

theorem interfaceText?_eq (indent : Nat) :
    interfaceText? policy indent doc = some (interfaceText policy indent doc) := by
  rw [interfaceText?, model?_eq h, interfaceText]
  cases model policy doc with
  | error failure => rfl
  | ok m =>
      simp only [Option.bind_eq_bind, Option.bind_some, Model.text?_eq]
      rfl

end Agreement

/-- On a document of fewer than `2 ^ 32` bytes no step of the pipeline goes out of range, whether
the document is well-formed or not and whatever the configuration. -/
theorem checked_eq {doc : String} (h : doc.utf8ByteSize < UInt32.size) (policy : Policy)
    (style : Style) (indent : Nat) :
    fragments? doc = some (fragments doc) ∧ definitions? doc = some (definitions doc) ∧
      model? policy doc = some (model policy doc) ∧
      declarations? policy style doc = some (declarations policy style doc) ∧
      interfaceText? policy indent doc = some (interfaceText policy indent doc) :=
  ⟨fragments?_eq h, definitions?_eq h, model?_eq h policy, declarations?_eq h policy style,
    interfaceText?_eq h policy indent⟩

/-- Behind a letter of two bytes, a negative constant is read and a partial interface puts one
attribute in the place of two operations. -/
def replacedOperations : String :=
  "é<pre class=idl>interface A \x7b const long C = -0x8; void f(long x); void f(); \x7d;"
    ++ "partial interface A \x7b attribute long f; \x7d;</pre>"

theorem checked_eq_replacedOperations :
    replacedOperations.utf8ByteSize < UInt32.size ∧
    fragments? replacedOperations = some (fragments replacedOperations) ∧
    definitions? replacedOperations = some (definitions replacedOperations) ∧
    model? .default replacedOperations = some (model .default replacedOperations) ∧
    declarations? .default .default replacedOperations =
      some (.ok "export interface A \x7b\n  readonly C: -8;\n  f: number;\n\x7d\n") ∧
    interfaceText? .default 2 replacedOperations =
      some (.ok "interface A \x7b\n  const long C = -0x8;\n  attribute long f;\n\x7d;\n") := by
  have hsize : replacedOperations.utf8ByteSize < UInt32.size := by decide +kernel
  obtain ⟨hfragments, hdefinitions, hmodel, hdeclarations, htext⟩ :=
    checked_eq hsize .default .default 2
  refine ⟨hsize, hfragments, hdefinitions, hmodel, ?_, ?_⟩
  · rw [hdeclarations]
    exact congrArg some (by decide +kernel)
  · rw [htext]
    exact congrArg some (by decide +kernel)

end Pipeline

end IdlBindings
