import IdlBindings.Proofs.Syntax.Unplaced

/-!
Syntax trees with other places. A change of places `g` reaches the places of definitions, of their
members and of diagnostics, and nothing else depends on it.
-/

namespace IdlBindings

theorem Span.move_injective {f : Nat → Nat} (h : Function.Injective f) :
    Function.Injective (Span.move f) := by
  rintro ⟨start, stop⟩ ⟨start', stop'⟩ hsame
  obtain ⟨hstart, hstop⟩ := Span.mk.inj hsame
  exact Span.mk.injEq .. ▸ ⟨h hstart, h hstop⟩

def Member.relabel (g : Span → Span) (m : Member) : Member := { m with span := g m.span }

def Container.relabel (g : Span → Span) (c : Container) : Container :=
  { c with members := c.members.map (Member.relabel g) }

def DefinitionBody.relabel (g : Span → Span) : DefinitionBody → DefinitionBody
  | .container c => .container (c.relabel g)
  | body => body

def Definition.relabel (g : Span → Span) (d : Definition) : Definition :=
  { d with body := d.body.relabel g, span := g d.span }

variable (g : Span → Span)

namespace Diagnostic

@[simp] theorem relabel_report (kind : FaultKind) (span : Span) (detail : String) :
    (report kind span detail).relabel g = report kind (g span) detail := rfl

@[simp] theorem relabel_withRelated (d : Diagnostic) (message : String) (span : Span) :
    (d.withRelated message span).relabel g = (d.relabel g).withRelated message (g span) := by
  simp [relabel, withRelated]

@[simp] theorem relabel_withHint (d : Diagnostic) (hint : String) :
    (d.withHint hint).relabel g = (d.relabel g).withHint hint := rfl

end Diagnostic

namespace Definition

variable (d : Definition)

@[simp] theorem name_relabel : (d.relabel g).name = d.name := rfl

@[simp] theorem extAttrs_relabel : (d.relabel g).extAttrs = d.extAttrs := rfl

@[simp] theorem span_relabel : (d.relabel g).span = g d.span := rfl

@[simp] theorem container?_relabel :
    (d.relabel g).container? = d.container?.map (Container.relabel g) := by
  obtain ⟨name, body, extAttrs, span⟩ := d
  cases body <;> rfl

@[simp] theorem symbolKind?_relabel : (d.relabel g).symbolKind? = d.symbolKind? := by
  obtain ⟨name, body, extAttrs, span⟩ := d
  cases body <;> rfl

@[simp] theorem members_relabel : (d.relabel g).members = d.members.map (Member.relabel g) := by
  obtain ⟨name, body, extAttrs, span⟩ := d
  cases body <;> rfl

@[simp] theorem isMixin_relabel : (d.relabel g).isMixin = d.isMixin := by
  obtain ⟨name, body, extAttrs, span⟩ := d
  cases body <;> rfl

@[simp] theorem isPartial_relabel : (d.relabel g).isPartial = d.isPartial := by
  obtain ⟨name, body, extAttrs, span⟩ := d
  cases body <;> rfl

@[simp] theorem references_relabel :
    (d.relabel g).references = d.references.map (Prod.map id g) := by
  have htypes : (d.relabel g).types = d.types.map (Prod.map id g) := by
    obtain ⟨name, body, extAttrs, span⟩ := d
    cases body with
    | container c =>
        simp only [relabel, DefinitionBody.relabel, Container.relabel, types, List.flatMap_map,
          List.map_flatMap, List.map_map]
        rfl
    | callback result args => simp [relabel, DefinitionBody.relabel, types]
    | _ => rfl
  simp only [references, htypes, List.flatMap_map, List.map_flatMap, List.map_map]
  rfl

@[simp] theorem unplaced_relabel : (d.relabel g).unplaced = d.unplaced := by
  obtain ⟨name, body, extAttrs, span⟩ := d
  cases body with
  | container c =>
      simp only [relabel, unplaced, DefinitionBody.relabel, DefinitionBody.unplaced,
        Container.relabel, List.map_map]
      rfl
  | _ => rfl

end Definition

end IdlBindings
