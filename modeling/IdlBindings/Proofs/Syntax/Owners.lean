import IdlBindings.Syntax.Definition
import Mathlib.Data.List.Basic

/-!
What owns the types of a definition, and the names that stand in them
(`Definition.mem_references_iff`).
-/

namespace IdlBindings

namespace IdlType

/-- The types that a type is made of, without its extended attributes. -/
def parts : IdlType → List IdlType
  | .primitive _ | .named _ | .any => []
  | .sequence inner | .frozenArray inner | .observableArray inner | .promise inner
  | .nullable inner | .annotated _ inner => [inner]
  | .record key value => [key, value]
  | .union members => members

/-- The name stands somewhere in the type, but not in an extended attribute. -/
inductive Mentions (name : String) : IdlType → Prop
  | named : Mentions name (.named name)
  | part {type part : IdlType} (hmem : part ∈ type.parts) (h : Mentions name part) :
      Mentions name type

variable {name : String}

mutual

theorem mem_references_iff : ∀ type : IdlType, name ∈ type.references ↔ type.Mentions name
  | .primitive _ | .any => iff_of_false List.not_mem_nil fun | .part hmem _ => by cases hmem
  | .named _ => by
      rw [references, List.mem_singleton]
      constructor
      · rintro rfl
        exact .named
      · intro h
        cases h with
        | named => rfl
        | part hmem _ => cases hmem
  | .sequence inner | .frozenArray inner | .observableArray inner | .promise inner
  | .nullable inner | .annotated _ inner => (mem_references_iff inner).trans
      ⟨.part (List.mem_singleton_self inner), fun | .part hmem h => List.mem_singleton.1 hmem ▸ h⟩
  | .record key value => by
      rw [references, List.mem_append, mem_references_iff key, mem_references_iff value]
      constructor
      · rintro (h | h)
        · exact .part List.mem_cons_self h
        · exact .part (List.mem_cons_of_mem key List.mem_cons_self) h
      · intro h
        cases h with
        | part hmem h =>
            rcases List.mem_cons.1 hmem with rfl | hmem
            · exact .inl h
            · exact .inr (List.mem_singleton.1 hmem ▸ h)
  | .union members => (mem_referencesOfAll_iff members).trans
      ⟨fun ⟨_, hmem, h⟩ => .part hmem h, fun | .part hmem h => ⟨_, hmem, h⟩⟩

theorem mem_referencesOfAll_iff : ∀ types : List IdlType,
    name ∈ referencesOfAll types ↔ ∃ type ∈ types, type.Mentions name
  | [] => by simp [referencesOfAll]
  | type :: rest => by
      rw [referencesOfAll, List.mem_append, mem_references_iff type, mem_referencesOfAll_iff rest]
      simp

end

end IdlType

/-! ### Owners -/

/-- What owns types. -/
inductive Owner where
  | member (m : Member)
  | typedef (name : String) (type : IdlType) (span : Span)
  | callback (name : String) (result : IdlType) (args : List Argument) (span : Span)

namespace Owner

def span : Owner → Span
  | .member m => m.span
  | .typedef _ _ span | .callback _ _ _ span => span

def types : Owner → List IdlType
  | .member m => m.body.types
  | .typedef _ type _ => [type]
  | .callback _ result args _ => result :: args.map Argument.type

/-- The name stands in one of the owner's types. -/
def Mentions (owner : Owner) (name : String) : Prop := ∃ type ∈ owner.types, type.Mentions name

end Owner

namespace Definition

/-- The members of a container; a typedef or a callback itself. -/
def owners (d : Definition) : List Owner :=
  match d.body with
  | .container c => c.members.map .member
  | .typedef type => [.typedef d.name type d.span]
  | .callback result args => [.callback d.name result args d.span]
  | .enumeration _ | .includes _ => []

variable {d : Definition}

theorem member_mem_owners {m : Member} (h : m ∈ d.members) : .member m ∈ d.owners := by
  obtain ⟨name, body, extAttrs, span⟩ := d
  cases body with
  | container c => exact List.mem_map_of_mem h
  | _ => cases h

/-- Owners are members, or they stand where the definition does. -/
theorem owner_cases {owner : Owner} (h : owner ∈ d.owners) :
    (∃ m ∈ d.members, owner = .member m) ∨ owner.span = d.span := by
  obtain ⟨name, body, extAttrs, span⟩ := d
  cases body with
  | container c =>
      obtain ⟨m, hm, rfl⟩ := List.mem_map.1 h
      exact .inl ⟨m, hm, rfl⟩
  | typedef type => exact .inr (List.mem_singleton.1 h ▸ rfl)
  | callback result args => exact .inr (List.mem_singleton.1 h ▸ rfl)
  | enumeration values => cases h
  | includes mixin => cases h

theorem mem_types_iff {type : IdlType} {span : Span} :
    (type, span) ∈ d.types ↔ ∃ owner ∈ d.owners, owner.span = span ∧ type ∈ owner.types := by
  obtain ⟨name, body, extAttrs, place⟩ := d
  cases body with
  | container c => simp [types, owners, Owner.span, Owner.types, and_comm]
  | typedef own => simp [types, owners, Owner.span, Owner.types, and_comm, eq_comm]
  | callback result args =>
      simp only [types, owners, Owner.span, Owner.types, List.mem_cons, List.mem_map,
        Prod.mk.injEq, exists_eq_left, List.not_mem_nil, or_false]
      grind
  | enumeration values => simp [types, owners]
  | includes mixin => simp [types, owners]

theorem mem_references_iff {name : String} {span : Span} :
    (name, span) ∈ d.references ↔ ∃ owner ∈ d.owners, owner.span = span ∧ owner.Mentions name := by
  have hreferences : (name, span) ∈ d.references ↔
      ∃ type, (type, span) ∈ d.types ∧ name ∈ type.references := by
    simp [references]
  rw [hreferences]
  simp only [mem_types_iff, IdlType.mem_references_iff, Owner.Mentions]
  constructor
  · rintro ⟨type, ⟨owner, howner, hspan, htype⟩, hname⟩
    exact ⟨owner, howner, hspan, type, htype, hname⟩
  · rintro ⟨owner, howner, hspan, type, htype, hname⟩
    exact ⟨type, ⟨owner, howner, hspan, htype⟩, hname⟩

end Definition

end IdlBindings
