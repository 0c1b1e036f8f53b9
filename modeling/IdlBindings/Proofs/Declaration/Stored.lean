import IdlBindings.Proofs.Declaration.Parameters
import IdlBindings.Proofs.Syntax.Owners

/-!
The names in a definition whose tokens are all proper. Its parent, its members and the names that
its types refer to are as they are stored (`Definition.proper_parent`,
`Definition.proper_of_mem_members`, `Definition.proper_of_mem_references`).
-/

namespace IdlBindings

open Glyph

/-! ### Types -/

namespace IdlType

theorem allProper_parts {type : IdlType} (h : AllProper type.glyphs) :
    ∀ part ∈ type.parts, AllProper part.glyphs := by
  cases type with
  | primitive | named | any => exact List.forall_mem_nil _
  | sequence | frozenArray | observableArray | promise =>
      rw [glyphs, allProper_wrapped] at h
      exact List.forall_mem_singleton.2 h.2
  | nullable =>
      rw [glyphs, allProper_append] at h
      exact List.forall_mem_singleton.2 h.1
  | annotated =>
      rw [glyphs, allProper_append] at h
      exact List.forall_mem_singleton.2 h.2
  | record key value =>
      rw [glyphs, allProper_wrapped, allProper_append, allProper_cons] at h
      obtain ⟨-, hkey, -, hvalue⟩ := h
      exact List.forall_mem_cons.2 ⟨hkey, List.forall_mem_singleton.2 hvalue⟩
  | union members =>
      have hor : (word "or").Proper := by decide
      rw [glyphs, allProper_cons, allProper_append, allProper_joined hor, glyphsEach_eq_map,
        List.forall_mem_map] at h
      exact h.2.1

/-- A name in a type is as it is stored. -/
theorem Mentions.proper {type : IdlType} {name : String} (h : type.Mentions name)
    (hproper : AllProper type.glyphs) : (word name).Proper := by
  induction h with
  | named =>
      rw [glyphs, allProper_cons] at hproper
      exact hproper.1
  | part hmem _ ih => exact ih (allProper_parts hproper _ hmem)

end IdlType

/-! ### Definitions -/

/-- The name of a member is one of its words. -/
theorem MemberBody.word_mem_glyphs {body : MemberBody} :
    ∀ name ∈ body.name?, word name ∈ body.glyphs := by
  intro name hname
  cases body with
  | operation o =>
      have hmem : word name ∈ o.name.toList.map word :=
        List.mem_map_of_mem (Option.mem_toList.2 hname)
      simp only [glyphs, List.mem_append]
      exact .inr (.inr (.inr (.inl hmem)))
  | constructor | iteration | stringifier => cases hname
  | _ =>
      obtain rfl := Option.mem_some_iff.1 hname
      simp [glyphs]

theorem Argument.allProper_types {args : List Argument} (h : ∀ arg ∈ args, AllProper arg.glyphs) :
    ∀ type ∈ args.map Argument.type, AllProper type.glyphs :=
  List.forall_mem_map.2 fun arg harg => (Argument.allProper_parts (h arg harg)).2

theorem MemberBody.allProper_types : ∀ {body : MemberBody}, AllProper body.glyphs →
    ∀ type ∈ body.types, AllProper type.glyphs
  | .const name type value, h => by
      rw [glyphs, allProper_cons, allProper_append] at h
      exact List.forall_mem_singleton.2 h.2.1
  | .attribute a, h => by
      rw [glyphs, allProper_append, allProper_append] at h
      exact List.forall_mem_singleton.2 h.2.1
  | .operation o, h => by
      have hargs := Argument.allProper_types (allProper_of_mem_argumentLists h List.mem_cons_self)
      simp only [glyphs, allProper_append] at h
      exact List.forall_mem_cons.2 ⟨h.2.2.1, hargs⟩
  | .constructor args, h =>
      Argument.allProper_types (allProper_of_mem_argumentLists h List.mem_cons_self)
  | .field f, h => by
      rw [glyphs, allProper_append, allProper_append] at h
      exact List.forall_mem_singleton.2 h.2.1
  | .iteration i, h => by
      have hargs := Argument.allProper_types (allProper_of_mem_argumentLists h List.mem_cons_self)
      have hcomma : (mark .comma).Proper := by decide
      simp only [glyphs, allProper_append, allProper_cons, allProper_joined hcomma,
        List.forall_mem_map, List.forall_mem_append] at h
      obtain ⟨-, -, -, ⟨hkey, hvalue⟩, -⟩ := h
      rw [types, List.forall_mem_append, List.forall_mem_cons]
      exact ⟨hkey, hvalue i.value List.mem_cons_self, hargs⟩
  | .stringifier, _ => List.forall_mem_nil _

namespace Definition

variable {d : Definition} (h : AllProper d.glyphs)

include h

theorem allProper_types : ∀ owner ∈ d.owners, ∀ type ∈ owner.types, AllProper type.glyphs := by
  obtain ⟨name, body, extAttrs, span⟩ := d
  obtain ⟨-, hbody⟩ := allProper_append.1 h
  cases body with
  | container c =>
      refine List.forall_mem_map.2 fun m hm => ?_
      obtain ⟨-, hmembers⟩ := DefinitionBody.allProper_container.1 hbody
      exact MemberBody.allProper_types (allProper_append.1 (hmembers m hm)).2
  | typedef type =>
      rw [DefinitionBody.glyphs, allProper_cons, allProper_append] at hbody
      exact List.forall_mem_singleton.2 (List.forall_mem_singleton.2 hbody.2.1)
  | callback result args =>
      simp only [DefinitionBody.glyphs, allProper_append, allProper_cons,
        Argument.allProper_listGlyphs] at hbody
      obtain ⟨-, -, -, hresult, hargs, -⟩ := hbody
      exact List.forall_mem_singleton.2
        (List.forall_mem_cons.2 ⟨hresult, Argument.allProper_types hargs⟩)
  | enumeration _ | includes _ => exact List.forall_mem_nil _

theorem proper_parent :
    ∀ parent ∈ d.container?.bind Container.parent, (word parent).Proper := by
  obtain ⟨name, body, extAttrs, span⟩ := d
  intro parent hparent
  cases body with
  | container c =>
      have hsome : c.parent = some parent := hparent
      obtain ⟨-, hbody⟩ := allProper_append.1 h
      simp only [DefinitionBody.glyphs, Container.parentGlyphs, hsome, allProper_append,
        allProper_cons] at hbody
      obtain ⟨-, -, -, ⟨-, hword, -⟩, -⟩ := hbody
      exact hword
  | _ => cases hparent

theorem proper_of_mem_members :
    ∀ m ∈ d.members, ∀ name ∈ m.body.name?, (word name).Proper := by
  obtain ⟨name, body, extAttrs, span⟩ := d
  cases body with
  | container c =>
      intro m hm own hown
      obtain ⟨-, hbody⟩ := allProper_append.1 h
      obtain ⟨-, hmember⟩ :=
        allProper_append.1 ((DefinitionBody.allProper_container.1 hbody).2 m hm)
      exact hmember _ (MemberBody.word_mem_glyphs own hown)
  | _ => exact List.forall_mem_nil _

theorem proper_of_mem_references : ∀ name ∈ d.references.map Prod.fst, (word name).Proper := by
  rw [List.forall_mem_map]
  rintro ⟨name, span⟩ hmem
  obtain ⟨owner, howner, -, type, htype, hname⟩ := mem_references_iff.1 hmem
  exact hname.proper (allProper_types h owner howner type htype)

end Definition

end IdlBindings
