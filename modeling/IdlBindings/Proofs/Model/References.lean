import IdlBindings.Proofs.Distinct
import IdlBindings.Proofs.Model.Owners

/-!
What linking reports about the names in types. A name that stands for no type in the given
definitions is a `BadReference`, and it is reported once for each place of an owner, after all other
faults (`Linked.exists_referenceReports`).
-/

namespace IdlBindings

open Definition

/-- What is chosen, item by item. -/
theorem forall₂_filterMap {α β : Type} (f : α → Option β) (items : List α) :
    List.Forall₂ (fun item value => f item = some value)
      (items.filter fun item => (f item).isSome) (items.filterMap f) := by
  induction items with
  | nil => exact .nil
  | cons item rest ih =>
      cases hitem : f item with
      | none => simpa [hitem] using ih
      | some value => simpa [hitem] using ih

/-- The faults of linking, none if it gives a model. -/
def Model.faults (policy : Policy) (definitions : List Definition) : List Diagnostic :=
  match Model.link policy definitions with
  | .ok _ => []
  | .error faults => faults

theorem Model.faults_eq (policy : Policy) (definitions : List Definition) :
    Model.faults policy definitions = (Linked.ofDefinitions policy definitions).diagnostics ++
      Linked.resolutionFaults policy (Linked.ofDefinitions policy definitions).definitions := by
  unfold Model.faults Model.link
  dsimp only
  split
  · rename_i hlink
    split at hlink
    · rename_i hnone
      exact (List.isEmpty_iff.1 hnone).symm
    · cases hlink
  · rename_i hlink
    split at hlink
    · cases hlink
    · cases hlink
      rfl

theorem SymbolKind.isType_eq_false_iff {kind : SymbolKind} :
    kind.isType = false ↔ kind = .container .mixin ∨ kind = .container .nameSpace := by
  rcases kind with (_ | _ | _ | _ | _) | _ | _ | _ <;> decide

namespace Linked

/-- The name, in a type at this place, stands for no type: no definition declares it and it is no
external name, or the first one that declares it is a mixin or a namespace. The fault says which. -/
inductive BadReference (policy : Policy) (definitions : List Definition) (name : String)
    (span : Span) : Diagnostic → Prop
  | undeclared (hnone : ∀ d ∈ declarations definitions, d.name ≠ name)
      (hexternal : policy.isExternal name = false) :
      BadReference policy definitions name span (.report .unresolvedName span name)
  | notType {first : Definition} {kind : SymbolKind}
      (hfirst : named? (declarations definitions) name = some first)
      (hkind : first.symbolKind? = some kind)
      (hnot : kind = .container .mixin ∨ kind = .container .nameSpace) :
      BadReference policy definitions name span
        ((Diagnostic.report .kindConflict span
          ("`" ++ name ++ "` is " ++ kind.describe ++ " and cannot be used as a type")).withRelated
          "declared here" first.span)

variable {policy : Policy} {definitions before after : List Definition} {name : String}
  {span : Span} {fault : Diagnostic}

/-- Where a name is declared first, and as what, decides about references to it. -/
theorem referenceFault?_congr (h : place? before name = place? after name) :
    referenceFault? policy before name span = referenceFault? policy after name span := by
  unfold place? at h
  unfold referenceFault?
  cases hbefore : declared? before name with
  | none =>
      rw [hbefore, Option.map_none, eq_comm, Option.map_eq_none_iff] at h
      rw [h]
  | some found =>
      rw [hbefore, Option.map_some, eq_comm, Option.map_eq_some_iff] at h
      obtain ⟨other, hafter, heq⟩ := h
      obtain ⟨hspan, hkind⟩ := Prod.mk.inj heq
      rw [hafter]
      dsimp only
      rw [hspan, hkind]

theorem declared?_eq_some_iff {first : Definition} {kind : SymbolKind} :
    declared? definitions name = some (first, kind) ↔
      named? definitions name = some first ∧ first.symbolKind? = some kind := by
  simp only [declared?, Option.bind_eq_some_iff, Option.map_eq_some_iff, Prod.mk.injEq]
  constructor
  · rintro ⟨_, hfirst, _, hkind, rfl, rfl⟩
    exact ⟨hfirst, hkind⟩
  · rintro ⟨hfirst, hkind⟩
    exact ⟨first, hfirst, kind, hkind, rfl, rfl⟩

theorem declared?_eq_none_iff (h : ∀ d ∈ definitions, d.symbolKind? ≠ none) :
    declared? definitions name = none ↔ ∀ d ∈ definitions, d.name ≠ name := by
  have hnamed : named? definitions name = none ↔ ∀ d ∈ definitions, d.name ≠ name := by
    simp [named?]
  rw [← hnamed, declared?, Option.bind_eq_none_iff]
  constructor
  · intro hkinds
    by_contra hsome
    obtain ⟨first, hfirst⟩ := Option.ne_none_iff_exists'.1 hsome
    have hkind := Option.map_eq_none_iff.1 (hkinds first hfirst)
    exact h first (List.mem_of_find?_eq_some hfirst) hkind
  · intro hnone first hfirst
    rw [hnone] at hfirst
    cases hfirst

theorem referenceFault?_declarations : referenceFault? policy (declarations definitions) name span
    = some fault ↔ BadReference policy definitions name span fault := by
  have hnone : declared? (declarations definitions) name = none ↔ _ :=
    declared?_eq_none_iff fun _ => symbolKind?_of_declaration
  constructor
  · intro h
    unfold referenceFault? at h
    split at h
    · rename_i hname
      split at h
      · cases h
      · rename_i hexternal
        cases h
        exact .undeclared (hnone.1 hname) (Bool.eq_false_iff.2 hexternal)
    · rename_i hname
      obtain ⟨hfirst, hkind⟩ := declared?_eq_some_iff.1 hname
      split at h
      · cases h
      · rename_i htype
        cases h
        exact .notType hfirst hkind (SymbolKind.isType_eq_false_iff.1 (Bool.eq_false_iff.2 htype))
  · intro h
    unfold referenceFault?
    cases h with
    | undeclared hname hexternal =>
        rw [hnone.2 hname, hexternal]
        rfl
    | notType hfirst hkind hnot =>
        rw [declared?_eq_some_iff.2 ⟨hfirst, hkind⟩]
        dsimp only
        rw [SymbolKind.isType_eq_false_iff.2 hnot]
        rfl

/-- What is wrong with a reference once all is folded is what the given definitions say. -/
theorem referenceFault?_ofDefinitions :
    referenceFault? policy (ofDefinitions policy definitions).definitions name span = some fault ↔
      BadReference policy definitions name span fault := by
  rw [referenceFault?_congr (place?_ofDefinitions policy definitions name)]
  exact referenceFault?_declarations

/-- The reports on references that linking ends with, and what they are about: the names, each with
the place of an owner, that stand in a type of that owner once all is folded and that are bad
references. -/
structure ReferenceReports (policy : Policy) (definitions : List Definition)
    (pairs : List (String × Span)) (reports : List Diagnostic) : Prop where
  faults : Model.faults policy definitions = (ofDefinitions policy definitions).diagnostics ++
    (ofDefinitions policy definitions).definitions.filterMap
      (parentFault? policy (ofDefinitions policy definitions).definitions) ++ reports
  nodup : pairs.Nodup
  mem_iff : ∀ name span, (name, span) ∈ pairs ↔
    (∃ owner ∈ (ofDefinitions policy definitions).definitions.flatMap owners,
      owner.span = span ∧ owner.Mentions name) ∧
    ∃ fault, BadReference policy definitions name span fault
  one : List.Forall₂ (fun pair fault => BadReference policy definitions pair.1 pair.2 fault)
    pairs reports

/-- Each bad reference is reported once. -/
theorem exists_referenceReports (policy : Policy) (definitions : List Definition) :
    ∃ pairs reports, ReferenceReports policy definitions pairs reports := by
  let folded := (ofDefinitions policy definitions).definitions
  let fault? (pair : String × Span) := referenceFault? policy folded pair.1 pair.2
  have hfault (pair : String × Span) (fault : Diagnostic) :
      fault? pair = some fault ↔ BadReference policy definitions pair.1 pair.2 fault :=
    referenceFault?_ofDefinitions
  let references := (folded.flatMap references).eraseDups
  refine ⟨references.filter fun pair => (fault? pair).isSome, references.filterMap fault?, ?_, ?_,
    fun name span => ?_, ?_⟩
  · rw [Model.faults_eq, List.append_assoc]
    rfl
  · exact (nodup_eraseDups _).filter _
  · rw [List.mem_filter, Option.isSome_iff_exists, List.mem_eraseDups, List.mem_flatMap]
    simp only [hfault, mem_references_iff, List.mem_flatMap]
    grind
  · exact (forall₂_filterMap fault? _).imp fun pair fault => (hfault pair fault).1

end Linked

end IdlBindings
