import IdlBindings.Pipeline

/-!
The steps of the pipeline one by one: what each gives when the steps before it go through, and that
a failure is the one of the first step that finds faults.
-/

namespace IdlBindings

open Definition

/-! ### The definitions of all fragments -/

/-- What is wrong with the definitions of a fragment. -/
def Fragment.fault? (fragment : Fragment) : Option Diagnostic :=
  match ofSource fragment.text fragment.offset with
  | .ok _ => none
  | .error fault => some fault

theorem Fragment.fault?_eq_none_iff {fragment : Fragment} : fragment.fault? = none ↔
    ∃ definitions, ofSource fragment.text fragment.offset = .ok definitions := by
  unfold fault?
  cases ofSource fragment.text fragment.offset <;> simp

/-- Reading fragments gives the definitions of all, if each can be read, and else the faults of
those that cannot. -/
theorem Definition.ofFragments_eq (fragments : List Fragment) : ofFragments fragments =
    match fragments.filterMap Fragment.fault? with
    | [] => .ok (fragments.flatMap fun fragment =>
        (ofSource fragment.text fragment.offset).toOption.getD [])
    | fault :: faults => .error (fault :: faults) := by
  induction fragments with
  | nil => rfl
  | cons fragment rest ih =>
      rw [ofFragments, ih, List.filterMap_cons, List.flatMap_cons, Fragment.fault?]
      cases ofSource fragment.text fragment.offset <;>
        cases rest.filterMap Fragment.fault? <;> rfl

theorem Definition.ofFragments_eq_error_iff {fragments : List Fragment} {faults : List Diagnostic} :
    ofFragments fragments = .error faults ↔
      fragments.filterMap Fragment.fault? = faults ∧ faults ≠ [] := by
  rw [ofFragments_eq]
  cases fragments.filterMap Fragment.fault? with
  | nil => simp
  | cons fault rest =>
      simp only [Except.error.injEq]
      constructor
      · rintro rfl
        exact ⟨rfl, List.cons_ne_nil _ _⟩
      · exact And.left

theorem Definition.ofFragments_eq_ok_iff {fragments : List Fragment} :
    (∃ definitions, ofFragments fragments = .ok definitions) ↔
      ∀ fragment ∈ fragments, fragment.fault? = none := by
  rw [← List.filterMap_eq_nil_iff, ofFragments_eq]
  cases fragments.filterMap Fragment.fault? <;> simp

/-- The definitions of all fragments are those of each. -/
theorem Definition.exists_of_ofFragments {fragments : List Fragment} {definitions : List Definition}
    (h : ofFragments fragments = .ok definitions) : ∃ own : Fragment → List Definition,
      fragments.flatMap own = definitions ∧
      ∀ fragment ∈ fragments, ofSource fragment.text fragment.offset = .ok (own fragment) := by
  have hread := ofFragments_eq_ok_iff.1 ⟨definitions, h⟩
  rw [ofFragments_eq, List.filterMap_eq_nil_iff.2 hread] at h
  refine ⟨_, Except.ok.inj h, fun fragment hmem => ?_⟩
  obtain ⟨own, hown⟩ := Fragment.fault?_eq_none_iff.1 (hread fragment hmem)
  rw [hown]
  rfl

/-- What holds of the definitions of each fragment holds of all. -/
theorem Definition.forall_of_ofFragments {P : Definition → Prop} {fragments : List Fragment}
    {definitions : List Definition} (h : ofFragments fragments = .ok definitions)
    (heach : ∀ fragment ∈ fragments, ∀ own,
      ofSource fragment.text fragment.offset = .ok own → ∀ d ∈ own, P d) :
    ∀ d ∈ definitions, P d := by
  obtain ⟨own, rfl, hown⟩ := exists_of_ofFragments h
  intro d hd
  obtain ⟨fragment, hfragment, hd⟩ := List.mem_flatMap.1 hd
  exact heach fragment hfragment _ (hown fragment hfragment) d hd

theorem Definition.ofFragments_singleton (fragment : Fragment) {definitions : List Definition} :
    ofFragments [fragment] = .ok definitions ↔
      ofSource fragment.text fragment.offset = .ok definitions := by
  simp only [ofFragments]
  cases ofSource fragment.text fragment.offset with
  | ok own => simp
  | error diagnostic => simp

namespace Pipeline

variable {policy : Policy} {style : Style} {indent : Nat} {doc text : String} {m : Model}
  {failure : Failure}

/-! ### What a step gives -/

theorem definitions_eq_ok {all : List Definition} : definitions doc = .ok all ↔
    ∃ found, IdlBindings.fragments doc = .ok found ∧ ofFragments found = .ok all := by
  unfold definitions fragments
  cases IdlBindings.fragments doc with
  | error diagnostic => simp [bind, Except.bind]
  | ok found => cases hparse : ofFragments found <;> simp [hparse, bind, Except.bind]

/-- A model is what its steps make of a document. -/
theorem model_eq_ok : model policy doc = .ok m ↔ ∃ fragments definitions,
    IdlBindings.fragments doc = .ok fragments ∧ ofFragments fragments = .ok definitions ∧
      Model.link policy definitions = .ok m := by
  have hsteps : model policy doc = .ok m ↔
      ∃ all, definitions doc = .ok all ∧ Model.link policy all = .ok m := by
    unfold model
    cases definitions doc with
    | error failure => simp [bind, Except.bind]
    | ok all => cases hlink : Model.link policy all <;> simp [hlink, bind, Except.bind]
  rw [hsteps]
  constructor
  · rintro ⟨all, hall, hlink⟩
    obtain ⟨found, hfound, hparse⟩ := definitions_eq_ok.1 hall
    exact ⟨found, all, hfound, hparse, hlink⟩
  · rintro ⟨found, all, hfound, hparse, hlink⟩
    exact ⟨all, definitions_eq_ok.2 ⟨found, hfound, hparse⟩, hlink⟩

theorem interfaceText_eq_ok : interfaceText policy indent doc = .ok text ↔
    ∃ m, model policy doc = .ok m ∧ m.text indent = text := by
  unfold interfaceText
  cases model policy doc <;> simp [bind, Except.bind, pure, Except.pure]

theorem declarations_eq_ok : declarations policy style doc = .ok text ↔
    ∃ m, model policy doc = .ok m ∧ style.declarations m = text := by
  unfold declarations
  cases model policy doc <;> simp [bind, Except.bind, pure, Except.pure]

/-! ### Where a step stops -/

theorem fragments_eq_error : fragments doc = .error failure ↔
    ∃ fault, IdlBindings.fragments doc = .error fault ∧ failure = ⟨.extraction, [fault]⟩ := by
  unfold fragments
  cases IdlBindings.fragments doc <;> simp [eq_comm]

theorem definitions_eq_error : definitions doc = .error failure ↔ fragments doc = .error failure ∨
    ∃ found faults, IdlBindings.fragments doc = .ok found ∧ ofFragments found = .error faults ∧
      failure = ⟨.parsing, faults⟩ := by
  unfold definitions fragments
  cases IdlBindings.fragments doc with
  | error fault => simp [bind, Except.bind]
  | ok found => cases hparse : ofFragments found <;> simp [hparse, bind, Except.bind, eq_comm]

theorem model_eq_error : model policy doc = .error failure ↔ definitions doc = .error failure ∨
    ∃ all faults, definitions doc = .ok all ∧ Model.link policy all = .error faults ∧
      failure = ⟨.linking, faults⟩ := by
  unfold model
  cases definitions doc with
  | error first => simp [bind, Except.bind]
  | ok all => cases hlink : Model.link policy all <;> simp [hlink, bind, Except.bind, eq_comm]

theorem declarations_eq_error :
    declarations policy style doc = .error failure ↔ model policy doc = .error failure := by
  unfold declarations
  cases model policy doc <;> simp [bind, Except.bind, pure, Except.pure]

theorem interfaceText_eq_error :
    interfaceText policy indent doc = .error failure ↔ model policy doc = .error failure := by
  unfold interfaceText
  cases model policy doc <;> simp [bind, Except.bind, pure, Except.pure]

end Pipeline

end IdlBindings
