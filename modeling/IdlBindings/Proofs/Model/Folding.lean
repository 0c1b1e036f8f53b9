import IdlBindings.Model.Link
import IdlBindings.Proofs.Model.Merge

/-!
What the folds of linking make of the declarations. Each fold goes on after a fault, so its state is
known only as long as there is none: `Linked.foldl_iff` says of a fold that it finds no fault exactly
when a condition holds of what it has read, and that its state then has a closed form. The closed form
of all folds is `Definition.folded`.
-/

namespace IdlBindings

namespace Definition

/-- The mixin of an includes statement. -/
def mixin? (d : Definition) : Option String :=
  match d.body with
  | .includes mixin => some mixin
  | _ => none

def declarations (definitions : List Definition) : List Definition :=
  definitions.filter isDeclaration

def partials (definitions : List Definition) : List Definition :=
  definitions.filter isPartial

def inclusions (definitions : List Definition) : List Definition :=
  definitions.filter isIncludes

/-- The definitions of one name. -/
def ofName (definitions : List Definition) (name : String) : List Definition :=
  definitions.filter fun d => d.name == name

/-- The members of the definition of a name. -/
def membersOf (definitions : List Definition) (name : String) : List Member :=
  (named? definitions name).toList.flatMap members

/-- A declaration with what its partial definitions add. -/
def addPartials (policy : Policy) (partials : List Definition) (base : Definition) : Definition :=
  Linked.setMembers
    { base with
      extAttrs := ((ofName partials base.name).flatMap extAttrs).foldl Linked.insertExtAttr
        base.extAttrs }
    (Member.merged policy.collision base.members ((ofName partials base.name).flatMap members))

/-- The members of all mixins that are included into a name. -/
def includedMembers (bases inclusions : List Definition) (target : String) : List Member :=
  (ofName inclusions target).flatMap fun d => d.mixin?.toList.flatMap (membersOf bases)

/-- A declaration with the members of the mixins that it includes. -/
def addIncludes (policy : Policy) (bases inclusions : List Definition) (base : Definition) :
    Definition :=
  Linked.setMembers base
    (Member.merged policy.collision base.members (includedMembers bases inclusions base.name))

/-- The declarations with what partial definitions add. -/
def withPartials (policy : Policy) (definitions : List Definition) : List Definition :=
  (declarations definitions).map (addPartials policy (partials definitions))

/-- The declarations with what partial definitions and includes statements add. -/
def folded (policy : Policy) (definitions : List Definition) : List Definition :=
  (withPartials policy definitions).map
    (addIncludes policy (withPartials policy definitions) (inclusions definitions))

variable {definitions : List Definition} {d e : Definition} {name : String}

/-! ### Names -/

theorem named?_eq_some (hnodup : (definitions.map Definition.name).Nodup) :
    named? definitions name = some d ↔ d ∈ definitions ∧ d.name = name := by
  constructor
  · intro h
    exact ⟨List.mem_of_find?_eq_some h, by simpa using List.find?_some h⟩
  · rintro ⟨hd, rfl⟩
    induction definitions with
    | nil => cases hd
    | cons first rest ih =>
        rw [List.map_cons, List.nodup_cons] at hnodup
        rw [named?, List.find?_cons]
        rcases List.mem_cons.1 hd with rfl | hrest
        · simp
        · have hne : first.name ≠ d.name := by
            intro heq
            exact hnodup.1 (heq ▸ List.mem_map_of_mem hrest)
          rw [beq_eq_false_iff_ne.2 hne]
          exact ih hnodup.2 hrest

theorem eq_of_name (hnodup : (definitions.map Definition.name).Nodup) (hd : d ∈ definitions)
    (he : e ∈ definitions) (hname : d.name = e.name) : d = e := by
  have hfirst := (named?_eq_some hnodup).2 ⟨hd, hname⟩
  have hsecond := (named?_eq_some hnodup).2 ⟨he, rfl⟩
  exact Option.some.inj (hfirst.symm.trans hsecond)

theorem ofName_append (definitions others : List Definition) (name : String) :
    ofName (definitions ++ others) name = ofName definitions name ++ ofName others name :=
  List.filter_append ..

theorem ofName_singleton (hname : d.name = name) : ofName [d] name = [d] := by
  simp [ofName, hname]

theorem ofName_singleton_ne (hname : d.name ≠ name) : ofName [d] name = [] := by
  simp [ofName, hname]

theorem named?_map {g : Definition → Definition} (hname : ∀ d, (g d).name = d.name)
    (definitions : List Definition) (name : String) :
    named? (definitions.map g) name = (named? definitions name).map g := by
  rw [named?, named?, List.find?_map]
  have hsame : ((fun d => d.name == name) ∘ g) = fun d : Definition => d.name == name := by
    funext d
    rw [Function.comp_apply, hname]
  rw [hsame]

theorem container?_of_symbolKind? {kind : ContainerKind}
    (h : d.symbolKind? = some (.container kind)) : ∃ c, d.container? = some c ∧ c.kind = kind := by
  obtain ⟨name, body, extAttrs, span⟩ := d
  cases body with
  | container c =>
      cases h
      exact ⟨c, rfl, rfl⟩
  | _ => cases h

end Definition

namespace Linked

open Definition

/-! ### Setting members -/

section SetMembers

variable (d : Definition) (members others : List Member)

@[simp] theorem setMembers_name : (setMembers d members).name = d.name := by
  unfold setMembers
  split <;> rfl

@[simp] theorem setMembers_extAttrs : (setMembers d members).extAttrs = d.extAttrs := by
  unfold setMembers
  split <;> rfl

@[simp] theorem setMembers_symbolKind? : (setMembers d members).symbolKind? = d.symbolKind? := by
  obtain ⟨name, body, extAttrs, span⟩ := d
  cases body <;> rfl

theorem container?_setMembers :
    (setMembers d members).container? = d.container?.map fun c => { c with members } := by
  obtain ⟨name, body, extAttrs, span⟩ := d
  cases body <;> rfl

theorem setMembers_self : setMembers d d.members = d := by
  obtain ⟨name, body, extAttrs, span⟩ := d
  cases body <;> rfl

theorem setMembers_of_container?_eq_none (h : d.container? = none) : setMembers d members = d := by
  obtain ⟨name, body, extAttrs, span⟩ := d
  cases body with
  | container c => cases h
  | _ => rfl

theorem members_setMembers (h : d.container? ≠ none) : (setMembers d members).members = members := by
  obtain ⟨name, body, extAttrs, span⟩ := d
  cases body with
  | container c => rfl
  | _ => exact absurd rfl h

end SetMembers

/-! ### Declared names -/

variable {definitions : List Definition} {name : String} {d : Definition} {kind : SymbolKind}

theorem declared?_eq_some (hnodup : (definitions.map Definition.name).Nodup) :
    declared? definitions name = some (d, kind) ↔
      d ∈ definitions ∧ d.name = name ∧ d.symbolKind? = some kind := by
  rw [declared?, Option.bind_eq_some_iff]
  constructor
  · rintro ⟨found, hfound, hkind⟩
    obtain ⟨_, hkind, heq⟩ := Option.map_eq_some_iff.1 hkind
    cases heq
    obtain ⟨hmem, hname⟩ := (named?_eq_some hnodup).1 hfound
    exact ⟨hmem, hname, hkind⟩
  · rintro ⟨hmem, hname, hkind⟩
    refine ⟨d, (named?_eq_some hnodup).2 ⟨hmem, hname⟩, ?_⟩
    rw [hkind]
    rfl

/-- A name is declared with a kind. -/
def Declares (definitions : List Definition) (name : String) (kind : SymbolKind) : Prop :=
  ∃ base ∈ definitions, base.name = name ∧ base.symbolKind? = some kind

theorem declares_iff (hnodup : (definitions.map Definition.name).Nodup) :
    Declares definitions name kind ↔ (declared? definitions name).map Prod.snd = some kind := by
  rw [Option.map_eq_some_iff]
  constructor
  · rintro ⟨base, hbase⟩
    exact ⟨(base, kind), (declared?_eq_some hnodup).2 hbase, rfl⟩
  · rintro ⟨⟨base, _⟩, hdeclared, rfl⟩
    exact ⟨base, (declared?_eq_some hnodup).1 hdeclared⟩

theorem declared?_map {g : Definition → Definition} (hname : ∀ d, (g d).name = d.name)
    (hkind : ∀ d, (g d).symbolKind? = d.symbolKind?) (definitions : List Definition)
    (name : String) :
    declared? (definitions.map g) name
      = (declared? definitions name).map fun found => (g found.1, found.2) := by
  rw [declared?, declared?, named?_map hname]
  cases named? definitions name with
  | none => rfl
  | some d =>
      simp only [Option.map_some, Option.bind_some, hkind]
      cases d.symbolKind? <;> rfl

theorem declares_map {g : Definition → Definition} (hname : ∀ d, (g d).name = d.name)
    (hkind : ∀ d, (g d).symbolKind? = d.symbolKind?) :
    Declares (definitions.map g) name kind ↔ Declares definitions name kind := by
  constructor
  · rintro ⟨_, hmem, hbase⟩
    obtain ⟨d, hd, rfl⟩ := List.mem_map.1 hmem
    rw [hname, hkind] at hbase
    exact ⟨d, hd, hbase⟩
  · rintro ⟨d, hd, hbase⟩
    rw [← hname, ← hkind] at hbase
    exact ⟨g d, List.mem_map_of_mem hd, hbase⟩

/-! ### Folds that go on after a fault -/

/-- What every step keeps holds in the end, whatever faults are found. -/
theorem ofDefinitions_induction {motive : Linked → Prop} (policy : Policy)
    (definitions : List Definition) (hempty : motive empty)
    (hregister : ∀ linked, motive linked → ∀ d ∈ definitions, motive (register linked d))
    (hpartial : ∀ linked, motive linked → ∀ d ∈ definitions, motive (foldPartial policy linked d))
    (hincludes : ∀ linked, motive linked →
      ∀ d ∈ definitions, motive (applyIncludes policy linked d)) :
    motive (ofDefinitions policy definitions) := by
  have hpass {step : Linked → Definition → Linked} {linked : Linked} (h : motive linked)
      (hstep : ∀ linked, motive linked → ∀ d ∈ definitions, motive (step linked d))
      (test : Definition → Bool) : motive ((definitions.filter test).foldl step linked) :=
    List.foldlRecOn _ _ h fun linked h d hd => hstep linked h d (List.mem_filter.1 hd).1
  exact hpass (hpass (hpass hempty hregister isDeclaration) hpartial isPartial) hincludes isIncludes

/-- The faults of a fold without faults. -/
theorem diagnostics_of_foldl {f : Linked → Definition → Linked}
    (hmono : ∀ linked d, (f linked d).diagnostics = [] → linked.diagnostics = [])
    {items : List Definition} {linked : Linked} (h : (items.foldl f linked).diagnostics = []) :
    linked.diagnostics = [] := by
  induction items generalizing linked with
  | nil => exact h
  | cons d rest ih => exact hmono linked d (ih h)

/-- A fold finds no fault exactly when `Fits` holds of what it reads, and then it has the state
`closed`. -/
theorem foldl_iff (f : Linked → Definition → Linked) (closed : List Definition → Linked)
    (Fits : List Definition → Prop) (P : Definition → Prop)
    (hmono : ∀ linked d, (f linked d).diagnostics = [] → linked.diagnostics = [])
    (hclosed : ∀ items, (closed items).diagnostics = [])
    (hback : ∀ items more, Fits (items ++ more) → Fits items)
    (hfits : ∀ items d, P d → Fits items → (f (closed items) d).diagnostics = [] →
      Fits (items ++ [d]))
    (hstep : ∀ items d, P d → Fits (items ++ [d]) → f (closed items) d = closed (items ++ [d]))
    (before : List Definition) (hbefore : Fits before) {items : List Definition}
    (hitems : ∀ d ∈ items, P d) :
    ((items.foldl f (closed before)).diagnostics = [] ↔ Fits (before ++ items)) ∧
      (Fits (before ++ items) → items.foldl f (closed before) = closed (before ++ items)) := by
  induction items generalizing before with
  | nil =>
      rw [List.append_nil]
      exact ⟨iff_of_true (hclosed before) hbefore, fun _ => rfl⟩
  | cons d rest ih =>
      have hd := hitems d List.mem_cons_self
      have hrest : ∀ other ∈ rest, P other := fun other hother =>
        hitems other (List.mem_cons_of_mem d hother)
      have heq : before ++ d :: rest = (before ++ [d]) ++ rest := by
        rw [List.append_assoc]
        rfl
      rw [heq, List.foldl_cons]
      -- both sides say that the first item fits
      by_cases hfirst : Fits (before ++ [d])
      · rw [hstep before d hd hfirst]
        exact ih (before ++ [d]) hfirst hrest
      · have hnot : ¬ Fits ((before ++ [d]) ++ rest) := fun h => hfirst (hback _ _ h)
        refine ⟨iff_of_false (fun h => ?_) hnot, fun h => absurd h hnot⟩
        exact hfirst (hfits before d hd hbefore (diagnostics_of_foldl hmono h))

end Linked

end IdlBindings
