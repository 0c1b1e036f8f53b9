import IdlBindings.Model.Link
import IdlBindings.Proofs.Model.Merge

/-!
Linking with members kept by their positions. The members that an incoming one collides with are
found as a list of positions; the first is overwritten and the others are removed from the back, so
that no removal moves a position that is still to come. Merging gives `none` when a position is out
of range, which it never is (`Member.merge?_eq`, `Model.link?_eq`).
-/

namespace IdlBindings

namespace Checked

variable {α β : Type}

/-- The list with another value at a position. -/
def set? (l : List α) (n : Nat) (a : α) : Option (List α) :=
  if n < l.length then some (l.set n a) else none

/-- The list without the value at a position. -/
def remove? (l : List α) (n : Nat) : Option (List α) :=
  if n < l.length then some (l.eraseIdx n) else none

/-- The list from a position on. -/
def from? (l : List α) (n : Nat) : Option (List α) :=
  if n ≤ l.length then some (l.drop n) else none

/-- The positions of the values that pass a test, when the list begins at position `start`. -/
def places (test : α → Bool) (start : Nat) (l : List α) : List Nat :=
  ((l.zipIdx start).filter fun entry => test entry.1).map Prod.snd

variable {test : α → Bool} {start : Nat}

theorem places_cons (test : α → Bool) (start : Nat) (a : α) (l : List α) :
    places test start (a :: l) =
      if test a then start :: places test (start + 1) l else places test (start + 1) l := by
  rw [places, List.zipIdx_cons, List.filter_cons]
  split <;> rfl

/-- Values that fail the test only shift the positions. -/
theorem places_append {front : List α} (h : ∀ a ∈ front, test a = false) (l : List α) :
    places test start (front ++ l) = places test (start + front.length) l := by
  induction front generalizing start with
  | nil => rfl
  | cons a front ih =>
      obtain ⟨hfirst, hrest⟩ := List.forall_mem_cons.1 h
      rw [List.cons_append, places_cons, if_neg (by rw [hfirst]; decide), ih hrest,
        List.length_cons, Nat.add_right_comm, Nat.add_assoc]

/-- Removed from the back, all positions are there, and what fails the test stays. -/
theorem remove?_places (test : α → Bool) (front l : List α) :
    (places test front.length l).reverse.foldlM remove? (front ++ l) =
      some (front ++ l.filter fun a => !test a) := by
  induction l generalizing front with
  | nil => rfl
  | cons a l ih =>
      have hlater := ih (front ++ [a])
      rw [List.length_append, List.append_assoc, List.append_assoc] at hlater
      rw [places_cons, List.filter_cons]
      cases htest : test a with
      | false => exact hlater
      | true =>
          have hlast : remove? (front ++ a :: l.filter fun a => !test a) front.length =
              some (front ++ l.filter fun a => !test a) := by
            rw [remove?, if_pos (by simp), List.eraseIdx_append_of_length_le (Nat.le_refl _),
              Nat.sub_self, List.eraseIdx_cons_zero]
          have hrest : (places test (front.length + 1) l).reverse.foldlM remove?
              (front ++ a :: l) = some (front ++ a :: l.filter fun a => !test a) := hlater
          rw [if_pos rfl, List.reverse_cons, List.foldlM_append, hrest, Option.bind_eq_bind,
            Option.bind_some, List.foldlM_cons, hlast]
          rfl

end Checked

open Checked

namespace Member

/-- Add `incoming` to the members of `owner` in order. -/
def merge? (owner : String) (collision : Collision) :
    List Member → List Member → Option (List Member × List Diagnostic)
  | target, [] => some (target, [])
  | target, m :: rest => do
    let clashing := places (·.collides m) 0 target
    match clashing.head? with
    | none => merge? owner collision (target ++ [m]) rest
    | some index =>
      match collision with
      | .replace =>
        let stale ← from? clashing 1
        let kept ← stale.reverse.foldlM remove? target
        let replaced ← set? kept index m
        merge? owner collision replaced rest
      | .reject =>
        let other ← target[index]?
        let (members, diagnostics) ← merge? owner collision target rest
        return (members,
          (Diagnostic.report .duplicateMember m.span (owner ++ "." ++ m.label)).withRelated
            "previously declared here" other.span :: diagnostics)

variable {m other : Member} {front rest target : List Member}

/-- A member takes the place of the first one that it collides with. -/
theorem insert_append (hfront : ∀ member ∈ front, member.collides m = false)
    (h : other.collides m = true) :
    m.insert (front ++ other :: rest) =
      front ++ m :: rest.filter fun member => !member.collides m := by
  induction front with
  | nil => rw [List.nil_append, insert, if_pos h, List.nil_append]
  | cons first front ih =>
      obtain ⟨hfirst, hothers⟩ := List.forall_mem_cons.1 hfront
      rw [List.cons_append, insert, if_neg (by rw [hfirst]; decide), ih hothers, List.cons_append]

/-- Merging never goes to a position that is not there. -/
theorem merge?_eq (owner : String) (collision : Collision) (target incoming : List Member) :
    merge? owner collision target incoming = some (merge owner collision target incoming) := by
  induction incoming generalizing target with
  | nil => rfl
  | cons m incoming ih =>
      rw [merge?]
      cases hfind : target.find? (·.collides m) with
      | none =>
          have hclean : ∀ other ∈ target, other.collides m = false := fun other hmem =>
            Bool.eq_false_iff.2 (List.find?_eq_none.1 hfind other hmem)
          have hplaces : places (·.collides m) 0 target = [] := by
            rw [← List.append_nil target]
            exact places_append hclean []
          have hmerge : merge owner collision target (m :: incoming) =
              merge owner collision (m.insert target) incoming := by
            cases collision <;> simp only [merge, hfind]
          simp only [hplaces, List.head?_nil, ih, hmerge, insert_of_clean hclean]
      | some other =>
          obtain ⟨hcollides, front, rest, rfl, hfront⟩ := List.find?_eq_some_iff_append.1 hfind
          have hclean : ∀ member ∈ front, member.collides m = false := fun member hmem => by
            simpa using hfront member hmem
          have hplaces : places (·.collides m) 0 (front ++ other :: rest) =
              front.length :: places (·.collides m) (front.length + 1) rest := by
            rw [places_append hclean, Nat.zero_add, places_cons, if_pos hcollides]
          have hmember : (front ++ other :: rest)[front.length]? = some other := by simp
          have hstale : from? (front.length :: places (·.collides m) (front.length + 1) rest) 1 =
              some (places (·.collides m) (front.length + 1) rest) := if_pos (by simp)
          have hkept : (places (·.collides m) (front.length + 1) rest).reverse.foldlM remove?
              (front ++ other :: rest) =
              some (front ++ other :: rest.filter fun member => !member.collides m) := by
            have h := remove?_places (·.collides m) (front ++ [other]) rest
            rwa [List.length_append, List.append_assoc, List.append_assoc] at h
          have hreplaced : set? (front ++ other :: rest.filter fun member => !member.collides m)
              front.length m =
              some (front ++ m :: rest.filter fun member => !member.collides m) := by
            rw [set?, if_pos (by simp), List.set_append_right _ _ (Nat.le_refl _), Nat.sub_self]
            rfl
          cases collision with
          | replace =>
              simp only [hplaces, List.head?_cons, hstale, hkept, hreplaced, ih, merge,
                insert_append hclean hcollides, Option.bind_eq_bind, Option.bind_some]
          | reject =>
              simp only [hplaces, List.head?_cons, hmember, ih, merge, hfind, Option.bind_eq_bind,
                Option.bind_some]
              rfl

end Member

namespace Linked

variable (policy : Policy)

/-- Add members to a definition. -/
def addMembers? (linked : Linked) (d : Definition) (incoming : List Member) : Option Linked := do
  let (members, diagnostics) ← Member.merge? d.name policy.collision d.members incoming
  return { linked with
    definitions := update linked.definitions d.name fun d => setMembers d members
    diagnostics := linked.diagnostics ++ diagnostics }

/-- Add what a partial definition holds to the definition that it belongs to. -/
def foldPartial? (linked : Linked) (d : Definition) : Option Linked :=
  match d.container? with
  | none => some linked
  | some c =>
    match declared? linked.definitions d.name with
    | none => some (linked.report (partialWithoutBase d c))
    | some (base, baseKind) =>
      if baseKind = .container c.kind then
        let withAttrs := { linked with
          definitions := update linked.definitions d.name fun base =>
            { base with extAttrs := d.extAttrs.foldl insertExtAttr base.extAttrs } }
        addMembers? policy withAttrs base c.members
      else some (linked.report (partialConflict d c base baseKind))

/-- Add the members of a mixin to an interface. -/
def applyIncludes? (linked : Linked) (d : Definition) : Option Linked :=
  match d.body with
  | .includes mixin =>
    let faults := (containerFault? linked.definitions .interface d.name d.span).toList
      ++ (containerFault? linked.definitions .mixin mixin d.span).toList
    match faults, Definition.named? linked.definitions d.name,
        Definition.named? linked.definitions mixin with
    | [], some target, some source => do
      let merged ← addMembers? policy linked target source.members
      return { merged with consumedMixins := insertName merged.consumedMixins mixin }
    | _, _, _ => some { linked with diagnostics := linked.diagnostics ++ faults }
  | _ => some linked

/-- The definitions with all that partial definitions and includes statements add. -/
def ofDefinitions? (definitions : List Definition) : Option Linked := do
  let registered := (definitions.filter Definition.isDeclaration).foldl register empty
  let folded ← (definitions.filter Definition.isPartial).foldlM (foldPartial? policy) registered
  (definitions.filter Definition.isIncludes).foldlM (applyIncludes? policy) folded

theorem addMembers?_eq (linked : Linked) (d : Definition) (incoming : List Member) :
    addMembers? policy linked d incoming = some (addMembers policy linked d incoming) := by
  rw [addMembers?, Member.merge?_eq]
  rfl

theorem foldPartial?_eq (linked : Linked) (d : Definition) :
    foldPartial? policy linked d = some (foldPartial policy linked d) := by
  rw [foldPartial?, foldPartial]
  cases d.container? with
  | none => rfl
  | some c =>
      cases declared? linked.definitions d.name with
      | none => rfl
      | some found =>
          obtain ⟨base, baseKind⟩ := found
          simp only [addMembers?_eq]
          split <;> rfl

theorem applyIncludes?_eq (linked : Linked) (d : Definition) :
    applyIncludes? policy linked d = some (applyIncludes policy linked d) := by
  rw [applyIncludes?, applyIncludes]
  cases d.body with
  | includes mixin =>
      simp only [addMembers?_eq]
      generalize (containerFault? linked.definitions .interface d.name d.span).toList
        ++ (containerFault? linked.definitions .mixin mixin d.span).toList = faults
      rcases faults, Definition.named? linked.definitions d.name,
        Definition.named? linked.definitions mixin with ⟨_ | _, _ | _, _ | _⟩ <;> rfl
  | container | enumeration | typedef | callback => rfl

theorem ofDefinitions?_eq (definitions : List Definition) :
    ofDefinitions? policy definitions = some (ofDefinitions policy definitions) := by
  have hfold : foldPartial? policy = fun linked d => pure (foldPartial policy linked d) :=
    funext fun linked => funext (foldPartial?_eq policy linked)
  have hincludes : applyIncludes? policy = fun linked d => pure (applyIncludes policy linked d) :=
    funext fun linked => funext (applyIncludes?_eq policy linked)
  rw [ofDefinitions?, hfold, hincludes, List.foldlM_pure, pure_bind, List.foldlM_pure]
  rfl

end Linked

/-- Link definitions, given in document order. -/
def Model.link? (policy : Policy) (definitions : List Definition) :
    Option (Except (List Diagnostic) Model) := do
  let linked ← Linked.ofDefinitions? policy definitions
  let diagnostics := linked.diagnostics ++ Linked.resolutionFaults policy linked.definitions
  if diagnostics.isEmpty then
    return .ok ⟨linked.definitions,
      (linked.definitions.filter fun d => policy.isGlobal d.extAttrs).map Definition.name,
      linked.consumedMixins⟩
  else return .error diagnostics

/-- Whatever the definitions and the policy, linking never goes to a position that is not there. -/
theorem Model.link?_eq (policy : Policy) (definitions : List Definition) :
    link? policy definitions = some (link policy definitions) := by
  rw [link?, Linked.ofDefinitions?_eq, link]
  simp only [Option.bind_eq_bind, Option.bind_some]
  split <;> rfl

end IdlBindings
