import IdlBindings.Model
import IdlBindings.Model.Merge

/-!
Linking definitions into a model. The declarations are registered, partial definitions are folded
into them, includes statements are applied, and then every name is resolved, so the order of
definitions in the document does not matter. Every step goes on after a fault, and any fault
makes the whole link fail.
-/

namespace IdlBindings

/-- The definitions linked so far, and the faults found. -/
structure Linked where
  definitions : List Definition
  consumedMixins : List String
  diagnostics : List Diagnostic

namespace Linked

/-- Nothing. -/
def empty : Linked := ⟨[], [], []⟩

def report (linked : Linked) (d : Diagnostic) : Linked :=
  { linked with diagnostics := linked.diagnostics ++ [d] }

/-- The definition and the kind that a name is declared with. -/
def declared? (definitions : List Definition) (name : String) : Option (Definition × SymbolKind) :=
  (Definition.named? definitions name).bind fun d => d.symbolKind?.map fun kind => (d, kind)

/-- A second declaration of a name. -/
def redeclared (d : Definition) (kind : SymbolKind) (first : Definition) (firstKind : SymbolKind) :
    Diagnostic :=
  if firstKind = kind then
    (Diagnostic.report .duplicateDefinition d.span d.name).withRelated
      "first defined here" first.span
  else
    (Diagnostic.report .kindConflict d.span
      ("`" ++ d.name ++ "` is declared as " ++ firstKind.describe ++ " and as "
        ++ kind.describe)).withRelated
      "first declared here" first.span

/-- Declare the name of a definition. -/
def register (linked : Linked) (d : Definition) : Linked :=
  match d.symbolKind? with
  | none => linked
  | some kind =>
    match declared? linked.definitions d.name with
    | some (first, firstKind) => linked.report (redeclared d kind first firstKind)
    | none => { linked with definitions := linked.definitions ++ [d] }

/-- Change the definition of this name. -/
def update (definitions : List Definition) (name : String) (f : Definition → Definition) :
    List Definition :=
  definitions.map fun d => if d.name == name then f d else d

/-- Add an extended attribute unless one with the same text is there. -/
def insertExtAttr (extAttrs : List ExtendedAttribute) (attr : ExtendedAttribute) :
    List ExtendedAttribute :=
  if extAttrs.any fun other => other.text == attr.text then extAttrs else extAttrs ++ [attr]

/-- The definition with these members, if it holds members. -/
def setMembers (d : Definition) (members : List Member) : Definition :=
  match d.body with
  | .container c => { d with body := .container { c with members } }
  | _ => d

/-- Add members to a definition. -/
def addMembers (policy : Policy) (linked : Linked) (d : Definition) (incoming : List Member) :
    Linked :=
  let (members, diagnostics) := Member.merge d.name policy.collision d.members incoming
  { linked with
    definitions := update linked.definitions d.name fun d => setMembers d members
    diagnostics := linked.diagnostics ++ diagnostics }

/-- A partial definition of a name that is declared as something else. -/
def partialConflict (d : Definition) (c : Container) (base : Definition) (baseKind : SymbolKind) :
    Diagnostic :=
  let detail := "partial " ++ c.kind.keyword ++ " `" ++ d.name ++ "` extends " ++ baseKind.describe
  (Diagnostic.report .kindConflict d.span detail).withRelated "declared here" base.span

/-- A partial definition of a name that is not declared. -/
def partialWithoutBase (d : Definition) (c : Container) : Diagnostic :=
  (Diagnostic.report .unresolvedName d.span d.name).withHint
    ("partial " ++ c.kind.keyword ++ " `" ++ d.name ++ "` has no base declaration")

/-- Add what a partial definition holds to the definition that it belongs to. -/
def foldPartial (policy : Policy) (linked : Linked) (d : Definition) : Linked :=
  match d.container? with
  | none => linked
  | some c =>
    match declared? linked.definitions d.name with
    | none => linked.report (partialWithoutBase d c)
    | some (base, baseKind) =>
      if baseKind = .container c.kind then
        let withAttrs := { linked with
          definitions := update linked.definitions d.name fun base =>
            { base with extAttrs := d.extAttrs.foldl insertExtAttr base.extAttrs } }
        addMembers policy withAttrs base c.members
      else linked.report (partialConflict d c base baseKind)

/-- What is wrong with a name that an includes statement gives for a container of some kind. -/
def containerFault? (definitions : List Definition) (kind : ContainerKind) (name : String)
    (span : Span) : Option Diagnostic :=
  match declared? definitions name with
  | none => some (.report .unresolvedName span name)
  | some (d, found) =>
    if found = .container kind then none
    else some <| (Diagnostic.report .kindConflict span
      ("`" ++ name ++ "` is " ++ found.describe ++ ", expected "
        ++ (SymbolKind.container kind).describe)).withRelated "declared here" d.span

/-- Add the members of a mixin to an interface. -/
def applyIncludes (policy : Policy) (linked : Linked) (d : Definition) : Linked :=
  match d.body with
  | .includes mixin =>
    let faults := (containerFault? linked.definitions .interface d.name d.span).toList
      ++ (containerFault? linked.definitions .mixin mixin d.span).toList
    match faults, Definition.named? linked.definitions d.name,
        Definition.named? linked.definitions mixin with
    | [], some target, some source =>
      let merged := addMembers policy linked target source.members
      { merged with consumedMixins := insertName merged.consumedMixins mixin }
    | _, _, _ => { linked with diagnostics := linked.diagnostics ++ faults }
  | _ => linked

/-- What is wrong with the parent of a definition. -/
def parentFault? (policy : Policy) (definitions : List Definition) (d : Definition) :
    Option Diagnostic := do
  let c ← d.container?
  let parent ← c.parent
  match declared? definitions parent with
  | none =>
    if policy.isExternal parent then none else some (.report .unresolvedName d.span parent)
  | some (found, foundKind) =>
    let kind := SymbolKind.container c.kind
    if foundKind = kind then none
    else some <| (Diagnostic.report .kindConflict d.span
      (kind.describe ++ " cannot inherit from `" ++ parent ++ "`, which is "
        ++ foundKind.describe)).withRelated "declared here" found.span

/-- What is wrong with a reference to a type. -/
def referenceFault? (policy : Policy) (definitions : List Definition) (name : String)
    (span : Span) : Option Diagnostic :=
  match declared? definitions name with
  | none => if policy.isExternal name then none else some (.report .unresolvedName span name)
  | some (found, kind) =>
    if kind.isType then none
    else some <| (Diagnostic.report .kindConflict span
      ("`" ++ name ++ "` is " ++ kind.describe ++ " and cannot be used as a type")).withRelated
      "declared here" found.span

/-- The faults of all parents, then those of all references, each reference once for each owner. -/
def resolutionFaults (policy : Policy) (definitions : List Definition) : List Diagnostic :=
  definitions.filterMap (parentFault? policy definitions)
    ++ (definitions.flatMap Definition.references).eraseDups.filterMap fun (name, span) =>
      referenceFault? policy definitions name span

end Linked

namespace Definition

def isIncludes (d : Definition) : Bool :=
  match d.body with
  | .includes _ => true
  | _ => false

/-- Whether the definition declares its name. -/
def isDeclaration (d : Definition) : Bool :=
  !d.isPartial && !d.isIncludes

end Definition

/-- The definitions with all that partial definitions and includes statements add, before names are
resolved. -/
def Linked.ofDefinitions (policy : Policy) (definitions : List Definition) : Linked :=
  let registered := (definitions.filter Definition.isDeclaration).foldl register empty
  let folded := (definitions.filter Definition.isPartial).foldl (foldPartial policy) registered
  (definitions.filter Definition.isIncludes).foldl (applyIncludes policy) folded

/-- Link definitions, given in document order. -/
def Model.link (policy : Policy) (definitions : List Definition) : Except (List Diagnostic) Model :=
  let linked := Linked.ofDefinitions policy definitions
  let diagnostics := linked.diagnostics ++ Linked.resolutionFaults policy linked.definitions
  if diagnostics.isEmpty then
    .ok ⟨linked.definitions,
      (linked.definitions.filter fun d => policy.isGlobal d.extAttrs).map Definition.name,
      linked.consumedMixins⟩
  else .error diagnostics

end IdlBindings
