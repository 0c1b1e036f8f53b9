import IdlBindings.Proofs.Syntax.Glyphs
import IdlBindings.Syntax.Definition.Parser

/-!
The syntax trees that the grammar can give back from their own glyphs. A tree that is not readable
has a part that the grammar would take for something else: a name that is a keyword where it stands,
a type that would go on with the name after it, or a part that has no syntax at all.
-/

namespace IdlBindings

namespace IdlType

/-- Whether a word begins a type that is not a name. -/
def isTypeWord (word : String) : Bool :=
  (wrapper? word).isSome || ["any", "record", "unsigned", "unrestricted", "long"].contains word
    || (Primitive.ofWord? word).isSome

def isAnnotated : IdlType → Bool
  | .annotated _ _ => true
  | _ => false

def isNullable : IdlType → Bool
  | .nullable _ => true
  | _ => false

/-- Whether a type goes on when `g` comes after it: a `?` makes it nullable, and one more `long`
makes a longer integer. -/
def goesOnWith (type : IdlType) (g : Glyph) : Bool :=
  match type.unannotated with
  | .nullable _ => false
  | .primitive .long | .primitive .unsignedLong => g == .word "long" || g.kind == .question
  | _ => g.kind == .question

end IdlType

mutual

/-- A type that is read as itself. -/
inductive IdlType.Readable : IdlType → Prop
  | primitive (p : Primitive) : IdlType.Readable (.primitive p)
  | any : IdlType.Readable .any
  | named {name : String} (hname : IdlType.isTypeWord name = false) :
      IdlType.Readable (.named name)
  | sequence {item : IdlType} (hitem : IdlType.Readable item) : IdlType.Readable (.sequence item)
  | frozenArray {item : IdlType} (hitem : IdlType.Readable item) :
      IdlType.Readable (.frozenArray item)
  | observableArray {item : IdlType} (hitem : IdlType.Readable item) :
      IdlType.Readable (.observableArray item)
  | promise {result : IdlType} (hresult : IdlType.Readable result) :
      IdlType.Readable (.promise result)
  | record {key value : IdlType} (hkey : IdlType.Readable key) (hstring : key.isRecordKey = true)
      (hvalue : IdlType.Readable value) : IdlType.Readable (.record key value)
  | nullable {inner : IdlType} (hinner : IdlType.Readable inner)
      (hbare : inner.isAnnotated = false) (honce : inner.isNullable = false) :
      IdlType.Readable (.nullable inner)
  | union {members : List IdlType} (hmembers : ∀ type ∈ members, IdlType.Readable type)
      (hmany : 2 ≤ members.length) : IdlType.Readable (.union members)
  | annotated {extAttrs : List ExtendedAttribute} {inner : IdlType}
      (hattrs : ∀ attr ∈ extAttrs, ExtendedAttribute.Readable attr) (hsome : extAttrs ≠ [])
      (hinner : IdlType.Readable inner) (honce : inner.isAnnotated = false) :
      IdlType.Readable (.annotated extAttrs inner)

/-- An extended attribute that is read as itself. -/
inductive ExtendedAttribute.Readable : ExtendedAttribute → Prop
  | mk {name : String} {value : Option AttributeValue} {args : Option (List Argument)}
      (hlist : value ≠ some (.identifierList []))
      (hallowed : args.isSome = true → AttributeValue.allowsArguments value = true)
      (hargs : ∀ list ∈ args, ∀ arg ∈ list, Argument.Readable arg) :
      ExtendedAttribute.Readable ⟨name, value, args⟩

/-- An argument that is read as itself. -/
inductive Argument.Readable : Argument → Prop
  | optional {name : String} {type : IdlType} {default : Option DefaultValue}
      {extAttrs : List ExtendedAttribute}
      (hattrs : ∀ attr ∈ extAttrs, ExtendedAttribute.Readable attr)
      (htype : IdlType.Readable type) (hname : type.goesOnWith (.word name) = false) :
      Argument.Readable ⟨name, type, true, false, default, extAttrs⟩
  | required {name : String} {type : IdlType} {isVariadic : Bool}
      {extAttrs : List ExtendedAttribute}
      (hattrs : ∀ attr ∈ extAttrs, ExtendedAttribute.Readable attr)
      (htype : IdlType.Readable type) (hbare : extAttrs = [] → type.isAnnotated = false)
      (hname : isVariadic = false → type.goesOnWith (.word name) = false)
      (hfirst : type.glyphs.head? ≠ some (.word "optional")) :
      Argument.Readable ⟨name, type, false, isVariadic, none, extAttrs⟩

end

/-- The words that a member can begin with behind its qualifiers. -/
def MemberBody.memberWords : List String :=
  ["readonly", "attribute", "iterable", "maplike", "setlike"]

/-- The words that the type of an operation cannot begin with. -/
def Operation.reserved (o : Operation) : List String :=
  match o.special with
  | some .stringifier => MemberBody.memberWords
  | some _ => []
  | none => MemberBody.memberWords ++ ["getter", "setter", "deleter"]
      ++ (if o.isStatic then [] else ["const", "static", "stringifier", "inherit"])

/-- An operation that begins like an iteration. -/
def Operation.isAsyncIterable (o : Operation) : Bool :=
  match o.result, o.name with
  | .named "async", some "iterable" => true
  | _, _ => false

structure Operation.Readable (o : Operation) : Prop where
  result : o.result.Readable
  args : ∀ arg ∈ o.args, arg.Readable
  name : ∀ name ∈ o.name, o.result.goesOnWith (.word name) = false
  /-- An operation without a special role has a name. -/
  nameless : o.name = none → o.special ≠ none
  static : o.special = some .stringifier → o.isStatic = false
  reserved : ∀ word ∈ o.reserved, o.result.glyphs.head? ≠ some (.word word)
  asyncIterable : o.isAsyncIterable = true → ∃ special ∈ o.special, special ≠ .stringifier

structure Iteration.Readable (i : Iteration) : Prop where
  key : ∀ key ∈ i.key, key.Readable
  value : i.value.Readable
  args : ∀ arg ∈ i.args, arg.Readable
  maplike : i.kind = .maplike → i.key.isSome = true
  setlike : i.kind = .setlike → i.key = none
  readonly : i.isReadonly = true → i.kind = .maplike ∨ i.kind = .setlike
  async : i.args ≠ [] → i.kind = .asyncIterable

/-- Only one of these words may stand before an attribute. -/
def Attribute.HasOneQualifier (a : Attribute) : Prop :=
  (a.isStatic = true → a.isStringifier = false ∧ a.isInherited = false) ∧
    (a.isStringifier = true → a.isInherited = false)

/-- Fields are the members of dictionaries, and all others are those of other containers. -/
inductive MemberBody.Readable : Bool → MemberBody → Prop
  | const {name : String} {type : IdlType} {value : ConstValue} (htype : type.Readable)
      (hname : type.goesOnWith (.word name) = false) : Readable false (.const name type value)
  | attribute {a : Attribute} (htype : a.type.Readable)
      (hname : a.type.goesOnWith (.word a.name) = false) (hone : a.HasOneQualifier) :
      Readable false (.attribute a)
  | operation {o : Operation} (h : o.Readable) : Readable false (.operation o)
  | constructor {args : List Argument} (hargs : ∀ arg ∈ args, arg.Readable) :
      Readable false (.constructor args)
  | iteration {i : Iteration} (h : i.Readable) : Readable false (.iteration i)
  | stringifier : Readable false .stringifier
  | field {f : Field} (htype : f.type.Readable)
      (hname : f.type.goesOnWith (.word f.name) = false)
      (hfirst : f.isRequired = false → f.type.glyphs.head? ≠ some (.word "required")) :
      Readable true (.field f)

structure Member.Readable (inDictionary : Bool) (m : Member) : Prop where
  body : m.body.Readable inDictionary
  extAttrs : ∀ attr ∈ m.extAttrs, attr.Readable
  /-- A list in brackets at the front belongs to the member and not to its type. -/
  bare : m.extAttrs = [] → ∀ g ∈ m.body.glyphs.head?, g.kind ≠ .bracketOpen

structure Container.Readable (c : Container) (name : String) : Prop where
  members : ∀ m ∈ c.members, m.Readable (c.kind == .dictionary)
  parent : c.parent ≠ none → c.kind.allowsParent = true ∧ c.isPartial = false
  partials : c.isPartial = true → c.kind.allowsPartial = true
  interface : c.kind = .interface → name ≠ "mixin"

/-- The words that a definition can begin with. -/
def DefinitionBody.definitionWords : List String :=
  ["callback", "interface", "partial", "dictionary", "namespace", "enum", "typedef"]

inductive DefinitionBody.Readable (name : String) : DefinitionBody → Prop
  | container {c : Container} (h : c.Readable name) : Readable name (.container c)
  | enumeration {values : List String} : Readable name (.enumeration values)
  | typedef {type : IdlType} (htype : type.Readable)
      (hname : type.goesOnWith (.word name) = false) : Readable name (.typedef type)
  | callback {result : IdlType} {args : List Argument} (hname : name ≠ "interface")
      (hresult : result.Readable) (hargs : ∀ arg ∈ args, arg.Readable) :
      Readable name (.callback result args)
  | includes {mixin : String} (htarget : name ∉ definitionWords) : Readable name (.includes mixin)

structure Definition.Readable (d : Definition) : Prop where
  body : d.body.Readable d.name
  extAttrs : ∀ attr ∈ d.extAttrs, attr.Readable

end IdlBindings
