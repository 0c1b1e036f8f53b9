import IdlBindings.Proofs.Token.Glyph
import IdlBindings.Syntax.Definition

/-!
The glyphs of syntax trees: what the grammar is to see in the text of each part. Blanks apart, this
is the text itself, which `Proofs.Syntax.Spelling` proves.
-/

namespace IdlBindings

/-- Parts in square brackets with commas between; nothing when there are none. -/
def Glyph.inBrackets : List (List Glyph) → List Glyph
  | [] => []
  | parts => mark .bracketOpen :: (joined (mark .comma) parts ++ [mark .bracketClose])

/-- Parts in parentheses with commas between. -/
def Glyph.inParens (parts : List (List Glyph)) : List Glyph :=
  mark .parenOpen :: (joined (mark .comma) parts ++ [mark .parenClose])

open Glyph

@[simp] theorem Glyph.allProper_inBrackets {parts : List (List Glyph)} :
    AllProper (inBrackets parts) ↔ ∀ gs ∈ parts, AllProper gs := by
  cases parts with
  | nil => simp [inBrackets]
  | cons gs rest => simp [inBrackets, allProper_joined]

@[simp] theorem Glyph.allProper_inParens {parts : List (List Glyph)} :
    AllProper (inParens parts) ↔ ∀ gs ∈ parts, AllProper gs := by
  simp [inParens, allProper_joined]

def ConstValue.glyph : ConstValue → Glyph
  | .boolean value => word (if value then "true" else "false")
  | .integer source => ⟨.integer, source⟩
  | .decimal source => ⟨.decimal, source⟩
  | .infinity => word "Infinity"
  | .negativeInfinity => word "-Infinity"
  | .notANumber => word "NaN"

def DefaultValue.glyphs : DefaultValue → List Glyph
  | .const value => [value.glyph]
  | .string content => [quoted content]
  | .emptySequence => [mark .bracketOpen, mark .bracketClose]
  | .emptyDictionary => [mark .braceOpen, mark .braceClose]
  | .null => [word "null"]
  | .undefined => [word "undefined"]

def AttributeValue.glyphs : AttributeValue → List Glyph
  | .identifier name => [word name]
  | .identifierList names => inParens (names.map fun name => [word name])
  | .string content => [quoted content]
  | .integer source => [⟨.integer, source⟩]
  | .decimal source => [⟨.decimal, source⟩]
  | .wildcard => [mark .star]

/-- What an optional part adds behind an equals sign. -/
def Glyph.assigned : Option (List Glyph) → List Glyph
  | some gs => mark .equals :: gs
  | none => []

/-- A type in angle brackets behind the word of its kind. -/
def Glyph.wrapped (kind : String) (item : List Glyph) : List Glyph :=
  word kind :: mark .angleOpen :: (item ++ [mark .angleClose])

@[simp] theorem Glyph.allProper_wrapped {kind : String} {item : List Glyph} :
    AllProper (wrapped kind item) ↔ (word kind).Proper ∧ AllProper item := by
  simp [wrapped]

mutual

def IdlType.glyphs : IdlType → List Glyph
  | .primitive p => p.words.map word
  | .named name => [word name]
  | .sequence item => wrapped "sequence" item.glyphs
  | .frozenArray item => wrapped "FrozenArray" item.glyphs
  | .observableArray item => wrapped "ObservableArray" item.glyphs
  | .promise result => wrapped "Promise" result.glyphs
  | .record key value =>
    wrapped "record" (key.glyphs ++ mark .comma :: value.glyphs)
  | .nullable inner => inner.glyphs ++ [mark .question]
  | .union members =>
    mark .parenOpen :: (joined (word "or") (IdlType.glyphsEach members) ++ [mark .parenClose])
  | .any => [word "any"]
  | .annotated extAttrs inner => inBrackets (ExtendedAttribute.glyphsEach extAttrs) ++ inner.glyphs

def IdlType.glyphsEach : List IdlType → List (List Glyph)
  | [] => []
  | type :: rest => type.glyphs :: IdlType.glyphsEach rest

def ExtendedAttribute.glyphs : ExtendedAttribute → List Glyph
  | ⟨name, value, args⟩ =>
    word name :: (assigned (value.map AttributeValue.glyphs) ++ Argument.glyphsOfOption args)

def ExtendedAttribute.glyphsEach : List ExtendedAttribute → List (List Glyph)
  | [] => []
  | attr :: rest => attr.glyphs :: ExtendedAttribute.glyphsEach rest

def Argument.glyphsOfOption : Option (List Argument) → List Glyph
  | none => []
  | some args => inParens (Argument.glyphsEach args)

def Argument.glyphsEach : List Argument → List (List Glyph)
  | [] => []
  | arg :: rest => arg.glyphs :: Argument.glyphsEach rest

def Argument.glyphs : Argument → List Glyph
  | ⟨name, type, isOptional, isVariadic, default, extAttrs⟩ =>
    inBrackets (ExtendedAttribute.glyphsEach extAttrs)
      ++ ((if isOptional then [word "optional"] else [])
        ++ (type.glyphs
          ++ ((if isVariadic then [mark .ellipsis] else [])
            ++ word name :: assigned (default.map DefaultValue.glyphs))))

end

theorem IdlType.glyphsEach_eq_map (types : List IdlType) :
    IdlType.glyphsEach types = types.map IdlType.glyphs := by
  induction types with
  | nil => simp [IdlType.glyphsEach]
  | cons type rest ih => simp [IdlType.glyphsEach, ih]

theorem ExtendedAttribute.glyphsEach_eq_map (attrs : List ExtendedAttribute) :
    ExtendedAttribute.glyphsEach attrs = attrs.map ExtendedAttribute.glyphs := by
  induction attrs with
  | nil => simp [ExtendedAttribute.glyphsEach]
  | cons attr rest ih => simp [ExtendedAttribute.glyphsEach, ih]

theorem Argument.glyphsEach_eq_map (args : List Argument) :
    Argument.glyphsEach args = args.map Argument.glyphs := by
  induction args with
  | nil => simp [Argument.glyphsEach]
  | cons arg rest ih => simp [Argument.glyphsEach, ih]

/-- Extended attributes in square brackets, or nothing. -/
def ExtendedAttribute.listGlyphs (attrs : List ExtendedAttribute) : List Glyph :=
  inBrackets (attrs.map glyphs)

/-- Arguments in parentheses. -/
def Argument.listGlyphs (args : List Argument) : List Glyph :=
  inParens (args.map glyphs)

namespace MemberBody

/-- What stands before the type of an attribute. -/
def attributeGlyphs (a : Attribute) : List Glyph :=
  (if a.isStatic then [word "static"] else [])
    ++ ((if a.isStringifier then [word "stringifier"] else [])
      ++ ((if a.isInherited then [word "inherit"] else [])
        ++ ((if a.isReadonly then [word "readonly"] else []) ++ [word "attribute"])))

/-- The words of an iteration. -/
def iterationWords : IterationKind → List Glyph
  | .iterable => [word "iterable"]
  | .asyncIterable => [word "async", word "iterable"]
  | .maplike => [word "maplike"]
  | .setlike => [word "setlike"]

def glyphs : MemberBody → List Glyph
  | .const name type value =>
    word "const" :: (type.glyphs ++ [word name, mark .equals, value.glyph, mark .semicolon])
  | .attribute a => attributeGlyphs a ++ (a.type.glyphs ++ [word a.name, mark .semicolon])
  | .operation o =>
    (if o.isStatic then [word "static"] else [])
      ++ ((o.special.toList.map fun special => word special.keyword)
        ++ (o.result.glyphs ++ (o.name.toList.map word
          ++ (Argument.listGlyphs o.args ++ [mark .semicolon]))))
  | .constructor args => word "constructor" :: (Argument.listGlyphs args ++ [mark .semicolon])
  | .field f =>
    (if f.isRequired then [word "required"] else [])
      ++ (f.type.glyphs ++ word f.name ::
        (assigned (f.default.map DefaultValue.glyphs) ++ [mark .semicolon]))
  | .iteration i =>
    (if i.isReadonly then [word "readonly"] else [])
      ++ (iterationWords i.kind ++ mark .angleOpen ::
        (joined (mark .comma) ((i.key.toList ++ [i.value]).map IdlType.glyphs)
          ++ mark .angleClose ::
            ((if i.args.isEmpty then [] else Argument.listGlyphs i.args) ++ [mark .semicolon])))
  | .stringifier => [word "stringifier", mark .semicolon]

end MemberBody

def Member.glyphs (m : Member) : List Glyph :=
  ExtendedAttribute.listGlyphs m.extAttrs ++ m.body.glyphs

/-- The words that begin a container. -/
def ContainerKind.glyphs : ContainerKind → List Glyph
  | .interface => [word "interface"]
  | .callbackInterface => [word "callback", word "interface"]
  | .mixin => [word "interface", word "mixin"]
  | .dictionary => [word "dictionary"]
  | .nameSpace => [word "namespace"]

/-- The clause that names the parent. -/
def Container.parentGlyphs (c : Container) : List Glyph :=
  match c.parent with
  | some parent => [mark .colon, word parent]
  | none => []

/-- The glyphs of a definition of this name. -/
def DefinitionBody.glyphs (name : String) : DefinitionBody → List Glyph
  | .container c =>
    (if c.isPartial then [word "partial"] else [])
      ++ (c.kind.glyphs ++ word name ::
        (c.parentGlyphs ++ mark .braceOpen ::
          (c.members.flatMap Member.glyphs ++ [mark .braceClose, mark .semicolon])))
  | .enumeration values =>
    word "enum" :: word name :: mark .braceOpen ::
      (joined (mark .comma) (values.map fun value => [quoted value])
        ++ [mark .braceClose, mark .semicolon])
  | .typedef type => word "typedef" :: (type.glyphs ++ [word name, mark .semicolon])
  | .callback result args =>
    word "callback" :: word name :: mark .equals ::
      (result.glyphs ++ (Argument.listGlyphs args ++ [mark .semicolon]))
  | .includes mixin => [word name, word "includes", word mixin, mark .semicolon]

/-- The glyphs of a container are those of its members and those that it has without any. -/
theorem DefinitionBody.allProper_container {name : String} {c : Container} :
    AllProper (glyphs name (.container c)) ↔
      AllProper (glyphs name (.container { c with members := [] })) ∧
        ∀ m ∈ c.members, AllProper m.glyphs := by
  have hmembers : AllProper (c.members.flatMap Member.glyphs) ↔
      ∀ m ∈ c.members, AllProper m.glyphs := by
    rw [List.flatMap_def, allProper_flatten, List.forall_mem_map]
  simp only [glyphs, allProper_append, allProper_cons, hmembers, List.flatMap_nil, allProper_nil,
    show Container.parentGlyphs { c with members := [] } = c.parentGlyphs from rfl]
  constructor
  · rintro ⟨hpartial, hkind, hname, hparent, hopen, hall, hclose⟩
    exact ⟨⟨hpartial, hkind, hname, hparent, hopen, trivial, hclose⟩, hall⟩
  · rintro ⟨⟨hpartial, hkind, hname, hparent, hopen, -, hclose⟩, hall⟩
    exact ⟨hpartial, hkind, hname, hparent, hopen, hall, hclose⟩

def Definition.glyphs (d : Definition) : List Glyph :=
  ExtendedAttribute.listGlyphs d.extAttrs ++ d.body.glyphs d.name

end IdlBindings
