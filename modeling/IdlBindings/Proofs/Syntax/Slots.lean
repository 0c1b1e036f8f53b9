import IdlBindings.Proofs.Syntax.Glyphs
import IdlBindings.Proofs.Token.Slot

/-!
The slots of syntax trees: their glyphs, with the places that a source may fill in another way. What
is printed in them is the glyphs (`Definition.print_slots`).
-/

namespace IdlBindings

open Glyph

namespace Slot

/-- Parts in square brackets with commas between; nothing when there are none. -/
def inBrackets : List (List Slot) → List Slot
  | [] => []
  | parts => exactly [mark .bracketOpen] ++ (joined (mark .comma) parts
    ++ exactly [mark .bracketClose])

/-- Parts in parentheses with commas between. -/
def inParens (parts : List (List Slot)) : List Slot :=
  exactly [mark .parenOpen] ++ (joined (mark .comma) parts ++ exactly [mark .parenClose])

/-- What an optional part adds behind an equals sign. -/
def assigned : Option (List Slot) → List Slot
  | some slots => exactly [mark .equals] ++ slots
  | none => []

/-- A type in angle brackets behind the word of its kind. -/
def wrapped (kind : String) (item : List Slot) : List Slot :=
  exactly [word kind, mark .angleOpen] ++ (item ++ exactly [mark .angleClose])

@[simp] theorem print_inBrackets (parts : List (List Slot)) :
    print (inBrackets parts) = Glyph.inBrackets (parts.map print) := by
  cases parts with
  | nil => rfl
  | cons slots rest => simp [inBrackets, Glyph.inBrackets]

@[simp] theorem print_inParens (parts : List (List Slot)) :
    print (inParens parts) = Glyph.inParens (parts.map print) := by
  simp [inParens, Glyph.inParens]

@[simp] theorem print_assigned (part : Option (List Slot)) :
    print (assigned part) = Glyph.assigned (part.map print) := by
  cases part <;> rfl

@[simp] theorem print_wrapped (kind : String) (item : List Slot) :
    print (wrapped kind item) = Glyph.wrapped kind (print item) := by
  simp [wrapped, Glyph.wrapped]

end Slot

open Slot (exactly print)

/-! ### Values -/

def ConstValue.slot : ConstValue → Slot
  | .negativeInfinity => .negativeInfinity
  | value => .glyph value.glyph

def DefaultValue.slots : DefaultValue → List Slot
  | .const value => [value.slot]
  | value => exactly value.glyphs

@[simp] theorem ConstValue.printed_slot (value : ConstValue) :
    value.slot.printed = [value.glyph] := by
  cases value <;> rfl

@[simp] theorem DefaultValue.print_slots (value : DefaultValue) :
    print value.slots = value.glyphs := by
  cases value with
  | const value => simp [slots, glyphs]
  | _ => exact Slot.print_exactly _

@[simp] theorem DefaultValue.map_print_slots (default : Option DefaultValue) :
    (default.map slots).map print = default.map glyphs := by
  cases default <;> simp

/-! ### Types -/

def Primitive.slots : Primitive → List Slot
  | .undefined => [.undefinedType]
  | p => exactly (p.words.map word)

@[simp] theorem Primitive.print_slots (p : Primitive) : print p.slots = p.words.map word := by
  cases p <;> rfl

mutual

def IdlType.slots : IdlType → List Slot
  | .primitive p => p.slots
  | .named name => exactly [word name]
  | .sequence item => Slot.wrapped "sequence" item.slots
  | .frozenArray item => Slot.wrapped "FrozenArray" item.slots
  | .observableArray item => Slot.wrapped "ObservableArray" item.slots
  | .promise result => Slot.wrapped "Promise" result.slots
  | .record key value => Slot.wrapped "record" (key.slots ++ (exactly [mark .comma] ++ value.slots))
  | .nullable inner => inner.slots ++ exactly [mark .question]
  | .union members =>
    exactly [mark .parenOpen] ++ (Slot.joined (word "or") (IdlType.slotsEach members)
      ++ exactly [mark .parenClose])
  | .any => exactly [word "any"]
  | .annotated extAttrs inner =>
    Slot.inBrackets (ExtendedAttribute.slotsEach extAttrs) ++ inner.slots

def IdlType.slotsEach : List IdlType → List (List Slot)
  | [] => []
  | type :: rest => type.slots :: IdlType.slotsEach rest

def ExtendedAttribute.slots : ExtendedAttribute → List Slot
  | ⟨name, value, args⟩ =>
    exactly (word name :: assigned (value.map AttributeValue.glyphs))
      ++ Argument.slotsOfOption args

def ExtendedAttribute.slotsEach : List ExtendedAttribute → List (List Slot)
  | [] => []
  | attr :: rest => attr.slots :: ExtendedAttribute.slotsEach rest

def Argument.slotsOfOption : Option (List Argument) → List Slot
  | none => []
  | some args => Slot.inParens (Argument.slotsEach args)

def Argument.slotsEach : List Argument → List (List Slot)
  | [] => []
  | arg :: rest => arg.slots :: Argument.slotsEach rest

def Argument.slots : Argument → List Slot
  | ⟨name, type, isOptional, isVariadic, default, extAttrs⟩ =>
    Slot.inBrackets (ExtendedAttribute.slotsEach extAttrs)
      ++ (exactly (if isOptional then [word "optional"] else [])
        ++ (type.slots
          ++ (exactly ((if isVariadic then [mark .ellipsis] else []) ++ [word name])
            ++ Slot.assigned (default.map DefaultValue.slots))))

end

theorem IdlType.slotsEach_eq_map (types : List IdlType) :
    IdlType.slotsEach types = types.map IdlType.slots := by
  induction types with
  | nil => simp [IdlType.slotsEach]
  | cons type rest ih => simp [IdlType.slotsEach, ih]

theorem ExtendedAttribute.slotsEach_eq_map (attrs : List ExtendedAttribute) :
    ExtendedAttribute.slotsEach attrs = attrs.map ExtendedAttribute.slots := by
  induction attrs with
  | nil => simp [ExtendedAttribute.slotsEach]
  | cons attr rest ih => simp [ExtendedAttribute.slotsEach, ih]

theorem Argument.slotsEach_eq_map (args : List Argument) :
    Argument.slotsEach args = args.map Argument.slots := by
  induction args with
  | nil => simp [Argument.slotsEach]
  | cons arg rest ih => simp [Argument.slotsEach, ih]

mutual

@[simp] theorem IdlType.print_slots : ∀ type : IdlType, print type.slots = type.glyphs
  | .primitive p => by simp [IdlType.slots, IdlType.glyphs]
  | .named name => by simp [IdlType.slots, IdlType.glyphs]
  | .sequence item | .frozenArray item | .observableArray item | .promise item => by
      simp [IdlType.slots, IdlType.glyphs, item.print_slots]
  | .record key value => by
      simp [IdlType.slots, IdlType.glyphs, key.print_slots, value.print_slots]
  | .nullable inner => by simp [IdlType.slots, IdlType.glyphs, inner.print_slots]
  | .union members => by
      simp [IdlType.slots, IdlType.glyphs, IdlType.print_slotsEach members]
  | .any => by simp [IdlType.slots, IdlType.glyphs]
  | .annotated extAttrs inner => by
      simp [IdlType.slots, IdlType.glyphs, ExtendedAttribute.print_slotsEach extAttrs,
        inner.print_slots]

theorem IdlType.print_slotsEach : ∀ types : List IdlType,
    (IdlType.slotsEach types).map print = IdlType.glyphsEach types
  | [] => by simp [IdlType.slotsEach, IdlType.glyphsEach]
  | type :: rest => by
      simp [IdlType.slotsEach, IdlType.glyphsEach, type.print_slots, IdlType.print_slotsEach rest]

@[simp] theorem ExtendedAttribute.print_slots : ∀ attr : ExtendedAttribute,
    print attr.slots = attr.glyphs
  | ⟨name, value, args⟩ => by
      simp [ExtendedAttribute.slots, ExtendedAttribute.glyphs, Argument.print_slotsOfOption args]

theorem ExtendedAttribute.print_slotsEach : ∀ attrs : List ExtendedAttribute,
    (ExtendedAttribute.slotsEach attrs).map print = ExtendedAttribute.glyphsEach attrs
  | [] => by simp [ExtendedAttribute.slotsEach, ExtendedAttribute.glyphsEach]
  | attr :: rest => by
      simp [ExtendedAttribute.slotsEach, ExtendedAttribute.glyphsEach, attr.print_slots,
        ExtendedAttribute.print_slotsEach rest]

theorem Argument.print_slotsOfOption : ∀ args : Option (List Argument),
    print (Argument.slotsOfOption args) = Argument.glyphsOfOption args
  | none => by simp [Argument.slotsOfOption, Argument.glyphsOfOption]
  | some args => by
      simp [Argument.slotsOfOption, Argument.glyphsOfOption, Argument.print_slotsEach args]

theorem Argument.print_slotsEach : ∀ args : List Argument,
    (Argument.slotsEach args).map print = Argument.glyphsEach args
  | [] => by simp [Argument.slotsEach, Argument.glyphsEach]
  | arg :: rest => by
      simp [Argument.slotsEach, Argument.glyphsEach, arg.print_slots, Argument.print_slotsEach rest]

@[simp] theorem Argument.print_slots : ∀ arg : Argument, print arg.slots = arg.glyphs
  | ⟨name, type, isOptional, isVariadic, default, extAttrs⟩ => by
      rw [Argument.slots, Argument.glyphs]
      simp only [Slot.print_append, Slot.print_inBrackets, Slot.print_exactly, Slot.print_assigned,
        ExtendedAttribute.print_slotsEach extAttrs, type.print_slots, DefaultValue.map_print_slots,
        List.append_assoc, List.singleton_append]

end

/-- A type begins with a token. -/
theorem IdlType.slots_eq_cons : ∀ type : IdlType, ∃ first rest, type.slots = first :: rest ∧
    (first = .undefinedType ∨ ∃ g, first = .glyph g)
  | .primitive p => by
      rw [slots]
      cases p with
      | undefined => exact ⟨_, _, rfl, .inl rfl⟩
      | _ => exact ⟨_, _, rfl, .inr ⟨_, rfl⟩⟩
  | .nullable inner => by
      obtain ⟨first, rest, hslots, hfirst⟩ := inner.slots_eq_cons
      rw [slots, hslots]
      exact ⟨first, _, rfl, hfirst⟩
  | .annotated [] inner => by
      rw [slots]
      exact inner.slots_eq_cons
  | .annotated (attr :: rest) inner | .record _ _ | .named _ | .any | .union _ | .sequence _
  | .frozenArray _ | .observableArray _ | .promise _ => by
      rw [slots]
      exact ⟨_, _, rfl, .inr ⟨_, rfl⟩⟩

/-- What is printed first for a type stands in every source unless it is `undefined`. -/
theorem IdlType.head?_slots_append {type : IdlType} {slots : List Slot} {g : Glyph}
    (hhead : (print (type.slots ++ slots)).head? = some g) (hg : g ≠ word "undefined") :
    (type.slots ++ slots).head? = some (.glyph g) := by
  obtain ⟨first, rest, hslots, hfirst⟩ := type.slots_eq_cons
  rw [hslots] at hhead ⊢
  rcases hfirst with rfl | ⟨g', rfl⟩
  · exact absurd (Option.some.inj hhead).symm hg
  · rw [← Option.some.inj hhead]
    rfl

theorem IdlType.head?_slots {type : IdlType} {g : Glyph} (hhead : type.glyphs.head? = some g)
    (hg : g ≠ word "undefined") : type.slots.head? = some (.glyph g) := by
  rw [← type.print_slots, ← type.slots.append_nil] at hhead
  rw [← type.slots.append_nil]
  exact head?_slots_append hhead hg

/-- Extended attributes in square brackets, or nothing. -/
def ExtendedAttribute.listSlots (attrs : List ExtendedAttribute) : List Slot :=
  Slot.inBrackets (attrs.map slots)

/-- Arguments in parentheses. -/
def Argument.listSlots (args : List Argument) : List Slot :=
  Slot.inParens (args.map slots)

@[simp] theorem ExtendedAttribute.print_listSlots (attrs : List ExtendedAttribute) :
    print (listSlots attrs) = listGlyphs attrs := by
  simp [listSlots, listGlyphs, Function.comp_def]

@[simp] theorem Argument.print_listSlots (args : List Argument) :
    print (listSlots args) = listGlyphs args := by
  simp [listSlots, listGlyphs, Function.comp_def]

/-! ### Members and definitions -/

/-- The arguments of an iteration. Only an asynchronous one has a place for them. -/
def Iteration.argsSlots (i : Iteration) : List Slot :=
  if i.args.isEmpty then (if i.kind = .asyncIterable then [.noArguments] else [])
  else Argument.listSlots i.args

@[simp] theorem Iteration.print_argsSlots (i : Iteration) : print i.argsSlots =
    if i.args.isEmpty then [] else Argument.listGlyphs i.args := by
  unfold argsSlots
  split
  · split <;> rfl
  · exact Argument.print_listSlots i.args

/-- The types of an iteration. -/
def Iteration.typesSlots (key : Option IdlType) (value : IdlType) : List Slot :=
  Slot.joined (mark .comma) ((key.toList ++ [value]).map IdlType.slots)

namespace MemberBody

def slots : MemberBody → List Slot
  | .const name type value =>
    exactly [word "const"] ++ (type.slots ++ (exactly [word name, mark .equals]
      ++ ([value.slot] ++ exactly [mark .semicolon])))
  | .attribute a =>
    exactly (attributeGlyphs a) ++ (a.type.slots ++ exactly [word a.name, mark .semicolon])
  | .operation o =>
    exactly ((if o.isStatic then [word "static"] else [])
      ++ o.special.toList.map fun special => word special.keyword)
      ++ (o.result.slots ++ (exactly (o.name.toList.map word)
        ++ (Argument.listSlots o.args ++ exactly [mark .semicolon])))
  | .constructor args =>
    exactly [word "constructor"] ++ (Argument.listSlots args ++ exactly [mark .semicolon])
  | .field f =>
    exactly (if f.isRequired then [word "required"] else [])
      ++ (f.type.slots ++ (exactly [word f.name]
        ++ (Slot.assigned (f.default.map DefaultValue.slots) ++ exactly [mark .semicolon])))
  | .iteration i =>
    .iterationFront i.isReadonly ::
      (exactly ((if i.isReadonly then [word "readonly"] else [])
        ++ (iterationWords i.kind ++ [mark .angleOpen]))
        ++ (Iteration.typesSlots i.key i.value
          ++ (exactly [mark .angleClose] ++ (i.argsSlots ++ exactly [mark .semicolon]))))
  | .stringifier => exactly [word "stringifier", mark .semicolon]

@[simp] theorem print_slots (body : MemberBody) : print body.slots = body.glyphs := by
  cases body with
  | field f =>
      simp only [slots, glyphs, Slot.print_append, Slot.print_exactly, IdlType.print_slots,
        Slot.print_assigned, DefaultValue.map_print_slots, List.singleton_append]
  | iteration i => simp [slots, glyphs, Slot.printed, Iteration.typesSlots, Function.comp_def]
  | _ => simp [slots, glyphs]

/-- A bracket at the front of a member stands in every source. -/
theorem head?_slots {body : MemberBody} {g : Glyph} (hhead : body.glyphs.head? = some g)
    (hbracket : g.kind = .bracketOpen) : body.slots.head? = some (.glyph g) := by
  have hne (text : String) : g ≠ word text := by
    rintro rfl
    cases hbracket
  rw [← print_slots] at hhead
  match body with
  | .const _ _ _ | .constructor _ | .stringifier =>
      exact absurd (Option.some.inj hhead).symm (hne _)
  | .attribute a =>
      exact Slot.head?_exactly_append hhead fun hnil => by simp [attributeGlyphs] at hnil
  | .operation o => exact Slot.head?_exactly_append hhead fun _ h =>
      IdlType.head?_slots_append h (hne _)
  | .field f => exact Slot.head?_exactly_append hhead fun _ h =>
      IdlType.head?_slots_append h (hne _)
  | .iteration ⟨kind, isReadonly, key, value, args⟩ =>
      cases isReadonly with
      | true => exact absurd (Option.some.inj hhead).symm (hne _)
      | false => cases kind <;> exact absurd (Option.some.inj hhead).symm (hne _)

end MemberBody

def Member.slots (m : Member) : List Slot :=
  ExtendedAttribute.listSlots m.extAttrs ++ m.body.slots

@[simp] theorem Member.print_slots (m : Member) : print m.slots = m.glyphs := by
  simp [slots, glyphs]

/-- The slots of a definition of this name. -/
def DefinitionBody.slots (name : String) : DefinitionBody → List Slot
  | .container c =>
    exactly ((if c.isPartial then [word "partial"] else [])
      ++ (c.kind.glyphs ++ word name :: (c.parentGlyphs ++ [mark .braceOpen])))
      ++ (c.members.flatMap Member.slots ++ exactly [mark .braceClose, mark .semicolon])
  | .enumeration values =>
    exactly (word "enum" :: word name :: mark .braceOpen ::
      joined (mark .comma) (values.map fun value => [quoted value]))
      ++ ((if values = [] then [] else [.valuesEnd])
        ++ exactly [mark .braceClose, mark .semicolon])
  | .typedef type =>
    exactly [word "typedef"] ++ (type.slots ++ exactly [word name, mark .semicolon])
  | .callback result args =>
    exactly [word "callback", word name, mark .equals]
      ++ (result.slots ++ (Argument.listSlots args ++ exactly [mark .semicolon]))
  | .includes mixin => exactly [word name, word "includes", word mixin, mark .semicolon]

@[simp] theorem DefinitionBody.print_slots (name : String) (body : DefinitionBody) :
    print (body.slots name) = body.glyphs name := by
  cases body with
  | container c =>
      simp [slots, glyphs, Slot.print_flatMap Member.print_slots]
  | enumeration values =>
      have hend : print (if values = [] then [] else [.valuesEnd]) = [] := by split <;> rfl
      simp [slots, glyphs, hend]
  | _ => simp [slots, glyphs]

def Definition.slots (d : Definition) : List Slot :=
  ExtendedAttribute.listSlots d.extAttrs ++ d.body.slots d.name

theorem Definition.print_slots (d : Definition) : print d.slots = d.glyphs := by
  simp [slots, glyphs]

theorem Definition.print_flatMap_slots (definitions : List Definition) :
    print (definitions.flatMap slots) = definitions.flatMap glyphs :=
  Slot.print_flatMap print_slots definitions

end IdlBindings
