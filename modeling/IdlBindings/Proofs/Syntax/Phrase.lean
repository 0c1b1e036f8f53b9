import IdlBindings.Proofs.Syntax.RoundTrip
import Mathlib.Logic.Relation

/-!
The types, extended attributes and argument lists of a source, at any depth of its definitions. Like
the definitions they are read back from their own glyphs, so the text of a type tells it from all
others (`IdlType.eq_of_text_eq`).
-/

namespace IdlBindings

open Glyph

/-- What stands inside a definition, and inside one another. -/
inductive Phrase where
  | ofType (type : IdlType)
  | ofAttribute (attr : ExtendedAttribute)
  | ofArguments (args : List Argument)

namespace Phrase

/-- The parts directly inside. -/
def parts : Phrase → List Phrase
  | .ofType (.sequence inner) | .ofType (.frozenArray inner) | .ofType (.observableArray inner)
  | .ofType (.promise inner) | .ofType (.nullable inner) => [.ofType inner]
  | .ofType (.record key value) => [.ofType key, .ofType value]
  | .ofType (.union members) => members.map .ofType
  | .ofType (.annotated extAttrs inner) => extAttrs.map .ofAttribute ++ [.ofType inner]
  | .ofType (.primitive _) | .ofType (.named _) | .ofType .any => []
  | .ofAttribute attr => attr.args.toList.map .ofArguments
  | .ofArguments args => args.flatMap fun arg => arg.extAttrs.map .ofAttribute ++ [.ofType arg.type]

/-- At any depth. -/
def Holds : Phrase → Phrase → Prop := Relation.ReflTransGen fun whole part => part ∈ whole.parts

def glyphs : Phrase → List Glyph
  | .ofType type => type.glyphs
  | .ofAttribute attr => attr.glyphs
  | .ofArguments args => Argument.listGlyphs args

def Readable : Phrase → Prop
  | .ofType type => type.Readable
  | .ofAttribute attr => attr.Readable
  | .ofArguments args => ∀ arg ∈ args, arg.Readable

/-- What is read back as itself. -/
structure Sound (part : Phrase) : Prop where
  readable : part.Readable
  proper : AllProper part.glyphs

end Phrase

/-- The phrases of a member that stand in no other. -/
def MemberBody.phrases : MemberBody → List Phrase
  | .const _ type _ => [.ofType type]
  | .attribute a => [.ofType a.type]
  | .operation o => [.ofType o.result, .ofArguments o.args]
  | .constructor args => [.ofArguments args]
  | .field f => [.ofType f.type]
  | .iteration i => i.key.toList.map .ofType ++ [.ofType i.value, .ofArguments i.args]
  | .stringifier => []

def Member.phrases (m : Member) : List Phrase :=
  m.extAttrs.map .ofAttribute ++ m.body.phrases

def DefinitionBody.phrases : DefinitionBody → List Phrase
  | .container c => c.members.flatMap Member.phrases
  | .enumeration _ | .includes _ => []
  | .typedef type => [.ofType type]
  | .callback result args => [.ofType result, .ofArguments args]

/-- The phrases of a definition that stand in no other. -/
def Definition.phrases (d : Definition) : List Phrase :=
  d.extAttrs.map .ofAttribute ++ d.body.phrases

/-! ### What is read back holds parts that are -/

theorem Argument.Readable.parts {arg : Argument} (h : arg.Readable) :
    (∀ attr ∈ arg.extAttrs, attr.Readable) ∧ arg.type.Readable := by
  cases h with
  | optional hattrs htype _ => exact ⟨hattrs, htype⟩
  | required hattrs htype _ _ _ => exact ⟨hattrs, htype⟩

theorem Argument.allProper_parts {arg : Argument} (h : AllProper arg.glyphs) :
    (∀ attr ∈ arg.extAttrs, AllProper attr.glyphs) ∧ AllProper arg.type.glyphs := by
  obtain ⟨name, type, isOptional, isVariadic, default, extAttrs⟩ := arg
  simp only [glyphs, allProper_append, allProper_inBrackets, ExtendedAttribute.glyphsEach_eq_map,
    List.forall_mem_map] at h
  exact ⟨h.1, h.2.2.1⟩

theorem ExtendedAttribute.allProper_listGlyphs {attrs : List ExtendedAttribute} :
    AllProper (listGlyphs attrs) ↔ ∀ attr ∈ attrs, AllProper attr.glyphs := by
  rw [listGlyphs, allProper_inBrackets, List.forall_mem_map]

theorem Argument.allProper_listGlyphs {args : List Argument} :
    AllProper (listGlyphs args) ↔ ∀ arg ∈ args, AllProper arg.glyphs := by
  rw [listGlyphs, allProper_inParens, List.forall_mem_map]

namespace Phrase

theorem sound_attributes {attrs : List ExtendedAttribute} :
    (∀ part ∈ attrs.map ofAttribute, part.Sound) ↔
      (∀ attr ∈ attrs, attr.Readable) ∧ ∀ attr ∈ attrs, AllProper attr.glyphs := by
  rw [List.forall_mem_map, ← forall₂_and]
  exact forall₂_congr fun _ _ => ⟨fun h => ⟨h.1, h.2⟩, fun h => ⟨h.1, h.2⟩⟩

theorem sound_arguments {args : List Argument} (h : (ofArguments args).Sound) :
    ∀ part ∈ (ofArguments args).parts, part.Sound := by
  intro part hpart
  obtain ⟨arg, harg, hmem⟩ := List.mem_flatMap.1 hpart
  obtain ⟨hattrs, htype⟩ := (h.readable arg harg).parts
  obtain ⟨hattrsProper, htypeProper⟩ :=
    Argument.allProper_parts (Argument.allProper_listGlyphs.1 h.proper arg harg)
  rcases List.mem_append.1 hmem with hattr | htypePart
  · exact sound_attributes.2 ⟨hattrs, hattrsProper⟩ part hattr
  · obtain rfl := List.mem_singleton.1 htypePart
    exact ⟨htype, htypeProper⟩

theorem sound_attribute {attr : ExtendedAttribute} (h : (ofAttribute attr).Sound) :
    ∀ part ∈ (ofAttribute attr).parts, part.Sound := by
  obtain ⟨hreadable, hproper⟩ := h
  obtain ⟨name, value, args⟩ := attr
  cases hreadable with
  | mk hlist hallowed hargs =>
      refine List.forall_mem_map.2 fun list hlist => ?_
      obtain rfl := Option.mem_toList.1 hlist
      rw [glyphs, ExtendedAttribute.glyphs, allProper_cons, allProper_append,
        Argument.glyphsOfOption, Argument.glyphsEach_eq_map] at hproper
      exact ⟨hargs list rfl, hproper.2.2⟩

theorem sound_type {type : IdlType} (h : (Phrase.ofType type).Sound) :
    ∀ part ∈ (Phrase.ofType type).parts, part.Sound := by
  obtain ⟨hreadable, hproper⟩ := h
  cases hreadable with
  | primitive | any | named _ => exact List.forall_mem_nil _
  | sequence hitem | frozenArray hitem | observableArray hitem | promise hitem =>
      rw [glyphs, IdlType.glyphs, allProper_wrapped] at hproper
      exact List.forall_mem_singleton.2 ⟨hitem, hproper.2⟩
  | record hkey hstring hvalue =>
      rw [glyphs, IdlType.glyphs, allProper_wrapped, allProper_append, allProper_cons] at hproper
      obtain ⟨-, hkeyProper, -, hvalueProper⟩ := hproper
      exact List.forall_mem_cons.2 ⟨⟨hkey, hkeyProper⟩,
        List.forall_mem_singleton.2 ⟨hvalue, hvalueProper⟩⟩
  | nullable hinner hbare honce =>
      rw [glyphs, IdlType.glyphs, allProper_append] at hproper
      exact List.forall_mem_singleton.2 ⟨hinner, hproper.1⟩
  | union hmembers hmany =>
      have hor : (word "or").Proper := by decide
      rw [glyphs, IdlType.glyphs, allProper_cons, allProper_append, allProper_joined hor,
        IdlType.glyphsEach_eq_map, List.forall_mem_map] at hproper
      exact List.forall_mem_map.2 fun member hmember =>
        ⟨hmembers member hmember, hproper.2.1 member hmember⟩
  | annotated hattrs hsome hinner honce =>
      rw [glyphs, IdlType.glyphs, allProper_append, allProper_inBrackets,
        ExtendedAttribute.glyphsEach_eq_map, List.forall_mem_map] at hproper
      exact List.forall_mem_append.2 ⟨sound_attributes.2 ⟨hattrs, hproper.1⟩,
        List.forall_mem_singleton.2 ⟨hinner, hproper.2⟩⟩

/-- One step. -/
theorem Sound.of_mem_parts {whole part : Phrase} (h : whole.Sound) (hpart : part ∈ whole.parts) :
    part.Sound := by
  cases whole with
  | ofType type => exact sound_type h part hpart
  | ofAttribute attr => exact sound_attribute h part hpart
  | ofArguments args => exact sound_arguments h part hpart

theorem Sound.of_holds {whole part : Phrase} (h : whole.Sound) (hpart : whole.Holds part) :
    part.Sound := by
  induction hpart with
  | refl => exact h
  | tail _ hstep ih => exact ih.of_mem_parts hstep

end Phrase

theorem Iteration.sound_phrases {i : Iteration} (h : i.Readable)
    (hproper : AllProper (MemberBody.iteration i).glyphs) :
    ∀ part ∈ (MemberBody.iteration i).phrases, part.Sound := by
  have hcomma : (mark .comma).Proper := by decide
  simp only [MemberBody.glyphs, allProper_append, allProper_cons, allProper_joined hcomma,
    List.forall_mem_map, List.forall_mem_append] at hproper
  obtain ⟨-, -, -, ⟨hkey, hvalue⟩, -, hargs, -⟩ := hproper
  have hargs : AllProper (Argument.listGlyphs i.args) := by
    cases hlist : i.args with
    | nil => exact Argument.allProper_listGlyphs.2 (List.forall_mem_nil _)
    | cons arg args => rwa [hlist] at hargs
  refine List.forall_mem_append.2 ⟨List.forall_mem_map.2 fun key hmem => ?_, ?_⟩
  · exact ⟨h.key key (Option.mem_toList.1 hmem), hkey key hmem⟩
  · exact List.forall_mem_cons.2 ⟨⟨h.value, hvalue i.value (List.mem_singleton.2 rfl)⟩,
      List.forall_mem_singleton.2 ⟨h.args, hargs⟩⟩

theorem MemberBody.sound_phrases : ∀ {body : MemberBody} {inDictionary : Bool},
    body.Readable inDictionary → AllProper body.glyphs → ∀ part ∈ body.phrases, part.Sound
  | .const _ _ _, _, .const htype _, hproper => by
      rw [glyphs, allProper_cons, allProper_append] at hproper
      exact List.forall_mem_singleton.2 ⟨htype, hproper.2.1⟩
  | .attribute _, _, .attribute htype _ _, hproper => by
      rw [glyphs, allProper_append, allProper_append] at hproper
      exact List.forall_mem_singleton.2 ⟨htype, hproper.2.1⟩
  | .operation _, _, .operation h, hproper => by
      simp only [glyphs, allProper_append] at hproper
      obtain ⟨-, -, hresult, -, hargs, -⟩ := hproper
      exact List.forall_mem_cons.2 ⟨⟨h.result, hresult⟩,
        List.forall_mem_singleton.2 ⟨h.args, hargs⟩⟩
  | .constructor _, _, .constructor hargs, hproper => by
      rw [glyphs, allProper_cons, allProper_append] at hproper
      exact List.forall_mem_singleton.2 ⟨hargs, hproper.2.1⟩
  | .field _, _, .field htype _ _, hproper => by
      rw [glyphs, allProper_append, allProper_append] at hproper
      exact List.forall_mem_singleton.2 ⟨htype, hproper.2.1⟩
  | .iteration _, _, .iteration h, hproper => Iteration.sound_phrases h hproper
  | .stringifier, _, .stringifier, _ => List.forall_mem_nil _

theorem Member.sound_phrases {m : Member} {inDictionary : Bool} (h : m.Readable inDictionary)
    (hproper : AllProper m.glyphs) : ∀ part ∈ m.phrases, part.Sound := by
  rw [glyphs, allProper_append, ExtendedAttribute.allProper_listGlyphs] at hproper
  exact List.forall_mem_append.2 ⟨Phrase.sound_attributes.2 ⟨h.extAttrs, hproper.1⟩,
    MemberBody.sound_phrases h.body hproper.2⟩

theorem Definition.sound_phrases {d : Definition} (h : d.Readable) (hproper : AllProper d.glyphs) :
    ∀ part ∈ d.phrases, part.Sound := by
  rw [glyphs, allProper_append, ExtendedAttribute.allProper_listGlyphs] at hproper
  refine List.forall_mem_append.2 ⟨Phrase.sound_attributes.2 ⟨h.extAttrs, hproper.1⟩, ?_⟩
  obtain ⟨hbody, hattrs⟩ := h
  obtain ⟨name, body, extAttrs, span⟩ := d
  cases hbody with
  | container h =>
      have hmembers := (DefinitionBody.allProper_container.1 hproper.2).2
      intro part hpart
      obtain ⟨m, hm, hmem⟩ := List.mem_flatMap.1 hpart
      exact Member.sound_phrases (h.members m hm) (hmembers m hm) part hmem
  | enumeration | includes _ => exact List.forall_mem_nil _
  | typedef htype hname =>
      simp only [DefinitionBody.glyphs, allProper_append, allProper_cons] at hproper
      exact List.forall_mem_singleton.2 ⟨htype, hproper.2.2.1⟩
  | callback hname hresult hargs =>
      simp only [DefinitionBody.glyphs, allProper_append, allProper_cons] at hproper
      obtain ⟨-, -, -, -, hresultProper, hargsProper, -⟩ := hproper
      exact List.forall_mem_cons.2 ⟨⟨hresult, hresultProper⟩,
        List.forall_mem_singleton.2 ⟨hargs, hargsProper⟩⟩

/-! ### The parts of a source -/

/-- The lexer finds no name behind a `_`. -/
def Token.Unescaped (source : String) (base : Nat) : Prop :=
  ∀ token ∈ Token.lex source base,
    token.kind = .identifier → token.text.toList.head? ≠ some '_'

instance (source : String) (base : Nat) : Decidable (Token.Unescaped source base) :=
  inferInstanceAs (Decidable (∀ token ∈ Token.lex source base,
    token.kind = .identifier → token.text.toList.head? ≠ some '_'))

/-- The part is one of a source without escaped names. -/
def Phrase.Parsed (part : Phrase) : Prop :=
  ∃ source base definitions, Token.Unescaped source base ∧
    Definition.ofSource source base = .ok definitions ∧
      ∃ d ∈ definitions, ∃ whole ∈ d.phrases, whole.Holds part

theorem Phrase.Parsed.sound {part : Phrase} (h : part.Parsed) : part.Sound := by
  obtain ⟨source, base, definitions, hplain, hparse, d, hd, whole, hwhole, hholds⟩ := h
  have hreadable := Definition.readable_of_ofSource hparse
    (Definition.isEscaped_eq_false_of_lex hplain) d hd
  have hproper := Definition.allProper_of_ofSource hparse d hd
  exact (Definition.sound_phrases hreadable hproper whole hwhole).of_holds hholds

/-! ### Texts of types -/

namespace IdlType

/-- A type is read back from its text. -/
theorem eq_of_text_eq {type other : IdlType} (htype : (Phrase.ofType type).Sound)
    (hother : (Phrase.ofType other).Sound) (htext : type.text = other.text) : type = other := by
  have hglyphs : type.glyphs = other.glyphs := by
    rw [← (type.spells htype.proper).ofText_eq, htext, (other.spells hother.proper).ofText_eq]
  have hcursor : (Definition.cursor type.text 0).glyphs = type.glyphs ++ [] := by
    rw [List.append_nil]
    exact (map_glyph_lex type.text 0).trans (type.spells htype.proper).ofText_eq
  have hnothing {type : IdlType} : ∀ g ∈ ([] : List Glyph).head?, type.goesOnWith g = false := by
    simp
  -- Both types are what the parser gives for the same tokens.
  obtain ⟨_, _, hread, -, rfl⟩ := reads htype.readable htype.proper hnothing _ hcursor
  obtain ⟨_, _, hagain, -, rfl⟩ :=
    reads hother.readable hother.proper hnothing _ (hcursor.trans (by rw [hglyphs]))
  rw [hread] at hagain
  exact congrArg Prod.fst (Except.ok.inj hagain)

/-- A type has extended attributes in front of it only once. -/
theorem Readable.unannotated_eq {extAttrs : List ExtendedAttribute} {inner : IdlType}
    (h : (IdlType.annotated extAttrs inner).Readable) :
    (IdlType.annotated extAttrs inner).unannotated = inner := by
  cases h with
  | annotated hattrs hsome hinner honce =>
      cases inner with
      | annotated _ _ => cases honce
      | _ => rfl

theorem sound_unannotated {type : IdlType} (h : (Phrase.ofType type).Sound) :
    (Phrase.ofType type.unannotated).Sound := by
  cases type with
  | annotated extAttrs inner =>
      rw [Readable.unannotated_eq h.readable]
      exact h.of_mem_parts (List.mem_append_right _ (List.mem_singleton.2 rfl))
  | _ => exact h

end IdlType

end IdlBindings
