import IdlBindings.Model.Merge
import IdlBindings.Proofs.Syntax.Phrase

/-!
Which members cannot stand side by side. Overloads are told apart by the texts of their argument
types; in sources without escaped names these are as good as the types themselves
(`MemberKey.ofBody_eq_iff_of_parsed`). The relation between members is then the one of `Clash`, but
for operations in different roles, which never collide (`Member.collides_iff_clash`).
-/

namespace IdlBindings

/-- Argument lists of one length with the same types, whatever extended attributes stand in front of
these. -/
def SameTypes : List Argument → List Argument → Prop :=
  List.Forall₂ fun arg other => arg.type.unannotated = other.type.unannotated

theorem IdlType.references_unannotated : (type : IdlType) →
    type.unannotated.references = type.references
  | .annotated _ inner => inner.references_unannotated
  | .primitive _ | .named _ | .sequence _ | .frozenArray _ | .observableArray _ | .record _ _
  | .promise _ | .nullable _ | .union _ | .any => rfl

theorem SameTypes.references {args others : List Argument} (h : SameTypes args others) :
    args.map (·.type.references) = others.map (·.type.references) := by
  induction h with
  | nil => rfl
  | @cons arg other _ _ hsame _ ih =>
      rw [List.map_cons, List.map_cons, ih, ← arg.type.references_unannotated, hsame,
        other.type.references_unannotated]

namespace MemberKey

variable {args others : List Argument}

theorem sound_unannotated_of_mem (h : (Phrase.ofArguments args).Sound) :
    ∀ arg ∈ args, (Phrase.ofType arg.type.unannotated).Sound := by
  intro arg harg
  have hpart : Phrase.ofType arg.type ∈ (Phrase.ofArguments args).parts :=
    List.mem_flatMap.2 ⟨arg, harg, List.mem_append_right _ (List.mem_singleton.2 rfl)⟩
  exact IdlType.sound_unannotated (h.of_mem_parts hpart)

/-- The texts of types that are read back tell them apart. -/
theorem signature_eq_iff (hargs : (Phrase.ofArguments args).Sound)
    (hothers : (Phrase.ofArguments others).Sound) :
    signature args = signature others ↔ SameTypes args others := by
  have hfirst := sound_unannotated_of_mem hargs
  have hsecond := sound_unannotated_of_mem hothers
  clear hargs hothers
  unfold signature SameTypes
  induction args generalizing others with
  | nil => cases others <;> simp
  | cons arg args ih =>
      cases others with
      | nil => simp
      | cons other others =>
          rw [List.forall_mem_cons] at hfirst hsecond
          rw [List.map_cons, List.map_cons, List.cons.injEq, List.forall₂_cons]
          exact and_congr ⟨IdlType.eq_of_text_eq hfirst.1 hsecond.1, congrArg IdlType.text⟩
            (ih hfirst.2 hsecond.2)

end MemberKey

/-! ### The documented relation -/

namespace MemberBody

def isOperation : MemberBody → Bool
  | .operation _ => true
  | _ => false

/-- Two members that are not to stand side by side, when argument lists are compared by `same`. -/
inductive Clash (same : List Argument → List Argument → Prop) : MemberBody → MemberBody → Prop
  | name {a b : MemberBody} {name : String} (ha : a.name? = some name) (hb : b.name? = some name)
      (hside : a.isStatic = b.isStatic) (hone : a.isOperation = false ∨ b.isOperation = false) :
      Clash same a b
  | overload {o p : Operation} {name : String} (ho : o.name = some name) (hp : p.name = some name)
      (hside : o.isStatic = p.isStatic) (hargs : same o.args p.args) :
      Clash same (.operation o) (.operation p)
  | nameless {o p : Operation} (ho : o.name = none) (hp : p.name = none)
      (hspecial : o.special = p.special) (hside : o.isStatic = p.isStatic)
      (hargs : same o.args p.args) : Clash same (.operation o) (.operation p)
  | constructor {args others : List Argument} (hargs : same args others) :
      Clash same (.constructor args) (.constructor others)
  | iteration (i j : Iteration) : Clash same (.iteration i) (.iteration j)
  | stringifier : Clash same .stringifier .stringifier

/-- Only the argument lists of the two members matter. -/
theorem Clash.mono {same same' : List Argument → List Argument → Prop} {a b : MemberBody}
    (h : ∀ args others, Phrase.ofArguments args ∈ a.phrases →
      Phrase.ofArguments others ∈ b.phrases → same args others → same' args others)
    (hclash : Clash same a b) : Clash same' a b := by
  have hpart (o : Operation) : Phrase.ofArguments o.args ∈ (operation o).phrases :=
    List.mem_cons_of_mem _ (List.mem_singleton.2 rfl)
  have hpart' (args : List Argument) :
      Phrase.ofArguments args ∈ (MemberBody.constructor args).phrases :=
    List.mem_singleton.2 rfl
  cases hclash with
  | name ha hb hside hone => exact .name ha hb hside hone
  | @overload o p _ ho hp hside hargs =>
      exact .overload ho hp hside (h _ _ (hpart o) (hpart p) hargs)
  | @nameless o p ho hp hspecial hside hargs =>
      exact .nameless ho hp hspecial hside (h _ _ (hpart o) (hpart p) hargs)
  | constructor hargs => exact .constructor (h _ _ (hpart' _) (hpart' _) hargs)
  | iteration i j => exact .iteration i j
  | stringifier => exact .stringifier

/-- Operations with different special roles, one of them perhaps with none. -/
inductive RolesDiffer : MemberBody → MemberBody → Prop
  | mk {o p : Operation} (h : o.special ≠ p.special) : RolesDiffer (.operation o) (.operation p)

end MemberBody

namespace MemberKey

open MemberBody

variable {a b : MemberBody}

theorem collides_iff (a b : MemberKey) : a.collides b = true ↔ a = b ∨
    ∃ slot, a.slot? = some slot ∧ b.slot? = some slot ∧
      (a.isOperation = false ∨ b.isOperation = false) := by
  rw [collides, Bool.or_eq_true, beq_iff_eq, Bool.and_eq_true, Bool.and_eq_true, beq_iff_eq,
    Option.isSome_iff_exists, Bool.not_eq_true', Bool.and_eq_false_iff]
  refine or_congr_right ⟨?_, ?_⟩
  · rintro ⟨⟨⟨slot, ha⟩, hsame⟩, hone⟩
    exact ⟨slot, ha, hsame ▸ ha, hone⟩
  · rintro ⟨slot, ha, hb, hone⟩
    exact ⟨⟨⟨slot, ha⟩, ha.trans hb.symm⟩, hone⟩

theorem slot?_ofBody (body : MemberBody) :
    (ofBody body).slot? = body.name?.map (body.isStatic, ·) := by
  cases body with
  | operation o =>
      obtain ⟨name, result, args, isStatic, special⟩ := o
      cases name <;> rfl
  | _ => rfl

theorem isOperation_ofBody (body : MemberBody) :
    (ofBody body).isOperation = body.isOperation := by
  cases body <;> rfl

/-- Members of one name on one side that are not both operations. -/
theorem shareSlot_iff : (∃ slot, (ofBody a).slot? = some slot ∧ (ofBody b).slot? = some slot ∧
      ((ofBody a).isOperation = false ∨ (ofBody b).isOperation = false)) ↔
    ∃ name, a.name? = some name ∧ b.name? = some name ∧ a.isStatic = b.isStatic ∧
      (a.isOperation = false ∨ b.isOperation = false) := by
  simp only [slot?_ofBody, isOperation_ofBody, Option.map_eq_some_iff]
  constructor
  · rintro ⟨_, ⟨name, ha, rfl⟩, ⟨other, hb, heq⟩, hone⟩
    obtain ⟨hside, rfl⟩ := Prod.mk.inj heq
    exact ⟨other, ha, hb, hside.symm, hone⟩
  · rintro ⟨name, ha, hb, hside, hone⟩
    exact ⟨_, ⟨name, ha, rfl⟩, ⟨name, hb, by rw [hside]⟩, hone⟩

/-- Arguments with the same texts of types. -/
def SameTexts (args others : List Argument) : Prop :=
  signature args = signature others

theorem ofBody_eq_named {isStatic : Bool} {name : String}
    (h : ofBody b = .named isStatic name) :
    b.name? = some name ∧ b.isStatic = isStatic ∧ b.isOperation = false := by
  cases b <;> cases h <;> exact ⟨rfl, rfl, rfl⟩

theorem ofBody_eq_operation {isStatic : Bool} {name : Option String} {special : Option Special}
    {texts : List String} (h : ofBody b = .operation isStatic name special texts) :
    ∃ p, b = .operation p ∧ p.isStatic = isStatic ∧ p.name = name ∧ p.special = special ∧
      signature p.args = texts := by
  cases b with
  | operation p =>
      obtain ⟨hside, hname, hspecial, hargs⟩ := MemberKey.operation.inj h
      exact ⟨p, rfl, hside, hname, hspecial, hargs⟩
  | _ => cases h

theorem not_rolesDiffer (h : a.isOperation = false ∨ b.isOperation = false) : ¬RolesDiffer a b := by
  rintro ⟨-⟩
  rcases h with h | h <;> cases h

theorem clash_of_named {isStatic : Bool} {name : String} (ha : ofBody a = .named isStatic name)
    (hb : ofBody b = .named isStatic name) : Clash SameTexts a b ∧ ¬RolesDiffer a b := by
  obtain ⟨hname, hside, hone⟩ := ofBody_eq_named ha
  obtain ⟨hname', hside', -⟩ := ofBody_eq_named hb
  exact ⟨.name hname hname' (hside.trans hside'.symm) (.inl hone), not_rolesDiffer (.inl hone)⟩

/-- By the kind of the first member: an equal key makes the second one of the same kind, where
constants, attributes and fields are one kind. -/
theorem clash_of_ofBody_eq : ∀ {a b : MemberBody}, ofBody a = ofBody b →
    Clash SameTexts a b ∧ ¬RolesDiffer a b
  | .const _ _ _, _, h | .attribute _, _, h | .field _, _, h => clash_of_named rfl h.symm
  | .operation o, _, h => by
      obtain ⟨p, rfl, hside, hname, hspecial, hargs⟩ := ofBody_eq_operation h.symm
      refine ⟨?_, fun ⟨hroles⟩ => hroles hspecial.symm⟩
      cases ho : o.name with
      | none => exact .nameless ho (hname.trans ho) hspecial.symm hside.symm hargs.symm
      | some name => exact .overload ho (hname.trans ho) hside.symm hargs.symm
  | .constructor args, b, h => by
      cases b with
      | constructor others =>
          exact ⟨.constructor (MemberKey.constructor.inj h), not_rolesDiffer (.inl rfl)⟩
      | _ => cases h
  | .iteration i, b, h => by
      cases b with
      | iteration j => exact ⟨.iteration i j, not_rolesDiffer (.inl rfl)⟩
      | _ => cases h
  | .stringifier, b, h => by
      cases b with
      | stringifier => exact ⟨.stringifier, not_rolesDiffer (.inl rfl)⟩
      | _ => cases h

theorem collides_ofBody_iff :
    (ofBody a).collides (ofBody b) = true ↔ Clash SameTexts a b ∧ ¬RolesDiffer a b := by
  rw [collides_iff, shareSlot_iff]
  constructor
  · rintro (hkey | ⟨name, ha, hb, hside, hone⟩)
    · exact clash_of_ofBody_eq hkey
    · exact ⟨.name ha hb hside hone, not_rolesDiffer hone⟩
  · rintro ⟨hclash, hroles⟩
    cases hclash with
    | name ha hb hside hone => exact .inr ⟨_, ha, hb, hside, hone⟩
    | overload ho hp hside hargs =>
        have hspecial := Decidable.not_not.1 fun h => hroles ⟨h⟩
        exact .inl (by rw [ofBody, ofBody, ho, hp, hside, hspecial, hargs])
    | nameless ho hp hspecial hside hargs =>
        exact .inl (by rw [ofBody, ofBody, ho, hp, hside, hspecial, hargs])
    | constructor hargs => exact .inl (congrArg MemberKey.constructor hargs)
    | iteration i j => exact .inl rfl
    | stringifier => exact .inl rfl

end MemberKey

/-! ### Members of a source -/

namespace Member

open MemberBody MemberKey

/-- The member is one of a definition of the source. -/
def ParsedFrom (m : Member) (source : String) (base : Nat) : Prop :=
  ∃ definitions, Definition.ofSource source base = .ok definitions ∧
    ∃ d ∈ definitions, m ∈ d.members

variable {m a b : Member} {source other : String} {base base' : Nat}

theorem phrases_of_mem_members {d : Definition} (hm : m ∈ d.members) {part : Phrase}
    (hpart : part ∈ m.body.phrases) : part ∈ d.phrases := by
  obtain ⟨name, body, extAttrs, span⟩ := d
  refine List.mem_append_right _ ?_
  cases body with
  | container c => exact List.mem_flatMap.2 ⟨m, hm, List.mem_append_right _ hpart⟩
  | _ => cases hm

theorem ParsedFrom.parsed (h : m.ParsedFrom source base) (hplain : Token.Unescaped source base)
    {part : Phrase} (hpart : part ∈ m.body.phrases) : part.Parsed := by
  obtain ⟨definitions, hparse, d, hd, hm⟩ := h
  exact ⟨source, base, definitions, hplain, hparse, d, hd, part, phrases_of_mem_members hm hpart,
    .refl⟩

/-- Members with the values that are found in a source. -/
theorem exists_parsedFrom {β : Type} {f : Member → β} {values : List β}
    (h : (Definition.ofSource source base).toOption.map
      (fun definitions => (definitions.flatMap Definition.members).map f) = some values) :
    ∀ value ∈ values, ∃ m : Member, m.ParsedFrom source base ∧ f m = value := by
  obtain ⟨definitions, hparse, rfl⟩ := Definition.exists_of_toOption h
  refine List.forall_mem_map.2 fun m hm => ?_
  obtain ⟨d, hd, hmem⟩ := List.mem_flatMap.1 hm
  exact ⟨m, ⟨definitions, hparse, d, hd, hmem⟩, rfl⟩

/-- A getter, an operation of the same name for the same types, and an attribute. -/
def sharingName : String :=
  "interface A \x7b getter any f(long i); any f(optional [Clamp] long i); attribute any f; \x7d;"

theorem unescaped_sharingName : Token.Unescaped sharingName 0 ∧
    (Definition.ofSource sharingName 0).toOption.map
      (fun definitions => (definitions.flatMap Definition.members).map fun m => (m.text, m.key))
      = some [("getter any f(long i);", .operation false (some "f") (some .getter) ["long"]),
        ("any f(optional [Clamp] long i);", .operation false (some "f") none ["long"]),
        ("attribute any f;", .named false "f")] := by
  decide +kernel

theorem parsedFrom_sharingName {text : String} {key : MemberKey}
    (h : (text, key) ∈ [("getter any f(long i);",
        MemberKey.operation false (some "f") (some .getter) ["long"]),
      ("any f(optional [Clamp] long i);", .operation false (some "f") none ["long"]),
      ("attribute any f;", .named false "f")]) :
    ∃ m : Member, m.ParsedFrom sharingName 0 ∧ m.text = text ∧ m.key = key := by
  obtain ⟨m, hm, hvalue⟩ := exists_parsedFrom unescaped_sharingName.2 _ h
  exact ⟨m, hm, Prod.mk.inj hvalue⟩

/-- An operation for a built-in type, and one for a declared type of that name, which only an escape
can refer to. -/
def sharingText : String :=
  "interface A \x7b any f(long i); any f(_long i); \x7d;"

theorem values_sharingText : (Definition.ofSource sharingText 0).toOption.map
      (fun definitions => (definitions.flatMap Definition.members).map fun m =>
        (m.key, m.body.types.map IdlType.references))
      = some [(.operation false (some "f") none ["long"], [[], []]),
        (.operation false (some "f") none ["long"], [[], ["long"]])] := by
  decide +kernel

end Member

namespace MemberKey

variable {args others : List Argument}

end MemberKey

namespace Member

open MemberBody MemberKey

variable {a b : Member} {source other : String} {base base' : Nat}

/-- Without escaped names, the texts of argument types are as good as the types. -/
theorem clash_iff_of_parsed (ha : a.ParsedFrom source base) (hb : b.ParsedFrom other base')
    (hplain : Token.Unescaped source base) (hplain' : Token.Unescaped other base') :
    Clash SameTexts a.body b.body ↔ Clash SameTypes a.body b.body := by
  have hsame : ∀ args others, Phrase.ofArguments args ∈ a.body.phrases →
      Phrase.ofArguments others ∈ b.body.phrases →
        (SameTexts args others ↔ SameTypes args others) :=
    fun args others hargs hothers => signature_eq_iff (ha.parsed hplain hargs).sound
      (hb.parsed hplain' hothers).sound
  exact ⟨Clash.mono fun args others hargs hothers => (hsame args others hargs hothers).1,
    Clash.mono fun args others hargs hothers => (hsame args others hargs hothers).2⟩

/-- Two members collide exactly when they clash and are not operations in different roles. Argument
types are compared by their texts, which tells them apart in sources without escaped names. -/
theorem collides_iff_clash (ha : a.ParsedFrom source base) (hb : b.ParsedFrom other base') :
    (a.collides b = true ↔ Clash SameTexts a.body b.body ∧ ¬RolesDiffer a.body b.body) ∧
      (Token.Unescaped source base → Token.Unescaped other base' →
        (a.collides b = true ↔ Clash SameTypes a.body b.body ∧ ¬RolesDiffer a.body b.body)) := by
  refine ⟨collides_ofBody_iff, fun hplain hplain' => ?_⟩
  rw [← clash_iff_of_parsed ha hb hplain hplain']
  exact collides_ofBody_iff

theorem collides_iff_clash_attribute : ∃ a b : Member,
    (a.ParsedFrom sharingName 0 ∧ b.ParsedFrom sharingName 0) ∧
    (a.text = "any f(optional [Clamp] long i);" ∧ b.text = "attribute any f;") ∧
    Clash SameTypes a.body b.body ∧ ¬RolesDiffer a.body b.body := by
  obtain ⟨hplain, -⟩ := unescaped_sharingName
  obtain ⟨a, ha, htext, hkey⟩ := parsedFrom_sharingName (.tail _ (.head _))
  obtain ⟨b, hb, htext', hkey'⟩ := parsedFrom_sharingName (.tail _ (.tail _ (.head _)))
  have hcollides : a.collides b = true := by
    rw [collides, hkey, hkey']
    decide
  obtain ⟨-, hiff⟩ := collides_iff_clash ha hb
  exact ⟨a, b, ⟨ha, hb⟩, ⟨htext, htext'⟩, (hiff hplain hplain).1 hcollides⟩

/-- An operation stays beside a getter with the same arguments, and one drives out another with
arguments of another type. -/
theorem collides_not_clash :
    (∃ a b : Member, a.ParsedFrom sharingName 0 ∧ b.ParsedFrom sharingName 0 ∧
      Clash SameTypes a.body b.body ∧ a.collides b = false) ∧
    ∃ a b : Member, a.ParsedFrom sharingText 0 ∧ b.ParsedFrom sharingText 0 ∧
      ¬Clash SameTypes a.body b.body ∧ a.collides b = true := by
  constructor
  · obtain ⟨hplain, -⟩ := unescaped_sharingName
    obtain ⟨a, ha, -, hkey⟩ := parsedFrom_sharingName (.head _)
    obtain ⟨b, hb, -, hkey'⟩ := parsedFrom_sharingName (.tail _ (.head _))
    obtain ⟨o, hbody, hside, hname, -, hargs⟩ := ofBody_eq_operation hkey
    obtain ⟨p, hbody', hside', hname', -, hargs'⟩ := ofBody_eq_operation hkey'
    refine ⟨a, b, ha, hb, (clash_iff_of_parsed ha hb hplain hplain).1 ?_, ?_⟩
    · rw [hbody, hbody']
      exact .overload hname hname' (hside.trans hside'.symm) (hargs.trans hargs'.symm)
    · rw [collides, hkey, hkey']
      decide
  · have hvalues := exists_parsedFrom values_sharingText
    rw [List.forall_mem_cons, List.forall_mem_singleton] at hvalues
    obtain ⟨⟨a, ha, hvalue⟩, b, hb, hvalue'⟩ := hvalues
    obtain ⟨hkey, hrefs⟩ := Prod.mk.inj hvalue
    obtain ⟨hkey', hrefs'⟩ := Prod.mk.inj hvalue'
    obtain ⟨o, hbody, -, hname, -⟩ := ofBody_eq_operation hkey
    obtain ⟨p, hbody', -, hname', -⟩ := ofBody_eq_operation hkey'
    have hdiffer : ¬SameTypes o.args p.args := by
      intro hsame
      have hargs := hsame.references
      rw [hbody, MemberBody.types, List.map_cons, List.cons.injEq, List.map_map] at hrefs
      rw [hbody', MemberBody.types, List.map_cons, List.cons.injEq, List.map_map] at hrefs'
      exact absurd (hrefs.2.symm.trans (hargs.trans hrefs'.2)) (by decide)
    refine ⟨a, b, ha, hb, ?_, ?_⟩
    · rw [hbody, hbody']
      intro hclash
      cases hclash with
      | name _ _ _ hone => rcases hone with hone | hone <;> cases hone
      | overload _ _ _ hargs => exact hdiffer hargs
      | nameless _ _ _ _ hargs => exact hdiffer hargs
    · rw [collides, hkey, hkey']
      decide

end Member

end IdlBindings
