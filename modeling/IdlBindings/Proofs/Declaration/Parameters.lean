import IdlBindings.Declaration.Mapping
import IdlBindings.Proofs.Syntax.Phrase
import IdlBindings.Proofs.Syntax.RoundTrip
import IdlBindings.Proofs.Text.Identifier

/-!
The names of parameters. Two stored names give one parameter name exactly if they differ in `-` and
`_` only, or one is a reserved word and the other that word with a `_` or a `-` behind it
(`Text.parameterName_eq_iff`). So the parameters of an argument list have different names exactly if
no two of its arguments clash in this way (`Style.nodup_writtenNames_of_ofSource`).
-/

namespace IdlBindings

open Glyph

namespace Text

/-- The two names are written as one parameter name. -/
def Clash (first second : String) : Prop :=
  underscored first = underscored second ∨
    (isReservedWord first = true ∧ underscored second = first ++ "_") ∨
    (isReservedWord second = true ∧ underscored first = second ++ "_")

instance (first second : String) : Decidable (Clash first second) :=
  inferInstanceAs (Decidable (_ ∨ _ ∨ _))

section Names

variable {first second : String}

/-- What has a `_` behind it is no reserved word. -/
theorem isReservedWord_append (name : String) : isReservedWord (name ++ "_") = false := by
  rw [Bool.eq_false_iff]
  intro h
  apply (not_mem_of_isReservedWord h).1
  rw [String.toList_append, List.mem_append]
  exact .inr List.mem_cons_self

theorem parameterName_eq_iff (hfirst : (word first).Proper) (hsecond : (word second).Proper) :
    parameterName first = parameterName second ↔ Clash first second := by
  rw [parameterName_of_proper hfirst, parameterName_of_proper hsecond, Clash]
  -- a reserved word is written with a `_`, so it meets no name that is written as it is
  have hwritten {word name : String} (hword : isReservedWord word = true)
      (hname : isReservedWord name = false) : underscored word ≠ underscored name := by
    intro heq
    rw [← isReservedWord_underscored, ← heq, isReservedWord_underscored, hword] at hname
    cases hname
  have hbehind {word name : String} (hname : isReservedWord name = true) : name ≠ word ++ "_" := by
    rintro rfl
    rw [isReservedWord_append] at hname
    cases hname
  cases ha : isReservedWord first <;> cases hb : isReservedWord second
  · simp
  · have hne : underscored first ≠ underscored second := (hwritten hb ha).symm
    simp [hne]
  · have hne := hwritten ha hb
    simp [hne, eq_comm]
  · have hsame := underscored_of_isReservedWord ha
    have hsame' := underscored_of_isReservedWord hb
    simp [hbehind ha, hbehind hb, hsame, hsame']

/-- The name has no `-`, and it is no reserved word with a `_` behind it. -/
def IsSteady (name : String) : Prop :=
  '-' ∉ name.toList ∧ ∀ word ∈ reservedWords, name ≠ word ++ "_"

instance : DecidablePred IsSteady := fun _ => inferInstanceAs (Decidable (_ ∧ _))

/-- Names of this kind clash with none but themselves. -/
theorem eq_of_clash (hfirst : IsSteady first) (hsecond : IsSteady second)
    (h : Clash first second) : first = second := by
  obtain ⟨hminus, hplain⟩ := hfirst
  obtain ⟨hminus', hplain'⟩ := hsecond
  rw [Clash, underscored_eq_self hminus, underscored_eq_self hminus'] at h
  rcases h with heq | ⟨hreserved, heq⟩ | ⟨hreserved, heq⟩
  · exact heq
  · exact absurd heq (hplain' first (List.contains_iff_mem.1 hreserved))
  · exact absurd heq (hplain second (List.contains_iff_mem.1 hreserved))

end Names

/-- The name at the beginning of a parameter, behind the dots if there are any. -/
def writtenName (parameter : String) : String :=
  String.ofList ((dropWord "..." parameter).toList.takeWhile isNameRest)

/-- A name that can stand bare is read up to the mark behind it. -/
theorem writtenName_append {name rest : String} (hname : isIdentifier name = true)
    (hrest : ∀ c ∈ rest.toList.head?, isNameRest c = false) :
    writtenName (name ++ rest) = name ∧ writtenName ("..." ++ (name ++ rest)) = name := by
  have hchars := all_of_isIdentifier hname
  have hread : String.ofList ((name ++ rest).toList.takeWhile isNameRest) = name := by
    rw [String.toList_append, takeWhile_append_of_head hchars hrest, String.ofList_toList]
  have hdots : dropWord "..." (name ++ rest) = name ++ rest := by
    apply dropWord_of_head
    rw [String.toList_append]
    cases hcs : name.toList with
    | nil => simp [isIdentifier, hcs] at hname
    | cons c cs =>
        have hc : isNameRest c = true := hchars c (hcs ▸ List.mem_cons_self)
        rintro ⟨⟩
        exact absurd hc (by decide)
  constructor
  · rw [writtenName, hdots, hread]
  · rw [writtenName, dropWord_append, hread]

end Text

open Text

/-! ### Argument lists -/

/-- The arguments that a member is declared with. -/
def MemberBody.argumentLists : MemberBody → List (List Argument)
  | .operation o => [o.args]
  | .constructor args => [args]
  | .iteration i => [i.args]
  | .const _ _ _ | .attribute _ | .field _ | .stringifier => []

/-- The argument lists of a definition: that of a callback, or those of the members. -/
def Definition.argumentLists (d : Definition) : List (List Argument) :=
  match d.body with
  | .callback _ args => [args]
  | _ => d.members.flatMap fun m => m.body.argumentLists

theorem Argument.proper_name {arg : Argument} (h : AllProper arg.glyphs) :
    (word arg.name).Proper := by
  obtain ⟨name, type, isOptional, isVariadic, default, extAttrs⟩ := arg
  simp only [glyphs, allProper_append, allProper_cons] at h
  exact h.2.2.2.2.1

theorem MemberBody.allProper_of_mem_argumentLists {body : MemberBody} (h : AllProper body.glyphs)
    {args : List Argument} (hargs : args ∈ body.argumentLists) :
    ∀ arg ∈ args, AllProper arg.glyphs := by
  cases body with
  | operation o =>
      obtain rfl := List.mem_singleton.1 hargs
      simp only [glyphs, allProper_append, Argument.allProper_listGlyphs] at h
      exact h.2.2.2.2.1
  | constructor args =>
      obtain rfl := List.mem_singleton.1 hargs
      simp only [glyphs, allProper_append, allProper_cons, Argument.allProper_listGlyphs] at h
      exact h.2.1
  | iteration i =>
      obtain rfl := List.mem_singleton.1 hargs
      simp only [glyphs, allProper_append, allProper_cons] at h
      obtain ⟨-, -, -, -, -, hlist, -⟩ := h
      split at hlist
      · rename_i hempty
        rw [List.isEmpty_iff.1 hempty]
        exact List.forall_mem_nil _
      · exact Argument.allProper_listGlyphs.1 hlist
  | _ => cases hargs

/-- The names of arguments are names as they are stored. -/
theorem Definition.proper_of_mem_argumentLists {d : Definition} (h : AllProper d.glyphs)
    {args : List Argument} (hargs : args ∈ d.argumentLists) :
    ∀ arg ∈ args, (word arg.name).Proper := by
  obtain ⟨name, body, extAttrs, span⟩ := d
  obtain ⟨-, hbody⟩ := allProper_append.1 h
  intro arg harg
  apply Argument.proper_name
  cases body with
  | callback result args' =>
      obtain rfl := List.mem_singleton.1 hargs
      simp only [DefinitionBody.glyphs, allProper_append, allProper_cons,
        Argument.allProper_listGlyphs] at hbody
      exact hbody.2.2.2.2.1 arg harg
  | container c =>
      obtain ⟨m, hm, hmem⟩ := List.mem_flatMap.1 hargs
      obtain ⟨-, hmembers⟩ := DefinitionBody.allProper_container.1 hbody
      obtain ⟨-, hmember⟩ := allProper_append.1 (hmembers m hm)
      exact MemberBody.allProper_of_mem_argumentLists hmember hmem arg harg
  | enumeration _ | typedef _ | includes _ => cases hargs

namespace Style

variable (style : Style)

/-- The name of a parameter is the one that is made for its argument. -/
theorem writtenName_parameter (arg : Argument) :
    writtenName (style.parameter arg) = parameterName arg.name := by
  have hname := isIdentifier_parameterName arg.name
  simp only [parameter]
  split
  · simp only [String.append_assoc]
    exact (writtenName_append hname (by simp [isNameRest])).2
  split
  · simp only [String.append_assoc]
    exact (writtenName_append hname (by simp [isNameRest])).1
  · simp only [String.append_assoc]
    exact (writtenName_append hname (by simp [isNameRest])).1

theorem map_writtenName_parameters (args : List Argument) :
    (style.parameters args).map writtenName = (args.map Argument.name).map parameterName := by
  rw [parameters, List.map_map, List.map_map]
  exact List.map_congr_left fun arg _ => style.writtenName_parameter arg

/-- The parameters that are written for the arguments of an operation, a constructor, a callback or
an iteration have different names exactly if no two of the arguments clash. So it is for different
names that have no `-` and are no reserved words with a `_` behind them. -/
theorem nodup_writtenNames_of_ofSource {source : String} {base : Nat}
    {definitions : List Definition} (h : Definition.ofSource source base = .ok definitions) :
    ∀ d ∈ definitions, ∀ args ∈ d.argumentLists,
      (style.parameters args).map writtenName = (args.map Argument.name).map parameterName ∧
      (((style.parameters args).map writtenName).Nodup ↔
        (args.map Argument.name).Pairwise fun first second => ¬ Clash first second) ∧
      ((args.map Argument.name).Nodup → (∀ arg ∈ args, IsSteady arg.name) →
        ((style.parameters args).map writtenName).Nodup) := by
  intro d hd args hargs
  have hproper : ∀ name ∈ args.map Argument.name, (word name).Proper :=
    List.forall_mem_map.2
      (Definition.proper_of_mem_argumentLists (Definition.allProper_of_ofSource h d hd) hargs)
  have hnames := style.map_writtenName_parameters args
  have hclash : ((style.parameters args).map writtenName).Nodup ↔
      (args.map Argument.name).Pairwise fun first second => ¬ Clash first second := by
    rw [hnames, List.Nodup, List.pairwise_map]
    apply List.Pairwise.iff_of_mem
    intro first second hfirst hsecond
    exact not_congr (parameterName_eq_iff (hproper first hfirst) (hproper second hsecond))
  refine ⟨hnames, hclash, fun hnodup hsteady => hclash.2 ?_⟩
  have hplain : ∀ name ∈ args.map Argument.name, IsSteady name := List.forall_mem_map.2 hsteady
  apply List.Pairwise.imp_of_mem _ hnodup
  intro first second hfirst hsecond hne hmeet
  exact hne (eq_of_clash (hplain first hfirst) (hplain second hsecond) hmeet)

/-- A constructor with reserved words, an operation with a `-` and a callback with dots. -/
def reservedNames : String :=
  "interface A \x7b constructor(long default, long a_b); undefined f(long a-b, long class-); \x7d;"
    ++ "callback F = any (any a, any... _in);"

theorem nodup_writtenNames_of_ofSource_reservedNames : ∃ definitions,
    Definition.ofSource reservedNames 0 = .ok definitions ∧
    (definitions.flatMap Definition.argumentLists).map (List.map Argument.name)
      = [["default", "a_b"], ["a-b", "class-"], ["a", "in"]] ∧
    (definitions.flatMap Definition.argumentLists).map
        (fun args => (Style.default.parameters args).map writtenName)
      = [["default_", "a_b"], ["a_b", "class_"], ["a", "in_"]] ∧
    ∀ d ∈ definitions, ∀ args ∈ d.argumentLists,
      ((Style.default.parameters args).map writtenName).Nodup := by
  have hlists : (Definition.ofSource reservedNames 0).toOption.map (fun definitions =>
        ((definitions.flatMap Definition.argumentLists).map (List.map Argument.name),
          (definitions.flatMap Definition.argumentLists).map
            (fun args => (Style.default.parameters args).map writtenName)))
      = some ([["default", "a_b"], ["a-b", "class-"], ["a", "in"]],
          [["default_", "a_b"], ["a_b", "class_"], ["a", "in_"]]) := by
    decide +kernel
  have hapart : ∀ names ∈ [["default", "a_b"], ["a-b", "class-"], ["a", "in"]],
      names.Pairwise fun first second => ¬ Clash first second := by
    decide +kernel
  obtain ⟨definitions, hok, heq⟩ := Definition.exists_of_toOption hlists
  obtain ⟨hnames, hwritten⟩ := Prod.mk.inj heq
  refine ⟨definitions, hok, hnames, hwritten, fun d hd args hargs => ?_⟩
  have hmem := List.mem_map_of_mem (f := List.map Argument.name)
    (List.mem_flatMap.2 ⟨d, hd, hargs⟩)
  exact (nodup_writtenNames_of_ofSource .default hok d hd args hargs).2.1.2
    (hapart _ (hnames ▸ hmem))

/-- Two arguments whose names differ in a `-`. -/
def hyphenPair : String := "interface A \x7b undefined f(long a-b, long a_b); \x7d;"

/-- They are written alike. -/
theorem not_nodup_writtenNames : ∃ definitions,
    Definition.ofSource hyphenPair 0 = .ok definitions ∧
    ∃ d ∈ definitions, ∃ args ∈ d.argumentLists, (args.map Argument.name).Nodup ∧
      ¬ ((Style.default.parameters args).map writtenName).Nodup := by
  have hlists : (Definition.ofSource hyphenPair 0).toOption.map (fun definitions =>
        (definitions.flatMap Definition.argumentLists).map fun args =>
          (args.map Argument.name, (Style.default.parameters args).map writtenName))
      = some [(["a-b", "a_b"], ["a_b", "a_b"])] := by
    decide +kernel
  obtain ⟨definitions, hok, heq⟩ := Definition.exists_of_toOption hlists
  obtain ⟨args, hargs, hvalue⟩ := List.mem_map.1 (heq ▸ List.mem_singleton_self _)
  obtain ⟨d, hd, hmem⟩ := List.mem_flatMap.1 hargs
  obtain ⟨hnames, hwritten⟩ := Prod.mk.inj hvalue
  refine ⟨definitions, hok, d, hd, args, hmem, ?_, ?_⟩
  · rw [hnames]
    decide
  · rw [hwritten]
    decide

end Style

end IdlBindings
