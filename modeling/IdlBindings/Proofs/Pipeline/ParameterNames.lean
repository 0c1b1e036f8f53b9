import IdlBindings.Proofs.Declaration.ParameterLists
import IdlBindings.Proofs.Declaration.Placement
import IdlBindings.Proofs.Declaration.Stored
import IdlBindings.Proofs.Pipeline.Declared

/-!
The names that a declaration file gives to parameters. Whatever an argument is called, what is
written for it can name a parameter, and no other names are written where parameters stand
(`Pipeline.usable_parameterNames`).
-/

namespace IdlBindings

open Glyph

namespace Text

/-- The text can name a parameter: it can stand bare, and it is no reserved word. -/
def IsParameterName (name : String) : Prop := isIdentifier name = true ∧ name ∉ reservedWords

instance : DecidablePred IsParameterName := fun _ => inferInstanceAs (Decidable (_ ∧ _))

theorem not_mem_reservedWords {name : String} (h : isReservedWord name = false) :
    name ∉ reservedWords := by
  intro hmem
  rw [isReservedWord, List.contains_iff_mem.2 hmem] at h
  cases h

/-- A `_` before or behind a text keeps it from being reserved, and `parameterName` puts one in both
cases where the text cannot be left as it is. -/
theorem isParameterName_parameterName (name : String) : IsParameterName (parameterName name) := by
  refine ⟨isIdentifier_parameterName name, not_mem_reservedWords ?_⟩
  unfold parameterName
  extract_lets bare written
  split
  · exact isReservedWord_append written
  split
  · exact Bool.eq_false_iff.2 ‹_›
  · rw [Bool.eq_false_iff]
    intro h
    apply (not_mem_of_isReservedWord h).1
    rw [String.toList_append, List.mem_append]
    exact .inl List.mem_cons_self

/-- A name that can name a parameter is left as it is, but for a `_` at its beginning. -/
theorem parameterName_of_isParameterName {name : String} (h : IsParameterName name)
    (hplain : name.toList.head? ≠ some '_') : parameterName name = name := by
  obtain ⟨hname, hreserved⟩ := h
  have hkept : ∀ c ∈ name.toList, (if c.isAlphanum || c == '$' then c else '_') = c := by
    intro c hc
    rcases isNameRest_iff.1 (all_of_isIdentifier hname c hc) with halnum | rfl | rfl
    · rw [halnum, Bool.true_or, if_pos rfl]
    · rfl
    · rfl
  have hcleaned : cleaned name = name := by
    rw [cleaned, List.map_congr_left hkept, List.map_id', String.ofList_toList]
  have hfree : ¬ isReservedWord name = true := fun hword =>
    hreserved (List.contains_iff_mem.1 hword)
  rw [parameterName_of_head hplain, hcleaned, if_neg hfree, if_pos hname]

/-- A stored name has no marks. -/
theorem unmarked_of_proper {name : String} (h : (word name).Proper) : Unmarked name :=
  unmarked_of_all (by decide) h.isIdentifierRest

end Text

open Text

/-! ### The parameters of a definition -/

theorem Argument.isParameterName (args : List Argument) :
    ∀ name ∈ Argument.parameterNames args, IsParameterName name :=
  List.forall_mem_map.2 fun arg _ => isParameterName_parameterName arg.name

theorem MemberBody.isParameterName (body : MemberBody) :
    ∀ names ∈ body.parameterLists, ∀ name ∈ names, IsParameterName name := by
  have hiteration : ∀ names ∈ iterationParameters, ∀ name ∈ names, IsParameterName name := by decide
  cases body with
  | operation o => exact List.forall_mem_cons.2 ⟨Argument.isParameterName o.args,
      List.forall_mem_singleton.2 (Argument.isParameterName (o.args.take 1))⟩
  | constructor args => exact List.forall_mem_singleton.2 (Argument.isParameterName args)
  | iteration i =>
      rw [parameterLists]
      cases i.kind with
      | asyncIterable => exact List.forall_mem_singleton.2 (Argument.isParameterName i.args)
      | iterable | maplike | setlike => exact hiteration
  | _ => exact List.forall_mem_nil _

theorem Definition.isParameterName (d : Definition) :
    ∀ names ∈ d.parameterLists, ∀ name ∈ names, IsParameterName name := by
  rw [parameterLists]
  split
  · exact List.forall_mem_singleton.2 (Argument.isParameterName _)
  · intro names hnames
    obtain ⟨m, -, hnames⟩ := List.mem_flatMap.1 hnames
    exact m.body.isParameterName names hnames

/-- Names are stored without marks. -/
theorem Definition.unmarked_of_allProper {d : Definition} (h : AllProper d.glyphs) :
    d.Unmarked where
  name := unmarked_of_proper (h _ d.word_name_mem_glyphs)
  parent := fun parent hparent => unmarked_of_proper (d.proper_parent h parent hparent)
  members := fun m hm name hname => unmarked_of_proper (d.proper_of_mem_members h m hm name hname)
  references := fun name hname => unmarked_of_proper (d.proper_of_mem_references h name hname)

/-- The parameters that the declaration of `d` shows. -/
structure Style.ShowsParameters (style : Style) (model : Model) (d : Definition) : Prop where
  /-- A line shows the parameters of one list of the definition, or none. -/
  shows : ∀ block ∈ style.blocks model d, ∀ line ∈ block.lines, Shows d.parameterLists line
  /-- All of them can stand where they are. -/
  usable : ∀ block ∈ style.blocks model d, ∀ line ∈ block.lines, ∀ name ∈ parameterNames line,
    IsParameterName name
  /-- A method shows all its arguments. -/
  method : ∀ m ∈ d.members, ∀ o, m.body = .operation o → ∀ line ∈ style.methodLine? o,
    parameterNames line = Argument.parameterNames o.args
  /-- An index shows the first argument of its getter. -/
  index : ∀ m ∈ d.members, ∀ o, m.body = .operation o → ∀ line ∈ style.indexLine? o,
    parameterNames line = Argument.parameterNames (o.args.take 1)

theorem Style.showsParameters (style : Style) (model : Model) {d : Definition} (h : d.Unmarked) :
    style.ShowsParameters model d where
  shows := fun _ hblock => style.shows_of_mem_blocks h hblock
  usable := by
    intro block hblock line hline name hname
    rcases style.shows_of_mem_blocks h hblock line hline with hnone | hlist
    · rw [hnone] at hname
      cases hname
    · exact d.isParameterName _ hlist name hname
  method := by
    intro m hm o ho
    have htypes := (h.body m hm).types
    rw [ho] at htypes
    exact style.parameterNames_methodLine? htypes
  index := by
    intro m hm o ho
    have htypes := (h.body m hm).types
    rw [ho] at htypes
    exact style.parameterNames_indexLine? (List.forall_mem_cons.1 htypes).1

namespace Pipeline

/-- Parameters can always stand. Whatever an argument is called, the name that is made for it can
stand bare and is no reserved word, and it is the argument's own if that can stand and begins with
no `_`. The parameters between parentheses have those names, in the order of the arguments, with
dots, optional or not. A declaration shows no parameters but those of one of its argument lists, the
key of an index, and the fixed ones of methods that come with an iteration, and so does a
declaration file. -/
theorem usable_parameterNames :
    (∀ name, IsParameterName (parameterName name) ∧
      (IsParameterName name → name.toList.head? ≠ some '_' → parameterName name = name)) ∧
    (∀ (style : Style) (args : List Argument),
      (style.parameters args).map writtenName = Argument.parameterNames args ∧
      (Argument.TypesUnmarked args →
        parameterNames ("(" ++ style.parameterText args ++ ")") = Argument.parameterNames args)) ∧
    (∀ (style : Style) (model : Model) (d : Definition), d.Unmarked →
      style.ShowsParameters model d) ∧
    ∀ (policy : Policy) (style : Style) (doc text : String),
      declarations policy style doc = .ok text → ∃ m, model policy doc = .ok m ∧
        text = trimEnd (style.headerText
          ++ String.join ((style.parts m).map (Part.text style m))) ++ "\n" ∧
        ∀ part ∈ style.parts m, ∀ d ∈ part.definitions,
          style.declared m part.scope d
              = (style.blocks m d).map (Block.text style.indent part.scope) ∧
            style.ShowsParameters m d := by
  refine ⟨fun name => ⟨isParameterName_parameterName name, parameterName_of_isParameterName⟩,
    fun style args => ⟨?_, fun hargs => ?_⟩, fun style model d => style.showsParameters model, ?_⟩
  · rw [style.map_writtenName_parameters, List.map_map]
    rfl
  · have hpair : ("(", ")") ∈ brackets := by decide
    have hlist := parameterNames_list quiet_empty hpair (style.binds_parameters hargs)
      quiet_empty.silent
    rw [← hlist, Style.parameterText, String.empty_append, String.append_empty, String.append_assoc]
  · intro policy style doc text htext
    obtain ⟨m, hmodel, rfl⟩ := declarations_eq_ok.1 htext
    obtain ⟨fragments, definitions, -, -, hlink⟩ := model_eq_ok.1 hmodel
    have hnodup := Model.nodup_names_of_link hlink
    refine ⟨m, hmodel, ?_, fun part hpart d hd => ⟨rfl, ?_⟩⟩
    · rw [Style.declarations, style.bodyText_eq hnodup]
    · have hmem := (style.flatMap_parts_perm hnodup).mem_iff.1
        (List.mem_flatMap.2 ⟨part, hpart, hd⟩)
      have hproper := allProper_of_model hmodel d (List.mem_filter.1 hmem).1
      exact style.showsParameters m (d.unmarked_of_allProper hproper)

/-- Arguments whose names have a `-` or are reserved, one of them behind a `_`. -/
def reservedArguments : String :=
  "<pre class=idl>interface A \x7b any f(any a-b, any... _in); "
    ++ "getter any (DOMString for); \x7d;</pre>"

def reservedArgumentsText : String :=
  "export interface A \x7b\n  f(a_b: any, ...in_: any[]): any;\n  [for_: string]: any;\n\x7d\n"

/-- The names of all parameters in a file. -/
def shownParameters (style : Style) (m : Model) : List String :=
  (style.parts m).flatMap fun part => part.definitions.flatMap fun d =>
    (style.blocks m d).flatMap fun block => block.lines.flatMap parameterNames

theorem usable_parameterNames_reserved :
    (∀ name ∈ ["value", "$0"], parameterName name = name) ∧
    parameterNames ("(" ++ Style.default.parameterText
      [⟨"default", .any, true, false, none, []⟩, ⟨"a-b", .named "T", false, true, none, []⟩] ++ ")")
      = ["default_", "a_b"] ∧ ∃ m,
    declarations .default .default reservedArguments = .ok reservedArgumentsText ∧
    shownParameters .default m = ["a_b", "in_", "for_"] ∧
    ∀ name ∈ shownParameters .default m, IsParameterName name := by
  have hvalue : (model .default reservedArguments).toOption.map
      (fun m => (Style.default.declarations m, shownParameters .default m))
      = some (reservedArgumentsText, ["a_b", "in_", "for_"]) := by
    decide +kernel
  obtain ⟨hnamed, hlists, -, hfiles⟩ := usable_parameterNames
  refine ⟨fun name hname => ?_, ((hlists .default _).2 ?_).trans (by decide), ?_⟩
  · have hlegal : ∀ name ∈ ["value", "$0"],
        IsParameterName name ∧ name.toList.head? ≠ some '_' := by
      decide
    exact (hnamed name).2 (hlegal name hname).1 (hlegal name hname).2
  · rw [Argument.TypesUnmarked, List.forall_mem_cons, List.forall_mem_singleton]
    exact ⟨List.forall_mem_nil _, List.forall_mem_singleton.2 (by decide)⟩
  cases hmodel : model .default reservedArguments with
  | error =>
      rw [hmodel] at hvalue
      cases hvalue
  | ok m =>
      rw [hmodel] at hvalue
      obtain ⟨hprinted, hnames⟩ := Prod.mk.inj (Option.some.inj hvalue)
      have htext := declarations_eq_ok.2 ⟨m, hmodel, hprinted⟩
      obtain ⟨m', hmodel', -, hshown⟩ := hfiles .default .default reservedArguments _ htext
      obtain rfl := Except.ok.inj (hmodel.symm.trans hmodel')
      refine ⟨m, htext, hnames, fun name hname => ?_⟩
      simp only [shownParameters, List.mem_flatMap] at hname
      obtain ⟨part, hpart, d, hd, block, hblock, line, hline, hname⟩ := hname
      exact (hshown part hpart d hd).2.usable block hblock line hline name hname

end Pipeline

end IdlBindings
