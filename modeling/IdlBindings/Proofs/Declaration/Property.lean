import IdlBindings.Declaration.Lines
import IdlBindings.Proofs.Text.Key

/-!
The keys of the properties that the lines of a member declare. A line has one key, written bare if
it can stand bare and in quotes otherwise (`Text.IsProperty`), or it begins with a bracket. The keys
of a member are its name and those that come with its kind (`Style.LineOf.declaresKey`).
-/

namespace IdlBindings

namespace Text

/-! ### Lines with a key -/

/-- Whether this can stand behind a key. -/
def beginsMark (rest : String) : Bool :=
  rest.toList.head?.any fun c => c == ':' || c == '?' || c == '('

/-- The line declares a property under this key, which stands bare if it can and else in quotes. -/
def IsProperty (key line : String) : Prop :=
  ∃ lead ∈ ["", "readonly "], ∃ rest, beginsMark rest = true ∧
    line = lead ++ ((if isIdentifier key then key else quote key) ++ rest)

/-- The line declares a property under one of the keys, or it begins with a bracket. -/
def DeclaresKey (keys : List String) (line : String) : Prop :=
  line.toList.head? = some '[' ∨ ∃ key ∈ keys, IsProperty key line

theorem head?_append {c : Char} {text : String} (h : text.toList.head? = some c) (more : String) :
    (text ++ more).toList.head? = some c := by
  rw [String.toList_append, List.head?_append, h, Option.some_or]

theorem beginsMark_append {mark : String} (h : beginsMark mark = true) (rest : String) :
    beginsMark (mark ++ rest) = true := by
  obtain ⟨c, hc, hmark⟩ := (Option.any_eq_true _ _).1 h
  exact (Option.any_eq_true _ _).2 ⟨c, head?_append hc rest, hmark⟩

theorem endsKey_of_beginsMark {rest : String} (h : beginsMark rest = true) : EndsKey rest := by
  obtain ⟨c, hc, hmark⟩ := (Option.any_eq_true _ _).1 h
  intro d hd
  obtain rfl : c = d := Option.some.inj (hc.symm.trans hd)
  simp only [Bool.or_eq_true, beq_iff_eq] at hmark
  rcases hmark with (rfl | rfl) | rfl <;> decide

namespace IsProperty

variable {key line : String}

theorem append (h : IsProperty key line) (more : String) : IsProperty key (line ++ more) := by
  obtain ⟨lead, hlead, rest, hmark, rfl⟩ := h
  refine ⟨lead, hlead, rest ++ more, beginsMark_append hmark more, ?_⟩
  simp only [String.append_assoc]

theorem of_propertyName {lead mark : String} (hlead : lead ∈ ["", "readonly "])
    (hmark : beginsMark mark = true) : IsProperty key (lead ++ propertyName key ++ mark) :=
  ⟨lead, hlead, mark, hmark, String.append_assoc ..⟩

theorem of_mark {mark : String} (h : beginsMark mark = true) :
    IsProperty key (propertyName key ++ mark) := by
  have hplain : IsProperty key ("" ++ propertyName key ++ mark) :=
    of_propertyName List.mem_cons_self h
  rwa [String.empty_append] at hplain

/-- The key that is read in the line is the one that it is written for. -/
theorem lineKey? (h : IsProperty key line) : lineKey? line = some key := by
  obtain ⟨lead, hlead, rest, hmark, rfl⟩ := h
  have hends := endsKey_of_beginsMark hmark
  rcases List.mem_cons.1 hlead with rfl | hlead
  · rw [String.empty_append]
    exact lineKey?_propertyName key hends
  · obtain rfl := List.mem_singleton.1 hlead
    exact lineKey?_readonly key hends

end IsProperty

/-- Whether the text begins with a bracket, or with one of the keys, bare, and a mark. -/
def beginsKey (keys : List String) (text : String) : Bool :=
  text.toList.head? == some '[' || keys.any fun key =>
    isIdentifier key && key.toList.isPrefixOf text.toList
      && beginsMark (String.ofList (text.toList.drop key.toList.length))

namespace DeclaresKey

variable {keys : List String} {line : String}

theorem append (h : DeclaresKey keys line) (more : String) : DeclaresKey keys (line ++ more) := by
  rcases h with hbracket | ⟨key, hkey, hline⟩
  · exact .inl (head?_append hbracket more)
  · exact .inr ⟨key, hkey, hline.append more⟩

theorem mono {others : List String} (hsub : keys ⊆ others) (h : DeclaresKey keys line) :
    DeclaresKey others line :=
  h.imp_right fun ⟨key, hkey, hline⟩ => ⟨key, hsub hkey, hline⟩

theorem of_beginsKey (h : beginsKey keys line = true) : DeclaresKey keys line := by
  rw [beginsKey, Bool.or_eq_true, beq_iff_eq] at h
  refine h.imp_right fun hany => ?_
  obtain ⟨key, hkey, hline⟩ := List.any_eq_true.1 hany
  simp only [Bool.and_eq_true, List.isPrefixOf_iff_prefix] at hline
  obtain ⟨⟨hname, rest, hrest⟩, hmark⟩ := hline
  rw [← hrest, List.drop_left] at hmark
  refine ⟨key, hkey, "", List.mem_cons_self, String.ofList rest, hmark, ?_⟩
  rw [if_pos hname, String.empty_append, ← String.toList_inj, ← hrest, String.toList_append,
    String.toList_ofList]

end DeclaresKey

end Text

open Text

/-! ### The lines of members -/

/-- The lines of a member in the declaration of an instance and in that of the object. -/
inductive Style.LineOf (style : Style) (owner : String) : MemberBody → String → Prop
  | constLine (name : String) (type : IdlType) (value : ConstValue) :
      LineOf style owner (.const name type value) (style.constLine name type value)
  | attributeLine (a : Attribute) : LineOf style owner (.attribute a) (style.attributeLine a)
  | attributeText (a : Attribute) : LineOf style owner (.attribute a) toStringLine
  | methodLine {o : Operation} {line : String} (h : line ∈ style.methodLine? o) :
      LineOf style owner (.operation o) line
  | operationText (o : Operation) : LineOf style owner (.operation o) toStringLine
  | indexLine {o : Operation} {line : String} (h : line ∈ style.indexLine? o) :
      LineOf style owner (.operation o) line
  | constructorLine (args : List Argument) :
      LineOf style owner (.constructor args)
        ("new(" ++ style.parameterText args ++ "): " ++ owner ++ ";")
  | fieldLine (f : Field) : LineOf style owner (.field f)
      (propertyName f.name ++ (if f.isRequired then "" else "?") ++ ": " ++ style.typeText f.type
        ++ ";")
  | iterationLine {i : Iteration} {line : String} (h : line ∈ style.iterationLines owner i) :
      LineOf style owner (.iteration i) line
  | stringifier : LineOf style owner .stringifier toStringLine

namespace Style

variable (style : Style) (owner : String) (body : MemberBody)

theorem lineOf_operationLines (o : Operation) :
    ∀ line ∈ style.operationLines o, style.LineOf owner (.operation o) line := by
  rw [operationLines, List.forall_mem_append]
  refine ⟨fun line hline => .methodLine (Option.mem_toList.1 hline), ?_⟩
  split
  · exact List.forall_mem_singleton.2 (.operationText o)
  · exact fun line hline => .indexLine (Option.mem_toList.1 hline)
  · exact List.forall_mem_nil _

theorem lineOf_instanceLines :
    ∀ line ∈ style.instanceLines owner body, style.LineOf owner body line := by
  match body with
  | .const name type value => exact List.forall_mem_singleton.2 (.constLine name type value)
  | .attribute a =>
      rw [instanceLines]
      split
      · exact List.forall_mem_nil _
      · refine List.forall_mem_cons.2 ⟨.attributeLine a, ?_⟩
        split
        · exact List.forall_mem_singleton.2 (.attributeText a)
        · exact List.forall_mem_nil _
  | .operation o =>
      rw [instanceLines]
      split
      · exact List.forall_mem_nil _
      · exact style.lineOf_operationLines owner o
  | .constructor args => exact List.forall_mem_nil _
  | .field f => exact List.forall_mem_singleton.2 (.fieldLine f)
  | .iteration i => exact fun line hline => .iterationLine hline
  | .stringifier => exact List.forall_mem_singleton.2 .stringifier

theorem lineOf_objectLines :
    ∀ line ∈ style.objectLines owner body, style.LineOf owner body line := by
  match body with
  | .const name type value => exact List.forall_mem_singleton.2 (.constLine name type value)
  | .attribute a =>
      rw [objectLines]
      split
      · exact List.forall_mem_singleton.2 (.attributeLine a)
      · exact List.forall_mem_nil _
  | .operation o =>
      rw [objectLines]
      split
      · exact fun line hline => .methodLine (Option.mem_toList.1 hline)
      · exact List.forall_mem_nil _
  | .constructor args => exact List.forall_mem_singleton.2 (.constructorLine args)
  | .field _ | .iteration _ | .stringifier => exact List.forall_mem_nil _

end Style

/-! ### The keys of members -/

namespace MemberBody

/-- The keys that come with an iteration, a map or a set. -/
def iterationKeys : List String :=
  ["entries", "keys", "values", "forEach", "size", "get", "has", "set", "delete", "clear", "add"]

/-- The keys that come with a member of this kind. -/
def builtInKeys : MemberBody → List String
  | .attribute _ | .operation _ | .stringifier => ["toString"]
  | .constructor _ => ["new"]
  | .iteration _ => iterationKeys
  | .const _ _ _ | .field _ => []

/-- The keys under which a member declares properties. -/
def keys (body : MemberBody) : List String := body.name?.toList ++ body.builtInKeys

end MemberBody

namespace Style

variable (style : Style) (owner : String)

theorem declaresKey_toStringLine {keys : List String} (h : "toString" ∈ keys) :
    DeclaresKey keys toStringLine :=
  (DeclaresKey.of_beginsKey (by decide)).mono (List.cons_subset.2 ⟨h, List.nil_subset _⟩)

theorem isProperty_constLine (name : String) (type : IdlType) (value : ConstValue) :
    IsProperty name (style.constLine name type value) :=
  ((IsProperty.of_propertyName (List.mem_cons_of_mem _ List.mem_cons_self) (by decide)).append
    _).append _

theorem isProperty_attributeLine (a : Attribute) : IsProperty a.name (style.attributeLine a) := by
  have hlead : (if a.isReadonly then "readonly " else "") ∈ ["", "readonly "] := by
    split <;> simp
  exact ((IsProperty.of_propertyName hlead (by decide)).append _).append _

theorem isProperty_methodLine? {o : Operation} {line : String} (h : line ∈ style.methodLine? o) :
    ∃ name ∈ o.name, IsProperty name line := by
  obtain ⟨name, hname, rfl⟩ := Option.map_eq_some_iff.1 h
  exact ⟨name, hname, ((((IsProperty.of_mark (by decide)).append _).append _).append _).append _⟩

theorem isProperty_fieldLine (f : Field) : IsProperty f.name
    (propertyName f.name ++ (if f.isRequired then "" else "?") ++ ": " ++ style.typeText f.type
      ++ ";") := by
  split
  · rw [String.append_empty]
    exact ((IsProperty.of_mark (by decide)).append _).append _
  · exact (((IsProperty.of_mark (by decide)).append _).append _).append _

section Iterations

variable {keys : List String} {method : String}

theorem declaresKey_iteratorLine (h : beginsKey keys (method ++ "(): ") = true) (item : TypeExpr) :
    DeclaresKey keys (iteratorLine method item) :=
  ((DeclaresKey.of_beginsKey h).append _).append _

theorem declaresKey_asyncIteratorLine (h : beginsKey keys (method ++ "(") = true) (params : String)
    (item : TypeExpr) : DeclaresKey keys (asyncIteratorLine method params item) :=
  ((((DeclaresKey.of_beginsKey h).append _).append _).append _).append _

end Iterations

theorem declaresKey_forEachLine (key value : TypeExpr) :
    DeclaresKey MemberBody.iterationKeys (forEachLine owner key value) := by
  unfold forEachLine
  simp only [String.append_assoc]
  exact (DeclaresKey.of_beginsKey (by decide)).append _

theorem declaresKey_iterationLines (i : Iteration) :
    ∀ line ∈ style.iterationLines owner i, DeclaresKey MemberBody.iterationKeys line := by
  have hword {word : String} (h : beginsKey MemberBody.iterationKeys word = true) (rest : String) :
      DeclaresKey MemberBody.iterationKeys (word ++ rest) :=
    (DeclaresKey.of_beginsKey h).append rest
  have hiterator (item : TypeExpr) :=
    @declaresKey_iteratorLine MemberBody.iterationKeys "[Symbol.iterator]" (by decide) item
  have hentries (item : TypeExpr) :=
    @declaresKey_iteratorLine MemberBody.iterationKeys "entries" (by decide) item
  have hkeys (item : TypeExpr) :=
    @declaresKey_iteratorLine MemberBody.iterationKeys "keys" (by decide) item
  have hvalues (item : TypeExpr) :=
    @declaresKey_iteratorLine MemberBody.iterationKeys "values" (by decide) item
  have hsize : DeclaresKey MemberBody.iterationKeys "readonly size: number;" :=
    .inr ⟨"size", by decide, "readonly ", by decide, ": number;", by decide, by decide⟩
  have hclear : DeclaresKey MemberBody.iterationKeys "clear(): void;" :=
    DeclaresKey.of_beginsKey (by decide)
  unfold iterationLines
  extract_lets value key pair item params found
  -- iterables, asynchronous ones, maps, sets
  split
  · simp only [List.forall_mem_cons]
    exact ⟨hiterator _, hentries _, hkeys _, hvalues _, declaresKey_forEachLine _ _ _,
      List.forall_mem_nil _⟩
  · simp only [List.forall_mem_append, List.forall_mem_cons]
    refine ⟨⟨declaresKey_asyncIteratorLine (by decide) _ _, ?_⟩,
      declaresKey_asyncIteratorLine (by decide) _ _, List.forall_mem_nil _⟩
    split
    · simp only [List.forall_mem_cons]
      exact ⟨declaresKey_asyncIteratorLine (by decide) _ _,
        declaresKey_asyncIteratorLine (by decide) _ _, List.forall_mem_nil _⟩
    · exact List.forall_mem_nil _
  · simp only [String.append_assoc, List.forall_mem_append, List.forall_mem_cons]
    refine ⟨⟨hsize, hiterator _, hentries _, hkeys _, hvalues _, declaresKey_forEachLine _ _ _,
      hword (by decide) _, hword (by decide) _, List.forall_mem_nil _⟩, ?_⟩
    split
    · exact List.forall_mem_nil _
    · simp only [List.forall_mem_cons]
      exact ⟨hword (by decide) _, hword (by decide) _, hclear, List.forall_mem_nil _⟩
  · simp only [String.append_assoc, List.forall_mem_append, List.forall_mem_cons]
    refine ⟨⟨hsize, hiterator _, hentries _, hkeys _, hvalues _, declaresKey_forEachLine _ _ _,
      hword (by decide) _, List.forall_mem_nil _⟩, ?_⟩
    split
    · exact List.forall_mem_nil _
    · simp only [List.forall_mem_cons]
      exact ⟨hword (by decide) _, hword (by decide) _, hclear, List.forall_mem_nil _⟩

/-- What is written for the name of a member has that name for its key. -/
theorem declaresKey_of_isProperty {body : MemberBody} {name line : String}
    (hname : name ∈ body.name?) (h : IsProperty name line) : DeclaresKey body.keys line :=
  .inr ⟨name, List.mem_append_left _ (Option.mem_toList.2 hname), h⟩

/-- A line of a member has a key of the member. -/
theorem LineOf.declaresKey {style : Style} {owner : String} {body : MemberBody} {line : String}
    (h : style.LineOf owner body line) : DeclaresKey body.keys line := by
  cases h with
  | constLine name type value =>
      exact declaresKey_of_isProperty rfl (style.isProperty_constLine name type value)
  | attributeLine a => exact declaresKey_of_isProperty rfl (style.isProperty_attributeLine a)
  | attributeText a =>
      exact declaresKey_toStringLine (List.mem_append_right _ List.mem_cons_self)
  | methodLine hline =>
      obtain ⟨name, hname, hproperty⟩ := style.isProperty_methodLine? hline
      exact declaresKey_of_isProperty hname hproperty
  | operationText o =>
      exact declaresKey_toStringLine (List.mem_append_right _ List.mem_cons_self)
  | indexLine hline =>
      obtain ⟨key, -, rfl⟩ := Option.map_eq_some_iff.1 hline
      simp only [String.append_assoc]
      exact (DeclaresKey.of_beginsKey rfl).append _
  | constructorLine args =>
      simp only [String.append_assoc]
      exact (DeclaresKey.of_beginsKey rfl).append _
  | fieldLine f => exact declaresKey_of_isProperty rfl (style.isProperty_fieldLine f)
  | iterationLine hline => exact style.declaresKey_iterationLines owner _ line hline
  | stringifier => exact declaresKey_toStringLine List.mem_cons_self

end Style

end IdlBindings
