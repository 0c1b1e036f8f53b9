import IdlBindings.Proofs.Declaration.Parameters
import IdlBindings.Proofs.Declaration.Placement
import IdlBindings.Proofs.Declaration.Property
import IdlBindings.Proofs.Declaration.Signature

/-!
The parameters that a declaration shows. A line shows no parameters, the arguments of a member, the
key of an index, or the parameters of a method that comes with an iteration
(`Style.shows_of_mem_blocks`).
-/

namespace IdlBindings

open Text

/-! ### Lines -/

namespace Text

variable {key type before between after : String}

/-- The parameters of the line are one of the lists, if it has any. -/
def Shows (lists : List (List String)) (line : String) : Prop :=
  parameterNames line = [] ∨ parameterNames line ∈ lists

instance (lists : List (List String)) : DecidablePred (Shows lists) :=
  fun _ => inferInstanceAs (Decidable (_ ∨ _))

section Shows

variable {lists others : List (List String)} {line : String}

theorem Shows.mono (h : Shows lists line) (hsub : lists ⊆ others) : Shows others line :=
  h.imp_right (@hsub _)

theorem Silent.shows (h : Silent line) : Shows lists line :=
  .inl (parameterNames_of_silent h)

theorem Quiet.shows (h : Quiet line) : Shows lists line := h.silent.shows

end Shows

/-- A property with its type. -/
theorem silent_property (hkey : Quiet key) (htype : Quiet type) (hafter : Quiet after) :
    Silent (key ++ ": " ++ type ++ after) := by
  rw [String.append_assoc, String.append_assoc]
  exact hkey.append_silent (htype.append hafter).silent_colon

theorem quiet_semicolon : Quiet ";" := Unmarked.quiet (by decide)

theorem silent_colon : Silent ":" := fun _ names => List.append_nil names

/-- Whether the text begins with a mark that ends a type. -/
def endsType (text : String) : Bool :=
  text.toList.head?.any [',', ')', ';'].contains

theorem endsType_append (h : endsType before = true) (after : String) :
    endsType (before ++ after) = true := by
  obtain ⟨c, hc, hmark⟩ := (Option.any_eq_true _ _).1 h
  exact (Option.any_eq_true _ _).2 ⟨c, head?_append hc after, hmark⟩

theorem Scan.read_erase (htype : Quiet type) (hafter : endsType after = true) (depth : Nat)
    (word : List Char) (names : List String) :
    (Scan.mk .code depth word names).read (type ++ after)
      = (Scan.mk .code depth word names).read after := by
  obtain ⟨c, hc, hmark⟩ := (Option.any_eq_true _ _).1 hafter
  obtain ⟨cs, hcs⟩ := List.head?_eq_some_iff.1 hc
  obtain ⟨word', hword'⟩ := htype depth word names
  -- the mark ends the word, so the type leaves no trace
  obtain ⟨depth', hstep⟩ : ∃ depth', ∀ word, (Scan.mk .code depth word names).step c
      = ⟨.code, depth', [], names⟩ := by
    have hmark : c = ',' ∨ c = ')' ∨ c = ';' := by simpa using hmark
    rcases hmark with rfl | rfl | rfl
    · exact ⟨depth, fun _ => rfl⟩
    · exact ⟨depth - 1, fun _ => rfl⟩
    · exact ⟨depth, fun _ => rfl⟩
  rw [Scan.read_append, hword', Scan.read, Scan.read, hcs, List.foldl_cons, hstep, List.foldl_cons,
    hstep]

/-- A type can be left out, up to the mark behind it. -/
theorem parameterNames_erase (hbefore : (Scan.start.read before).place = .code)
    (htype : Quiet type) (hafter : endsType after = true) :
    parameterNames (before ++ (type ++ after)) = parameterNames (before ++ after) := by
  rw [parameterNames, parameterNames, Scan.read_append _ before, Scan.read_append _ before]
  generalize Scan.start.read before = s at hbefore
  obtain ⟨place, depth, word, names⟩ := s
  obtain rfl : place = .code := hbefore
  rw [Scan.read_erase htype hafter]

theorem parameterNames_erase_one
    (hclosed : (Scan.start.read before).place = .code ∧ endsType after = true)
    (htype : Quiet type) :
    parameterNames (before ++ type ++ after) = parameterNames (before ++ after) := by
  rw [String.append_assoc, parameterNames_erase hclosed.1 htype hclosed.2]

theorem parameterNames_erase_two {first second : String}
    (hclosed : (Scan.start.read before).place = .code ∧ endsType between = true ∧
      (Scan.start.read (before ++ between)).place = .code ∧ endsType after = true)
    (hfirst : Quiet first) (hsecond : Quiet second) :
    parameterNames (before ++ first ++ between ++ second ++ after)
      = parameterNames (before ++ between ++ after) := by
  obtain ⟨hbefore, hbetween, hboth, hafter⟩ := hclosed
  calc parameterNames (before ++ first ++ between ++ second ++ after)
      = parameterNames (before ++ (first ++ (between ++ (second ++ after)))) := by
        simp only [String.append_assoc]
    _ = parameterNames (before ++ between ++ (second ++ after)) := by
        rw [parameterNames_erase hbefore hfirst (endsType_append hbetween _), String.append_assoc]
    _ = parameterNames (before ++ between ++ after) := parameterNames_erase hboth hsecond hafter

end Text

/-! ### Members -/

namespace MemberBody

/-- The parameters of the methods that come with an iteration. -/
def iterationParameters : List (List String) :=
  [["callbackfn", "value", "key", "parent", "thisArg"], ["key"], ["key", "value"], ["value"]]

/-- The parameters that a line of the member can show: its arguments, the first one alone for the
key of an index, or those of a method that comes with it. -/
def parameterLists : MemberBody → List (List String)
  | .operation o => [Argument.parameterNames o.args, Argument.parameterNames (o.args.take 1)]
  | .constructor args => [Argument.parameterNames args]
  | .iteration i =>
    match i.kind with
    | .asyncIterable => [Argument.parameterNames i.args]
    | .iterable | .maplike | .setlike => iterationParameters
  | .const _ _ _ | .attribute _ | .field _ | .stringifier => []

/-- The name of the member and the names in its types have no marks. Nothing is said about the names
of its arguments. -/
structure Unmarked (body : MemberBody) : Prop where
  name : ∀ name ∈ body.name?, Text.Unmarked name
  types : ∀ type ∈ body.types, type.Unmarked

end MemberBody

theorem Text.unmarked_repr (n : Nat) : Unmarked (Nat.repr n) := by
  apply unmarked_of_all (by decide : marks.any Char.isDigit = false)
  rw [Nat.toList_repr]
  exact fun c => Nat.isDigit_of_mem_toDigits (by decide) (by decide)

theorem Text.unmarked_toString (n : Int) : Unmarked (toString n) := by
  cases n with
  | ofNat n => exact unmarked_repr n
  | negSucc n =>
      have hminus : Unmarked "-" := by decide
      intro c hc
      rcases List.mem_append.1 (String.toList_append ▸ hc) with hsign | hdigit
      · exact hminus c hsign
      · exact unmarked_repr (n + 1) c hdigit

namespace Style

variable (style : Style)

theorem quiet_typeText {type : IdlType} (h : type.Unmarked) : Quiet (style.typeText type) :=
  (TypeExpr.unmarked_ofType style type h).quiet

theorem quiet_resultText {type : IdlType} (h : type.Unmarked) : Quiet (style.resultText type) :=
  (TypeExpr.unmarked_ofResult style h).quiet

theorem quiet_constType {type : IdlType} (h : type.Unmarked) (value : ConstValue) :
    Quiet (style.constType type value).text := by
  have htype := TypeExpr.unmarked_ofType style type h
  unfold constType
  split
  · apply (TypeExpr.Unmarked.literal _).quiet
    split <;> decide
  · split
    · exact (TypeExpr.Unmarked.literal (unmarked_toString _)).quiet
    · exact htype.quiet
  · exact htype.quiet

/-- A call with its arguments and its result. -/
theorem parameterNames_callLine {name result : String} (hname : Quiet name) {args : List Argument}
    (hargs : Argument.TypesUnmarked args) (hresult : Quiet result) :
    parameterNames (name ++ "(" ++ style.parameterText args ++ "): " ++ result ++ ";")
      = Argument.parameterNames args := by
  have hpair : ("(", ")") ∈ brackets := by decide
  have hlist := parameterNames_list hname hpair (style.binds_parameters hargs)
    (hresult.append quiet_semicolon).silent_colon
  rw [← hlist, parameterText, String.append_assoc, String.append_assoc, String.append_assoc,
    String.append_assoc, show ("): " : String) = ")" ++ ": " from rfl, String.append_assoc]

/-- The key of an index with its type. -/
theorem parameterNames_indexLine {name key result : String} (hname : isIdentifier name = true)
    (hkey : Quiet key) (hresult : Quiet result) :
    parameterNames ("[" ++ name ++ ": " ++ key ++ "]: " ++ result ++ ";") = [name] := by
  have hplain : "" ∈ ["", "..."] := by decide
  have hmark : ": " ∈ [": ", "?: "] := by decide
  have hpair : ("[", "]") ∈ brackets := by decide
  have hbinds := binds_of_isIdentifier hname hplain hmark hkey
  have hlist := parameterNames_list quiet_empty hpair (List.forall₂_cons.2 ⟨hbinds, .nil⟩)
    (hresult.append quiet_semicolon).silent_colon
  rw [← hlist, String.intercalate_singleton, String.empty_append, String.empty_append]
  simp only [String.append_assoc]
  rfl

theorem silent_constLine (name : String) {type : IdlType} (h : type.Unmarked)
    (value : ConstValue) : Silent (style.constLine name type value) := by
  have hreadonly : Quiet "readonly " := Text.Unmarked.quiet (by decide)
  exact silent_property (hreadonly.append (quiet_propertyName name)) (style.quiet_constType h value)
    quiet_semicolon

theorem silent_attributeLine {a : Attribute} (h : a.type.Unmarked) :
    Silent (style.attributeLine a) := by
  have hreadonly : Quiet (if a.isReadonly then "readonly " else "") := by
    split <;> exact Text.Unmarked.quiet (by decide)
  exact silent_property (hreadonly.append (quiet_propertyName a.name)) (style.quiet_typeText h)
    quiet_semicolon

theorem silent_brand (name : String) {before after : String} (hbefore : Quiet before)
    (hafter : Quiet after) : Silent (before ++ style.brand name ++ after) := by
  have hreadonly : Quiet "readonly " := Text.Unmarked.quiet (by decide)
  have hline := silent_property (hreadonly.append (quiet_propertyName (style.brandPrefix ++ name)))
    (quiet_quote name) hafter
  rw [String.append_assoc]
  exact hbefore.append_silent hline

theorem shows_toStringLine (lists : List (List String)) : Shows lists toStringLine :=
  .inl (by decide)

theorem silent_fieldLine {f : Field} (h : f.type.Unmarked) :
    Silent (propertyName f.name ++ (if f.isRequired then "" else "?") ++ ": "
      ++ style.typeText f.type ++ ";") := by
  have hmark : Quiet (if f.isRequired then "" else "?") := by
    split <;> exact Text.Unmarked.quiet (by decide)
  exact silent_property ((quiet_propertyName f.name).append hmark) (style.quiet_typeText h)
    quiet_semicolon

/-! ### Iterations -/

section Iterations

variable {method owner before between after : String} {item key value first second : TypeExpr}

theorem shows_iteratorLine (lists : List (List String))
    (hmethod : method ∈ ["[Symbol.iterator]", "entries", "keys", "values"])
    (hitem : item.Unmarked) : Shows lists (iteratorLine method item) := by
  have hclosed : ∀ method ∈ ["[Symbol.iterator]", "entries", "keys", "values"],
      (Scan.start.read (method ++ "(): ")).place = .code ∧
        parameterNames (method ++ "(): " ++ ";") = [] := by
    decide
  obtain ⟨hplace, hnames⟩ := hclosed method hmethod
  have hgeneric : (TypeExpr.generic "IterableIterator" [item]).Unmarked :=
    .generic (by decide) (List.forall_mem_singleton.2 hitem)
  left
  rw [iteratorLine, parameterNames_erase_one ⟨hplace, by decide⟩ hgeneric.quiet, hnames]

theorem shows_asyncIteratorLine
    (hmethod : method ∈ ["[Symbol.asyncIterator]", "entries", "keys", "values"])
    {args : List Argument} (hargs : Argument.TypesUnmarked args) (hitem : item.Unmarked) :
    Shows [Argument.parameterNames args]
      (asyncIteratorLine method (style.parameterText args) item) := by
  have hquiet : Quiet method := by
    have hsymbol : Quiet "[Symbol.asyncIterator]" :=
      @Quiet.enclose "Symbol.asyncIterator" "[" "]" (by decide) (Text.Unmarked.quiet (by decide))
    have hwords : ∀ method ∈ ["entries", "keys", "values"], Text.Unmarked method := by decide
    rcases List.mem_cons.1 hmethod with rfl | hword
    · exact hsymbol
    · exact (hwords method hword).quiet
  have hgeneric : (TypeExpr.generic "AsyncIterableIterator" [item]).Unmarked :=
    .generic (by decide) (List.forall_mem_singleton.2 hitem)
  exact .inr (List.mem_singleton.2 (style.parameterNames_callLine hquiet hargs hgeneric.quiet))

theorem shows_forEachLine (howner : Quiet owner) (hkey : key.Unmarked) (hvalue : value.Unmarked) :
    Shows MemberBody.iterationParameters (forEachLine owner key value) := by
  have hrest : parameterNames ("forEach(callbackfn: (value: " ++ ", key: " ++ key.text
      ++ ", parent: " ++ owner ++ ") => void, thisArg?: any): void;")
      = ["callbackfn", "value", "key", "parent", "thisArg"] := by
    rw [parameterNames_erase_two (by decide) hkey.quiet howner]
    decide +kernel
  have hnames : parameterNames (forEachLine owner key value)
      = ["callbackfn", "value", "key", "parent", "thisArg"] := by
    unfold forEachLine
    rw [← hrest]
    simp only [String.append_assoc, -String.reduceAppend]
    exact parameterNames_erase (by decide) hvalue.quiet (endsType_append (by decide) _)
  exact .inr (hnames ▸ List.mem_cons_self)

/-- The methods that iterate, with more lines behind them. -/
theorem shows_iterators {pair keys : TypeExpr} {forEach : String} {rest : List String}
    (hitem : item.Unmarked) (hpair : pair.Unmarked) (hkeys : keys.Unmarked)
    (hvalue : value.Unmarked) (hforEach : Shows MemberBody.iterationParameters forEach)
    (hrest : ∀ line ∈ rest, Shows MemberBody.iterationParameters line) :
    ∀ line ∈ iteratorLine "[Symbol.iterator]" item :: iteratorLine "entries" pair
        :: iteratorLine "keys" keys :: iteratorLine "values" value :: forEach :: rest,
      Shows MemberBody.iterationParameters line := by
  simp only [List.forall_mem_cons]
  exact ⟨shows_iteratorLine _ (by decide) hitem, shows_iteratorLine _ (by decide) hpair,
    shows_iteratorLine _ (by decide) hkeys, shows_iteratorLine _ (by decide) hvalue, hforEach,
    hrest⟩

/-- A method with a type in fixed words. -/
theorem shows_of_type (htype : item.Unmarked)
    (hclosed : (Scan.start.read before).place = .code ∧ endsType after = true)
    (hnames : Shows MemberBody.iterationParameters (before ++ after)) :
    Shows MemberBody.iterationParameters (before ++ item.text ++ after) := by
  rwa [Shows, parameterNames_erase_one hclosed htype.quiet]

/-- A method with two types in fixed words. -/
theorem shows_of_types (hfirst : first.Unmarked) (hsecond : second.Unmarked)
    (hclosed : (Scan.start.read before).place = .code ∧ endsType between = true ∧
      (Scan.start.read (before ++ between)).place = .code ∧ endsType after = true)
    (hnames : Shows MemberBody.iterationParameters (before ++ between ++ after)) :
    Shows MemberBody.iterationParameters
      (before ++ first.text ++ between ++ second.text ++ after) := by
  rwa [Shows, parameterNames_erase_two hclosed hfirst.quiet hsecond.quiet]

theorem shows_iterationLines (howner : Quiet owner) {i : Iteration}
    (h : ∀ type ∈ (MemberBody.iteration i).types, type.Unmarked) :
    ∀ line ∈ style.iterationLines owner i, Shows (MemberBody.iteration i).parameterLists line := by
  obtain ⟨kind, isReadonly, key, value, args⟩ := i
  obtain ⟨hkeys, hrest⟩ := List.forall_mem_append.1 h
  obtain ⟨hitems, hrest⟩ := List.forall_mem_cons.1 hrest
  have hargs : Argument.TypesUnmarked args := List.forall_mem_map.1 hrest
  unfold iterationLines MemberBody.parameterLists
  extract_lets value key pair item params found
  have hvalue : value.Unmarked := TypeExpr.unmarked_ofType style _ hitems
  have hkey : key.Unmarked := by
    unfold key
    split
    · rename_i type htype
      exact TypeExpr.unmarked_ofType style type (hkeys type (Option.mem_toList.2 htype))
    · split
      · exact hvalue
      · exact .keyword (by decide)
  have hpair : pair.Unmarked :=
    .tuple (List.forall_mem_cons.2 ⟨hkey, List.forall_mem_singleton.2 hvalue⟩)
  have hitem : item.Unmarked := by
    unfold item
    split
    · exact hpair
    · exact hvalue
  have hfound : found.Unmarked := TypeExpr.unmarked_unionOf (List.forall_mem_cons.2
    ⟨hvalue, List.forall_mem_singleton.2 (.keyword (by decide))⟩)
  have hforEach := shows_forEachLine howner hkey hvalue
  clear h hkeys hitems hrest
  clear_value value key pair item found
  cases kind with
  | iterable => exact shows_iterators hitem hpair hkey hvalue hforEach (List.forall_mem_nil _)
  | asyncIterable =>
      rw [List.cons_append, List.forall_mem_cons, List.forall_mem_append, List.forall_mem_singleton]
      refine ⟨style.shows_asyncIteratorLine (by decide) hargs hitem, ?_,
        style.shows_asyncIteratorLine (by decide) hargs hvalue⟩
      split
      · exact List.forall_mem_cons.2 ⟨style.shows_asyncIteratorLine (by decide) hargs hpair,
          List.forall_mem_singleton.2 (style.shows_asyncIteratorLine (by decide) hargs hkey)⟩
      · exact List.forall_mem_nil _
  | maplike =>
      rw [List.forall_mem_append, List.forall_mem_cons]
      refine ⟨⟨.inl (by decide), shows_iterators hpair hpair hkey hvalue hforEach ?_⟩, ?_⟩
      · rw [List.forall_mem_cons, List.forall_mem_singleton]
        exact ⟨shows_of_types hkey hfound (by decide) (by decide),
          shows_of_type hkey (by decide) (by decide)⟩
      split
      · exact List.forall_mem_nil _
      · rw [List.forall_mem_cons, List.forall_mem_cons, List.forall_mem_singleton]
        exact ⟨shows_of_types hkey hvalue (by decide) (by decide),
          shows_of_type hkey (by decide) (by decide), .inl (by decide)⟩
  | setlike =>
      rw [List.forall_mem_append, List.forall_mem_cons]
      refine ⟨⟨.inl (by decide), shows_iterators hvalue hpair hvalue hvalue hforEach ?_⟩, ?_⟩
      · exact List.forall_mem_singleton.2 (shows_of_type hvalue (by decide) (by decide))
      split
      · exact List.forall_mem_nil _
      · rw [List.forall_mem_cons, List.forall_mem_cons, List.forall_mem_singleton]
        exact ⟨shows_of_type hvalue (by decide) (by decide),
          shows_of_type hvalue (by decide) (by decide), .inl (by decide)⟩

end Iterations

/-! ### Lines of members -/

section Members

variable {owner : String} {body : MemberBody}

theorem parameterNames_methodLine? {o : Operation}
    (h : ∀ type ∈ (MemberBody.operation o).types, type.Unmarked) :
    ∀ line ∈ style.methodLine? o, parameterNames line = Argument.parameterNames o.args := by
  obtain ⟨hresult, hargs⟩ := List.forall_mem_cons.1 h
  intro line hline
  obtain ⟨name, -, rfl⟩ := Option.map_eq_some_iff.1 hline
  exact style.parameterNames_callLine (quiet_propertyName name) (List.forall_mem_map.1 hargs)
    (style.quiet_resultText hresult)

/-- The key of an index is the first argument of its getter. -/
theorem parameterNames_indexLine? {o : Operation} (h : o.result.Unmarked) :
    ∀ line ∈ style.indexLine? o, parameterNames line = Argument.parameterNames (o.args.take 1) := by
  intro line hline
  obtain ⟨key, hkey, rfl⟩ := Option.map_eq_some_iff.1 hline
  obtain ⟨args, hargs⟩ := List.head?_eq_some_iff.1 hkey
  rw [hargs]
  have hkeyType : Quiet (if TypeExpr.ofType style key.type = .keyword "number" then "number"
      else "string") := by
    split <;> exact Text.Unmarked.quiet (by decide)
  exact parameterNames_indexLine (isIdentifier_parameterName key.name) hkeyType
    (style.quiet_typeText h)

/-- A line of a member shows no parameters, or those of one of the lists that the member has. -/
theorem LineOf.shows {style : Style} {line : String} (hline : style.LineOf owner body line)
    (howner : Quiet owner) (h : ∀ type ∈ body.types, type.Unmarked) :
    Shows body.parameterLists line := by
  cases hline with
  | constLine name type value =>
      exact (style.silent_constLine name (List.forall_mem_singleton.1 h) value).shows
  | attributeLine a => exact (style.silent_attributeLine (List.forall_mem_singleton.1 h)).shows
  | attributeText a => exact shows_toStringLine _
  | methodLine hmethod =>
      right
      rw [style.parameterNames_methodLine? h _ hmethod]
      exact List.mem_cons_self
  | operationText o => exact shows_toStringLine _
  | indexLine hindex =>
      right
      rw [style.parameterNames_indexLine? (List.forall_mem_cons.1 h).1 _ hindex]
      exact List.mem_cons_of_mem _ List.mem_cons_self
  | constructorLine args =>
      have hnew : Quiet "new" := Text.Unmarked.quiet (by decide)
      have hnames := style.parameterNames_callLine hnew (List.forall_mem_map.1 h) howner
      exact .inr (List.mem_singleton.2 hnames)
  | fieldLine f => exact (style.silent_fieldLine (List.forall_mem_singleton.1 h)).shows
  | iterationLine hiteration => exact style.shows_iterationLines howner h _ hiteration
  | stringifier => exact shows_toStringLine _

theorem shows_namespaceLines (h : body.Unmarked) :
    ∀ line ∈ style.namespaceLines body, Shows body.parameterLists line := by
  obtain ⟨hname, htypes⟩ := h
  match body, hname, htypes with
  | .const name type value, hname, htypes =>
      have hhead : Quiet ("const " ++ name) :=
        (Text.Unmarked.quiet (by decide)).append (hname name rfl).quiet
      have htype := style.quiet_constType (List.forall_mem_singleton.1 htypes) value
      exact List.forall_mem_singleton.2 (silent_property hhead htype quiet_semicolon).shows
  | .attribute a, hname, htypes =>
      have hword : Quiet (if a.isReadonly then "const " else "var ") := by
        split <;> exact Text.Unmarked.quiet (by decide)
      have hhead := hword.append (hname a.name rfl).quiet
      have htype := style.quiet_typeText (List.forall_mem_singleton.1 htypes)
      exact List.forall_mem_singleton.2 (silent_property hhead htype quiet_semicolon).shows
  | .operation o, hname, htypes =>
      obtain ⟨hresult, hargs⟩ := List.forall_mem_cons.1 htypes
      intro line hline
      obtain ⟨name, hsome, rfl⟩ := Option.map_eq_some_iff.1 (Option.mem_toList.1 hline)
      have hhead : Quiet ("function " ++ name) :=
        (Text.Unmarked.quiet (by decide)).append (hname name hsome).quiet
      right
      rw [style.parameterNames_callLine hhead (List.forall_mem_map.1 hargs)
        (style.quiet_resultText hresult)]
      exact List.mem_cons_self
  | .constructor _, _, _ | .field _, _, _ | .iteration _, _, _ | .stringifier, _, _ =>
      exact List.forall_mem_nil _

end Members

end Style

/-! ### Blocks -/

/-- The lines of a block, the first one and those between braces. -/
def Block.lines (block : Block) : List String := block.head :: block.body.getD []

namespace Definition

/-- The parameters that a line of the definition can show. -/
def parameterLists (d : Definition) : List (List String) :=
  match d.body with
  | .callback _ args => [Argument.parameterNames args]
  | _ => d.members.flatMap fun m => m.body.parameterLists

/-- No name in the definition has marks, but those of arguments may. -/
structure Unmarked (d : Definition) : Prop where
  name : Text.Unmarked d.name
  parent : ∀ parent ∈ d.container?.bind Container.parent, Text.Unmarked parent
  members : ∀ m ∈ d.members, ∀ name ∈ m.body.name?, Text.Unmarked name
  references : ∀ name ∈ d.references.map Prod.fst, Text.Unmarked name

variable {d : Definition} (h : d.Unmarked)

include h

theorem Unmarked.types {type : IdlType} {span : Span} (htype : (type, span) ∈ d.types) :
    type.Unmarked := by
  intro name hname
  apply h.references
  rw [Definition.references, List.map_flatMap, List.mem_flatMap]
  exact ⟨(type, span), htype, by simpa using hname⟩

theorem Unmarked.body : ∀ m ∈ d.members, m.body.Unmarked := by
  obtain ⟨name, body, extAttrs, span⟩ := d
  cases body with
  | container c =>
      intro m hm
      refine ⟨h.members m hm, fun type htype => h.types (?_ : (type, m.span) ∈ _)⟩
      exact List.mem_flatMap.2 ⟨m, hm, List.mem_map_of_mem htype⟩
  | _ => exact List.forall_mem_nil _

end Definition

namespace Style

variable (style : Style) {model : Model} {d : Definition} (h : d.Unmarked)

section Container

variable {c : Container} (hbody : d.body = .container c)

include h hbody

theorem shows_memberLines {lines : MemberBody → List String}
    (hlines : ∀ body : MemberBody, body.Unmarked → ∀ line ∈ lines body,
      Shows body.parameterLists line) :
    ∀ line ∈ c.members.flatMap fun m => lines m.body, Shows d.parameterLists line := by
  intro line hline
  obtain ⟨m, hm, hline⟩ := List.mem_flatMap.1 hline
  have hmembers : d.members = c.members := by
    rw [Definition.members, Definition.container?, hbody]
  rw [← hmembers] at hm
  refine (hlines m.body (h.body m hm) line hline).mono fun names hnames => ?_
  rw [Definition.parameterLists, hbody]
  exact List.mem_flatMap.2 ⟨m, hm, hnames⟩

theorem shows_interfaceBlock :
    ∀ line ∈ (style.interfaceBlock d.name c).lines, Shows d.parameterLists line := by
  have hmembers := shows_memberLines h hbody fun body hunmarked line hline =>
    (style.lineOf_instanceLines d.name body line hline).shows h.name.quiet hunmarked.types
  refine List.forall_mem_cons.2 ⟨?_, fun line hline => ?_⟩
  · have hinterface : Quiet "interface " := Text.Unmarked.quiet (by decide)
    have hparent : Quiet (optionalText c.parent " extends ") := by
      cases hsome : c.parent with
      | none => exact quiet_empty
      | some parent =>
          have hextends : Quiet " extends " := Text.Unmarked.quiet (by decide)
          refine hextends.append (h.parent parent ?_).quiet
          rw [Definition.container?, hbody]
          exact hsome
    exact ((hinterface.append h.name.quiet).append hparent).shows
  · rcases List.mem_append.1 (List.mem_eraseDups.1 hline) with hbrand | hmember
    · split at hbrand
      · obtain rfl := List.mem_singleton.1 hbrand
        exact (style.silent_brand d.name quiet_empty quiet_semicolon).shows
      · cases hbrand
    · exact hmembers line hmember

theorem shows_objectBlock :
    ∀ line ∈ (style.objectBlock d.name c).lines, Shows d.parameterLists line := by
  have hmembers := shows_memberLines h hbody fun body hunmarked line hline =>
    (style.lineOf_objectLines d.name body line hline).shows h.name.quiet hunmarked.types
  have hvar : Quiet "var " := Text.Unmarked.quiet (by decide)
  have hprototype : Silent ("prototype: " ++ d.name ++ ";") := by
    rw [show ("prototype: " : String) = "prototype" ++ ": " from rfl]
    exact silent_property (Text.Unmarked.quiet (by decide)) h.name.quiet quiet_semicolon
  have hhead := (hvar.append h.name.quiet).append_silent silent_colon
  rw [Block.lines, objectBlock, Option.getD_some, List.forall_mem_cons, List.forall_mem_cons]
  exact ⟨hhead.shows, hprototype.shows, hmembers⟩

theorem shows_namespaceBlock :
    ∀ line ∈ (style.namespaceBlock d.name c).lines, Shows d.parameterLists line := by
  have hmembers := shows_memberLines h hbody fun body => style.shows_namespaceLines
  have hnamespace : Quiet "namespace " := Text.Unmarked.quiet (by decide)
  exact List.forall_mem_cons.2 ⟨(hnamespace.append h.name.quiet).shows, hmembers⟩

end Container

/-- The only brand in a type is that of an enumeration, outside of all brackets. -/
theorem silent_enumerationType (name : String) (values : List String) :
    Silent (style.enumerationType name values).text := by
  have hliterals : (TypeExpr.unionOf
      (values.map fun value => .stringLiteral (quote value))).Unmarked := by
    apply TypeExpr.unmarked_unionOf
    exact List.forall_mem_map.2 fun value _ => .stringLiteral value
  unfold enumerationType
  extract_lets literals
  split
  · have hfirst := TypeExpr.quiet_parenthesize hliterals.quiet literals.strength 3
    have hand : Quiet " & " := Text.Unmarked.quiet (by decide)
    have hopen : Quiet "\x7b " := Text.Unmarked.quiet (by decide)
    have hclose : Quiet " \x7d" := Text.Unmarked.quiet (by decide)
    exact (hfirst.append hand).append_silent (style.silent_brand name hopen hclose)
  · exact hliterals.quiet.silent

theorem parameterNames_callbackType {result : IdlType} (hresult : result.Unmarked)
    {args : List Argument} (hargs : Argument.TypesUnmarked args) {before : String}
    (hbefore : Quiet before) :
    parameterNames (before ++ (style.callbackType result args).text)
      = Argument.parameterNames args := by
  have harrow : Quiet " => " := Text.Unmarked.quiet (by decide)
  have hpair : ("(", ")") ∈ brackets := by decide
  have hlist := parameterNames_list hbefore hpair (style.binds_parameters hargs)
    (harrow.append (style.quiet_resultText hresult)).silent
  rw [← hlist, callbackType, TypeExpr.text, String.append_assoc, String.append_assoc,
    show (") => " : String) = ")" ++ " => " from rfl, String.append_assoc]
  rfl

section Aliases

variable {block : Block} (hblock : block ∈ style.blocks model d)

include h hblock

/-- A definition without members is declared in one line. -/
theorem shows_aliasBlock (hnone : d.container? = none) :
    ∀ line ∈ block.lines, Shows d.parameterLists line := by
  have htype : Quiet "type " := Text.Unmarked.quiet (by decide)
  have hequals : Quiet " = " := Text.Unmarked.quiet (by decide)
  have halias := (htype.append h.name.quiet).append hequals
  unfold blocks at hblock
  cases hbody : d.body with
  | container c =>
      rw [Definition.container?, hbody] at hnone
      cases hnone
  | enumeration values =>
      rw [hbody] at hblock
      obtain rfl := List.mem_singleton.1 hblock
      have hline := halias.append_silent (style.silent_enumerationType d.name values)
      exact List.forall_mem_singleton.2 hline.shows
  | typedef type =>
      rw [hbody] at hblock
      obtain rfl := List.mem_singleton.1 hblock
      have hmem : (type, d.span) ∈ d.types := by
        rw [Definition.types, hbody]
        exact List.mem_singleton_self _
      have hline := halias.append (style.quiet_typeText (h.types hmem))
      exact List.forall_mem_singleton.2 hline.shows
  | callback result args =>
      rw [hbody] at hblock
      obtain rfl := List.mem_singleton.1 hblock
      have htypes : d.types = (result, d.span) :: args.map fun arg => (arg.type, d.span) := by
        rw [Definition.types, hbody]
      have hresult := h.types (htypes ▸ List.mem_cons_self)
      have hargs : Argument.TypesUnmarked args := fun arg harg =>
        h.types (htypes ▸ List.mem_cons_of_mem _ (List.mem_map_of_mem harg))
      have hline := style.parameterNames_callbackType hresult hargs halias
      refine List.forall_mem_singleton.2 (.inr ?_)
      rw [Definition.parameterLists, hbody]
      exact List.mem_singleton.2 hline
  | includes mixin =>
      rw [hbody] at hblock
      cases hblock

/-- A line of a declaration shows no parameters, or those that a member or the callback of the
definition has. -/
theorem shows_of_mem_blocks : ∀ line ∈ block.lines, Shows d.parameterLists line := by
  rcases style.cases_of_mem_blocks hblock with
    ⟨c, hbody, -, rfl | rfl⟩ | ⟨c, hbody, -, rfl⟩ | ⟨hnone, -⟩
  · exact style.shows_interfaceBlock h hbody
  · exact style.shows_objectBlock h hbody
  · exact style.shows_namespaceBlock h hbody
  · exact style.shows_aliasBlock h hblock hnone

end Aliases

end Style

end IdlBindings
