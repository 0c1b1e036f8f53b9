import IdlBindings.Proofs.Declaration.Piece

/-!
The type names that a declaration prints. They are the names that its definition refers to, its
parent, its own name, and built-in buffers (`Style.prints_of_mem_names`): what the lines show is
what the resolver has gone over.
-/

namespace IdlBindings

namespace TypeExpr

mutual

/-- The declared names in a type, built-in generic types apart. -/
def names : TypeExpr → List String
  | .keyword _ | .stringLiteral _ | .literal _ | .object _ => []
  | .reference name => [name]
  | .generic _ args => namesOfAll args
  | .array item => item.names
  | .tuple items => namesOfAll items
  | .union members => namesOfAll members
  | .intersection members => namesOfAll members
  | .function _ result => result.names

def namesOfAll : List TypeExpr → List String
  | [] => []
  | type :: rest => type.names ++ namesOfAll rest

end

theorem mem_namesOfAll {name : String} {types : List TypeExpr} :
    name ∈ namesOfAll types ↔ ∃ type ∈ types, name ∈ type.names := by
  induction types with
  | nil => simp [namesOfAll]
  | cons type rest ih => simp [namesOfAll, ih]

/-- All names in a type satisfy `P`. -/
def Within (P : String → Prop) (type : TypeExpr) : Prop := ∀ name ∈ type.names, P name

variable {P : String → Prop}

@[simp] theorem within_keyword (word : String) : Within P (.keyword word) := by
  simp [Within, names]

@[simp] theorem within_literal (source : String) : Within P (.literal source) := by
  simp [Within, names]

@[simp] theorem within_reference {name : String} : Within P (.reference name) ↔ P name := by
  simp [Within, names]

@[simp] theorem within_array {item : TypeExpr} : Within P (.array item) ↔ Within P item := by
  simp [Within, names]

theorem within_namesOfAll {types : List TypeExpr} :
    (∀ name ∈ namesOfAll types, P name) ↔ ∀ type ∈ types, Within P type := by
  simp only [mem_namesOfAll, Within]
  constructor
  · exact fun h type htype name hname => h name ⟨type, htype, hname⟩
  · rintro h name ⟨type, htype, hname⟩
    exact h type htype name hname

@[simp] theorem within_generic {name : String} {args : List TypeExpr} :
    Within P (.generic name args) ↔ ∀ type ∈ args, Within P type := within_namesOfAll

@[simp] theorem within_tuple {items : List TypeExpr} :
    Within P (.tuple items) ↔ ∀ type ∈ items, Within P type := within_namesOfAll

theorem within_union {members : List TypeExpr} :
    Within P (.union members) ↔ ∀ type ∈ members, Within P type := within_namesOfAll

theorem within_intersection {members : List TypeExpr} :
    Within P (.intersection members) ↔ ∀ type ∈ members, Within P type := within_namesOfAll

@[simp] theorem within_stringLiteral (quoted : String) : Within P (.stringLiteral quoted) := by
  simp [Within, names]

@[simp] theorem within_object (members : List String) : Within P (.object members) := by
  simp [Within, names]

theorem within_unionMembers {type : TypeExpr} (h : Within P type) :
    ∀ member ∈ type.unionMembers, Within P member := by
  unfold unionMembers
  split
  · exact within_union.1 h
  · exact fun member hmember => List.mem_singleton.1 hmember ▸ h

/-- A union has no names but those of its parts. -/
theorem within_unionOf {types : List TypeExpr} (h : ∀ type ∈ types, Within P type) :
    Within P (unionOf types) := by
  have hmembers : ∀ member ∈ (types.flatMap unionMembers).eraseDups, Within P member := by
    intro member hmember
    obtain ⟨type, htype, hmember⟩ := List.mem_flatMap.1 (List.mem_eraseDups.1 hmember)
    exact within_unionMembers (h type htype) member hmember
  unfold unionOf
  dsimp only
  split
  · exact within_keyword _
  · split
    · exact within_keyword _
    · rename_i only heq
      exact hmembers only (heq ▸ List.mem_singleton_self only)
    · exact within_union.2 hmembers

/-- The name of a buffer, a data view or a typed array, which no definition declares. -/
def IsBuffer (name : String) : Prop := ∃ p : Primitive, p.isBuffer = true ∧ p.text = name

theorem within_ofPrimitive (hbuffer : ∀ name, IsBuffer name → P name) (p : Primitive) :
    Within P (ofPrimitive p) := by
  unfold ofPrimitive
  split
  · exact within_keyword _
  · split
    · exact within_keyword _
    · split
      · exact within_reference.2 (hbuffer _ ⟨p, ‹_›, rfl⟩)
      · split <;> exact within_keyword _

mutual

/-- The type expression of a type has the names that the type refers to, and buffers. -/
theorem within_ofType (style : Style) (hbuffer : ∀ name, IsBuffer name → P name) :
    ∀ type : IdlType, (∀ name ∈ type.references, P name) → Within P (ofType style type)
  | .primitive p, _ => within_ofPrimitive hbuffer p
  | .named name, h => within_reference.2 (h name (List.mem_singleton_self name))
  | .sequence item, h => within_array.2 (within_ofType style hbuffer item h)
  | .observableArray item, h => within_array.2 (within_ofType style hbuffer item h)
  | .frozenArray item, h => by
      have hitem := within_ofType style hbuffer item h
      rw [ofType]
      split
      · exact within_generic.2 (by simpa using hitem)
      · exact within_array.2 hitem
  | .record key value, h => by
      have hvalue := within_ofType style hbuffer value
        fun name hname => h name (List.mem_append_right key.references hname)
      rw [ofType]
      exact within_generic.2 (by simpa using hvalue)
  | .promise result, h => by
      have hresult := within_ofType style hbuffer result h
      rw [ofType]
      split
      · exact within_generic.2 (by simp)
      · exact within_generic.2 (by simpa using hresult)
  | .nullable inner, h => within_unionOf (by
      simpa using within_ofType style hbuffer inner h)
  | .union members, h => within_unionOf (within_ofTypes style hbuffer members h)
  | .any, _ => within_keyword _
  | .annotated _ inner, h => within_ofType style hbuffer inner h

theorem within_ofTypes (style : Style) (hbuffer : ∀ name, IsBuffer name → P name) :
    ∀ types : List IdlType, (∀ name ∈ IdlType.referencesOfAll types, P name) →
      ∀ type ∈ ofTypes style types, Within P type
  | [], _ => List.forall_mem_nil _
  | type :: rest, h => List.forall_mem_cons.2
      ⟨within_ofType style hbuffer type fun name hname => h name (List.mem_append_left _ hname),
        within_ofTypes style hbuffer rest fun name hname => h name (List.mem_append_right _ hname)⟩

end

end TypeExpr

/-! ### Lines -/

namespace Piece

def names : Piece → List String
  | .words _ => []
  | .type expr => expr.names

/-- The type names of a line. -/
def lineNames (line : List Piece) : List String := line.flatMap names

/-- All type names of a line satisfy `P`. -/
def LineWithin (P : String → Prop) (line : List Piece) : Prop := ∀ name ∈ lineNames line, P name

variable {P : String → Prop}

@[simp] theorem lineWithin_nil : LineWithin P [] := by simp [LineWithin, lineNames]

@[simp] theorem lineWithin_words {words : String} {line : List Piece} :
    LineWithin P (.words words :: line) ↔ LineWithin P line := by
  simp [LineWithin, lineNames, names]

@[simp] theorem lineWithin_type {expr : TypeExpr} {line : List Piece} :
    LineWithin P (.type expr :: line) ↔ expr.Within P ∧ LineWithin P line := by
  simp only [LineWithin, lineNames, List.flatMap_cons, List.forall_mem_append]
  rfl

@[simp] theorem lineWithin_append {line more : List Piece} :
    LineWithin P (line ++ more) ↔ LineWithin P line ∧ LineWithin P more := by
  simp only [LineWithin, lineNames, List.flatMap_append, List.forall_mem_append]

theorem lineWithin_intercalate {sep : String} {parts : List (List Piece)} :
    LineWithin P ([.words sep].intercalate parts) ↔ ∀ part ∈ parts, LineWithin P part := by
  induction parts with
  | nil => simp
  | cons part rest ih =>
      cases rest with
      | nil => simp
      | cons next more =>
          rw [List.intercalate_cons_cons, lineWithin_append, lineWithin_append, ih,
            lineWithin_words, List.forall_mem_cons]
          simp

end Piece

/-- The type names of a block. -/
def MarkedBlock.names (b : MarkedBlock) : List String :=
  Piece.lineNames b.head ++ (b.body.getD []).flatMap Piece.lineNames

/-- The names that the declaration of `d` has to print: those that it refers to, and if it is a type
its parent and its own. -/
def Definition.Mentions (d : Definition) (name : String) : Prop :=
  name ∈ d.references.map Prod.fst ∨
    ∃ kind ∈ d.symbolKind?, kind.isType = true ∧
      (name = d.name ∨ d.container?.bind Container.parent = some name)

/-- The names that the declaration of `d` may print. -/
def Definition.Prints (d : Definition) (name : String) : Prop :=
  d.Mentions name ∨ TypeExpr.IsBuffer name

open TypeExpr
open Piece (LineWithin lineNames)

namespace Style

variable {P : String → Prop} (style : Style)

@[simp] theorem lineWithin_typedLine {words : String} {type : TypeExpr} :
    LineWithin P (typedLine words type) ↔ type.Within P := by
  simp [typedLine]

@[simp] theorem lineWithin_between {words close : String} {type : TypeExpr} :
    LineWithin P (between words type close) ↔ type.Within P := by
  simp [between]

theorem lineWithin_parametersPieces {args : List Argument} :
    LineWithin P (style.parametersPieces args) ↔
      ∀ arg ∈ args, (TypeExpr.ofType style arg.type).Within P := by
  rw [parametersPieces, Piece.lineWithin_intercalate, List.forall_mem_map]
  apply forall₂_congr
  intro arg _
  unfold parameterPieces
  dsimp only
  split
  · simp
  · split <;> simp

@[simp] theorem lineWithin_callLine {name : String} {args : List Argument} {result : TypeExpr} :
    LineWithin P (style.callLine name args result) ↔
      (∀ arg ∈ args, (TypeExpr.ofType style arg.type).Within P) ∧ result.Within P := by
  simp [callLine, lineWithin_parametersPieces]

@[simp] theorem lineWithin_forEachPieces {owner : String} {key value : TypeExpr} :
    LineWithin P (forEachPieces owner key value) ↔ value.Within P ∧ key.Within P ∧ P owner := by
  simp [forEachPieces]

theorem within_constType {type : IdlType} (h : (TypeExpr.ofType style type).Within P)
    (value : ConstValue) : (style.constType type value).Within P := by
  unfold constType
  split
  · exact within_literal _
  · split
    · exact within_literal _
    · exact h
  · exact h

theorem within_ofResult {type : IdlType} (h : (TypeExpr.ofType style type).Within P) :
    (TypeExpr.ofResult style type).Within P := by
  unfold ofResult
  split
  · exact within_keyword _
  · exact h

section Members

variable {owner : String}

theorem within_methodPieces? {o : Operation} (hresult : (TypeExpr.ofType style o.result).Within P)
    (hargs : ∀ arg ∈ o.args, (TypeExpr.ofType style arg.type).Within P) :
    ∀ line ∈ style.methodPieces? o, LineWithin P line := by
  unfold methodPieces?
  cases o.name with
  | none => simp
  | some name => simpa using ⟨hargs, style.within_ofResult hresult⟩

theorem within_operationPieces {o : Operation}
    (hresult : (TypeExpr.ofType style o.result).Within P)
    (hargs : ∀ arg ∈ o.args, (TypeExpr.ofType style arg.type).Within P) :
    ∀ line ∈ style.operationPieces o, LineWithin P line := by
  have hmethod := style.within_methodPieces? hresult hargs
  have hindex : ∀ line ∈ style.indexPieces? o, LineWithin P line := by
    unfold indexPieces?
    cases o.args.head? with
    | none => simp
    | some key => simpa using hresult
  rw [operationPieces, List.forall_mem_append]
  refine ⟨by simpa using hmethod, ?_⟩
  split
  · simp
  · simpa using hindex
  · simp

theorem within_iterationPieces (howner : P owner) {i : Iteration}
    (hkey : ∀ key ∈ i.key, (TypeExpr.ofType style key).Within P)
    (hvalue : (TypeExpr.ofType style i.value).Within P)
    (hargs : ∀ arg ∈ i.args, (TypeExpr.ofType style arg.type).Within P) :
    ∀ line ∈ style.iterationPieces owner i, LineWithin P line := by
  obtain ⟨kind, isReadonly, key, value, args⟩ := i
  have hfound : (unionOf [TypeExpr.ofType style value, .keyword "undefined"]).Within P :=
    within_unionOf (by simpa using hvalue)
  cases kind with
  | iterable => cases key <;> simp_all [iterationPieces, iteratorPieces]
  | asyncIterable => cases key <;> simp_all [iterationPieces, asyncIteratorPieces]
  | maplike => cases key <;> cases isReadonly <;> simp_all [iterationPieces, iteratorPieces]
  | setlike => cases key <;> cases isReadonly <;> simp_all [iterationPieces, iteratorPieces]

variable (body : MemberBody) (h : ∀ type ∈ body.types, (TypeExpr.ofType style type).Within P)

include h

theorem within_instancePieces (howner : P owner) :
    ∀ line ∈ style.instancePieces owner body, LineWithin P line := by
  match body, h with
  | .const name type value, h =>
      have htype := style.within_constType (h type (List.mem_singleton_self type)) value
      simpa [instancePieces, constPieces] using htype
  | .attribute a, h =>
      have htype := h a.type (List.mem_singleton_self a.type)
      simp only [instancePieces, attributePieces]
      split
      · simp
      · split <;> simpa using htype
  | .operation o, h =>
      obtain ⟨hresult, hargs⟩ := List.forall_mem_cons.1 h
      simp only [instancePieces]
      split
      · simp
      · exact style.within_operationPieces hresult fun arg harg =>
          hargs _ (List.mem_map_of_mem harg)
  | .constructor args, _ => exact List.forall_mem_nil _
  | .field f, h => simpa [instancePieces] using h f.type (List.mem_singleton_self f.type)
  | .iteration i, h =>
      obtain ⟨hkey, hrest⟩ := List.forall_mem_append.1 h
      obtain ⟨hvalue, hargs⟩ := List.forall_mem_cons.1 hrest
      have hkey : ∀ key ∈ i.key, (TypeExpr.ofType style key).Within P := by simpa using hkey
      exact style.within_iterationPieces howner hkey hvalue fun arg harg =>
        hargs _ (List.mem_map_of_mem harg)
  | .stringifier, _ => simp [instancePieces]

theorem within_objectPieces (howner : P owner) :
    ∀ line ∈ style.objectPieces owner body, LineWithin P line := by
  match body, h with
  | .const name type value, h =>
      have htype := style.within_constType (h type (List.mem_singleton_self type)) value
      simpa [objectPieces, constPieces] using htype
  | .attribute a, h =>
      have htype := h a.type (List.mem_singleton_self a.type)
      simp only [objectPieces, attributePieces]
      split
      · simpa using htype
      · simp
  | .operation o, h =>
      obtain ⟨hresult, hargs⟩ := List.forall_mem_cons.1 h
      have hmethod := style.within_methodPieces? hresult fun arg harg =>
        hargs _ (List.mem_map_of_mem harg)
      simp only [objectPieces]
      split
      · simpa using hmethod
      · simp
  | .constructor args, h => simpa [objectPieces, howner] using List.forall_mem_map.1 h
  | .field _, _ | .iteration _, _ | .stringifier, _ => exact List.forall_mem_nil _

theorem within_namespacePieces : ∀ line ∈ style.namespacePieces body, LineWithin P line := by
  match body, h with
  | .const name type value, h =>
      have htype := style.within_constType (h type (List.mem_singleton_self type)) value
      simpa [namespacePieces] using htype
  | .attribute a, h =>
      simpa [namespacePieces] using h a.type (List.mem_singleton_self a.type)
  | .operation o, h =>
      obtain ⟨hresult, hargs⟩ := List.forall_mem_cons.1 h
      have hresult := style.within_ofResult hresult
      have hargs := List.forall_mem_map.1 hargs
      cases hname : o.name <;> simp [namespacePieces, hname]
      exact ⟨hargs, hresult⟩
  | .constructor _, _ | .field _, _ | .iteration _, _ | .stringifier, _ =>
      exact List.forall_mem_nil _

end Members

/-! ### Blocks -/

theorem forall_names {b : MarkedBlock} :
    (∀ name ∈ b.names, P name) ↔
      LineWithin P b.head ∧ ∀ lines ∈ b.body, ∀ line ∈ lines, LineWithin P line := by
  rw [MarkedBlock.names, List.forall_mem_append]
  apply and_congr_right'
  cases b.body with
  | none => simp
  | some lines => exact List.forall_mem_flatMap.trans (by simp [LineWithin])

variable {d : Definition}

theorem within_ofType_of_mem_types {type : IdlType} {span : Span} (h : (type, span) ∈ d.types) :
    (TypeExpr.ofType style type).Within d.Prints := by
  refine within_ofType style (fun name hname => .inr hname) type fun name hname => .inl (.inl ?_)
  rw [Definition.references, List.map_flatMap, List.mem_flatMap]
  exact ⟨(type, span), h, by simpa using hname⟩

theorem within_members {c : Container} (hbody : d.body = .container c)
    {lines : MemberBody → List (List Piece)}
    (hlines : ∀ body : MemberBody,
      (∀ type ∈ body.types, (TypeExpr.ofType style type).Within d.Prints) →
        ∀ line ∈ lines body, LineWithin d.Prints line) :
    ∀ line ∈ c.members.flatMap fun m => lines m.body, LineWithin d.Prints line := by
  intro line hline
  obtain ⟨m, hm, hline⟩ := List.mem_flatMap.1 hline
  refine hlines m.body (fun type htype => ?_) line hline
  have hmem : (type, m.span) ∈ d.types := by
    rw [Definition.types, hbody]
    exact List.mem_flatMap.2 ⟨m, hm, List.mem_map_of_mem htype⟩
  exact style.within_ofType_of_mem_types hmem

section Container

variable {c : Container} (hbody : d.body = .container c)
  (htype : (SymbolKind.container c.kind).isType = true)

include hbody htype

theorem prints_name : d.Prints d.name := by
  refine .inl (.inr ⟨.container c.kind, ?_, htype, .inl rfl⟩)
  rw [Definition.symbolKind?, hbody]
  rfl

theorem prints_parent {parent : String} (hparent : c.parent = some parent) : d.Prints parent := by
  refine .inl (.inr ⟨.container c.kind, ?_, htype, .inr ?_⟩)
  · rw [Definition.symbolKind?, hbody]
    rfl
  · rw [Definition.container?, hbody]
    exact hparent

theorem prints_interfaceBlock :
    ∀ name ∈ (style.markedInterfaceBlock d.name c).names, d.Prints name := by
  have hname := prints_name hbody htype
  have hlines := style.within_members hbody fun body h => style.within_instancePieces body h hname
  rw [forall_names, markedInterfaceBlock]
  constructor
  · cases hparent : c.parent with
    | none => simp
    | some parent => simpa using prints_parent hbody htype hparent
  · intro lines hsome
    obtain rfl := Option.some.inj hsome
    rw [List.forall_mem_append]
    refine ⟨?_, hlines⟩
    split <;> simp

theorem prints_objectBlock :
    ∀ name ∈ (style.markedObjectBlock d.name c).names, d.Prints name := by
  have hname := prints_name hbody htype
  have hlines := style.within_members hbody fun body h => style.within_objectPieces body h hname
  rw [forall_names, markedObjectBlock]
  refine ⟨by simp, fun lines hsome => ?_⟩
  obtain rfl := Option.some.inj hsome
  rw [List.forall_mem_cons, lineWithin_typedLine, within_reference]
  exact ⟨hname, hlines⟩

omit htype

theorem prints_namespaceBlock :
    ∀ name ∈ (style.markedNamespaceBlock d.name c).names, d.Prints name := by
  have hlines := style.within_members hbody fun body h => style.within_namespacePieces body h
  rw [forall_names, markedNamespaceBlock]
  refine ⟨by simp, fun lines hsome => ?_⟩
  obtain rfl := Option.some.inj hsome
  exact hlines

end Container

theorem prints_aliasBlock {pieces : List Piece} (h : LineWithin d.Prints pieces) :
    ∀ name ∈ (markedAliasBlock d.name pieces).names, d.Prints name := by
  rw [forall_names, markedAliasBlock]
  exact ⟨by simpa using h, by simp⟩

theorem within_enumerationType (name : String) (values : List String) :
    (style.enumerationType name values).Within P := by
  have hliterals : (unionOf (values.map fun value => .stringLiteral (Text.quote value))).Within P :=
    within_unionOf (by simp)
  unfold enumerationType
  dsimp only
  split
  · exact within_intersection.2 (by simpa using hliterals)
  · exact hliterals

/-- The declarations of a definition print no other names. -/
theorem prints_of_mem_names (model : Model) {b : MarkedBlock}
    (hb : b ∈ style.markedBlocks model d) : ∀ name ∈ b.names, d.Prints name := by
  unfold markedBlocks at hb
  cases hbody : d.body with
  | container c =>
      rw [hbody] at hb
      cases hkind : c.kind with
      | interface =>
          simp only [hkind] at hb
          rcases List.mem_cons.1 hb with rfl | hobject
          · exact style.prints_interfaceBlock hbody (by rw [hkind]; rfl)
          · split at hobject
            · obtain rfl := List.mem_singleton.1 hobject
              exact style.prints_objectBlock hbody (by rw [hkind]; rfl)
            · cases hobject
      | callbackInterface =>
          simp only [hkind] at hb
          obtain rfl := List.mem_singleton.1 hb
          exact style.prints_interfaceBlock hbody (by rw [hkind]; rfl)
      | mixin =>
          simp only [hkind] at hb
          cases hb
      | dictionary =>
          simp only [hkind] at hb
          obtain rfl := List.mem_singleton.1 hb
          exact style.prints_interfaceBlock hbody (by rw [hkind]; rfl)
      | nameSpace =>
          simp only [hkind] at hb
          obtain rfl := List.mem_singleton.1 hb
          exact style.prints_namespaceBlock hbody
  | enumeration values =>
      rw [hbody] at hb
      obtain rfl := List.mem_singleton.1 hb
      exact prints_aliasBlock (by simpa using style.within_enumerationType d.name values)
  | typedef type =>
      rw [hbody] at hb
      obtain rfl := List.mem_singleton.1 hb
      have htype : (type, d.span) ∈ d.types := by
        rw [Definition.types, hbody]
        exact List.mem_singleton_self _
      exact prints_aliasBlock (by simpa using style.within_ofType_of_mem_types htype)
  | callback result args =>
      rw [hbody] at hb
      obtain rfl := List.mem_singleton.1 hb
      have htypes : d.types = (result, d.span) :: args.map fun arg => (arg.type, d.span) := by
        rw [Definition.types, hbody]
      have hresult : (result, d.span) ∈ d.types := htypes ▸ List.mem_cons_self
      have hargs : ∀ arg ∈ args, (TypeExpr.ofType style arg.type).Within d.Prints := by
        intro arg harg
        have hmem : (arg.type, d.span) ∈ d.types := by
          rw [htypes]
          exact List.mem_cons_of_mem _ (List.mem_map_of_mem harg)
        exact style.within_ofType_of_mem_types hmem
      have hresult := style.within_ofResult (style.within_ofType_of_mem_types hresult)
      exact prints_aliasBlock
        (by simpa [callbackPieces, lineWithin_parametersPieces] using ⟨hargs, hresult⟩)
  | includes mixin =>
      rw [hbody] at hb
      cases hb

end Style

end IdlBindings
