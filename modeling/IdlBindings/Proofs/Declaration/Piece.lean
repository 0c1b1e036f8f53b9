import IdlBindings.Declaration.Block

/-!
Declarations with their types marked. Each line is given as pieces, words or types, and its text is
the line that is written (`Style.blocks_eq_map`), so the type names of a declaration are those of
its pieces.
-/

namespace IdlBindings

/-- A part of a line. -/
inductive Piece where
  | words (text : String)
  | type (expr : TypeExpr)

namespace Piece

def text : Piece → String
  | .words text => text
  | .type expr => expr.text

/-- The text of a line. -/
def lineText (pieces : List Piece) : String :=
  String.join (pieces.map text)

@[simp] theorem lineText_nil : lineText [] = "" := rfl

@[simp] theorem lineText_cons (piece : Piece) (pieces : List Piece) :
    lineText (piece :: pieces) = piece.text ++ lineText pieces := by
  simp [lineText]

@[simp] theorem lineText_append (pieces others : List Piece) :
    lineText (pieces ++ others) = lineText pieces ++ lineText others := by
  simp [lineText]

theorem lineText_intercalate (sep : String) (parts : List (List Piece)) :
    lineText ([.words sep].intercalate parts) = sep.intercalate (parts.map lineText) := by
  induction parts with
  | nil => rfl
  | cons part rest ih =>
      cases rest with
      | nil => simp
      | cons next more =>
          rw [List.intercalate_cons_cons, List.map_cons, List.map_cons,
            String.intercalate_cons_cons, lineText_append, lineText_append, ih, lineText_cons,
            lineText_nil, String.append_empty, List.map_cons, text, String.append_assoc]

end Piece

/-- A block with its types marked. -/
structure MarkedBlock where
  kind : BlockKind
  head : List Piece
  body : Option (List (List Piece))
  close : String

/-- The block as it is written. The declaration of a type has each line once. -/
def MarkedBlock.block (b : MarkedBlock) : Block :=
  ⟨b.kind, Piece.lineText b.head,
    b.body.map fun lines =>
      let texts := lines.map Piece.lineText
      if b.kind = .type then texts.eraseDups else texts,
    b.close⟩

open Piece (lineText)

namespace Style

variable (style : Style)

/-! ### Lines -/

def parameterPieces (arg : Argument) : List Piece :=
  let name := Text.parameterName arg.name
  let type := TypeExpr.ofType style arg.type
  if arg.isVariadic then [.words ("..." ++ name ++ ": "), .type (.array type)]
  else if arg.isOptional then [.words (name ++ "?: "), .type type]
  else [.words (name ++ ": "), .type type]

/-- What stands between parentheses. -/
def parametersPieces (args : List Argument) : List Piece :=
  [.words ", "].intercalate (args.map style.parameterPieces)

/-- Words and a type to the end of the line. -/
def typedLine (words : String) (type : TypeExpr) : List Piece :=
  [.words words, .type type, .words ";"]

/-- A function of this name to the end of the line. -/
def callLine (name : String) (args : List Argument) (result : TypeExpr) : List Piece :=
  .words (name ++ "(") :: (style.parametersPieces args ++ typedLine "): " result)

def constPieces (name : String) (type : IdlType) (value : ConstValue) : List Piece :=
  typedLine ("readonly " ++ Text.propertyName name ++ ": ") (style.constType type value)

def attributePieces (a : Attribute) : List Piece :=
  typedLine ((if a.isReadonly then "readonly " else "") ++ Text.propertyName a.name ++ ": ")
    (TypeExpr.ofType style a.type)

def methodPieces? (o : Operation) : Option (List Piece) :=
  o.name.map fun name =>
    style.callLine (Text.propertyName name) o.args (TypeExpr.ofResult style o.result)

def indexPieces? (o : Operation) : Option (List Piece) :=
  o.args.head?.map fun key =>
    let keyType := if TypeExpr.ofType style key.type = .keyword "number" then "number" else "string"
    typedLine ("[" ++ Text.parameterName key.name ++ ": " ++ keyType ++ "]: ")
      (TypeExpr.ofType style o.result)

def operationPieces (o : Operation) : List (List Piece) :=
  (style.methodPieces? o).toList
    ++ match o.special, o.name with
      | some .stringifier, _ => [[.words toStringLine]]
      | some .getter, none => (style.indexPieces? o).toList
      | _, _ => []

def iteratorPieces (method : String) (item : TypeExpr) : List Piece :=
  typedLine (method ++ "(): ") (.generic "IterableIterator" [item])

def asyncIteratorPieces (method : String) (args : List Argument) (item : TypeExpr) : List Piece :=
  style.callLine method args (.generic "AsyncIterableIterator" [item])

/-- A type between words. -/
def between (words : String) (type : TypeExpr) (close : String) : List Piece :=
  [.words words, .type type, .words close]

def forEachPieces (owner : String) (key value : TypeExpr) : List Piece :=
  .words "forEach(callbackfn: (value: " :: .type value :: .words ", key: " :: .type key ::
    between ", parent: " (.reference owner) ") => void, thisArg?: any): void;"

def iterationPieces (owner : String) (i : Iteration) : List (List Piece) :=
  let value := TypeExpr.ofType style i.value
  let key := match i.key with
    | some key => TypeExpr.ofType style key
    | none => if i.kind = .setlike then value else .keyword "number"
  let pair := TypeExpr.tuple [key, value]
  let item := if i.key.isSome then pair else value
  match i.kind with
  | .iterable =>
    [iteratorPieces "[Symbol.iterator]" item, iteratorPieces "entries" pair,
      iteratorPieces "keys" key, iteratorPieces "values" value, forEachPieces owner key value]
  | .asyncIterable =>
    style.asyncIteratorPieces "[Symbol.asyncIterator]" i.args item
      :: (if i.key.isSome then
          [style.asyncIteratorPieces "entries" i.args pair,
            style.asyncIteratorPieces "keys" i.args key]
        else [])
      ++ [style.asyncIteratorPieces "values" i.args value]
  | .maplike =>
    [[.words "readonly size: number;"], iteratorPieces "[Symbol.iterator]" pair,
      iteratorPieces "entries" pair, iteratorPieces "keys" key, iteratorPieces "values" value,
      forEachPieces owner key value,
      .words "get(key: " :: .type key ::
        typedLine "): " (TypeExpr.unionOf [value, .keyword "undefined"]),
      between "has(key: " key "): boolean;"]
      ++ if i.isReadonly then [] else
        [.words "set(key: " :: .type key :: between ", value: " value "): this;",
          between "delete(key: " key "): boolean;", [.words "clear(): void;"]]
  | .setlike =>
    [[.words "readonly size: number;"], iteratorPieces "[Symbol.iterator]" value,
      iteratorPieces "entries" pair, iteratorPieces "keys" value, iteratorPieces "values" value,
      forEachPieces owner key value, between "has(value: " value "): boolean;"]
      ++ if i.isReadonly then [] else
        [between "add(value: " value "): this;",
          between "delete(value: " value "): boolean;", [.words "clear(): void;"]]

def instancePieces (owner : String) : MemberBody → List (List Piece)
  | .const name type value => [style.constPieces name type value]
  | .attribute a =>
    if a.isStatic then []
    else style.attributePieces a :: if a.isStringifier then [[.words toStringLine]] else []
  | .operation o => if o.isStatic then [] else style.operationPieces o
  | .constructor _ => []
  | .field f =>
    [typedLine (Text.propertyName f.name ++ (if f.isRequired then "" else "?") ++ ": ")
      (TypeExpr.ofType style f.type)]
  | .iteration i => style.iterationPieces owner i
  | .stringifier => [[.words toStringLine]]

def objectPieces (owner : String) : MemberBody → List (List Piece)
  | .constructor args => [style.callLine "new" args (.reference owner)]
  | .const name type value => [style.constPieces name type value]
  | .attribute a => if a.isStatic then [style.attributePieces a] else []
  | .operation o => if o.isStatic then (style.methodPieces? o).toList else []
  | _ => []

def namespacePieces : MemberBody → List (List Piece)
  | .const name type value =>
    [typedLine ("const " ++ name ++ ": ") (style.constType type value)]
  | .attribute a =>
    [typedLine ((if a.isReadonly then "const " else "var ") ++ a.name ++ ": ")
      (TypeExpr.ofType style a.type)]
  | .operation o =>
    (o.name.map fun name =>
      style.callLine ("function " ++ name) o.args (TypeExpr.ofResult style o.result)).toList
  | _ => []

/-! ### Blocks -/

def markedInterfaceBlock (name : String) (c : Container) : MarkedBlock :=
  let isBranded := style.nominal && (c.kind == .interface || c.kind == .dictionary)
  let brand := if isBranded then [[.words (style.brand name ++ ";")]] else []
  let parent := match c.parent with
    | some parent => [.words " extends ", .type (.reference parent)]
    | none => []
  ⟨.type, .words ("interface " ++ name) :: parent,
    some (brand ++ c.members.flatMap fun m => style.instancePieces name m.body), ""⟩

def markedObjectBlock (name : String) (c : Container) : MarkedBlock :=
  ⟨.value, [.words ("var " ++ name ++ ":")],
    some (typedLine "prototype: " (.reference name)
      :: c.members.flatMap fun m => style.objectPieces name m.body), ";"⟩

def markedNamespaceBlock (name : String) (c : Container) : MarkedBlock :=
  ⟨.value, [.words ("namespace " ++ name)],
    some (c.members.flatMap fun m => style.namespacePieces m.body), ""⟩

def markedAliasBlock (name : String) (type : List Piece) : MarkedBlock :=
  ⟨.type, .words ("type " ++ name ++ " = ") :: type, none, ";"⟩

/-- The type of a callback function. -/
def callbackPieces (result : IdlType) (args : List Argument) : List Piece :=
  .words "(" :: (style.parametersPieces args
    ++ [.words ") => ", .type (TypeExpr.ofResult style result)])

/-- The blocks of a definition. -/
def markedBlocks (model : Model) (d : Definition) : List MarkedBlock :=
  match d.body with
  | .container c =>
    match c.kind with
    | .interface =>
      style.markedInterfaceBlock d.name c
        :: if model.isGlobal d.name && !d.hasExtAttr noObjectAttribute then
            [style.markedObjectBlock d.name c]
          else []
    | .callbackInterface | .dictionary => [style.markedInterfaceBlock d.name c]
    | .nameSpace => [style.markedNamespaceBlock d.name c]
    | .mixin => []
  | .enumeration values => [markedAliasBlock d.name [.type (style.enumerationType d.name values)]]
  | .typedef type => [markedAliasBlock d.name [.type (TypeExpr.ofType style type)]]
  | .callback result args => [markedAliasBlock d.name (style.callbackPieces result args)]
  | .includes _ => []

/-! ### Texts -/

@[simp] theorem lineText_typedLine (words : String) (type : TypeExpr) :
    lineText (typedLine words type) = words ++ type.text ++ ";" := by
  simp [typedLine, Piece.text, String.append_assoc]

@[simp] theorem lineText_between (words : String) (type : TypeExpr) (close : String) :
    lineText (between words type close) = words ++ type.text ++ close := by
  simp [between, Piece.text, String.append_assoc]

@[simp] theorem lineText_parametersPieces (args : List Argument) :
    lineText (style.parametersPieces args) = style.parameterText args := by
  have harg (arg : Argument) : lineText (style.parameterPieces arg) = style.parameter arg := by
    unfold parameterPieces parameter
    dsimp only
    split
    · simp [Piece.text, String.append_assoc]
    · split <;> simp [Piece.text, String.append_assoc]
  rw [parametersPieces, Piece.lineText_intercalate, List.map_map, parameterText, parameters]
  exact congrArg _ (List.map_congr_left fun arg _ => harg arg)

@[simp] theorem lineText_callLine (name : String) (args : List Argument) (result : TypeExpr) :
    lineText (style.callLine name args result)
      = name ++ "(" ++ style.parameterText args ++ "): " ++ result.text ++ ";" := by
  simp [callLine, Piece.text, String.append_assoc]

@[simp] theorem lineText_constPieces (name : String) (type : IdlType) (value : ConstValue) :
    lineText (style.constPieces name type value) = style.constLine name type value := by
  simp [constPieces, constLine]

@[simp] theorem lineText_attributePieces (a : Attribute) :
    lineText (style.attributePieces a) = style.attributeLine a := by
  simp [attributePieces, attributeLine, typeText]

@[simp] theorem map_lineText_methodPieces? (o : Operation) :
    (style.methodPieces? o).map lineText = style.methodLine? o := by
  simp [methodPieces?, methodLine?, resultText, Function.comp_def]

@[simp] theorem map_lineText_indexPieces? (o : Operation) :
    (style.indexPieces? o).map lineText = style.indexLine? o := by
  simp [indexPieces?, indexLine?, typeText, Function.comp_def]

@[simp] theorem lineText_iteratorPieces (method : String) (item : TypeExpr) :
    lineText (iteratorPieces method item) = iteratorLine method item := by
  simp [iteratorPieces, iteratorLine]

@[simp] theorem lineText_asyncIteratorPieces (method : String) (args : List Argument)
    (item : TypeExpr) : lineText (style.asyncIteratorPieces method args item)
      = asyncIteratorLine method (style.parameterText args) item := by
  simp [asyncIteratorPieces, asyncIteratorLine]

@[simp] theorem lineText_forEachPieces (owner : String) (key value : TypeExpr) :
    lineText (forEachPieces owner key value) = forEachLine owner key value := by
  unfold forEachPieces forEachLine
  simp only [Piece.lineText_cons, lineText_between, Piece.text, String.append_assoc]
  simp only [TypeExpr.text]

theorem map_lineText_toList (line : Option (List Piece)) :
    line.toList.map lineText = (line.map lineText).toList := by
  cases line <;> rfl

theorem map_lineText_operationPieces (o : Operation) :
    (style.operationPieces o).map lineText = style.operationLines o := by
  rw [operationPieces, operationLines, List.map_append, map_lineText_toList,
    map_lineText_methodPieces?]
  congr 1
  obtain ⟨name, result, args, isStatic, special⟩ := o
  cases special with
  | none => rfl
  | some special =>
      cases special <;> cases name <;> simp [map_lineText_toList, Piece.text]

theorem map_lineText_iterationPieces (owner : String) (i : Iteration) :
    (style.iterationPieces owner i).map lineText = style.iterationLines owner i := by
  obtain ⟨kind, isReadonly, key, value, args⟩ := i
  cases kind with
  | iterable => cases key <;> simp [iterationPieces, iterationLines]
  | asyncIterable => cases key <;> simp [iterationPieces, iterationLines]
  | maplike =>
      cases key <;> cases isReadonly <;>
        simp [iterationPieces, iterationLines, Piece.text, String.append_assoc]
  | setlike =>
      cases key <;> cases isReadonly <;>
        simp [iterationPieces, iterationLines, Piece.text, String.append_assoc]

theorem map_lineText_instancePieces (owner : String) (body : MemberBody) :
    (style.instancePieces owner body).map lineText = style.instanceLines owner body := by
  match body with
  | .const name type value => simp [instancePieces, instanceLines]
  | .attribute a =>
      simp only [instancePieces, instanceLines]
      split
      · rfl
      · split <;> simp [Piece.text]
  | .operation o =>
      simp only [instancePieces, instanceLines]
      split
      · rfl
      · exact style.map_lineText_operationPieces o
  | .constructor args => rfl
  | .field f => simp [instancePieces, instanceLines, typeText]
  | .iteration i => exact style.map_lineText_iterationPieces owner i
  | .stringifier => simp [instancePieces, instanceLines, Piece.text]

theorem map_lineText_objectPieces (owner : String) (body : MemberBody) :
    (style.objectPieces owner body).map lineText = style.objectLines owner body := by
  match body with
  | .const name type value => simp [objectPieces, objectLines]
  | .attribute a =>
      simp only [objectPieces, objectLines]
      split <;> simp
  | .operation o =>
      simp only [objectPieces, objectLines]
      split <;> simp [map_lineText_toList]
  | .constructor args => simp [objectPieces, objectLines, TypeExpr.text]
  | .field _ | .iteration _ | .stringifier => rfl

theorem map_lineText_namespacePieces (body : MemberBody) :
    (style.namespacePieces body).map lineText = style.namespaceLines body := by
  match body with
  | .const name type value => simp [namespacePieces, namespaceLines]
  | .attribute a => simp [namespacePieces, namespaceLines, typeText]
  | .operation o =>
      simp [namespacePieces, namespaceLines, map_lineText_toList, resultText, Function.comp_def]
  | .constructor _ | .field _ | .iteration _ | .stringifier => rfl

theorem map_lineText_flatMap {lines : MemberBody → List (List Piece)}
    {texts : MemberBody → List String} (h : ∀ body, (lines body).map lineText = texts body)
    (members : List Member) :
    (members.flatMap fun m => lines m.body).map lineText
      = members.flatMap fun m => texts m.body := by
  simp only [List.map_flatMap, h]

theorem block_markedInterfaceBlock (name : String) (c : Container) :
    (style.markedInterfaceBlock name c).block = style.interfaceBlock name c := by
  obtain ⟨kind, isPartial, parent, members⟩ := c
  have hlines := map_lineText_flatMap (style.map_lineText_instancePieces name) members
  simp only [markedInterfaceBlock, interfaceBlock, MarkedBlock.block, Option.map_some, if_true,
    List.map_append, hlines]
  congr 1
  · cases parent <;> simp [optionalText, Piece.text, TypeExpr.text, String.append_assoc]
  · split <;> simp [Piece.text]

theorem block_markedObjectBlock (name : String) (c : Container) :
    (style.markedObjectBlock name c).block = style.objectBlock name c := by
  have hlines := map_lineText_flatMap (style.map_lineText_objectPieces name) c.members
  simp [markedObjectBlock, objectBlock, MarkedBlock.block, hlines, Piece.text, TypeExpr.text]

theorem block_markedNamespaceBlock (name : String) (c : Container) :
    (style.markedNamespaceBlock name c).block = style.namespaceBlock name c := by
  have hlines := map_lineText_flatMap style.map_lineText_namespacePieces c.members
  simp [markedNamespaceBlock, namespaceBlock, MarkedBlock.block, hlines, Piece.text]

theorem block_markedAliasBlock (name : String) (type : TypeExpr) (pieces : List Piece)
    (h : lineText pieces = type.text) :
    (markedAliasBlock name pieces).block = aliasBlock name type := by
  simp [markedAliasBlock, aliasBlock, MarkedBlock.block, h, Piece.text]

/-- The blocks of a definition are its marked blocks as they are written. -/
theorem blocks_eq_map (model : Model) (d : Definition) :
    style.blocks model d = (style.markedBlocks model d).map MarkedBlock.block := by
  obtain ⟨name, body, extAttrs, span⟩ := d
  cases body with
  | container c =>
      obtain ⟨kind, isPartial, parent, members⟩ := c
      cases kind with
      | interface =>
          simp only [blocks, markedBlocks, List.map_cons, block_markedInterfaceBlock]
          split <;> simp [block_markedObjectBlock]
      | callbackInterface => simp [blocks, markedBlocks, block_markedInterfaceBlock]
      | mixin => rfl
      | dictionary => simp [blocks, markedBlocks, block_markedInterfaceBlock]
      | nameSpace => simp [blocks, markedBlocks, block_markedNamespaceBlock]
  | enumeration values =>
      have htype := block_markedAliasBlock name (style.enumerationType name values)
        [.type (style.enumerationType name values)] (by simp [Piece.text])
      simp [blocks, markedBlocks, htype]
  | typedef type =>
      have htype := block_markedAliasBlock name (TypeExpr.ofType style type)
        [.type (TypeExpr.ofType style type)] (by simp [Piece.text])
      simp [blocks, markedBlocks, htype]
  | callback result args =>
      have htype := block_markedAliasBlock name (style.callbackType result args)
        (style.callbackPieces result args)
        (by simp [callbackPieces, callbackType, Piece.text, TypeExpr.text, parameterText,
          String.append_assoc])
      simp [blocks, markedBlocks, htype]
  | includes mixin => rfl

end Style

end IdlBindings
