import IdlBindings.Json.Value
import IdlBindings.Syntax.Definition

/-! Definitions as JSON values. A variant is an object whose entry `type` names it. -/

namespace IdlBindings

open JsonValue

/-- A variant with its content under the given key. -/
def JsonValue.tagged (name key : String) (content : JsonValue) : JsonValue :=
  .object [("type", .string name), (key, content)]

/-- A variant without content. -/
def JsonValue.tag (name : String) : JsonValue :=
  .object [("type", .string name)]

def Span.json (span : Span) : JsonValue :=
  .object [("start", .number span.start), ("end", .number span.stop)]

/-- The words of a built-in type run together, each with a capital. -/
def Primitive.variantName (p : Primitive) : String :=
  String.join (p.words.map String.capitalize)

def ConstValue.json : ConstValue → JsonValue
  | .boolean value => tagged "boolean" "value" (.bool value)
  | .integer source => tagged "integer" "value" (.string source)
  | .decimal source => tagged "decimal" "value" (.string source)
  | .infinity => tag "infinity"
  | .negativeInfinity => tag "negative_infinity"
  | .notANumber => tag "na_n"

def DefaultValue.json : DefaultValue → JsonValue
  | .const value => tagged "const" "value" value.json
  | .string content => tagged "string" "value" (.string content)
  | .emptySequence => tag "empty_sequence"
  | .emptyDictionary => tag "empty_dictionary"
  | .null => tag "null"
  | .undefined => tag "undefined"

def AttributeValue.json : AttributeValue → JsonValue
  | .identifier name => tagged "identifier" "value" (.string name)
  | .identifierList names => tagged "identifier_list" "value" (ofList .string names)
  | .string content => tagged "string" "value" (.string content)
  | .integer source => tagged "integer" "value" (.string source)
  | .decimal source => tagged "decimal" "value" (.string source)
  | .wildcard => tag "wildcard"

mutual

def IdlType.json : IdlType → JsonValue
  | .primitive p => tagged "primitive" "of" (.string p.variantName)
  | .named name => tagged "named" "of" (.string name)
  | .sequence item => tagged "sequence" "of" item.json
  | .frozenArray item => tagged "frozen_array" "of" item.json
  | .observableArray item => tagged "observable_array" "of" item.json
  | .record key value => tagged "record" "of" (.array [key.json, value.json])
  | .promise result => tagged "promise" "of" result.json
  | .nullable inner => tagged "nullable" "of" inner.json
  | .union members => tagged "union" "of" (.array (IdlType.jsons members))
  | .any => tag "any"
  | .annotated extAttrs inner =>
    tagged "annotated" "of" (.array [.array (ExtendedAttribute.jsons extAttrs), inner.json])

def IdlType.jsons : List IdlType → List JsonValue
  | [] => []
  | type :: rest => type.json :: IdlType.jsons rest

def ExtendedAttribute.json : ExtendedAttribute → JsonValue
  | ⟨name, value, args⟩ =>
    .object [("name", .string name), ("rhs", ofOption AttributeValue.json value),
      ("args", Argument.optionalJson args)]

def ExtendedAttribute.jsons : List ExtendedAttribute → List JsonValue
  | [] => []
  | attr :: rest => attr.json :: ExtendedAttribute.jsons rest

def Argument.optionalJson : Option (List Argument) → JsonValue
  | none => .null
  | some args => .array (Argument.jsons args)

def Argument.jsons : List Argument → List JsonValue
  | [] => []
  | arg :: rest => arg.json :: Argument.jsons rest

def Argument.json : Argument → JsonValue
  | ⟨name, type, isOptional, isVariadic, default, extAttrs⟩ =>
    .object [("name", .string name), ("ty", type.json), ("optional", .bool isOptional),
      ("variadic", .bool isVariadic), ("default", ofOption DefaultValue.json default),
      ("ext_attrs", .array (ExtendedAttribute.jsons extAttrs))]

end

/-- The entries that every member and definition ends with. -/
def JsonValue.commonEntries (extAttrs : List ExtendedAttribute) (span : Span) :
    List (String × JsonValue) :=
  [("ext_attrs", ofList ExtendedAttribute.json extAttrs), ("span", span.json)]

def IterationKind.variantName : IterationKind → String
  | .iterable => "iterable"
  | .asyncIterable => "async_iterable"
  | .maplike => "maplike"
  | .setlike => "setlike"

/-- The name of a member's variant and the entries of its own. -/
def MemberBody.jsonEntries : MemberBody → List (String × JsonValue)
  | .const name type value =>
    [("type", .string "const"), ("name", .string name), ("ty", type.json), ("value", value.json)]
  | .attribute a =>
    [("type", .string "attribute"), ("name", .string a.name), ("ty", a.type.json),
      ("readonly", .bool a.isReadonly), ("is_static", .bool a.isStatic),
      ("inherit", .bool a.isInherited), ("stringifier", .bool a.isStringifier)]
  | .operation o =>
    [("type", .string "operation"), ("name", ofOption .string o.name), ("ret", o.result.json),
      ("args", ofList Argument.json o.args), ("is_static", .bool o.isStatic),
      ("special", ofOption (fun special => .string special.keyword) o.special)]
  | .constructor args => [("type", .string "constructor"), ("args", ofList Argument.json args)]
  | .field f =>
    [("type", .string "field"), ("name", .string f.name), ("ty", f.type.json),
      ("required", .bool f.isRequired), ("default", ofOption DefaultValue.json f.default)]
  | .iteration i =>
    [("type", .string "iterable"), ("kind", .string i.kind.variantName),
      ("readonly", .bool i.isReadonly), ("key", ofOption IdlType.json i.key),
      ("value", i.value.json), ("args", ofList Argument.json i.args)]
  | .stringifier => [("type", .string "stringifier")]

def Member.json (m : Member) : JsonValue :=
  .object (m.body.jsonEntries ++ commonEntries m.extAttrs m.span)

def ContainerKind.variantName : ContainerKind → String
  | .interface => "interface"
  | .callbackInterface => "callback_interface"
  | .mixin => "mixin"
  | .dictionary => "dictionary"
  | .nameSpace => "namespace"

/-- The name of a symbol kind in JSON. -/
def SymbolKind.variantName : SymbolKind → String
  | .container kind => kind.variantName
  | .enumeration => "enum"
  | .typedef => "typedef"
  | .callback => "callback"

/-- The name of a definition's variant and the entries of its own. -/
def Definition.jsonEntries (d : Definition) : List (String × JsonValue) :=
  match d.body with
  | .container c =>
    [("type", .string "container"), ("kind", .string c.kind.variantName),
      ("name", .string d.name), ("partial", .bool c.isPartial),
      ("inheritance", ofOption .string c.parent), ("members", ofList Member.json c.members)]
  | .enumeration values =>
    [("type", .string "enum"), ("name", .string d.name), ("values", ofList .string values)]
  | .typedef type =>
    [("type", .string "typedef"), ("name", .string d.name), ("ty", type.json)]
  | .callback result args =>
    [("type", .string "callback"), ("name", .string d.name), ("ret", result.json),
      ("args", ofList Argument.json args)]
  | .includes mixin =>
    [("type", .string "includes"), ("target", .string d.name), ("mixin", .string mixin)]

def Definition.json (d : Definition) : JsonValue :=
  .object (d.jsonEntries ++ commonEntries d.extAttrs d.span)

end IdlBindings
