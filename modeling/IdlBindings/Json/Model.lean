import IdlBindings.Json.Definition
import IdlBindings.Model

/-! The linked model as a JSON value. -/

namespace IdlBindings

def Model.json (model : Model) : JsonValue :=
  .object [("definitions", .object (model.definitions.map fun d => (d.name, d.json))),
    ("globals", .ofList .string model.globals),
    ("consumed_mixins", .ofList .string model.consumedMixins)]

end IdlBindings
