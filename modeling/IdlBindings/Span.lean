/-!
Byte ranges of a document, and the byte length of a piece of text in UTF-8. A place is a number of
any size here; `storedPlace` is what a word of 32 bits keeps of it.
-/

namespace IdlBindings

/-- The bytes from `start` up to, not including, `stop`. -/
structure Span where
  start : Nat
  stop : Nat
  deriving DecidableEq, Repr, Inhabited

/-- The same range, `offset` bytes later. -/
def Span.shift (span : Span) (offset : Nat) : Span :=
  ⟨span.start + offset, span.stop + offset⟩

/-- The range whose ends are moved. -/
def Span.move (f : Nat → Nat) (span : Span) : Span := ⟨f span.start, f span.stop⟩

/-- Byte `n` of a text whose first byte is byte `base`, as a place stores it: in a word of 32 bits.
A number loses the bits above that, and a sum wraps around. -/
def storedPlace (base : UInt32) (n : Nat) : Nat := (n.toUInt32 + base).toNat

/-- The range as diagnostics write it. -/
def Span.text (span : Span) : String :=
  s!"{span.start}..{span.stop}"

/-- The number of bytes that UTF-8 needs for these characters. -/
def byteLength : List Char → Nat
  | [] => 0
  | c :: cs => c.utf8Size + byteLength cs

@[simp] theorem byteLength_nil : byteLength [] = 0 := rfl

@[simp] theorem byteLength_cons (c : Char) (cs : List Char) :
    byteLength (c :: cs) = c.utf8Size + byteLength cs := rfl

@[simp] theorem byteLength_append (cs ds : List Char) :
    byteLength (cs ++ ds) = byteLength cs + byteLength ds := by
  induction cs with
  | nil => rw [List.nil_append, byteLength_nil, Nat.zero_add]
  | cons c cs ih => rw [List.cons_append, byteLength_cons, byteLength_cons, ih, Nat.add_assoc]

/-- The bytes of a text are those of its characters. -/
theorem byteLength_toList (text : String) : byteLength text.toList = text.utf8ByteSize := by
  rw [← String.ofList_toList (s := text), String.toList_ofList]
  induction text.toList with
  | nil => rfl
  | cons c cs ih =>
    have hsplit : String.ofList (c :: cs) = String.singleton c ++ String.ofList cs := by
      rw [String.singleton_eq_ofList, ← String.ofList_append]
      rfl
    rw [byteLength_cons, hsplit, String.utf8ByteSize_append, String.utf8ByteSize_singleton, ih]

end IdlBindings
