import IdlBindings.Proofs.Token.Glyph

/-!
What a source may write in another way than the printer. A text is printed slot by slot: most slots
are one glyph, which every source has there, and the others are what the printer settles. That the
glyphs of a source have in each slot what it allows is `Slot.Fills`.
-/

namespace IdlBindings

open Glyph

/-- A place in what is printed. -/
inductive Slot where
  /-- A token, the same in every source. -/
  | glyph (g : Glyph)
  /-- The type `undefined`, whose old name is `void`. -/
  | undefinedType
  /-- The value `-Infinity`, which a source may write as two tokens. -/
  | negativeInfinity
  /-- The place behind the last value of an enumeration, where one more comma may stand. -/
  | valuesEnd
  /-- The place of the arguments that an asynchronous iteration does not have. -/
  | noArguments
  /-- The front of an iteration, where a qualifier may stand. -/
  | iterationFront (isReadonly : Bool)
  deriving DecidableEq, Repr

namespace Slot

/-- What is printed in a slot. -/
def printed : Slot → List Glyph
  | .glyph g => [g]
  | .undefinedType => [word "undefined"]
  | .negativeInfinity => [word "-Infinity"]
  | .valuesEnd | .noArguments | .iterationFront _ => []

/-- What else a source may have in a slot. The word `inherit` stands before `readonly` only. -/
def others : Slot → List (List Glyph)
  | .glyph _ => []
  | .undefinedType => [[word "void"]]
  | .negativeInfinity => [[mark .minus, word "Infinity"]]
  | .valuesEnd => [[mark .comma]]
  | .noArguments => [[mark .parenOpen, mark .parenClose]]
  | .iterationFront isReadonly =>
    [word "static"] :: [word "stringifier"] :: if isReadonly then [[word "inherit"]] else []

/-- The glyphs fill the slots, one after the other. -/
inductive Fills : List Slot → List Glyph → Prop
  | nil : Fills [] []
  | cons {slot : Slot} {slots : List Slot} {gs hs : List Glyph}
      (hfirst : gs ∈ slot.printed :: slot.others) (hrest : Fills slots hs) :
      Fills (slot :: slots) (gs ++ hs)

/-- What is printed in slots. -/
def print (slots : List Slot) : List Glyph := slots.flatMap printed

/-- Slots that leave nothing open. -/
def exactly (gs : List Glyph) : List Slot := gs.map glyph

variable {slots others : List Slot} {gs hs : List Glyph}

@[simp] theorem printed_glyph (g : Glyph) : (glyph g).printed = [g] := rfl

@[simp] theorem print_nil : print [] = [] := rfl

@[simp] theorem print_cons (slot : Slot) (slots : List Slot) :
    print (slot :: slots) = slot.printed ++ print slots := rfl

@[simp] theorem print_append (slots others : List Slot) :
    print (slots ++ others) = print slots ++ print others :=
  List.flatMap_append

@[simp] theorem print_exactly (gs : List Glyph) : print (exactly gs) = gs := by
  induction gs with
  | nil => rfl
  | cons g gs ih => simpa [exactly] using ih

theorem print_flatMap {α : Type} {part : α → List Slot} {glyphs : α → List Glyph}
    (h : ∀ a, print (part a) = glyphs a) (items : List α) :
    print (items.flatMap part) = items.flatMap glyphs := by
  rw [print, List.flatMap_assoc]
  congr 1
  funext a
  exact h a

/-- The printer writes proper tokens where a source has them. -/
theorem allProper_printed {slot : Slot} (hgs : gs ∈ slot.printed :: slot.others)
    (hproper : AllProper gs) : AllProper slot.printed := by
  cases slot with
  | glyph g => rwa [List.mem_singleton.1 hgs] at hproper
  | undefinedType | negativeInfinity => exact allProper_cons.2 ⟨by decide, allProper_nil⟩
  | valuesEnd | noArguments | iterationFront isReadonly => exact allProper_nil

/-- What is printed fills the slots. -/
theorem Fills.print (slots : List Slot) : Fills slots (print slots) := by
  induction slots with
  | nil => exact .nil
  | cons slot slots ih => exact .cons List.mem_cons_self ih

theorem Fills.append (h : Fills slots gs) (h' : Fills others hs) :
    Fills (slots ++ others) (gs ++ hs) := by
  induction h with
  | nil => exact h'
  | cons hfirst _ ih =>
      rw [List.append_assoc]
      exact .cons hfirst ih

theorem Fills.single {slot : Slot} (h : gs ∈ slot.printed :: slot.others) : Fills [slot] gs := by
  simpa using Fills.cons h .nil

theorem Fills.exactly (gs : List Glyph) : Fills (exactly gs) gs := by
  simpa using Fills.print (Slot.exactly gs)

theorem Fills.eq_of_exactly (h : Fills (Slot.exactly gs) hs) : hs = gs := by
  induction gs generalizing hs with
  | nil =>
      cases h
      rfl
  | cons g gs ih =>
      cases h with
      | cons hfirst hrest => rw [List.mem_singleton.1 hfirst, ih hrest]; rfl

/-- A slot that leaves nothing open is filled by its glyph. -/
theorem Fills.head? {g : Glyph} (h : Fills slots gs) (hhead : slots.head? = some (.glyph g)) :
    gs.head? = some g := by
  cases h with
  | nil => cases hhead
  | cons hfirst _ =>
      obtain rfl := Option.some.inj hhead
      obtain rfl := List.mem_singleton.1 hfirst
      rfl

/-- What is printed first stands in every source, if nothing else can stand before it. -/
theorem head?_exactly_append {g : Glyph} (hhead : (print (exactly gs ++ slots)).head? = some g)
    (hnext : gs = [] → (print slots).head? = some g → slots.head? = some (glyph g)) :
    (exactly gs ++ slots).head? = some (glyph g) := by
  rw [print_append, print_exactly] at hhead
  cases gs with
  | nil => exact hnext rfl hhead
  | cons g' gs =>
      obtain rfl := Option.some.inj hhead
      rfl

theorem Fills.mem {g : Glyph} (h : Fills slots gs) (hmem : .glyph g ∈ slots) : g ∈ gs := by
  induction h with
  | nil => cases hmem
  | cons hfirst _ ih =>
      rcases List.mem_cons.1 hmem with rfl | hrest
      · obtain rfl := List.mem_singleton.1 hfirst
        exact List.mem_cons_self
      · exact List.mem_append_right _ (ih hrest)

/-- Parts with a separator between. -/
def joined (sep : Glyph) : List (List Slot) → List Slot
  | [] => []
  | slots :: rest => slots ++ rest.flatMap (.glyph sep :: ·)

theorem exactly_append (gs hs : List Glyph) : exactly (gs ++ hs) = exactly gs ++ exactly hs :=
  List.map_append

theorem exactly_joined (sep : Glyph) (parts : List (List Glyph)) :
    exactly (Glyph.joined sep parts) = joined sep (parts.map exactly) := by
  cases parts with
  | nil => rfl
  | cons gs rest =>
      have hrest : exactly (rest.flatMap (sep :: ·))
          = (rest.map exactly).flatMap (glyph sep :: ·) := by
        rw [exactly, List.map_flatMap, List.flatMap_map]
        rfl
      rw [Glyph.joined, exactly_append, hrest]
      rfl

@[simp] theorem print_joined (sep : Glyph) (parts : List (List Slot)) :
    print (joined sep parts) = Glyph.joined sep (parts.map print) := by
  cases parts with
  | nil => rfl
  | cons slots rest =>
      have hrest : print (rest.flatMap (glyph sep :: ·)) = (rest.map print).flatMap (sep :: ·) := by
        rw [print, List.flatMap_assoc, List.flatMap_map]
        rfl
      rw [joined, print_append, hrest]
      rfl

end Slot

end IdlBindings
