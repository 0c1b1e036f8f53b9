import IdlBindings.Proofs.Syntax.Readable

/-!
Syntax trees without the places that they were read at. The text of a tree does not depend on its
places, and neither does whether it is readable.
-/

namespace IdlBindings

/-- The member without its place. -/
def Member.unplaced (m : Member) : Member := { m with span := ⟨0, 0⟩ }

def DefinitionBody.unplaced : DefinitionBody → DefinitionBody
  | .container c => .container { c with members := c.members.map Member.unplaced }
  | body => body

/-- The definition without its place and without those of its members. -/
def Definition.unplaced (d : Definition) : Definition :=
  { d with body := d.body.unplaced, span := ⟨0, 0⟩ }

theorem Member.unplaced_eq_iff {m other : Member} :
    m.unplaced = other.unplaced ↔ m.body = other.body ∧ m.extAttrs = other.extAttrs := by
  simp [unplaced]

namespace Definition

theorem text_unplaced (pad : String) (d : Definition) : d.unplaced.text pad = d.text pad := by
  obtain ⟨name, body, extAttrs, span⟩ := d
  cases body with
  | container c =>
      have hmembers : (c.members.map Member.unplaced).map (fun m => pad ++ m.text ++ "\n")
          = c.members.map fun m => pad ++ m.text ++ "\n" := List.map_map ..
      simp only [unplaced, DefinitionBody.unplaced, text, hmembers]
      rfl
  | _ => rfl

/-- Definitions that differ in places only have the same text. -/
theorem listText_congr {definitions others : List Definition}
    (h : definitions.map unplaced = others.map unplaced) (indent : Nat) :
    listText indent definitions = listText indent others := by
  have htexts : ∀ ds : List Definition, (ds.map unplaced).map (text ("".pushn ' ' indent))
      = ds.map (text ("".pushn ' ' indent)) := by
    intro ds
    rw [List.map_map]
    exact List.map_congr_left fun d _ => text_unplaced _ d
  have hempty : definitions.isEmpty = others.isEmpty := by
    rw [← List.isEmpty_map (f := unplaced), h, List.isEmpty_map]
  rw [listText, listText, hempty, ← htexts definitions, h, htexts]

theorem readable_unplaced_iff {d : Definition} : d.unplaced.Readable ↔ d.Readable := by
  obtain ⟨name, body, extAttrs, span⟩ := d
  cases body with
  | container c =>
      constructor
      · rintro ⟨hbody, hattrs⟩
        refine ⟨?_, hattrs⟩
        cases hbody with
        | container h =>
            refine .container ⟨fun m hm => ?_, h.parent, h.partials, h.interface⟩
            have hmember := h.members _ (List.mem_map_of_mem hm)
            exact ⟨hmember.body, hmember.extAttrs, hmember.bare⟩
      · rintro ⟨hbody, hattrs⟩
        refine ⟨?_, hattrs⟩
        cases hbody with
        | container h =>
            refine .container ⟨List.forall_mem_map.2 fun m hm => ?_, h.parent, h.partials,
              h.interface⟩
            have hmember := h.members m hm
            exact ⟨hmember.body, hmember.extAttrs, hmember.bare⟩
  | _ => exact ⟨fun h => ⟨h.body, h.extAttrs⟩, fun h => ⟨h.body, h.extAttrs⟩⟩

end Definition

end IdlBindings
