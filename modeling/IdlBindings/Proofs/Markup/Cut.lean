import IdlBindings.Proofs.Markup.Closing
import IdlBindings.Proofs.Span

/-!
What extraction gives and reports lies in the document: a fragment is cut out between its tags
(`Passes.cut`), and a fault is at tags or comment openings of the document (`Fault.shown`). So every
place is stored as it is, unless the document has `2 ^ 32` bytes or more (`extract_eq`).
-/

namespace IdlBindings

open Markup

/-- The fragment is the content of a marked block of the text, whose first byte is byte `offset` of
the document. -/
def Fragment.Cut (offset : Nat) (text : List Char) (fragment : Fragment) : Prop :=
  ∃ before opening closing after,
    text = before ++ (opening ++ (fragment.text.toList ++ (closing ++ after))) ∧
    OpeningTag fragment.element opening ∧ carriesIdl fragment.element opening = true ∧
    ClosingTag fragment.element closing ∧ fragment.tag.start = offset + byteLength before ∧
    fragment.tag.stop = fragment.tag.start + byteLength opening ∧ fragment.offset = fragment.tag.stop

namespace Markup

variable {offset : Nat} {text rest piece : List Char} {found : List Fragment} {d : Diagnostic}

theorem mem_blockFragments {element : Element} {opening content : List Char} {fragment : Fragment}
    (h : fragment ∈ blockFragments element offset opening content) :
    carriesIdl element opening = true ∧ fragment = ⟨element, offset + byteLength opening,
      ⟨offset, offset + byteLength opening⟩, String.ofList content⟩ := by
  unfold blockFragments at h
  split at h
  · rename_i hcarries
    exact ⟨hcarries, List.mem_singleton.1 h⟩
  · cases h

theorem Turn.cut (h : Turn offset rest piece found) :
    ∀ fragment ∈ found, fragment.Cut offset (piece ++ rest) := by
  cases h with
  | prose => simp
  | comment => simp
  | block hne hfirst hclose =>
      rename_i element opening content closing
      intro fragment hmem
      obtain ⟨hcarries, rfl⟩ := mem_blockFragments hmem
      have hopening := Automaton.accepts_of_first (A := automaton) rfl
        (show (automaton.first _).1 = some (.blockOpen element) by rw [hfirst])
      rw [hfirst, List.take_left] at hopening
      refine ⟨[], opening, closing, rest, ?_, accepts_blockOpen_iff.1 hopening, hcarries,
        closingTag_of_findClose hclose, rfl, rfl, rfl⟩
      simp

/-- A fragment is cut out of the document between its tags. -/
theorem Passes.cut (h : Passes offset rest text found) :
    ∀ fragment ∈ found, fragment.Cut offset (text ++ rest) := by
  induction h with
  | nil => simp
  | cons hturn hrest ih =>
      rename_i offset piece text rest here found
      intro fragment hmem
      rw [List.append_assoc]
      rcases List.mem_append.1 hmem with hhere | hlater
      · exact hturn.cut fragment hhere
      · obtain ⟨before, opening, closing, after, htext, hopening, hcarries, hclosing, hstart, hstop,
          hoffset⟩ := ih fragment hlater
        refine ⟨piece ++ before, opening, closing, after, ?_, hopening, hcarries, hclosing, ?_,
          hstop, hoffset⟩
        · rw [htext, List.append_assoc]
        · rw [hstart, byteLength_append, Nat.add_assoc]

/-- A turn finds what it finds within the piece that it takes. -/
theorem Turn.stop_le (h : Turn offset rest piece found) : ∀ fragment ∈ found,
    fragment.offset + byteLength fragment.text.toList ≤ offset + byteLength piece := by
  cases h with
  | prose => simp
  | comment => simp
  | block hne hfirst hclose =>
      rename_i element opening content closing
      intro fragment hmem
      obtain ⟨-, rfl⟩ := mem_blockFragments hmem
      simp only [String.toList_ofList, byteLength_append]
      omega

/-- What is found comes one after the other. -/
theorem Passes.ordered (h : Passes offset rest text found) :
    found.Pairwise fun former later =>
      former.offset + byteLength former.text.toList ≤ later.tag.start := by
  induction h with
  | nil => exact .nil
  | cons hturn hrest ih =>
      rename_i offset piece text rest here found
      refine List.pairwise_append.2 ⟨?_, ih, fun former hformer later hlater => ?_⟩
      · cases hturn with
        | prose => exact .nil
        | comment => exact .nil
        | block =>
            unfold blockFragments
            split
            · exact List.pairwise_singleton ..
            · exact .nil
      · have hstop := hturn.stop_le former hformer
        obtain ⟨before, -, -, -, -, -, -, -, hstart, -⟩ := hrest.cut later hlater
        omega

/-- An interrupted search names a tag of the text. -/
theorem exists_append_of_interrupted {element : Element} {inner : Span}
    (h : findClose element offset text = .interrupted inner) : ∃ before opening after,
      text = before ++ (opening ++ after) ∧ opening ≠ [] ∧
      inner = ⟨offset + byteLength before, offset + byteLength before + byteLength opening⟩ := by
  fun_induction findClose element offset text generalizing inner with
  | case3 offset c cs next =>
      cases h
      refine ⟨[], _, (c :: cs).drop next.2, (List.take_append_drop ..).symm, ?_, rfl⟩
      have hpos : 1 ≤ next.2 := automaton.one_le_first (c :: cs)
      simpa using Nat.ne_of_gt hpos
  | case5 offset c cs next =>
      rename_i hfound ih
      cases h
      obtain ⟨before, opening, after, hrest, hne, rfl⟩ := ih hfound
      refine ⟨(c :: cs).take next.2 ++ before, opening, after, ?_, hne, ?_⟩
      · rw [List.append_assoc, ← hrest, List.take_append_drop]
      · rw [byteLength_append, ← Nat.add_assoc]
  | _ => cases h

/-- A piece of a document has a range that can be shown. -/
theorem shown_of_append (before : List Char) {piece : List Char} (hne : piece ≠ [])
    (after : List Char) : Span.Shown ⟨byteLength before, byteLength before + byteLength piece⟩
      (before ++ (piece ++ after)) := by
  refine .of_lt (Nat.lt_add_of_pos_right (byteLength_pos hne)) (.of_append before _) ?_
  rw [← List.append_assoc, ← byteLength_append]
  exact .of_append (before ++ piece) after

/-- What is wrong with a document is at pieces of it. -/
theorem Fault.shown {before : List Char} (h : Fault (byteLength before) text d) :
    d.kind.stage = .extraction ∧ d.span.Shown (before ++ text) ∧
      ∀ related ∈ d.related, related.span.Shown (before ++ text) := by
  cases h with
  | comment hne => exact ⟨rfl, shown_of_append before hne _, by simp [Diagnostic.ofKind]⟩
  | unterminated hne =>
      exact ⟨rfl, shown_of_append before hne _, by simp [Diagnostic.report, Diagnostic.ofKind]⟩
  | interrupted hne hfirst hclose =>
      rename_i element opening rest inner
      refine ⟨rfl, shown_of_append before hne _, fun related hmem => ?_⟩
      obtain rfl := List.mem_singleton.1 hmem
      obtain ⟨front, tag, after, rfl, htag, rfl⟩ := exists_append_of_interrupted hclose
      have hshown := shown_of_append (before ++ (opening ++ front)) htag after
      rwa [byteLength_append, byteLength_append, ← Nat.add_assoc, List.append_assoc,
        List.append_assoc] at hshown

end Markup

/-! ### Stored places -/

/-- A fragment ends within its document. -/
theorem Fragment.stop_le {doc : String} {found : List Fragment} (h : fragments doc = .ok found)
    {fragment : Fragment} (hmem : fragment ∈ found) :
    fragment.offset + byteLength fragment.text.toList ≤ doc.utf8ByteSize := by
  obtain ⟨before, opening, closing, after, hdoc, -, -, -, hstart, hstop, hoffset⟩ :=
    (Markup.fragmentsFrom_eq_ok_iff.1 h).cut fragment hmem
  rw [List.append_nil] at hdoc
  rw [← byteLength_toList, hdoc, hoffset, hstop, hstart]
  simp only [byteLength_append]
  omega

theorem Fragment.move_storedPlace {doc : String} {found : List Fragment}
    (h : fragments doc = .ok found) (hsize : doc.utf8ByteSize < UInt32.size) {fragment : Fragment}
    (hmem : fragment ∈ found) : fragment.move (storedPlace 0) = fragment := by
  obtain ⟨before, opening, -, -, -, -, -, -, -, hstop, hoffset⟩ :=
    (Markup.fragmentsFrom_eq_ok_iff.1 h).cut fragment hmem
  have hle : fragment.tag.start ≤ fragment.tag.stop := hstop ▸ Nat.le_add_right _ _
  have hlt : fragment.tag.stop < UInt32.size := by
    have := Fragment.stop_le h hmem
    omega
  have htag : fragment.tag.move (storedPlace 0) = fragment.tag := Span.move_storedPlace hle hlt
  have hplace : storedPlace 0 fragment.tag.stop = fragment.tag.stop := congrArg Span.stop htag
  rw [Fragment.move, htag, hoffset, hplace, ← hoffset]

theorem Diagnostic.relabel_eq_self {g : Span → Span} {d : Diagnostic} (hspan : g d.span = d.span)
    (hrelated : ∀ r ∈ d.related, g r.span = r.span) : d.relabel g = d := by
  have hplaces : (d.related.map fun r => { r with span := g r.span }) = d.related := by
    apply map_eq_self_of_mem
    intro r hr
    rw [hrelated r hr]
  rw [Diagnostic.relabel, hspan, hplaces]

/-- In a document of fewer than `2 ^ 32` bytes all places are stored as they are. -/
theorem extract_eq {doc : String} (hsize : doc.utf8ByteSize < UInt32.size) :
    extract doc = fragments doc := by
  cases hfound : fragments doc with
  | ok found =>
      have hsame : found.map (Fragment.move (storedPlace 0)) = found :=
        map_eq_self_of_mem fun _ hmem => Fragment.move_storedPlace hfound hsize hmem
      rw [extract, hfound]
      exact congrArg Except.ok hsame
  | error fault =>
      obtain ⟨before, rest, found, hdoc, -, hfault⟩ := Markup.fragmentsFrom_eq_error_iff.1 hfound
      rw [Nat.zero_add] at hfault
      obtain ⟨-, hspan, hrelated⟩ := hfault.shown
      rw [← hdoc] at hspan hrelated
      have hkept {span : Span} (h : span.Shown doc.toList) : span.move (storedPlace 0) = span := by
        apply Span.move_storedPlace h.toIn.le
        have hle := h.toIn.stop_le
        rw [byteLength_toList] at hle
        exact Nat.lt_of_le_of_lt hle hsize
      rw [extract, hfound]
      exact congrArg Except.error
        (Diagnostic.relabel_eq_self (hkept hspan) fun r hr => hkept (hrelated r hr))

end IdlBindings
