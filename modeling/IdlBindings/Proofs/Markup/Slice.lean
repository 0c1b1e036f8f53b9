import IdlBindings.Proofs.Checked.Text
import IdlBindings.Proofs.Markup.Spacing

/-!
The bytes of a document at its fragments. The place of a fragment's tag holds an opening tag that
carries definitions, its text stands right behind, and a closing tag of the same element right
behind the text (`Fragment.FramedBy`). One such frame ends before the next begins
(`Fragment.framed_of_fragments`).
-/

namespace IdlBindings

open Checked Markup

namespace Fragment

/-- What the bytes of a document are at a fragment whose closing tag has the place `closing`. -/
structure FramedBy (doc : List Char) (fragment : Fragment) (closing : Span) : Prop where
  opening : ∃ tag, slice? doc fragment.tag.start fragment.tag.stop = some tag ∧
    OpeningTag fragment.element tag ∧ carriesIdl fragment.element tag = true
  offset : fragment.tag.stop = fragment.offset
  text : slice? doc fragment.offset (fragment.offset + fragment.size) = some fragment.text.toList
  behind : closing.start = fragment.offset + fragment.size
  closing : ∃ tag, slice? doc closing.start closing.stop = some tag ∧
    ClosingTag fragment.element tag

/-- Fragments with the places of their closing tags, one after the other from byte `first` up to
byte `last` of a document. -/
structure Frames (doc : List Char) (first last : Nat) (frames : List (Fragment × Span)) : Prop where
  framed : ∀ frame ∈ frames, frame.1.FramedBy doc frame.2
  within : ∀ frame ∈ frames, first ≤ frame.1.tag.start ∧ frame.2.stop ≤ last
  ordered : frames.Pairwise fun former later => former.2.stop ≤ later.1.tag.start

namespace Frames

variable {doc : List Char} {first middle last : Nat} {frames others : List (Fragment × Span)}

theorem nil : Frames doc first last [] :=
  ⟨List.forall_mem_nil _, List.forall_mem_nil _, .nil⟩

theorem single {frame : Fragment × Span} (h : frame.1.FramedBy doc frame.2)
    (hfirst : first ≤ frame.1.tag.start) (hlast : frame.2.stop ≤ last) :
    Frames doc first last [frame] :=
  ⟨List.forall_mem_singleton.2 h, List.forall_mem_singleton.2 ⟨hfirst, hlast⟩,
    List.pairwise_singleton ..⟩

theorem append (h : Frames doc first middle frames) (hothers : Frames doc middle last others)
    (hfirst : first ≤ middle) (hlast : middle ≤ last) :
    Frames doc first last (frames ++ others) where
  framed := List.forall_mem_append.2 ⟨h.framed, hothers.framed⟩
  within := by
    refine List.forall_mem_append.2 ⟨fun frame hframe => ?_, fun frame hframe => ?_⟩
    · have hwithin := h.within frame hframe
      omega
    · have hwithin := hothers.within frame hframe
      omega
  ordered := by
    refine List.pairwise_append.2 ⟨h.ordered, hothers.ordered, ?_⟩
    intro former hformer later hlater
    have hstop := (h.within former hformer).2
    have hstart := (hothers.within later hlater).1
    omega

end Frames

end Fragment

open Fragment

namespace Markup

variable {before rest piece text : List Char} {found : List Fragment}

/-- A block of the document, cut at its tags. -/
theorem framedBy_block {element : Element} {opening content closing : List Char}
    (hopening : OpeningTag element opening) (hcarries : carriesIdl element opening = true)
    (hclosing : ClosingTag element closing) (before rest : List Char) :
    FramedBy (before ++ (opening ++ (content ++ closing) ++ rest))
      ⟨element, byteLength before + byteLength opening,
        ⟨byteLength before, byteLength before + byteLength opening⟩, String.ofList content⟩
      ⟨byteLength before + byteLength opening + byteLength content,
        byteLength before + byteLength opening + byteLength content + byteLength closing⟩ where
  opening := by
    refine ⟨opening, slice?_eq_some_iff.2 ⟨before, content ++ (closing ++ rest), ?_, rfl, rfl⟩,
      hopening, hcarries⟩
    simp only [List.append_assoc]
  offset := rfl
  text := by
    rw [Fragment.size, String.toList_ofList]
    refine slice?_eq_some_iff.2 ⟨before ++ opening, closing ++ rest, ?_, byteLength_append _ _, rfl⟩
    simp only [List.append_assoc]
  behind := by rw [Fragment.size, String.toList_ofList]
  closing := by
    refine ⟨closing, slice?_eq_some_iff.2 ⟨before ++ (opening ++ content), rest, ?_, ?_, rfl⟩,
      hclosing⟩
    · simp only [List.append_assoc]
    · rw [byteLength_append, byteLength_append, Nat.add_assoc]

/-- What a turn finds behind `before` has its frame in the piece that the turn takes. -/
theorem Turn.frames (h : Turn (byteLength before) rest piece found) : ∃ frames,
    frames.map Prod.fst = found ∧ Frames (before ++ (piece ++ rest)) (byteLength before)
      (byteLength before + byteLength piece) frames := by
  cases h with
  | prose => exact ⟨[], rfl, .nil⟩
  | comment => exact ⟨[], rfl, .nil⟩
  | block hne hfirst hclose =>
      rename_i element opening content closing
      unfold blockFragments
      by_cases hcarries : carriesIdl element opening = true
      · rw [if_pos hcarries]
        have hopening := Automaton.accepts_of_first (A := automaton) rfl
          (show (automaton.first _).1 = some (.blockOpen element) by rw [hfirst])
        rw [hfirst, List.take_left] at hopening
        refine ⟨[(_, _)], rfl, .single (framedBy_block (accepts_blockOpen_iff.1 hopening) hcarries
          (closingTag_of_findClose hclose) before rest) (Nat.le_refl _) ?_⟩
        simp only [byteLength_append]
        omega
      · rw [if_neg hcarries]
        exact ⟨[], rfl, .nil⟩

/-- The frames of a run of turns lie one after the other. -/
theorem Passes.frames (h : Passes (byteLength before) rest text found) : ∃ frames,
    frames.map Prod.fst = found ∧ Frames (before ++ (text ++ rest)) (byteLength before)
      (byteLength before + byteLength text) frames := by
  -- the document stays the same while its front grows by one piece after the other
  generalize hoffset : byteLength before = offset at h
  induction h generalizing before with
  | nil => exact ⟨[], rfl, .nil⟩
  | cons hturn hrest ih =>
      rename_i offset piece text rest here found
      subst hoffset
      obtain ⟨frames, rfl, hframes⟩ := hturn.frames
      obtain ⟨others, rfl, hothers⟩ := @ih (before ++ piece) (byteLength_append _ _)
      rw [List.append_assoc] at hothers
      refine ⟨frames ++ others, List.map_append, ?_⟩
      rw [List.append_assoc, byteLength_append, ← Nat.add_assoc]
      exact hframes.append hothers (Nat.le_add_right _ _) (Nat.le_add_right _ _)

end Markup

namespace Fragment

/-- The fragments of a document of fewer than `2 ^ 32` bytes are slices of it, in order. Each has an
opening tag that marks it, its text right behind and a closing tag of its element right behind the
text, which ends before the tag of the next one and, like all places in the document, fits in a
word. -/
theorem framed_of_fragments {doc : String} {found : List Fragment}
    (hsize : doc.utf8ByteSize < UInt32.size) (h : fragments doc = .ok found) :
    ∃ frames : List (Fragment × Span), frames.map Prod.fst = found ∧
      (∀ frame ∈ frames, frame.1.FramedBy doc.toList frame.2 ∧ frame.2.stop < UInt32.size) ∧
      frames.Pairwise fun former later => former.2.stop ≤ later.1.tag.start := by
  have hpasses : Passes (byteLength []) [] doc.toList found := fragmentsFrom_eq_ok_iff.1 h
  obtain ⟨frames, hfound, hframes⟩ := hpasses.frames
  rw [List.nil_append, List.append_nil] at hframes
  refine ⟨frames, hfound, fun frame hframe => ⟨hframes.framed frame hframe, ?_⟩, hframes.ordered⟩
  have hstop := (hframes.within frame hframe).2
  rw [byteLength_nil, Nat.zero_add, byteLength_toList] at hstop
  omega

/-- Behind a letter of two bytes: a comment, a block that is not marked, and two that are, with tags
in either case. -/
def mixedBlocks : String :=
  "é<!-- <pre> --><pre>p</pre><PRE Class='x idl'>ü;</pRe\n><script type=IDL></script>"

theorem framed_of_fragments_mixedBlocks : ∃ frames : List (Fragment × Span),
    mixedBlocks.utf8ByteSize < UInt32.size ∧
    fragments mixedBlocks = .ok [⟨.pre, 47, ⟨28, 47⟩, "ü;"⟩, ⟨.script, 74, ⟨57, 74⟩, ""⟩] ∧
    frames.map Prod.fst = [⟨.pre, 47, ⟨28, 47⟩, "ü;"⟩, ⟨.script, 74, ⟨57, 74⟩, ""⟩] ∧
    (∀ frame ∈ frames, frame.1.FramedBy mixedBlocks.toList frame.2) ∧
    frames.Pairwise fun former later => former.2.stop ≤ later.1.tag.start := by
  have hsize : mixedBlocks.utf8ByteSize < UInt32.size := by decide +kernel
  have hfound : fragments mixedBlocks
      = .ok [⟨.pre, 47, ⟨28, 47⟩, "ü;"⟩, ⟨.script, 74, ⟨57, 74⟩, ""⟩] := by decide +kernel
  obtain ⟨frames, hframes, hframed, hordered⟩ := framed_of_fragments hsize hfound
  exact ⟨frames, hsize, hfound, hframes, fun frame hframe => (hframed frame hframe).1, hordered⟩

end Fragment

end IdlBindings
