import Mathlib.Data.List.Chain
import IdlBindings.Proofs.Markup.Block
import IdlBindings.Proofs.Markup.Cut

/-!
Documents put together from prose, comments and blocks. Extraction gives the marked blocks of such a
document and nothing else (`extract_segments`). The pieces that it takes off need not be the
segments, but a piece never reaches over the end of one (`Segment.passes`).
-/

namespace IdlBindings.Markup

def commentMark : List Char := ['<', '!', '-', '-']

def commentEnd : List Char := ['-', '-', '>']

/-- A stretch of a document. -/
inductive Segment where
  | prose (text : List Char)
  /-- A comment, with all that follows its `<!--`. -/
  | comment (body : List Char)
  | block (element : Element) (opening content closing : List Char)

namespace Segment

def text : Segment → List Char
  | .prose text => text
  | .comment body => commentMark ++ body
  | .block _ opening content closing => opening ++ (content ++ closing)

def isProse : Segment → Bool
  | .prose _ => true
  | _ => false

/-- No comment or tag begins in prose, a comment ends where `-->` first comes, and the content of a
block holds no tag. -/
def WellFormed : Segment → Prop
  | .prose text => hasTag text = false ∧ ¬commentMark <:+: text
  | .comment body => commentEnd <:+ body ∧ ¬commentEnd <:+: body.dropLast
  | .block element opening content closing =>
    OpeningTag element opening ∧ hasTag content = false ∧ ClosingTag element closing

/-- The fragment that a segment at byte `offset` holds. -/
def fragments (offset : Nat) : Segment → List Fragment
  | .block element opening content _ => blockFragments element offset opening content
  | _ => []

end Segment

/-- The fragments that segments from byte `offset` on hold. -/
def segmentFragments : Nat → List Segment → List Fragment
  | _, [] => []
  | offset, segment :: rest =>
    segment.fragments offset ++ segmentFragments (offset + byteLength segment.text) rest

/-! ### Prose -/

theorem eq_commentMark {text : List Char} (h : automaton.Accepts .commentOpen text) :
    text = commentMark := by
  obtain ⟨s, hrun, haccept⟩ := h
  have hspells := ScanState.spells_run (s := .start) rfl hrun
  cases s with
  | complete kind =>
      obtain rfl : kind = .commentOpen := Option.some.inj haccept
      exact hspells
  | _ => cases haccept

variable {offset : Nat} {text rest : List Char}

/-- The first piece of prose ends within it, in front of a `<` or of the end of the document. -/
theorem first_prose (hne : text ≠ []) (hplain : beginsTag text = false)
    (hcomment : ¬commentMark <+: text) (hrest : ∀ c ∈ rest.head?, c = '<') :
    ∃ kind n, automaton.first (text ++ rest) = (kind, n) ∧ n ≤ text.length ∧
      opens kind = false := by
  have hfirst : ∃ kind n, automaton.first (text ++ rest) = (some kind, n) ∧ n ≤ text.length ∧
      kind.isTag = false := by
    cases rest with
    | nil =>
        obtain ⟨kind, n, hfirst, -, htag, -⟩ := first_of_beginsTag hne hplain
        rw [List.append_nil]
        have hle := Automaton.first_le_length (A := automaton) hne
        rw [hfirst] at hle
        exact ⟨kind, n, hfirst, hle, htag⟩
    | cons c rest =>
        obtain rfl := hrest c rfl
        exact first_append_lessThan hne hplain rest
  obtain ⟨kind, n, hfirst, hshort, htag⟩ := hfirst
  refine ⟨some kind, n, hfirst, hshort, ?_⟩
  cases kind with
  | commentOpen =>
      have haccepts := Automaton.accepts_of_first (A := automaton) rfl
        (show (automaton.first (text ++ rest)).1 = some .commentOpen by rw [hfirst])
      rw [hfirst, List.take_append_of_le_length hshort] at haccepts
      exact absurd (eq_commentMark haccepts ▸ List.take_prefix n text) hcomment
  | blockOpen element => cases htag
  | _ => rfl

theorem passes_prose (htag : hasTag text = false) (hcomment : ¬commentMark <:+: text)
    (hrest : ∀ c ∈ rest.head?, c = '<') : Passes offset rest text [] := by
  -- one piece comes off at a time, so the induction is on the length of what is left
  induction hlength : text.length using Nat.strongRecOn generalizing text offset with
  | ind length ih =>
      by_cases hne : text = []
      · subst hne
        exact .nil
      obtain ⟨kind, n, hfirst, hshort, hopens⟩ := first_prose hne (beginsTag_eq_false htag)
        (fun h => hcomment h.isInfix) hrest
      have hpos : 1 ≤ n := by
        have := automaton.one_le_first (text ++ rest)
        rwa [hfirst] at this
      have htake : (text.take n).length = n := List.length_take_of_le hshort
      have hturn : Turn offset (text.drop n ++ rest) (text.take n) [] := by
        refine .prose (List.length_pos_iff.1 (by omega)) ?_ hopens
        rw [← List.append_assoc, List.take_append_drop, hfirst, htake]
      have hdrop : (text.drop n).length < length := by
        have := List.length_pos_iff.2 hne
        rw [List.length_drop]
        omega
      have hpasses := Passes.cons hturn (ih _ hdrop (hasTag_drop htag n)
        (fun h => hcomment (h.trans (List.drop_suffix n text).isInfix)) rfl)
      rwa [List.take_append_drop] at hpasses

/-! ### Comments -/

/-- A comment ends at the first `-->`. -/
theorem commentBody?_append {body : List Char} (hend : commentEnd <:+ body)
    (hfirst : ¬commentEnd <:+: body.dropLast) (rest : List Char) :
    commentBody? (body ++ rest) = some body := by
  induction body with
  | nil => exact absurd (List.suffix_nil.1 hend) (List.cons_ne_nil _ _)
  | cons c body ih =>
      rcases List.suffix_cons_iff.1 hend with heq | htail
      · obtain rfl : '-' = c := (List.cons.inj heq).1
        obtain rfl : ['-', '>'] = body := (List.cons.inj heq).2
        rfl
      · have hne : body ≠ [] := by
          rintro rfl
          exact absurd (List.suffix_nil.1 htail) (List.cons_ne_nil _ _)
        rw [List.dropLast_cons_of_ne_nil hne] at hfirst
        have hbody := ih htail fun h => hfirst (h.trans (List.suffix_cons c _).isInfix)
        have hlong : 3 ≤ body.length := htail.length_le
        rw [List.cons_append, commentBody?, hbody]
        · rfl
        · rintro more rfl hmore
          obtain ⟨second, third, fourth, body, rfl⟩ :
              ∃ second third fourth more, body = second :: third :: fourth :: more := by
            match body, hlong with
            | second :: third :: fourth :: more, _ => exact ⟨_, _, _, _, rfl⟩
          simp only [List.cons_append, List.cons.injEq] at hmore
          obtain ⟨rfl, rfl, -⟩ := hmore
          exact hfirst ⟨[], (fourth :: body).dropLast, rfl⟩

theorem turn_comment {body : List Char} (hend : commentEnd <:+ body)
    (hfirst : ¬commentEnd <:+: body.dropLast) : Turn offset rest (commentMark ++ body) [] := by
  refine .comment (List.cons_ne_nil _ _) ?_ (commentBody?_append hend hfirst rest)
  exact Automaton.first_append (s := .complete .commentOpen) (List.cons_ne_nil _ _) rfl rfl
    fun _ _ => rfl

/-! ### Blocks -/

theorem turn_block {element : Element} {opening content closing : List Char}
    (hopening : OpeningTag element opening) (hplain : hasTag content = false)
    (hclosing : ClosingTag element closing) : Turn offset rest (opening ++ (content ++ closing))
      (blockFragments element offset opening content) := by
  rw [← accepts_blockOpen_iff] at hopening
  rw [← accepts_blockClose_iff] at hclosing
  obtain ⟨more, hmore⟩ := exists_cons_of_isTag rfl hopening
  exact .block (hmore ▸ List.cons_ne_nil _ _) (first_append_of_isTag rfl hopening _)
    (findClose_append hplain hclosing _ rest)

/-! ### Documents -/

namespace Segment

/-- Extraction takes a segment off in front of a `<` or of the end of the document. -/
theorem passes {segment : Segment} (h : segment.WellFormed)
    (hrest : segment.isProse = true → ∀ c ∈ rest.head?, c = '<') :
    Passes offset rest segment.text (segment.fragments offset) := by
  cases segment with
  | prose text => exact passes_prose h.1 h.2 (hrest rfl)
  | comment body => exact .single (turn_comment h.1 h.2)
  | block element opening content closing => exact .single (turn_block h.1 h.2.1 h.2.2)

/-- A segment other than prose begins with `<`. -/
theorem head?_text {segment : Segment} (h : segment.WellFormed) (hprose : segment.isProse = false) :
    ∃ more, segment.text = '<' :: more := by
  cases segment with
  | prose text => cases hprose
  | comment body => exact ⟨_, rfl⟩
  | block element opening content closing =>
      obtain ⟨more, rfl⟩ := exists_cons_of_isTag rfl (accepts_blockOpen_iff.2 h.1)
      exact ⟨_, rfl⟩

end Segment

/-- No prose follows prose. -/
def Alternating (segments : List Segment) : Prop :=
  segments.IsChain fun segment next => ¬(segment.isProse = true ∧ next.isProse = true)

theorem passes_segments {segments : List Segment} (hwell : ∀ segment ∈ segments, segment.WellFormed)
    (hchain : Alternating segments) : Passes offset [] (segments.flatMap Segment.text)
      (segmentFragments offset segments) := by
  induction segments generalizing offset with
  | nil => exact .nil
  | cons segment segments ih =>
      obtain ⟨hsegment, hsegments⟩ := List.forall_mem_cons.1 hwell
      have hrest : Passes (offset + byteLength segment.text) [] (segments.flatMap Segment.text)
          (segmentFragments (offset + byteLength segment.text) segments) :=
        ih hsegments hchain.tail
      rw [List.flatMap_cons]
      refine .append (segment.passes hsegment fun hprose => ?_) hrest
      -- behind prose comes a `<`, if anything
      rw [List.append_nil]
      cases segments with
      | nil => simp
      | cons next segments =>
          have hnext : next.isProse = false := by
            simpa [hprose] using (List.isChain_cons_cons.1 hchain).1
          obtain ⟨more, hmore⟩ := next.head?_text (hsegments next List.mem_cons_self) hnext
          simp [hmore]

theorem fragments_segments {segments : List Segment}
    (hwell : ∀ segment ∈ segments, segment.WellFormed) (hchain : Alternating segments) :
    fragments (String.ofList (segments.flatMap Segment.text))
      = .ok (segmentFragments 0 segments) := by
  rw [fragments, String.toList_ofList, fragmentsFrom_eq_ok_iff]
  exact passes_segments hwell hchain

/-- Extraction gives the marked blocks of a document, each with its element and its content, and with
its places too if the document has fewer than `2 ^ 32` bytes. -/
theorem extract_segments {segments : List Segment}
    (hwell : ∀ segment ∈ segments, segment.WellFormed) (hchain : Alternating segments) :
    ∃ found, extract (String.ofList (segments.flatMap Segment.text)) = .ok found ∧
      found.map (fun fragment => (fragment.element, fragment.text))
        = (segmentFragments 0 segments).map (fun fragment => (fragment.element, fragment.text)) ∧
      (byteLength (segments.flatMap Segment.text) < UInt32.size →
        found = segmentFragments 0 segments) := by
  have hall := fragments_segments hwell hchain
  have hextract : extract (String.ofList (segments.flatMap Segment.text))
      = .ok ((segmentFragments 0 segments).map (Fragment.move (storedPlace 0))) := by
    rw [extract, hall]
  refine ⟨_, hextract, ?_, fun hsize => ?_⟩
  · rw [List.map_map]
    rfl
  · rw [← String.toList_ofList (l := segments.flatMap Segment.text), byteLength_toList] at hsize
    rw [extract_eq hsize, hall] at hextract
    exact (Except.ok.inj hextract).symm

/-- Prose that ends like a tag, a comment around a tag, and blocks of which one is marked. -/
def mixedSegments : List Segment :=
  [.prose "a < b ".toList, .comment " <pre class=idl> -->".toList,
    .block .xmp "<xmp>".toList "x<!--".toList "</XMP >".toList, .prose "<pr".toList,
    .block .pre "<pre class=idl>".toList "typedef sequence<long> a;".toList "</pre>".toList]

theorem extract_mixedSegments :
    String.ofList (mixedSegments.flatMap Segment.text) =
      "a < b <!-- <pre class=idl> --><xmp>x<!--</XMP ><pr<pre class=idl>typedef sequence<long> a;</pre>"
    ∧ (∀ segment ∈ mixedSegments, segment.WellFormed) ∧ Alternating mixedSegments ∧
    byteLength (mixedSegments.flatMap Segment.text) < UInt32.size ∧
    extract (String.ofList (mixedSegments.flatMap Segment.text))
      = .ok [⟨.pre, 65, ⟨50, 65⟩, "typedef sequence<long> a;"⟩] := by
  have hwell : ∀ segment ∈ mixedSegments, segment.WellFormed := by
    have hxmp : OpeningTag .xmp "<xmp>".toList := accepts_blockOpen_iff.1 ⟨_, rfl, rfl⟩
    have hxmpEnd : ClosingTag .xmp "</XMP >".toList := accepts_blockClose_iff.1 ⟨_, rfl, rfl⟩
    simp only [mixedSegments, List.forall_mem_cons, Segment.WellFormed]
    exact ⟨by decide +kernel, by decide +kernel, ⟨hxmp, by decide +kernel, hxmpEnd⟩,
      by decide +kernel, ⟨openingTag_pre, by decide +kernel, closingTag_pre⟩, by simp⟩
  have hchain : Alternating mixedSegments := by
    simp [Alternating, mixedSegments, Segment.isProse]
  have hsize : byteLength (mixedSegments.flatMap Segment.text) < UInt32.size := by decide +kernel
  have hblocks : segmentFragments 0 mixedSegments
      = [⟨.pre, 65, ⟨50, 65⟩, "typedef sequence<long> a;"⟩] := by decide +kernel
  obtain ⟨found, hextract, -, hplaces⟩ := extract_segments hwell hchain
  rw [hplaces hsize, hblocks] at hextract
  exact ⟨by decide +kernel, hwell, hchain, hsize, hextract⟩

/-! ### Documents of `2 ^ 32` bytes and other blanks -/

/-- A marked block behind `n` letters of prose. -/
def distantBlock (n : Nat) : List Segment :=
  [.prose (List.replicate n 'a'), .block .pre "<pre class=idl>".toList ['x'] "</pre>".toList]

theorem byteLength_replicate (n : Nat) : byteLength (List.replicate n 'a') = n := by
  induction n with
  | zero => rfl
  | succ n ih =>
      rw [List.replicate_succ, byteLength_cons, ih, Nat.add_comm]
      rfl

theorem wellFormed_replicate (n : Nat) : (Segment.prose (List.replicate n 'a')).WellFormed := by
  constructor
  · induction n with
    | zero => rfl
    | succ n ih =>
        rw [List.replicate_succ, hasTag, Bool.or_eq_false_iff]
        refine ⟨Bool.eq_false_iff.2 fun hbegin => ?_, ih⟩
        obtain ⟨closing, element, htaken⟩ := beginsTag_iff.1 hbegin
        exact absurd (List.cons_prefix_cons.1 htaken).1 (by decide)
  · intro hinfix
    have hmem : '<' ∈ List.replicate n 'a' := hinfix.subset (by decide)
    exact absurd (List.eq_of_mem_replicate hmem) (by decide)

theorem wellFormed_distantBlock (n : Nat) : ∀ segment ∈ distantBlock n, segment.WellFormed := by
  rw [distantBlock, List.forall_mem_cons, List.forall_mem_singleton]
  exact ⟨wellFormed_replicate n, openingTag_pre, by decide, closingTag_pre⟩

theorem alternating_distantBlock (n : Nat) : Alternating (distantBlock n) := by
  simp [Alternating, distantBlock, Segment.isProse]

theorem segmentFragments_distantBlock (n : Nat) :
    segmentFragments 0 (distantBlock n) = [⟨.pre, n + 15, ⟨n, n + 15⟩, "x"⟩] := by
  have hopening : byteLength "<pre class=idl>".toList = 15 := by decide
  simp only [distantBlock, segmentFragments, Segment.fragments, Segment.text, blockFragments,
    byteLength_replicate, carriesIdl_pre, hopening, Nat.zero_add, if_true]
  rfl

theorem extract_distantBlock (n : Nat) :
    extract (String.ofList ((distantBlock n).flatMap Segment.text))
      = .ok [⟨.pre, (n + 15) % UInt32.size, ⟨n % UInt32.size, (n + 15) % UInt32.size⟩, "x"⟩] := by
  have hall := fragments_segments (wellFormed_distantBlock n) (alternating_distantBlock n)
  rw [extract, hall, segmentFragments_distantBlock]
  simp only [List.map_cons, List.map_nil, Fragment.move, Span.move, storedPlace_eq_mod,
    UInt32.toNat_zero, Nat.zero_add]

/-- Behind `2 ^ 32` bytes of prose a block is found at byte 0, and a form feed is no blank in a
tag. -/
theorem extract_displaced :
    (∀ segment ∈ distantBlock UInt32.size, segment.WellFormed) ∧
    Alternating (distantBlock UInt32.size) ∧
    segmentFragments 0 (distantBlock UInt32.size)
      = [⟨.pre, 4294967311, ⟨4294967296, 4294967311⟩, "x"⟩] ∧
    extract (String.ofList ((distantBlock UInt32.size).flatMap Segment.text))
      = .ok [⟨.pre, 15, ⟨0, 15⟩, "x"⟩] ∧
    extract "<pre class=idl>x</pre\x0c>"
      = .error (.report .unterminatedBlock ⟨0, 15⟩ "pre") ∧
    extract "<pre\x0cclass=idl>x</pre>" = .ok [] :=
  ⟨wellFormed_distantBlock _, alternating_distantBlock _, segmentFragments_distantBlock _,
    extract_distantBlock _, by decide +kernel, by decide +kernel⟩

end IdlBindings.Markup
