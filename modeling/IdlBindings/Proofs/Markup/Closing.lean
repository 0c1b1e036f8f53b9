import Mathlib.Data.List.Basic
import IdlBindings.Proofs.Markup.Block
import IdlBindings.Proofs.Markup.Extraction

/-!
Where a block ends. Its content should end at the first closing tag of its element
(`FirstClosing`). But the content is cut into pieces like any other text, and an opening tag runs on
to the next `>`, so one that begins in the content may swallow that closing tag (`Swallowed`). A
block ends where it should exactly when no opening tag does so (`endsFirst_iff`).
-/

namespace IdlBindings.Markup

/-- A closing tag of the element occurs in the text. -/
def HasClosing (element : Element) (text : List Char) : Prop :=
  ∃ before closing after, ClosingTag element closing ∧ text = before ++ (closing ++ after)

/-- `closing` is the first closing tag of the element in the text, and `content` stands before it. -/
structure FirstClosing (element : Element) (text content closing : List Char) : Prop where
  tag : ClosingTag element closing
  cut : ∃ after, text = content ++ (closing ++ after)
  first : ∀ before other after, ClosingTag element other → text = before ++ (other ++ after) →
    content.length ≤ before.length

/-- An opening tag that begins in the content ends with the closing tag. -/
def Swallowed (content closing : List Char) : Prop :=
  ∃ before inner element, inner ≠ [] ∧ content = before ++ inner ∧
    OpeningTag element (inner ++ closing)

variable {element : Element} {offset : Nat} {text content closing piece rest after : List Char}
  {kind : Option TokenKind}

/-- What stands before the first of a character is told by the text. -/
theorem eq_of_append_cons {c : Char} {front front' back back' : List Char} (h : c ∉ front)
    (h' : c ∉ front') (heq : front ++ c :: back = front' ++ c :: back') : front = front' := by
  have hle := beginning_of_notMem ⟨c :: back, heq⟩ h
  have hge := beginning_of_notMem ⟨c :: back', heq.symm⟩ h'
  exact hle.eq_of_length_le hge.length_le

namespace FirstClosing

/-- A text with a closing tag has a first one. -/
theorem exists_of_hasClosing (h : HasClosing element text) :
    ∃ content closing, FirstClosing element text content closing := by
  induction text with
  | nil =>
      obtain ⟨before, closing, after, htag, heq⟩ := h
      obtain ⟨inner, rfl, -⟩ := htag.split
      simp at heq
  | cons c text ih =>
      by_cases hhere : ∃ closing after, ClosingTag element closing ∧ c :: text = closing ++ after
      · obtain ⟨closing, after, htag, heq⟩ := hhere
        exact ⟨[], closing, htag, ⟨after, heq⟩, fun _ _ _ _ _ => Nat.zero_le _⟩
      · have hbehind (before other after : List Char) (htag : ClosingTag element other)
            (heq : c :: text = before ++ (other ++ after)) :
            ∃ more, before = c :: more ∧ text = more ++ (other ++ after) := by
          cases before with
          | nil => exact absurd ⟨other, after, htag, heq⟩ hhere
          | cons d more =>
              obtain ⟨rfl, htail⟩ := List.cons.inj heq
              exact ⟨more, rfl, htail⟩
        obtain ⟨before, closing, after, htag, heq⟩ := h
        obtain ⟨more, -, hmore⟩ := hbehind before closing after htag heq
        obtain ⟨content, closing, hfirst⟩ := ih ⟨more, closing, after, htag, hmore⟩
        obtain ⟨after, hcut⟩ := hfirst.cut
        refine ⟨c :: content, closing, hfirst.tag, ⟨after, congrArg (c :: ·) hcut⟩, ?_⟩
        intro before other after htag heq
        obtain ⟨more, rfl, hmore⟩ := hbehind before other after htag heq
        exact Nat.succ_le_succ (hfirst.first more other after htag hmore)

theorem hasClosing (h : FirstClosing element text content closing) : HasClosing element text := by
  obtain ⟨after, hcut⟩ := h.cut
  exact ⟨content, closing, after, h.tag, hcut⟩

theorem content_plain (h : FirstClosing element text content closing) :
    ¬HasClosing element content := by
  rintro ⟨before, other, behind, htag, rfl⟩
  obtain ⟨after, rfl⟩ := h.cut
  have hle := h.first before other (behind ++ (closing ++ after)) htag (by simp)
  obtain ⟨inner, rfl, -⟩ := htag.split
  simp only [List.length_append, List.length_cons] at hle
  omega

/-- The first closing tag stays the first one when text before it is left out. -/
theorem of_append (h : FirstClosing element (piece ++ text) (piece ++ content) closing) :
    FirstClosing element text content closing := by
  obtain ⟨after, hcut⟩ := h.cut
  rw [List.append_assoc, List.append_cancel_left_eq] at hcut
  refine ⟨h.tag, ⟨after, hcut⟩, fun before other after htag heq => ?_⟩
  have hle := h.first (piece ++ before) other after htag (by rw [heq, List.append_assoc])
  rw [List.length_append, List.length_append] at hle
  omega

/-- There is only one. -/
theorem unique {content' closing' : List Char} (h : FirstClosing element text content closing)
    (h' : FirstClosing element text content' closing') : content = content' ∧ closing = closing' := by
  obtain ⟨after, rfl⟩ := h.cut
  obtain ⟨after', hcut⟩ := h'.cut
  have hlength := Nat.le_antisymm (h.first content' closing' after' h'.tag hcut)
    (h'.first content closing after h.tag rfl)
  obtain ⟨rfl, hclosing⟩ := List.append_inj hcut hlength
  refine ⟨rfl, ?_⟩
  obtain ⟨inner, rfl, -, hinner⟩ := h.tag.split
  obtain ⟨inner', rfl, -, hinner'⟩ := h'.tag.split
  simp only [List.cons_append, List.append_assoc, List.cons.injEq, true_and,
    List.nil_append] at hclosing
  rw [eq_of_append_cons hinner hinner' hclosing]

end FirstClosing

/-! ### Opening tags across a closing tag -/

/-- A `<` behind the front of the first piece makes it an opening tag. -/
theorem openingTag_of_mem_tail (hne : piece ≠ [])
    (hfirst : automaton.first (piece ++ rest) = (kind, piece.length)) (hmem : '<' ∈ piece.tail) :
    ∃ element, OpeningTag element piece := by
  obtain ⟨found, hfound⟩ := first_ne_none (List.append_ne_nil_of_left_ne_nil hne rest)
  have haccepts := Automaton.accepts_of_first rfl hfound
  rw [hfirst, List.take_left] at haccepts
  by_cases hopen : ∃ element, found = .blockOpen element
  · obtain ⟨element, rfl⟩ := hopen
    exact ⟨element, accepts_blockOpen_iff.1 haccepts⟩
  · obtain ⟨s, hrun, haccept⟩ := haccepts
    have hspells := ScanState.spells_run (s := .start) rfl hrun
    exact absurd hmem (ScanState.notMem_tail hspells haccept fun element h => hopen ⟨element, h⟩)

/-- An opening tag has a `>` at its end only. -/
theorem OpeningTag.split_append {front back : List Char} (h : OpeningTag element (front ++ back))
    (hne : back ≠ []) : ∃ inner, back = inner ++ ['>'] ∧ '>' ∉ front ++ inner := by
  obtain ⟨whole, hwhole, hnot⟩ := h.split
  obtain ⟨inner, last, rfl⟩ := (List.eq_nil_or_concat' back).resolve_left hne
  rw [← List.append_assoc] at hwhole
  obtain ⟨hinner, hlast⟩ := List.append_inj' hwhole rfl
  obtain rfl : last = '>' := (List.cons.inj hlast).1
  refine ⟨inner, rfl, fun hmem => ?_⟩
  rw [hinner] at hmem
  exact hnot ((List.mem_cons.1 hmem).resolve_left (by decide))

/-- A first piece that reaches over the content is an opening tag up to the end of the closing tag. -/
theorem swallowed_of_first (hclosing : ClosingTag element closing) (hne : content ≠ [])
    (htext : piece ++ rest = content ++ (closing ++ after))
    (hfirst : automaton.first (piece ++ rest) = (kind, piece.length))
    (hlong : content.length < piece.length) : Swallowed content closing := by
  obtain ⟨more, rfl⟩ : content <+: piece :=
    List.prefix_of_prefix_length_le ⟨closing ++ after, htext.symm⟩ ⟨rest, rfl⟩ (Nat.le_of_lt hlong)
  have hmore : more ≠ [] := by
    rintro rfl
    simp at hlong
  rw [List.append_assoc, List.append_cancel_left_eq] at htext
  obtain ⟨inner, hinner, -, hnot⟩ := hclosing.split
  have hmem : '<' ∈ (content ++ more).tail := by
    obtain ⟨c, content, rfl⟩ := List.exists_cons_of_ne_nil hne
    obtain ⟨d, more, rfl⟩ := List.exists_cons_of_ne_nil hmore
    rw [hinner] at htext
    obtain rfl : d = '<' := (List.cons.inj htext).1
    simp
  obtain ⟨opened, hopening⟩ :=
    openingTag_of_mem_tail (List.append_ne_nil_of_left_ne_nil hne _) hfirst hmem
  -- both the piece and the closing tag end at the first `>`
  obtain ⟨more, rfl, hend⟩ := hopening.split_append hmore
  have hends : more ++ '>' :: rest = '<' :: inner ++ '>' :: after := by
    simpa [hinner] using htext
  have hsame := eq_of_append_cons (fun h => hend (List.mem_append_right content h))
    (fun h => hnot ((List.mem_cons.1 h).resolve_left (by decide))) hends
  exact ⟨[], content, opened, hne, rfl, by rwa [hinner, ← hsame]⟩

/-- Whether a closing tag is swallowed does not depend on a whole piece before it. -/
theorem swallowed_append_iff (hclosing : ClosingTag element closing) (hne : piece ≠ [])
    (hfirst : automaton.first (piece ++ (content ++ (closing ++ after))) = (kind, piece.length)) :
    Swallowed (piece ++ content) closing ↔ Swallowed content closing := by
  have hclosingNe : closing ≠ [] := by
    obtain ⟨tail, rfl, -⟩ := hclosing.split
    exact List.cons_ne_nil _ _
  constructor
  · rintro ⟨before, inner, opened, hinner, heq, hopening⟩
    rcases List.append_eq_append_iff.1 heq with ⟨front, hbefore, hcontent⟩ | ⟨front, hpiece, rfl⟩
    · exact ⟨front, inner, opened, hinner, hcontent, hopening⟩
    by_cases hfront : front = []
    · subst hfront
      exact ⟨[], content, opened, hinner, rfl, hopening⟩
    exfalso
    obtain ⟨last, -, hnot⟩ := hopening.split_append hclosingNe
    subst hpiece
    cases before with
    | nil =>
        -- the opening tag would itself be the first piece
        have hwhole := first_append_of_isTag rfl (accepts_blockOpen_iff.2 hopening) after
        rw [List.nil_append] at hfirst
        rw [List.append_assoc, List.append_assoc, hfirst, Prod.mk.injEq] at hwhole
        have hlength := hwhole.2
        have hpos := List.length_pos_iff.2 hclosingNe
        simp only [List.length_append] at hlength
        omega
    | cons d before =>
        -- the piece is an opening tag, and the inner one would hold its `>`
        have hmem : '<' ∈ (d :: before ++ front).tail := by
          obtain ⟨c, front, rfl⟩ := List.exists_cons_of_ne_nil hfront
          obtain ⟨more, hmore, -⟩ := hopening.split
          obtain rfl : c = '<' := (List.cons.inj hmore).1
          simp
        obtain ⟨outer, houter⟩ := openingTag_of_mem_tail hne hfirst hmem
        obtain ⟨front, rfl, -⟩ := houter.split_append hfront
        exact hnot (by simp)
  · rintro ⟨before, inner, opened, hinner, rfl, hopening⟩
    exact ⟨piece ++ before, inner, opened, hinner, (List.append_assoc ..).symm, hopening⟩

/-! ### The end of a block -/

/-- The search goes by the first piece of markup. -/
theorem findClose_first (element : Element) (offset : Nat) (hne : piece ≠ [])
    (hfirst : automaton.first (piece ++ rest) = (kind, piece.length)) :
    findClose element offset (piece ++ rest) =
      let stop := offset + byteLength piece
      if closes element kind then .closed [] piece
      else if interrupts element kind piece then .interrupted ⟨offset, stop⟩
      else match findClose element stop rest with
        | .closed content tag => .closed (piece ++ content) tag
        | .interrupted opening => .interrupted opening
        | .missing => .missing := by
  obtain ⟨c, cs, rfl⟩ := List.exists_cons_of_ne_nil hne
  rw [List.cons_append] at hfirst ⊢
  have hround := findClose.eq_2 element offset c (cs ++ rest)
  rw [hfirst, ← List.cons_append, List.take_left, List.drop_left] at hround
  exact hround

theorem closingTag_of_closes
    (hfirst : automaton.first (piece ++ rest) = (kind, piece.length))
    (hcloses : closes element kind = true) : ClosingTag element piece := by
  unfold closes at hcloses
  split at hcloses
  · rename_i closed
    obtain rfl : closed = element := beq_iff_eq.1 hcloses
    have haccepts := Automaton.accepts_of_first (A := automaton) rfl
      (show (automaton.first (piece ++ rest)).1 = some (.blockClose closed) by rw [hfirst])
    rw [hfirst, List.take_left] at haccepts
    exact accepts_blockClose_iff.1 haccepts
  · cases hcloses

/-- A search that finds an end finds a closing tag. -/
theorem closingTag_of_findClose (h : findClose element offset text = .closed content closing) :
    ClosingTag element closing := by
  fun_induction findClose element offset text generalizing content closing with
  | case2 offset c cs next =>
      rename_i hcloses
      cases h
      have hle := Automaton.first_le_length (A := automaton) (List.cons_ne_nil c cs)
      have hfirst : automaton.first ((c :: cs).take next.2 ++ (c :: cs).drop next.2) =
          (next.1, ((c :: cs).take next.2).length) := by
        rw [List.take_append_drop, List.length_take_of_le hle]
      exact closingTag_of_closes hfirst hcloses
  | case4 =>
      rename_i hfound ih
      cases h
      exact ih hfound
  | _ => cases h

/-- A search that is not interrupted goes on behind a piece that stands before the first closing
tag. -/
theorem findClose_skip (h : FirstClosing element (piece ++ rest) content closing)
    (hcontent : content ≠ []) (hne : piece ≠ [])
    (hfirst : automaton.first (piece ++ rest) = (kind, piece.length))
    (hrun : ∀ inner, findClose element offset (piece ++ rest) ≠ .interrupted inner) :
    findClose element offset (piece ++ rest) =
      match findClose element (offset + byteLength piece) rest with
      | .closed content tag => .closed (piece ++ content) tag
      | .interrupted opening => .interrupted opening
      | .missing => .missing := by
  have hstep := findClose_first element offset hne hfirst
  have hcloses : closes element kind = false := by
    refine Bool.eq_false_iff.2 fun hcloses => ?_
    have hle := h.first [] piece rest (closingTag_of_closes hfirst hcloses) rfl
    exact hcontent (List.eq_nil_of_length_eq_zero (Nat.le_zero.1 hle))
  have hinterrupts : interrupts element kind piece = false := by
    refine Bool.eq_false_iff.2 fun hinterrupts => hrun ⟨offset, offset + byteLength piece⟩ ?_
    rw [hstep]
    simp only [hcloses, hinterrupts, Bool.false_eq_true, if_false, if_true]
  simpa only [hcloses, hinterrupts, Bool.false_eq_true, if_false] using hstep

/-- A search that is not interrupted stops at the first closing tag unless that is swallowed. -/
theorem findClose_eq_closed_iff (h : FirstClosing element text content closing)
    (hrun : ∀ inner, findClose element offset text ≠ .interrupted inner) :
    findClose element offset text = .closed content closing ↔ ¬Swallowed content closing := by
  -- one piece comes off at a time, so the induction is on the length of the text
  induction hlength : text.length using Nat.strongRecOn generalizing text content offset with
  | ind length ih =>
      obtain ⟨after, hcut⟩ := h.cut
      by_cases hcontent : content = []
      · subst hcontent
        have hclosed := findClose_tag (accepts_blockClose_iff.2 h.tag) offset after
        rw [List.nil_append] at hcut
        subst hcut
        refine iff_of_true hclosed ?_
        rintro ⟨before, inner, opened, hinner, heq, -⟩
        exact hinner (List.append_eq_nil_iff.1 heq.symm).2
      have htext : text ≠ [] := by
        rw [hcut]
        exact List.append_ne_nil_of_left_ne_nil hcontent _
      obtain ⟨kind, piece, rest, rfl, hne, hfirst⟩ := exists_first htext
      have hstep := findClose_skip h hcontent hne hfirst hrun
      have hrest (inner : Span) :
          findClose element (offset + byteLength piece) rest ≠ .interrupted inner := by
        intro hinner
        rw [hinner] at hstep
        exact hrun inner hstep
      by_cases hshort : piece.length ≤ content.length
      · -- the piece lies in the content
        obtain ⟨content, rfl⟩ : piece <+: content :=
          List.prefix_of_prefix_length_le ⟨rest, rfl⟩ ⟨closing ++ after, hcut.symm⟩ hshort
        have hless : rest.length < length := by
          have hpos := List.length_pos_iff.2 hne
          rw [List.length_append] at hlength
          omega
        have hbehind : rest = content ++ (closing ++ after) := by
          rwa [List.append_assoc, List.append_cancel_left_eq] at hcut
        have hswallowed : Swallowed (piece ++ content) closing ↔ Swallowed content closing :=
          swallowed_append_iff h.tag hne (hbehind ▸ hfirst)
        rw [hswallowed, ← ih _ hless h.of_append hrest rfl, hstep]
        cases findClose element (offset + byteLength piece) rest with
        | closed found tag => simp
        | interrupted inner => simp
        | missing => simp
      · -- the piece reaches over the closing tag, and the search goes on behind it
        have hlong := Nat.lt_of_not_le hshort
        refine iff_of_false ?_ (not_not_intro (swallowed_of_first h.tag hcontent hcut hfirst hlong))
        intro hclosed
        rw [hstep] at hclosed
        split at hclosed
        · cases hclosed
          rw [List.length_append] at hshort
          omega
        · cases hclosed
        · cases hclosed

/-- Extraction ends the block that `opening` begins, behind `before`, at the first closing tag in
`behind`, or it reports the block since there is none. -/
def EndsFirst (doc : String) (element : Element) (before opening behind : List Char) : Prop :=
  (∃ content closing after, FirstClosing element behind content closing ∧
    ¬HasClosing element content ∧ behind = content ++ (closing ++ after) ∧
    Turn (byteLength before) after (opening ++ (content ++ closing))
      (blockFragments element (byteLength before) opening content)) ∨
  (¬HasClosing element behind ∧ fragments doc = .error (.report .unterminatedBlock
    ⟨byteLength before, byteLength before + byteLength opening⟩ element.name))

/-- A turn over a block ends it at the last tag of the turn. -/
theorem Turn.findClose_eq {opening : List Char} {found : List Fragment}
    (h : Turn offset after (opening ++ (content ++ closing)) found)
    (hopening : OpeningTag element opening) (hclosing : ClosingTag element closing) :
    findClose element (offset + byteLength opening) (content ++ (closing ++ after))
      = .closed content closing := by
  have htag := first_append_of_isTag rfl (accepts_blockOpen_iff.2 hopening)
    (content ++ (closing ++ after))
  generalize hpiece : opening ++ (content ++ closing) = piece at h
  have hpiece' (rest : List Char) :
      opening ++ (content ++ (closing ++ rest)) = piece ++ rest := by
    rw [← hpiece, List.append_assoc, List.append_assoc]
  cases h with
  | prose hne hfirst hkind =>
      rw [hpiece', hfirst, Prod.mk.injEq] at htag
      rw [htag.1] at hkind
      cases hkind
  | comment hne hfirst hbody =>
      rw [hpiece', List.append_assoc, hfirst, Prod.mk.injEq] at htag
      cases htag.1
  | block hne hfirst hclose =>
      rename_i opened opening' content' closing'
      rw [hpiece', List.append_assoc, List.append_assoc, hfirst, Prod.mk.injEq] at htag
      obtain rfl : opened = element := by
        cases htag.1
        rfl
      obtain ⟨rfl, hblock⟩ := List.append_inj hpiece htag.2.symm
      obtain ⟨inner, hinner, hnot, -⟩ := hclosing.split
      obtain ⟨inner', hinner', hnot', -⟩ := (closingTag_of_findClose hclose).split
      -- the last `<` is where the closing tag begins
      have hback : (inner ++ ['>']).reverse = (inner' ++ ['>']).reverse := by
        have hlast (tail : List Char) (h : '<' ∉ tail) : '<' ∉ (tail ++ ['>']).reverse := by
          simpa using h
        have hall : (inner ++ ['>']).reverse ++ '<' :: content.reverse =
            (inner' ++ ['>']).reverse ++ '<' :: content'.reverse := by
          rw [hinner, hinner'] at hblock
          simpa using congrArg List.reverse hblock
        exact eq_of_append_cons (hlast inner hnot) (hlast inner' hnot') hall
      obtain rfl : inner = inner' := by simpa using hback
      rw [← hinner] at hinner'
      subst hinner'
      obtain rfl := List.append_cancel_right hblock
      exact hclose

/-- A block ends at its first closing tag exactly when no opening tag in its content swallows it. -/
theorem endsFirst_iff {doc : String} {before opening behind : List Char} {found : List Fragment}
    (hdoc : doc.toList = before ++ (opening ++ behind))
    (hbefore : Passes 0 (opening ++ behind) before found) (hopening : OpeningTag element opening)
    (hrun : ¬∃ d, fragments doc = .error d ∧ d.kind = .interruptedBlock ∧
      d.span = ⟨byteLength before, byteLength before + byteLength opening⟩) :
    EndsFirst doc element before opening behind ↔
      ∀ content closing, FirstClosing element behind content closing →
        ¬Swallowed content closing := by
  have hfirst := first_append_of_isTag rfl (accepts_blockOpen_iff.2 hopening) behind
  have hne : opening ≠ [] := by
    obtain ⟨inner, rfl, -⟩ := hopening.split
    exact List.cons_ne_nil _ _
  have hfault {d : Diagnostic} (h : Fault (byteLength before) (opening ++ behind) d) :
      fragments doc = .error d :=
    fragmentsFrom_eq_error_iff.2 ⟨before, _, found, hdoc, hbefore, by rwa [Nat.zero_add]⟩
  have hgoes (inner : Span) :
      findClose element (byteLength before + byteLength opening) behind ≠ .interrupted inner :=
    fun hinner => hrun ⟨_, hfault (.interrupted hne hfirst hinner), rfl, rfl⟩
  constructor
  · rintro (⟨content, closing, after, hclosing, -, rfl, hturn⟩ | ⟨hnone, -⟩) content' closing' hother
    · obtain ⟨rfl, rfl⟩ := hother.unique hclosing
      exact (findClose_eq_closed_iff hother hgoes).1 (hturn.findClose_eq hopening hother.tag)
    · exact absurd hother.hasClosing hnone
  · intro hclear
    by_cases hclosing : HasClosing element behind
    · obtain ⟨content, closing, hclosing⟩ := FirstClosing.exists_of_hasClosing hclosing
      obtain ⟨after, rfl⟩ := hclosing.cut
      have hclose := (findClose_eq_closed_iff hclosing hgoes).2 (hclear content closing hclosing)
      exact .inl ⟨content, closing, after, hclosing, hclosing.content_plain, rfl,
        .block hne hfirst hclose⟩
    · refine .inr ⟨hclosing, hfault (.unterminated hne hfirst ?_)⟩
      cases hclose : findClose element (byteLength before + byteLength opening) behind with
      | missing => rfl
      | interrupted inner => exact absurd hclose (hgoes inner)
      | closed content closing =>
          obtain ⟨after, rfl⟩ := exists_append_of_findClose hclose
          exact absurd ⟨content, closing, after, closingTag_of_findClose hclose, rfl⟩ hclosing

theorem endsFirst_document : EndsFirst (document "a") .pre [] "<pre class=idl>".toList
    "\na\n</pre>".toList := by
  have hbefore : Passes 0 ("<pre class=idl>".toList ++ "\na\n</pre>".toList) [] [] := .nil
  refine (endsFirst_iff (by decide +kernel) hbefore openingTag_pre ?_).2 ?_
  · rintro ⟨d, hd, -⟩
    rw [fragments_document (by decide +kernel)] at hd
    cases hd
  · rintro content closing hfirst ⟨before, inner, opened, hinner, rfl, hswallow⟩
    have hshort : (before ++ inner).length ≤ 3 :=
      hfirst.first "\na\n".toList "</pre>".toList [] closingTag_pre (by decide +kernel)
    have hmem : '<' ∈ before ++ inner := by
      obtain ⟨c, inner, rfl⟩ := List.exists_cons_of_ne_nil hinner
      obtain ⟨rest, hrest, -⟩ := hswallow.split
      obtain rfl : c = '<' := (List.cons.inj hrest).1
      exact List.mem_append_right before List.mem_cons_self
    obtain ⟨after, hcut⟩ := hfirst.cut
    have htake : before ++ inner = "\na\n</pre>".toList.take (before ++ inner).length := by
      rw [hcut, List.take_left]
    have hnone : '<' ∉ "\na\n</pre>".toList.take 3 := by decide +kernel
    rw [htake] at hmem
    exact hnone ((List.take_prefix_take_left hshort).subset hmem)

/-- A tag that begins in the content of an `xmp` and has no `>` of its own. -/
def openInRaw : String := "<xmp class=idl><pre a</xmp></xmp>"

/-- It ends with the closing tag, and the next closing tag ends the block. -/
theorem not_endsFirst_xmp :
    fragments openInRaw = .ok [⟨.xmp, 15, ⟨0, 15⟩, "<pre a</xmp>"⟩] ∧
    HasClosing .xmp "<pre a</xmp>".toList ∧
    ¬EndsFirst openInRaw .xmp [] "<xmp class=idl>".toList "<pre a</xmp></xmp>".toList := by
  have hopening : OpeningTag .xmp "<xmp class=idl>".toList := accepts_blockOpen_iff.1 ⟨_, rfl, rfl⟩
  have hclosing : automaton.Accepts (.blockClose .xmp) "</xmp>".toList := ⟨_, rfl, rfl⟩
  have htag := accepts_blockClose_iff.1 hclosing
  have hinner : HasClosing .xmp "<pre a</xmp>".toList :=
    ⟨"<pre a".toList, _, [], htag, by decide +kernel⟩
  have hclose : findClose .xmp 15 ("<pre a</xmp>".toList ++ ("</xmp>".toList ++ []))
      = .closed "<pre a</xmp>".toList "</xmp>".toList := by
    have hfirst : automaton.first ("<pre a</xmp>".toList ++ ("</xmp>".toList ++ []))
        = (some (.blockOpen .pre), "<pre a</xmp>".toList.length) := by decide +kernel
    rw [findClose_first .xmp 15 (by decide +kernel) hfirst]
    simp only [findClose_tag hclosing]
    rw [List.append_nil]
    rfl
  have hturn : Turn 0 [] ("<xmp class=idl>".toList ++ ("<pre a</xmp>".toList ++ "</xmp>".toList))
      (blockFragments .xmp 0 "<xmp class=idl>".toList "<pre a</xmp>".toList) :=
    .block (by decide +kernel) (by decide +kernel) hclose
  refine ⟨?_, hinner, ?_⟩
  · have hfound : blockFragments .xmp 0 "<xmp class=idl>".toList "<pre a</xmp>".toList
        = [⟨.xmp, 15, ⟨0, 15⟩, "<pre a</xmp>"⟩] := by decide +kernel
    rw [← hfound]
    exact fragmentsFrom_eq_ok_iff.2 (.single hturn)
  · rintro (⟨content, closing, after, hfirst, hplain, hcut, hturn'⟩ | ⟨hnone, -⟩)
    · have hclose' := hturn'.findClose_eq hopening hfirst.tag
      rw [← hcut] at hclose'
      obtain ⟨rfl, rfl⟩ := Closing.closed.inj (hclose.symm.trans hclose')
      exact hplain hinner
    · exact hnone ⟨"<pre a</xmp>".toList, _, [], htag, by decide +kernel⟩

end IdlBindings.Markup
