import IdlBindings.Markup.Fragment
import IdlBindings.Proofs.Markup.Tag

/-!
Reading one block. A block whose content holds no tag is read whole, whatever comes after it
(`fragmentsFrom_block`), so a document may hold any such text (`fragments_document`).
-/

namespace IdlBindings.Markup

theorem closes_of_not_isTag {kind : TokenKind} (h : kind.isTag = false) (element : Element) :
    closes element (some kind) = false := by
  cases kind with
  | blockClose closed => cases h
  | _ => rfl

theorem interrupts_of_not_isTag {kind : TokenKind} (h : kind.isTag = false) (element : Element)
    (text : List Char) : interrupts element (some kind) text = false := by
  cases kind with
  | blockOpen inner => cases h
  | _ => rfl

theorem findClose_tag {element : Element} {tag : List Char}
    (htag : automaton.Accepts (.blockClose element) tag) (offset : Nat) (rest : List Char) :
    findClose element offset (tag ++ rest) = .closed [] tag := by
  have hfirst := first_append_of_isTag rfl htag rest
  obtain ⟨more, rfl⟩ := exists_cons_of_isTag rfl htag
  rw [List.cons_append] at hfirst ⊢
  have hcloses : closes element (some (.blockClose element)) = true := beq_self_eq_true element
  rw [findClose, hfirst]
  simp only [hcloses, if_true]
  rw [← List.cons_append, List.take_left]

/-- A block ends at the first closing tag when no other tag stands before it. -/
theorem findClose_append {element : Element} {content tag : List Char}
    (hplain : hasTag content = false) (htag : automaton.Accepts (.blockClose element) tag)
    (offset : Nat) (rest : List Char) :
    findClose element offset (content ++ (tag ++ rest)) = .closed content tag := by
  -- one piece of the content comes off at a time, so the induction is on its length
  induction hlength : content.length using Nat.strongRecOn generalizing content offset with
  | ind length ih =>
      cases content with
      | nil => exact findClose_tag htag offset rest
      | cons c cs =>
          obtain ⟨more, hmore⟩ := exists_cons_of_isTag rfl htag
          obtain ⟨kind, n, hfirst, hshort, hkind⟩ := first_append_lessThan (List.cons_ne_nil c cs)
            (beginsTag_eq_false hplain) (more ++ rest)
          have hpos : 1 ≤ n := by
            have := automaton.one_le_first (c :: cs ++ '<' :: (more ++ rest))
            rwa [hfirst] at this
          have hdrop : ((c :: cs).drop n).length < length := by
            rw [List.length_drop, hlength]
            omega
          have hrest := fun offset => ih _ hdrop (hasTag_drop hplain n) offset rfl
          rw [hmore, List.cons_append] at hrest ⊢
          rw [List.cons_append] at hfirst ⊢
          rw [findClose, hfirst]
          simp only [closes_of_not_isTag hkind, interrupts_of_not_isTag hkind, Bool.false_eq_true,
            if_false]
          rw [← List.cons_append, List.take_append_of_le_length hshort,
            List.drop_append_of_le_length hshort, hrest]
          simp only [List.take_append_drop]

/-- A block without a tag in its content is read whole. -/
theorem fragmentsFrom_block {element : Element} {opening content closing : List Char}
    (hopening : automaton.Accepts (.blockOpen element) opening) (hplain : hasTag content = false)
    (hclosing : automaton.Accepts (.blockClose element) closing) (offset : Nat)
    (rest : List Char) :
    fragmentsFrom offset (opening ++ (content ++ (closing ++ rest))) = (do
      let start := offset + byteLength opening
      let others ← fragmentsFrom (start + byteLength (content ++ closing)) rest
      if carriesIdl element opening then
        return ⟨element, start, ⟨offset, start⟩, String.ofList content⟩ :: others
      else
        return others) := by
  have hfirst := first_append_of_isTag rfl hopening (content ++ (closing ++ rest))
  obtain ⟨more, rfl⟩ := exists_cons_of_isTag rfl hopening
  rw [List.cons_append] at hfirst ⊢
  rw [fragmentsFrom, hfirst]
  simp only
  rw [← List.cons_append, List.take_left, List.drop_left, findClose_append hplain hclosing]
  simp only
  rw [← List.append_assoc content, List.drop_left]

/-- A document whose only block holds a text on lines of its own. -/
def document (text : String) : String :=
  "<pre class=idl>" ++ ("\n" ++ text ++ "\n") ++ "</pre>"

theorem openingTag_pre : OpeningTag .pre "<pre class=idl>".toList :=
  accepts_blockOpen_iff.1 ⟨_, rfl, rfl⟩

theorem closingTag_pre : ClosingTag .pre "</pre>".toList := accepts_blockClose_iff.1 ⟨_, rfl, rfl⟩

theorem carriesIdl_pre : carriesIdl .pre "<pre class=idl>".toList = true := by decide +kernel

theorem hasTag_between_lines {text : String} (h : hasTag text.toList = false) :
    hasTag ("\n" ++ text ++ "\n").toList = false := by
  have hlines : ("\n" ++ text ++ "\n").toList = [] ++ '\n' :: (text.toList ++ '\n' :: []) := by
    simp
  rw [hlines]
  refine hasTag_append parts_newline rfl ?_
  rw [hasTag, Bool.or_eq_false_iff]
  exact ⟨rfl, hasTag_append parts_newline h rfl⟩

theorem fragments_document {text : String} (h : hasTag text.toList = false) :
    fragments (document text) = .ok [⟨.pre, 15, ⟨0, 15⟩, "\n" ++ text ++ "\n"⟩] := by
  have hopening := accepts_blockOpen_iff.2 openingTag_pre
  have hclosing := accepts_blockClose_iff.2 closingTag_pre
  have hcarries := carriesIdl_pre
  have hlength : byteLength "<pre class=idl>".toList = 15 := by decide +kernel
  have hend : ∀ offset, fragmentsFrom offset [] = .ok [] := fun _ => by rw [fragmentsFrom.eq_def]
  have hdocument : (document text).toList = "<pre class=idl>".toList
      ++ (("\n" ++ text ++ "\n").toList ++ ("</pre>".toList ++ [])) := by
    rw [document, String.toList_append, String.toList_append, List.append_nil, List.append_assoc]
  -- the tags are long terms that no rewrite should open
  rw [fragments, hdocument]
  generalize "<pre class=idl>".toList = opening at hopening hcarries hlength ⊢
  generalize "</pre>".toList = closing at hclosing ⊢
  rw [fragmentsFrom_block hopening (hasTag_between_lines h) hclosing, hcarries, hlength,
    String.ofList_toList]
  simp only [hend]
  rfl

end IdlBindings.Markup
