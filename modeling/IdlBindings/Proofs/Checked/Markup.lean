import IdlBindings.Proofs.Checked.Text
import IdlBindings.Proofs.Markup.Closing

/-!
Extraction over the bytes of a document. Its state is a byte of the document, and the text of a
piece of markup is cut out of the document when it is needed; it gives `none` when a slice or a word
is out of range. A document of fewer than `2 ^ 32` bytes has the same fragments
(`fragments?_eq`).
-/

namespace IdlBindings

open Checked

namespace Markup

/-! ### Tags -/

/-- A value without the quotes around it. -/
def unquote? (text : List Char) : Option (List Char) :=
  if 2 ≤ byteLength text ∧ (text.head? = some '"' ∨ text.head? = some '\'') then do
    slice? text 1 (← sub? (byteLength text) 1)
  else some text

/-- Read the attributes from the pieces after the element name. -/
def readAttributes? : Pending → List (Lexeme TagPiece) → Option (List TagAttribute)
  | pending, [] => some pending.flush
  | pending, ⟨kind, text⟩ :: rest => do
    match kind, pending with
    | some .word, .value key | some .quoted, .value key =>
      let value ← unquote? text
      let others ← readAttributes? .nothing rest
      return ⟨String.ofList key, String.ofList value⟩ :: others
    | some .word, pending => return pending.flush ++ (← readAttributes? (.name text) rest)
    | some .equals, .name key => readAttributes? (.value key) rest
    | _, pending => readAttributes? pending rest

def attributes? (tag : List Char) : Option (List TagAttribute) :=
  let inner := ((tag.dropWhile (· == '<')).reverse.dropWhile (· == '>')).reverse
  readAttributes? .nothing (afterElementName (tagAutomaton.scan inner))

/-- Whether a tag marks its block as interface definitions. -/
def carriesIdl? (element : Element) (tag : List Char) : Option Bool := do
  let found ← attributes? tag
  match element with
  | .pre | .xmp =>
    return (attribute? found "class").any fun value => (words value).contains "idl"
  | .script => return (attribute? found "type").any fun value => asciiLower value == "idl"

/-! ### Pieces of markup -/

/-- A piece of markup, from byte `start` up to byte `stop` of the document. -/
structure Piece where
  kind : Option TokenKind
  start : Nat
  stop : Nat

namespace Piece

/-- The piece of markup at a byte of the document; none at its end. -/
def at? (doc : List Char) (start : Nat) : Option (Option Piece) := do
  let (_, behind) ← split? start doc
  match behind with
  | [] => return none
  | c :: cs =>
    let next := automaton.first (c :: cs)
    return some ⟨next.1, start, start + byteLength ((c :: cs).take next.2)⟩

def text? (doc : List Char) (piece : Piece) : Option (List Char) :=
  slice? doc piece.start piece.stop

def span? (piece : Piece) : Option Span := do
  return ⟨← word? piece.start, ← word? piece.stop⟩

end Piece

/-- How a block ends. -/
inductive Ending where
  /-- At its closing tag, from byte `stop` up to byte `next`. -/
  | closed (stop next : Nat)
  | interrupted (opening : Span)
  | missing

/-- Whether this piece of markup shows that a block of `element` was never closed. -/
def interrupts? (element : Element) (kind : Option TokenKind) (text : List Char) : Option Bool :=
  match kind with
  | some (.blockOpen inner) => if element == .pre then carriesIdl? inner text else some false
  | _ => some false

/-- Look for the end of a block from byte `start` on, in at most `limit` rounds. -/
def findEnd? (doc : List Char) (element : Element) : Nat → Nat → Option Ending
  | 0, _ => none
  | limit + 1, start => do
    match ← Piece.at? doc start with
    | none => return .missing
    | some piece =>
      let text ← piece.text? doc
      if closes element piece.kind then return .closed piece.start piece.stop
      else if ← interrupts? element piece.kind text then return .interrupted (← piece.span?)
      else findEnd? doc element limit piece.stop

/-- The byte at which the first `-->` begins. -/
def arrow? : List Char → Option Nat
  | '-' :: '-' :: '>' :: _ => some 0
  | [] => none
  | c :: rest => (arrow? rest).map (c.utf8Size + ·)

/-- The fragments from byte `start` on, in at most `limit` rounds. -/
def fragmentsAt? (doc : List Char) : Nat → Nat → Option (Except Diagnostic (List Fragment))
  | 0, _ => none
  | limit + 1, start => do
    match ← Piece.at? doc start with
    | none => return .ok []
    | some piece =>
      match piece.kind with
      | some .commentOpen =>
        let (_, behind) ← split? piece.stop doc
        match arrow? behind with
        | some length =>
          let _ ← split? (length + 3) behind
          fragmentsAt? doc limit (piece.stop + (length + 3))
        | none => return .error (.ofKind .unterminatedComment (← piece.span?) none)
      | some (.blockOpen element) =>
        let tag ← piece.span?
        let marked ← carriesIdl? element (← piece.text? doc)
        match ← findEnd? doc element (doc.length + 1) piece.stop with
        | .closed stop next =>
          if marked then
            let offset ← word? piece.stop
            let content ← slice? doc piece.stop stop
            let others ← fragmentsAt? doc limit next
            return (⟨element, offset, tag, String.ofList content⟩ :: ·) <$> others
          else fragmentsAt? doc limit next
        | .interrupted opening =>
          return .error <| (Diagnostic.report .interruptedBlock tag element.name).withRelated
            "IDL block opens here" opening
        | .missing => return .error (.report .unterminatedBlock tag element.name)
      | _ => fragmentsAt? doc limit piece.stop

/-! ### Quotes -/

/-- A run from inside the quotes ends at the closing one. -/
theorem eq_concat_of_run {q : Char} {s t : TagState} {piece : TagPiece} {cs : List Char}
    (hstep : ∀ c, s.step c = if c == q then some (.complete .quoted) else some s)
    (haccept : s.accept = none) (hrun : tagAutomaton.run s cs = some t)
    (hpiece : t.accept = some piece) : ∃ content, cs = content ++ [q] := by
  induction cs with
  | nil =>
      cases hrun
      cases haccept.symm.trans hpiece
  | cons c cs ih =>
      have hnext : ((s.step c).bind fun next => tagAutomaton.run next cs) = some t := hrun
      rw [hstep] at hnext
      split at hnext
      · rename_i hquote
        obtain rfl := beq_iff_eq.1 hquote
        cases cs with
        | nil => exact ⟨[], rfl⟩
        | cons d cs => cases hnext
      · obtain ⟨content, rfl⟩ := ih hnext
        exact ⟨c :: content, rfl⟩

/-- A piece of a tag that begins with a quote ends with it. -/
theorem quoted_of_accepts {q : Char} (hq : q = '"' ∨ q = '\'') {piece : TagPiece} {rest : List Char}
    (h : tagAutomaton.Accepts piece (q :: rest)) : ∃ content, rest = content ++ [q] := by
  obtain ⟨t, hrun, hpiece⟩ := h
  rcases hq with rfl | rfl
  · exact eq_concat_of_run (s := .doubleQuoted) (fun c => rfl) rfl hrun hpiece
  · exact eq_concat_of_run (s := .singleQuoted) (fun c => rfl) rfl hrun hpiece

theorem unquote?_of_quoted {q : Char} (hq : q = '"' ∨ q = '\'') (content : List Char) :
    unquote? (q :: (content ++ [q])) = some content := by
  have hsize : q.utf8Size = 1 := by rcases hq with rfl | rfl <;> rfl
  have hlength : byteLength (q :: (content ++ [q])) = 1 + (byteLength content + 1) := by
    rw [byteLength_cons, byteLength_append, byteLength_cons, byteLength_nil, hsize, Nat.add_zero]
  have hslice : slice? ([q] ++ (content ++ [q])) (byteLength [q])
      (byteLength [q] + byteLength content) = some content := slice?_append [q] content [q]
  have hone : byteLength [q] = 1 := by rw [byteLength_cons, hsize, byteLength_nil]
  rw [hone] at hslice
  have hquote : (q :: (content ++ [q])).head? = some '"' ∨
      (q :: (content ++ [q])).head? = some '\'' := by
    rcases hq with rfl | rfl
    · exact .inl rfl
    · exact .inr rfl
  rw [unquote?, if_pos ⟨by omega, hquote⟩, hlength, sub?_add, Option.bind_eq_bind,
    Option.bind_some, Nat.add_comm _ 1]
  exact hslice

/-- Every piece of a tag is unquoted within its text. -/
theorem unquote?_eq {piece : TagPiece} {text : List Char} (h : tagAutomaton.Accepts piece text) :
    unquote? text = some (unquote text) := by
  by_cases hquote : ∃ q rest, text = q :: rest ∧ (q = '"' ∨ q = '\'')
  · obtain ⟨q, rest, rfl, hq⟩ := hquote
    obtain ⟨content, rfl⟩ := quoted_of_accepts hq h
    have hne : (content ++ [q]).isEmpty = false := by simp
    rw [unquote?_of_quoted hq]
    rcases hq with rfl | rfl
    · rw [unquote, hne]
      simp
    · rw [unquote, hne]
      simp
  · have hhead : ¬(text.head? = some '"' ∨ text.head? = some '\'') := by
      rintro (hq | hq)
      · obtain ⟨rest, rfl⟩ := List.head?_eq_some_iff.1 hq
        exact hquote ⟨_, rest, rfl, .inl rfl⟩
      · obtain ⟨rest, rfl⟩ := List.head?_eq_some_iff.1 hq
        exact hquote ⟨_, rest, rfl, .inr rfl⟩
    rw [unquote?, if_neg fun hboth => hhead hboth.2]
    unfold unquote
    split
    · exact absurd (.inl rfl) hhead
    · exact absurd (.inr rfl) hhead
    · rfl

/-! ### Attributes -/

theorem mem_of_mem_afterElementName {lexemes : List (Lexeme TagPiece)} {lexeme : Lexeme TagPiece}
    (h : lexeme ∈ afterElementName lexemes) : lexeme ∈ lexemes := by
  fun_induction afterElementName lexemes with
  | case1 => exact h
  | case2 => exact List.mem_cons_of_mem _ h
  | case3 =>
      rename_i ih
      exact List.mem_cons_of_mem _ (ih h)

theorem readAttributes?_eq {lexemes : List (Lexeme TagPiece)} (pending : Pending)
    (h : ∀ lexeme ∈ lexemes, lexeme.kind ≠ none →
      unquote? lexeme.text = some (unquote lexeme.text)) :
    readAttributes? pending lexemes = some (readAttributes pending lexemes) := by
  fun_induction readAttributes pending lexemes with
  | case1 pending => rfl
  | case2 =>
      rename_i ih
      obtain ⟨hfirst, hrest⟩ := List.forall_mem_cons.1 h
      simp only [readAttributes?, hfirst nofun, ih hrest, Option.bind_eq_bind, Option.bind_some]
      rfl
  | case3 =>
      rename_i ih
      obtain ⟨hfirst, hrest⟩ := List.forall_mem_cons.1 h
      simp only [readAttributes?, hfirst nofun, ih hrest, Option.bind_eq_bind, Option.bind_some]
      rfl
  | case4 =>
      rename_i ih
      have hrest := ih (List.forall_mem_cons.1 h).2
      simp only [readAttributes?, hrest, Option.bind_eq_bind, Option.bind_some]
      rfl
  | case5 =>
      rename_i ih
      simp only [readAttributes?, ih (List.forall_mem_cons.1 h).2]
  | case6 =>
      rename_i ih
      simp only [readAttributes?, ih (List.forall_mem_cons.1 h).2]

theorem attributes?_eq (tag : List Char) : attributes? tag = some (attributes tag) := by
  refine readAttributes?_eq .nothing fun lexeme hmem hkind => ?_
  obtain ⟨piece, hpiece⟩ := Option.ne_none_iff_exists'.1 hkind
  have hscan := mem_of_mem_afterElementName hmem
  exact unquote?_eq (tagAutomaton.accepts_of_mem_scan rfl _ hscan hpiece)

theorem carriesIdl?_eq (element : Element) (tag : List Char) :
    carriesIdl? element tag = some (carriesIdl element tag) := by
  rw [carriesIdl?, attributes?_eq]
  cases element <;> rfl

theorem interrupts?_eq (element : Element) (kind : Option TokenKind) (text : List Char) :
    interrupts? element kind text = some (interrupts element kind text) := by
  rcases kind with _ | (_ | inner | _ | _ | _)
  case some.blockOpen =>
    rw [interrupts?, interrupts, carriesIdl?_eq]
    cases element == .pre <;> rfl
  all_goals rfl

/-! ### Rounds -/

section Rounds

variable {doc before text piece rest : List Char} {start limit : Nat} {kind : Option TokenKind}

theorem Piece.at?_end (doc : List Char) : Piece.at? doc (byteLength doc) = some none := by
  have hsplit := split?_append doc []
  rw [List.append_nil] at hsplit
  rw [Piece.at?, hsplit]
  rfl

/-- In front of a piece of markup, it is the next one. -/
theorem Piece.at?_append (hdoc : doc = before ++ (piece ++ rest)) (hne : piece ≠ [])
    (hfirst : automaton.first (piece ++ rest) = (kind, piece.length)) :
    Piece.at? doc (byteLength before) =
      some (some ⟨kind, byteLength before, byteLength before + byteLength piece⟩) := by
  obtain ⟨c, cs, rfl⟩ := List.exists_cons_of_ne_nil hne
  rw [List.cons_append] at hfirst hdoc
  rw [Piece.at?, hdoc, split?_append]
  simp only [Option.bind_eq_bind, Option.bind_some, hfirst]
  rw [← List.cons_append, List.take_left]
  rfl

theorem Piece.text?_append (hdoc : doc = before ++ (piece ++ rest)) (kind : Option TokenKind) :
    Piece.text? doc ⟨kind, byteLength before, byteLength before + byteLength piece⟩ =
      some piece := by
  rw [Piece.text?, hdoc]
  exact slice?_append before piece rest

theorem Piece.span?_append (hdoc : doc = before ++ (piece ++ rest))
    (hbound : byteLength doc < UInt32.size) (kind : Option TokenKind) :
    Piece.span? ⟨kind, byteLength before, byteLength before + byteLength piece⟩ =
      some ⟨byteLength before, byteLength before + byteLength piece⟩ := by
  rw [hdoc, byteLength_append, byteLength_append] at hbound
  have hstart : word? (byteLength before) = some (byteLength before) := word?_of_lt (by omega)
  have hstop : word? (byteLength before + byteLength piece) =
      some (byteLength before + byteLength piece) := word?_of_lt (by omega)
  rw [Piece.span?, hstart, hstop]
  rfl

/-- The end of a block as it is searched from byte `start` on. -/
def Ending.ofClosing (start : Nat) : Closing → Ending
  | .closed content tag =>
    .closed (start + byteLength content) (start + byteLength content + byteLength tag)
  | .interrupted opening => .interrupted opening
  | .missing => .missing

theorem findEnd?_eq (element : Element) (hdoc : doc = before ++ text)
    (hbound : byteLength doc < UInt32.size) (hlimit : text.length < limit) :
    findEnd? doc element limit (byteLength before) =
      some (.ofClosing (byteLength before) (findClose element (byteLength before) text)) := by
  induction limit generalizing before text with
  | zero => exact absurd hlimit (Nat.not_lt_zero _)
  | succ limit ih =>
      by_cases hne : text = []
      · subst hne
        rw [List.append_nil] at hdoc
        subst hdoc
        rw [findEnd?, Piece.at?_end, findClose.eq_def]
        rfl
      · obtain ⟨kind, piece, rest, rfl, hpiece, hfirst⟩ := exists_first hne
        have hnext : findEnd? doc element limit (byteLength before + byteLength piece) =
            some (.ofClosing (byteLength before + byteLength piece)
              (findClose element (byteLength before + byteLength piece) rest)) := by
          have hpos := List.length_pos_iff.2 hpiece
          rw [List.length_append] at hlimit
          have hdoc' : doc = (before ++ piece) ++ rest := by rw [hdoc, List.append_assoc]
          have hrest := ih hdoc' (by omega)
          rwa [byteLength_append] at hrest
        rw [findEnd?, Piece.at?_append hdoc hpiece hfirst, findClose_first element _ hpiece hfirst]
        simp only [Option.bind_eq_bind, Option.bind_some, Piece.text?_append hdoc,
          interrupts?_eq, Piece.span?_append hdoc hbound, hnext]
        split
        · rfl
        · split
          · rfl
          · cases findClose element (byteLength before + byteLength piece) rest with
            | closed content tag =>
                simp only [Ending.ofClosing, byteLength_append, Nat.add_assoc]
            | interrupted opening => rfl
            | missing => rfl

/-! ### Fragments -/

theorem arrow?_eq (text : List Char) :
    (arrow? text).map (· + 3) = (commentBody? text).map byteLength := by
  fun_induction commentBody? text with
  | case1 => rfl
  | case2 => rfl
  | case3 c rest hnot ih =>
      rw [arrow?.eq_3 c rest hnot, Option.map_map, Option.map_map]
      have hshift (found : Option Nat) : found.map ((· + 3) ∘ (c.utf8Size + ·)) =
          (found.map (· + 3)).map (c.utf8Size + ·) := by
        cases found <;> simp [Nat.add_assoc]
      rw [hshift, ih, Option.map_map]
      rfl

/-- Both kinds of extraction find the same behind whatever is taken from the text at byte `start`. -/
def SameBehind (doc : List Char) (limit start : Nat) (text : List Char) : Prop :=
  ∀ taken later, text = taken ++ later →
    fragmentsAt? doc limit (start + byteLength taken) =
      some (fragmentsFrom (start + byteLength taken) later)

section Round

variable {element : Element} (hdoc : doc = before ++ (piece ++ rest)) (hpiece : piece ≠ [])
  (hbound : byteLength doc < UInt32.size)
  (hnext : SameBehind doc limit (byteLength before + byteLength piece) rest)

include hdoc hpiece hbound hnext

/-- A round that skips a comment. -/
theorem fragmentsAt?_comment
    (hfirst : automaton.first (piece ++ rest) = (some .commentOpen, piece.length)) :
    fragmentsAt? doc (limit + 1) (byteLength before) =
      some (fragmentsFrom (byteLength before) (piece ++ rest)) := by
  have hbehind : split? (byteLength before + byteLength piece) doc =
      some (before ++ piece, rest) := by
    rw [hdoc, ← byteLength_append, ← List.append_assoc]
    exact split?_append _ _
  have harrow := arrow?_eq rest
  rw [fragmentsAt?, Piece.at?_append hdoc hpiece hfirst,
    fragmentsFrom_first hpiece (by rw [hfirst]), hfirst]
  simp only [Option.bind_eq_bind, Option.bind_some, hbehind]
  cases hbody : commentBody? rest with
  | none =>
      rw [hbody, Option.map_none, Option.map_eq_none_iff] at harrow
      simp only [harrow, Piece.span?_append hdoc hbound, Option.bind_some]
      rfl
  | some body =>
      obtain ⟨later, hlater⟩ := exists_append_of_commentBody? hbody
      rw [hbody] at harrow
      obtain ⟨length, hlength, hsame⟩ := Option.map_eq_some_iff.1 harrow
      have hsplit := split?_append body later
      rw [← hlater] at hsplit
      simp only [hlength, hsame, hsplit, Option.bind_some, hnext body later hlater]
      rw [hlater, List.drop_left]

/-- A round that takes a block, or finds that the block does not end. -/
theorem fragmentsAt?_block
    (hfirst : automaton.first (piece ++ rest) = (some (.blockOpen element), piece.length)) :
    fragmentsAt? doc (limit + 1) (byteLength before) =
      some (fragmentsFrom (byteLength before) (piece ++ rest)) := by
  have hend : findEnd? doc element (doc.length + 1) (byteLength before + byteLength piece) =
      some (.ofClosing (byteLength before + byteLength piece)
        (findClose element (byteLength before + byteLength piece) rest)) := by
    rw [← byteLength_append]
    refine findEnd?_eq element (by rw [hdoc, List.append_assoc]) hbound ?_
    rw [hdoc, List.length_append, List.length_append]
    omega
  rw [fragmentsAt?, Piece.at?_append hdoc hpiece hfirst,
    fragmentsFrom_first hpiece (by rw [hfirst]), hfirst]
  simp only [Option.bind_eq_bind, Option.bind_some, Piece.span?_append hdoc hbound,
    Piece.text?_append hdoc, carriesIdl?_eq, hend]
  cases hclose : findClose element (byteLength before + byteLength piece) rest with
  | interrupted opening => rfl
  | missing => rfl
  | closed content tag =>
      obtain ⟨later, rfl⟩ := exists_append_of_findClose hclose
      have hlater := hnext (content ++ tag) later (List.append_assoc ..).symm
      rw [byteLength_append, ← Nat.add_assoc] at hlater
      have hoffset : word? (byteLength before + byteLength piece) =
          some (byteLength before + byteLength piece) := by
        rw [hdoc, byteLength_append, byteLength_append] at hbound
        exact word?_of_lt (by omega)
      have hcontent := slice?_append (before ++ piece) content (tag ++ later)
      rw [byteLength_append, List.append_assoc, ← hdoc] at hcontent
      simp only [Ending.ofClosing, hlater, hoffset, hcontent, Option.bind_some]
      rw [← List.append_assoc, List.drop_left, byteLength_append, ← Nat.add_assoc]
      cases carriesIdl element piece with
      | false => exact congrArg some (bind_pure _).symm
      | true => rfl

end Round

/-- Round by round, extraction over the bytes of a document finds the same fragments. -/
theorem fragmentsAt?_eq (hdoc : doc = before ++ text) (hbound : byteLength doc < UInt32.size)
    (hlimit : text.length < limit) :
    fragmentsAt? doc limit (byteLength before) = some (fragmentsFrom (byteLength before) text) := by
  induction limit generalizing before text with
  | zero => exact absurd hlimit (Nat.not_lt_zero _)
  | succ limit ih =>
      by_cases hne : text = []
      · subst hne
        rw [List.append_nil] at hdoc
        subst hdoc
        rw [fragmentsAt?, Piece.at?_end, fragmentsFrom_nil]
        rfl
      · obtain ⟨kind, piece, rest, rfl, hpiece, hfirst⟩ := exists_first hne
        have hnext : SameBehind doc limit (byteLength before + byteLength piece) rest := by
          rintro taken later rfl
          have hpos := List.length_pos_iff.2 hpiece
          rw [List.length_append, List.length_append] at hlimit
          have hdoc' : doc = (before ++ (piece ++ taken)) ++ later := by simp [hdoc]
          have hround := ih hdoc' (by omega)
          rwa [byteLength_append, byteLength_append, ← Nat.add_assoc] at hround
        rcases kind with _ | (_ | element | _ | _ | _)
        case some.commentOpen => exact fragmentsAt?_comment hdoc hpiece hbound hnext hfirst
        case some.blockOpen => exact fragmentsAt?_block hdoc hpiece hbound hnext hfirst
        all_goals
          rw [fragmentsAt?, Piece.at?_append hdoc hpiece hfirst,
            fragmentsFrom_first hpiece (by rw [hfirst]), hfirst]
          exact hnext [] rest rfl

end Rounds

end Markup

/-- The fragments of a document. -/
def fragments? (doc : List Char) : Option (Except Diagnostic (List Fragment)) :=
  Markup.fragmentsAt? doc (doc.length + 1) 0

/-- A document of fewer than `2 ^ 32` bytes is extracted without going out of range. -/
theorem fragments?_eq {doc : String} (h : doc.utf8ByteSize < UInt32.size) :
    fragments? doc.toList = some (fragments doc) := by
  rw [← byteLength_toList] at h
  exact Markup.fragmentsAt?_eq (List.nil_append _).symm h (Nat.lt_succ_self _)

end IdlBindings
