import IdlBindings.Proofs.Syntax.Following
import IdlBindings.Proofs.Syntax.Moving
import IdlBindings.Proofs.Token.Progress
import IdlBindings.Proofs.Token.Splitting
import IdlBindings.Proofs.Token.Taking

/-!
Two texts with a line feed between. If the first one is read to its end, the definitions of both are
those of the first and then those of the second, each where its text stands, and a fault of the
second is the fault of both (`Definition.ofSource_newline`).
-/

namespace IdlBindings

open Parse Cursor

/-! ### Reading on behind the last item -/

namespace Parse

variable {α : Type}

/-- The test that there are tokens left. -/
abbrev hasNext : Parse Bool := look fun c => !c.rest.isEmpty

theorem repeatUpTo_succ (item : Parse α) (limit : Nat) {c : Cursor} (hne : c.rest ≠ []) :
    repeatUpTo hasNext item (limit + 1) c = (do
      let first ← item
      let rest ← repeatUpTo hasNext item limit
      return first :: rest : Parse (List α)) c := by
  obtain ⟨- | ⟨token, rest⟩, lastEnd, eof⟩ := c
  · exact absurd rfl hne
  · rfl

namespace Ends

variable {item : Parse α} (hitem : Closes item)

include hitem

/-- A limit above the number of tokens does not show. -/
theorem repeatUpTo_eq {n m : Nat} {c : Cursor} (hn : c.rest.length < n) (hm : c.rest.length < m) :
    Parse.repeatUpTo hasNext item n c = Parse.repeatUpTo hasNext item m c := by
  have hround : ReadsEach hasNext item := by
    intro c d e a hnext hrun
    obtain ⟨-, rfl⟩ := Prod.mk.inj (Except.ok.inj hnext)
    exact hitem.length_lt hrun
  rw [repeatUpTo_eq_rounds, repeatUpTo_eq_rounds]
  exact rounds_eq_rounds hround hn hm

/-- The items that are read one after the other, up to the end. -/
theorem chain_of_repeatWhile {c d : Cursor} {items : List α}
    (h : Parse.repeatWhile hasNext item c = .ok (items, d)) :
    Gives.Chain (fun c d => d = c) (fun c a d => item c = .ok (a, d)) c items d ∧ d.rest = [] := by
  have hshorter (c : Cursor) (_ : True) :
      Gives item c fun _ d => True ∧ d.rest.length < c.rest.length :=
    fun _ _ hrun => ⟨trivial, hitem.length_lt hrun⟩
  exact ⟨Gives.repeatWhile (fun _ => .look_test _) (fun _ _ _ hrun => hrun) c items d h,
    Gives.repeatWhile_end hshorter trivial items d h⟩

section Chain

variable {c d : Cursor} {items : List α}
  (h : Gives.Chain (fun c d => d = c) (fun c a d => item c = .ok (a, d)) c items d)

include h

/-- A text that is read to its end ends with a semicolon, if it has any token. -/
theorem eq_nil_or_append (hend : d.rest = []) :
    c.rest = [] ∨ ∃ ts semi, semi.kind = .semicolon ∧ c.rest = ts ++ [semi] := by
  induction h with
  | nil => exact .inl hend
  | @cons _ c e last first rest hsep hfirst _ ih =>
      obtain rfl := hsep
      obtain ⟨ts, semi, hsemi, hrest, -⟩ := hitem _ first e hfirst
      refine .inr ?_
      rcases ih hend with hnil | ⟨us, final, hfinal, hmore⟩
      · exact ⟨ts, semi, hsemi, by rw [hrest, hnil]⟩
      · exact ⟨ts ++ semi :: us, final, hfinal, by rw [hrest, hmore, List.append_assoc]; rfl⟩

/-- Where more tokens follow, the same items are read and then those behind. -/
theorem repeatUpTo_extend (more : List Token) (eof : Nat) {limit : Nat}
    (hlimit : (c.extend more eof).rest.length < limit) :
    Parse.repeatUpTo hasNext item limit (c.extend more eof)
      = (Parse.repeatWhile hasNext item (d.extend more eof)).map (Prod.map (items ++ ·) id) := by
  induction h generalizing limit with
  | nil =>
      rw [hitem.repeatUpTo_eq hlimit (Nat.lt_succ_self _)]
      change Parse.repeatWhile hasNext item _ = _
      cases Parse.repeatWhile hasNext item _ <;> rfl
  | @cons _ c e last first rest hsep hfirst _ ih =>
      obtain rfl := hsep
      obtain ⟨limit, rfl⟩ : ∃ k, limit = k + 1 := ⟨limit - 1, by omega⟩
      have hshorter := hitem.length_lt hfirst
      obtain ⟨ts, semi, -, -, hextend⟩ := hitem _ first e hfirst
      have hne : (c.extend more eof).rest ≠ [] := by
        intro hnil
        have hc : c.rest = [] := (List.append_eq_nil_iff.1 hnil).1
        rw [hc] at hshorter
        exact Nat.not_lt_zero _ hshorter
      have hlimit' : (e.extend more eof).rest.length < limit := by
        simp only [extend, List.length_append] at hlimit ⊢
        omega
      rw [repeatUpTo_succ item limit hne, bind_of_ok (hextend more eof)]
      simp only [Bind.bind, StateT.bind, Except.bind, ih hlimit']
      cases Parse.repeatWhile hasNext item (last.extend more eof) <;> rfl

end Chain

end Ends

end Parse

/-! ### Where the last token ended -/

/-- The tokens ahead and the end are from byte `least` on. -/
structure Cursor.From (least : Nat) (c : Cursor) : Prop where
  tokens : ∀ token ∈ c.rest, least ≤ token.span.start ∧ token.span.start ≤ token.span.stop
  eof : least ≤ c.eof

namespace Cursor.From

variable {least : Nat} {c d : Cursor} {span : Span}

theorem le_span (h : c.From least) : least ≤ c.span.start ∧ c.span.start ≤ c.span.stop := by
  rw [Cursor.span]
  split
  · rename_i token rest hrest
    exact h.tokens token (by rw [hrest]; exact List.mem_cons_self)
  · exact ⟨h.eof, Nat.le_refl _⟩

theorem of_passed {ts : List Token} (h : c.From least) (hpassed : c.Passed ts d) :
    d.From least := by
  refine ⟨fun token hmem => h.tokens token ?_, hpassed.eof ▸ h.eof⟩
  rw [hpassed.rest]
  exact List.mem_append_right ts hmem

/-- Every place ahead is from there on. -/
theorem le_spot (h : c.From least) (hspot : c.Spot span) :
    least ≤ span.start ∧ span.start ≤ span.stop := by
  cases hspot with
  | next hpassed => exact (h.of_passed hpassed).le_span
  | part hpassed _ _ => exact ⟨(h.of_passed hpassed).le_span.1, Nat.le_max_right _ _⟩

end Cursor.From

/-- A map that moves no byte from `least` on leaves a range there as it is. -/
theorem Span.move_max_eq_self {least : Nat} {span : Span}
    (h : least ≤ span.start ∧ span.start ≤ span.stop) : span.move (max least) = span := by
  rw [Span.move, Nat.max_eq_right h.1, Nat.max_eq_right (Nat.le_trans h.1 h.2)]

namespace Definition

theorem relabel_eq_self {g : Span → Span} {c : Cursor} {d : Definition} (h : d.Spots c)
    (hg : ∀ span, c.Spot span → g span = span) : d.relabel g = d := by
  obtain ⟨name, body, extAttrs, span⟩ := d
  have hspan : g span = span := hg span h.span
  have hbody : body.relabel g = body := by
    cases body with
    | container body =>
        have hmembers : body.members.map (Member.relabel g) = body.members := by
          refine map_eq_self_of_mem fun m hm => ?_
          rw [Member.relabel, hg m.span (h.body m hm)]
        rw [DefinitionBody.relabel, Container.relabel, hmembers]
    | _ => rfl
  rw [relabel, hspan, hbody]

/-- Where the token before the text ended does not show. -/
theorem parseAll_lastEnd {rest : List Token} {lastEnd base eof : Nat} (hle : lastEnd ≤ base)
    (hfrom : Cursor.From base ⟨rest, lastEnd, eof⟩) :
    (parseAll ⟨rest, base, eof⟩).map Prod.fst
      = (parseAll ⟨rest, lastEnd, eof⟩).map Prod.fst := by
  obtain ⟨c, hc⟩ : ∃ c : Cursor, c = ⟨rest, lastEnd, eof⟩ := ⟨_, rfl⟩
  have hmonotone : Monotone (max base) := fun _ _ h => max_le_max_left base h
  have hstays (span : Span) (hspot : c.Spot span) : span.move (max base) = span :=
    Span.move_max_eq_self ((hc ▸ hfrom).le_spot hspot)
  have hmove : c.move (max base) = ⟨rest, base, eof⟩ := by
    have hrest : rest.map (Token.move (max base)) = rest := by
      refine map_eq_self_of_mem fun token hmem => ?_
      rw [Token.move, Span.move_max_eq_self (hfrom.tokens token hmem)]
    rw [hc, Cursor.move, hrest, Nat.max_eq_left hle, Nat.max_eq_right hfrom.eof]
  rw [← hmove, ← hc, moves_all hmonotone]
  cases hparse : parseAll c with
  | ok result =>
      obtain ⟨definitions, d⟩ := result
      obtain ⟨ts, -, hspots, -⟩ := (runs_all c).of_ok hparse
      refine congrArg Except.ok (map_eq_self_of_mem fun definition hmem => ?_)
      exact relabel_eq_self (hspots definition hmem) hstays
  | error fault =>
      have hfaults := (runs_all c).of_error hparse
      obtain ⟨kind, span, message, related, hints⟩ := fault
      obtain rfl : related = [] := hfaults.related
      exact congrArg (fun span => Except.error (Diagnostic.mk kind span message [] hints))
        (hstays span hfaults.spot)

theorem from_cursor (source : String) (base : Nat) : (cursor source base).From base := by
  have htiled := Token.tiled_lex source base
  refine ⟨fun token hmem => ?_, Nat.le_add_right _ _⟩
  have hlexed := List.mem_of_mem_filter hmem
  exact ⟨htiled.le_start hlexed, htiled.start_le_stop hlexed⟩

/-- What is read of a text ends within the text. -/
theorem lastEnd_le {source : String} {base : Nat} {ts : List Token} {d : Cursor}
    (hpassed : (cursor source base).Passed ts d) :
    d.lastEnd ≤ base + byteLength source.toList := by
  rw [hpassed.lastEnd]
  cases hlast : ts.getLast? with
  | none => exact Nat.le_add_right _ _
  | some last =>
      have hmem : last ∈ (cursor source base).rest := by
        rw [hpassed.rest]
        exact List.mem_append_left _ (List.mem_of_getLast? hlast)
      exact (Token.tiled_lex source base).stop_le (List.mem_of_mem_filter hmem)

/-- The text with another one behind a line feed, if it ends with a semicolon. -/
theorem cursor_newline {first : String} {base : Nat} (h : (cursor first base).rest = [] ∨
      ∃ ts semi, semi.kind = .semicolon ∧ (cursor first base).rest = ts ++ [semi])
    (second : String) : cursor (first ++ "\n" ++ second) base = (cursor first base).extend
      (cursor second (base + byteLength first.toList + 1)).rest
      (cursor second (base + byteLength first.toList + 1)).eof := by
  have hlast : ∀ token ∈ (Token.significant (Token.lex first base)).getLast?,
      token.kind ≠ .garbage := by
    intro token hmem
    rcases h with hnil | ⟨ts, semi, hsemi, hrest⟩
    · rw [show Token.significant (Token.lex first base) = [] from hnil] at hmem
      cases hmem
    · rw [show Token.significant (Token.lex first base) = ts ++ [semi] from hrest,
        List.getLast?_concat] at hmem
      obtain rfl : semi = token := Option.some.inj hmem
      rw [hsemi]
      decide
  have hlength : byteLength (first ++ "\n" ++ second).toList
      = byteLength first.toList + 1 + byteLength second.toList := by
    rw [String.toList_append, String.toList_append, byteLength_append, byteLength_append]
    rfl
  rw [cursor, Token.significant_newline hlast, hlength, ← Nat.add_assoc, ← Nat.add_assoc]
  rfl

variable {first : String} {base : Nat} {definitions : List Definition}

/-- A text that is read to its end and another one behind a line feed: the definitions of both, each
where it stands, or the fault of the second. -/
theorem ofSource_newline (h : ofSource first base = .ok definitions) (second : String) :
    ofSource (first ++ "\n" ++ second) base
      = (ofSource second (base + byteLength first.toList + 1)).map (definitions ++ ·) := by
  obtain ⟨next, hnext⟩ : ∃ n, n = base + byteLength first.toList + 1 := ⟨_, rfl⟩
  obtain ⟨d, hparse⟩ := exists_parseAll_of_ofSource h
  obtain ⟨hchain, hend⟩ := closes.chain_of_repeatWhile hparse
  have hcursor := cursor_newline (closes.eq_nil_or_append hchain hend) second
  rw [← hnext] at hcursor ⊢
  have hextend : d.extend (cursor second next).rest (cursor second next).eof
      = ⟨(cursor second next).rest, d.lastEnd, (cursor second next).eof⟩ := by
    rw [extend, hend, List.nil_append]
  obtain ⟨ts, hpassed, -⟩ := (runs_all (cursor first base)).of_ok hparse
  have hle : d.lastEnd ≤ next := hnext ▸ Nat.le_succ_of_le (lastEnd_le hpassed)
  have hfrom : Cursor.From next
      ⟨(cursor second next).rest, d.lastEnd, (cursor second next).eof⟩ :=
    ⟨(from_cursor second next).tokens, (from_cursor second next).eof⟩
  calc ofSource (first ++ "\n" ++ second) base
      = (parseAll ((cursor first base).extend (cursor second next).rest
          (cursor second next).eof)).map Prod.fst := by
        rw [← hcursor]
        rfl
    _ = ((parseAll (d.extend (cursor second next).rest (cursor second next).eof)).map
          (Prod.map (definitions ++ ·) id)).map Prod.fst := by
        rw [parseAll, Parse.repeatWhile, closes.repeatUpTo_extend hchain _ _ (Nat.lt_succ_self _)]
    _ = ((parseAll ⟨(cursor second next).rest, d.lastEnd, (cursor second next).eof⟩).map
          Prod.fst).map (definitions ++ ·) := by
        rw [hextend]
        cases parseAll ⟨(cursor second next).rest, d.lastEnd, (cursor second next).eof⟩ <;> rfl
    _ = (ofSource second next).map (definitions ++ ·) := by
        rw [← parseAll_lastEnd hle hfrom]
        rfl

/-- A definition and a comment that ends with the text. -/
def commentedAlias : String := "typedef long A; // of 32 bits"

theorem ofSource_newline_commentedAlias : ∃ definitions,
    ofSource commentedAlias 5 = .ok definitions ∧ definitions.map name = ["A"]
      ∧ ofSource (commentedAlias ++ "\n" ++ "typedef A B;") 5
        = (ofSource "typedef A B;" 35).map (definitions ++ ·)
      ∧ (ofSource "typedef A B;" 35).isOk = true
      ∧ ofSource (commentedAlias ++ "\n" ++ "typedef A") 5
        = (ofSource "typedef A" 35).map (definitions ++ ·)
      ∧ (ofSource "typedef A" 35).isOk = false := by
  have hplace : 5 + byteLength commentedAlias.toList + 1 = 35 := by decide
  have hnames : (ofSource commentedAlias 5).toOption.map (List.map name) = some ["A"] := by
    decide +kernel
  obtain ⟨definitions, hfirst, heq⟩ := exists_of_toOption hnames
  have hdefined := ofSource_newline hfirst "typedef A B;"
  have hbroken := ofSource_newline hfirst "typedef A"
  rw [hplace] at hdefined hbroken
  exact ⟨definitions, hfirst, heq, hdefined, by decide +kernel, hbroken, by decide +kernel⟩

end Definition

end IdlBindings
