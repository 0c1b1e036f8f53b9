import IdlBindings.Proofs.Token.Glyph
import Mathlib.Data.List.Forall2

/-!
Reading a text piece by piece. `Spells stop text gs` says that `text` is read as the glyphs `gs`
wherever a character of `stop` follows. Pieces compose (`Spells.append`), a proper token is such a
piece (`Glyph.Valid.spells`), and fixed text is checked by computation (`Spells.literal`).
-/

namespace IdlBindings

open Token (LexState automaton)

/-- `text` is read as `gs` in front of a text that is empty or begins with a character of `stop`. -/
def Spells (stop : Char → Prop) (text : String) (gs : List Glyph) : Prop :=
  ∀ rest : List Char, (∀ c ∈ rest.head?, stop c) →
    Glyph.ofText (text.toList ++ rest) = gs ++ Glyph.ofText rest

/-- What may follow a text that no character extends. -/
def AnyChar : Char → Prop := fun _ => True

instance : DecidablePred AnyChar := fun _ => .isTrue trivial

/-- What may follow a name. -/
abbrev EndsName (c : Char) : Prop := Token.isIdentifierRest c = false

/-- What may follow a number. -/
abbrev EndsNumber (c : Char) : Prop := Token.isIdentifierRest c = false ∧ c ≠ '.'

/-- The text begins with a character of `stop`. -/
def Begins (stop : Char → Prop) (text : String) : Prop :=
  ∃ c, text.toList.head? = some c ∧ stop c

instance (stop : Char → Prop) [DecidablePred stop] (text : String) :
    Decidable (Begins stop text) :=
  decidable_of_iff (text.toList.head?.any (fun c => decide (stop c)) = true) <| by
    unfold Begins
    cases text.toList.head? <;> simp

namespace Spells

variable {stop stop' : Char → Prop} {text more : String} {gs hs : List Glyph}

theorem mono (h : Spells stop text gs) (hle : ∀ c, stop' c → stop c) : Spells stop' text gs :=
  fun rest hrest => h rest fun c hc => hle c (hrest c hc)

theorem empty : Spells stop "" [] := fun _ _ => rfl

theorem append (h : Spells stop text gs) (h' : Spells stop' more hs) (hne : more ≠ "")
    (hstart : ∀ c ∈ more.toList.head?, stop c) : Spells stop' (text ++ more) (gs ++ hs) := by
  intro rest hrest
  have hhead : ∀ c ∈ (more.toList ++ rest).head?, stop c := by
    cases hmore : more.toList with
    | nil => exact absurd (String.toList_eq_nil_iff.1 hmore) hne
    | cons d ds => simpa [hmore] using hstart
  rw [String.toList_append, List.append_assoc, h _ hhead, h' rest hrest, List.append_assoc]

/-- A part that may be missing. -/
theorem append_part (h : Spells stop text gs) (h' : Spells stop more hs)
    (hstart : ∀ c ∈ more.toList.head?, stop c) : Spells stop (text ++ more) (gs ++ hs) := by
  by_cases hne : more = ""
  · intro rest hrest
    subst hne
    simpa [h rest hrest] using h' rest hrest
  · exact h.append h' hne hstart

/-- After a text that no character extends, anything may come. -/
theorem append_any (h : Spells AnyChar text gs) (h' : Spells stop more hs) :
    Spells stop (text ++ more) (gs ++ hs) := by
  intro rest hrest
  rw [String.toList_append, List.append_assoc, h _ fun _ _ => trivial, h' rest hrest,
    List.append_assoc]

/-- Nothing follows a whole text. -/
theorem ofText_eq (h : Spells stop text gs) : Glyph.ofText text.toList = gs := by
  simpa using h [] (by simp)

end Spells

theorem run_singleton (s : LexState) (c : Char) : automaton.run s [c] = s.step c := by
  rw [Automaton.run]
  cases h : s.step c <;> simp [automaton, h, Automaton.run]

/-- A valid token is read as itself in front of what does not extend it. -/
theorem Glyph.Valid.spells {g : Glyph} {stop : Char → Prop} (h : g.Valid)
    (hkind : g.kind.isTrivia = false)
    (hstop : ∀ s : LexState, s.accept = some g.kind → ∀ c, stop c → s.step c = none) :
    Spells stop g.text [g] := by
  obtain ⟨s, hrun, haccept⟩ := h
  intro rest hrest
  have hne : g.text.toList ≠ [] := by
    intro hnil
    rw [hnil] at hrun
    obtain rfl : LexState.start = s := Option.some.inj hrun
    simp [automaton, LexState.accept] at haccept
  rw [ofText_append hne hrun haccept fun c hc => hstop s haccept c (hrest c hc), hkind]
  simp

/-! ### Fixed texts -/

/-- The token that has been read when state `s` is reached after `seen`. -/
def LexState.cut? (s : LexState) (seen : List Char) : Option Glyph :=
  s.accept.bind fun kind => if kind.isTrivia then none else some ⟨kind, String.ofList seen⟩

/-- The glyphs of a text with the state that its last token ends in, when every token goes on for as
long as the automaton steps. `current` is the token being read. -/
def spellFrom? :
    Option (LexState × List Char) → List Char → Option (List Glyph × Option LexState)
  | none, [] => some ([], none)
  | some (s, seen), [] => (LexState.cut? s seen).map fun g => ([g], some s)
  | none, c :: cs =>
    if Token.isBlank c then spellFrom? none cs
    else (LexState.begin? c).bind fun s => spellFrom? (some (s, [c])) cs
  | some (s, seen), c :: cs =>
    match s.step c with
    | some next => spellFrom? (some (next, seen ++ [c])) cs
    | none =>
      (LexState.cut? s seen).bind fun g =>
        (if Token.isBlank c then spellFrom? none cs
          else (LexState.begin? c).bind fun s => spellFrom? (some (s, [c])) cs).map
        fun (gs, last) => (g :: gs, last)

/-- The glyphs of a text that ends in a blank or in a token that nothing extends. -/
def closed? (text : String) : Option (List Glyph) :=
  match spellFrom? none text.toList with
  | some (gs, none) | some (gs, some (.complete _)) => some gs
  | _ => none

/-- The glyphs of a text that ends in a name. -/
def open? (text : String) : Option (List Glyph) :=
  match spellFrom? none text.toList with
  | some (gs, some .identifier) => some gs
  | _ => none

theorem ofText_cut {s : LexState} {seen rest : List Char} {g : Glyph} (hne : seen ≠ [])
    (hrun : automaton.run .start seen = some s) (hcut : LexState.cut? s seen = some g)
    (hstop : ∀ c ∈ rest.head?, s.step c = none) :
    Glyph.ofText (seen ++ rest) = g :: Glyph.ofText rest := by
  obtain ⟨kind, hkind, hg⟩ := Option.bind_eq_some_iff.1 hcut
  rw [Glyph.ofText_append hne hrun hkind hstop]
  split at hg <;> simp_all

theorem ofText_spellFrom (current : Option (LexState × List Char)) {cs rest : List Char}
    {gs : List Glyph} {last : Option LexState}
    (hcurrent : ∀ s seen, current = some (s, seen) →
      seen ≠ [] ∧ automaton.run .start seen = some s)
    (h : spellFrom? current cs = some (gs, last))
    (hstop : ∀ c ∈ rest.head?, ∀ s ∈ last, s.step c = none) :
    Glyph.ofText ((current.map Prod.snd).getD [] ++ (cs ++ rest)) = gs ++ Glyph.ofText rest := by
  induction cs generalizing current gs with
  | nil =>
      cases current with
      | none =>
          simp only [spellFrom?, Option.some.injEq, Prod.mk.injEq] at h
          simp [← h.1]
      | some token =>
          obtain ⟨s, seen⟩ := token
          obtain ⟨hne, hrun⟩ := hcurrent s seen rfl
          obtain ⟨g, hcut, heq⟩ := Option.map_eq_some_iff.1 h
          obtain ⟨rfl, rfl⟩ := Prod.mk.inj heq
          exact ofText_cut hne hrun hcut fun c hc => hstop c hc s rfl
  | cons c cs ih =>
      -- where no token is being read, at the front or behind a cut
      have hfresh {gs : List Glyph} (h : spellFrom? none (c :: cs) = some (gs, last)) :
          Glyph.ofText (c :: cs ++ rest) = gs ++ Glyph.ofText rest := by
        rw [spellFrom?] at h
        split at h
        · rw [List.cons_append, Glyph.ofText_cons_blank ‹_›]
          exact ih none nofun h
        · obtain ⟨s, hs, h⟩ := Option.bind_eq_some_iff.1 h
          refine ih (some (s, [c])) ?_ h
          rintro _ _ ⟨⟩
          exact ⟨List.cons_ne_nil c [], (run_singleton .start c).trans hs⟩
      cases current with
      | none => exact hfresh h
      | some token =>
          obtain ⟨s, seen⟩ := token
          obtain ⟨hne, hrun⟩ := hcurrent s seen rfl
          rw [spellFrom?] at h
          cases hstep : s.step c with
          | some next =>
              simp only [hstep] at h
              have hnext : automaton.run .start (seen ++ [c]) = some next := by
                rw [Automaton.run_append, hrun]
                exact (run_singleton s c).trans hstep
              have hrest := ih (some (next, seen ++ [c]))
                (by rintro _ _ ⟨⟩; exact ⟨by simp, hnext⟩) h
              simpa using hrest
          | none =>
              simp only [hstep] at h
              obtain ⟨g, hcut, hmap⟩ := Option.bind_eq_some_iff.1 h
              obtain ⟨⟨gs', last'⟩, hgo, heq⟩ := Option.map_eq_some_iff.1 hmap
              obtain ⟨rfl, rfl⟩ := Prod.mk.inj heq
              have hhead : ∀ d ∈ (c :: cs ++ rest).head?, s.step d = none := by
                rintro d ⟨⟩
                exact hstep
              have hread := ofText_cut hne hrun hcut hhead
              rw [hfresh (by rw [spellFrom?]; exact hgo)] at hread
              simpa using hread

theorem Spells.of_spellFrom {stop : Char → Prop} {text : String} {gs : List Glyph}
    {last : Option LexState} (h : spellFrom? none text.toList = some (gs, last))
    (hstop : ∀ c, stop c → ∀ s ∈ last, s.step c = none) : Spells stop text gs := by
  intro rest hrest
  have hread := ofText_spellFrom none (by simp) h fun c hc => hstop c (hrest c hc)
  simpa using hread

/-- A fixed text that no character extends. -/
theorem Spells.closed {text : String} {gs : List Glyph} (h : closed? text = some gs) :
    Spells AnyChar text gs := by
  rw [closed?] at h
  split at h
  · next gs' hgo =>
    obtain rfl := Option.some.inj h
    exact .of_spellFrom hgo fun _ _ _ hs => by cases hs
  · next gs' kind hgo =>
    obtain rfl := Option.some.inj h
    refine .of_spellFrom hgo fun _ _ _ hs => ?_
    cases hs
    rfl
  · simp at h

/-- A fixed text that ends in a name. -/
theorem Spells.open {text : String} {gs : List Glyph} (h : open? text = some gs) :
    Spells EndsName text gs := by
  rw [open?] at h
  split at h
  · next gs' hgo =>
    obtain rfl := Option.some.inj h
    refine .of_spellFrom hgo fun c hc _ hs => ?_
    cases hs
    simp [LexState.step, show Token.isIdentifierRest c = false from hc]
  · simp at h

/-- A fixed text behind one that its first character does not extend. -/
theorem Spells.append_fixed {stop : Char → Prop} {text : String} {gs : List Glyph}
    (h : Spells stop text gs) (more : String) (hs : List Glyph) (hmore : closed? more = some hs)
    (hstart : Begins stop more) : Spells AnyChar (text ++ more) (gs ++ hs) := by
  obtain ⟨c, hc, hstop⟩ := hstart
  refine h.append (.closed hmore) ?_ fun d hd => Option.mem_unique hc hd ▸ hstop
  rintro rfl
  simp at hc

theorem Spells.append_blank {stop : Char → Prop} {text : String} {gs : List Glyph}
    (h : Spells stop text gs) (hstop : stop ' ') : Spells AnyChar (text ++ " ") gs := by
  simpa using h.append_fixed " " [] (by decide) ⟨' ', rfl, hstop⟩

/-- Texts with a fixed separator between. -/
theorem Spells.joined {stop : Char → Prop} (between : String) (sep : Glyph)
    (hbetween : closed? between = some [sep]) (hstart : Begins stop between)
    {texts : List String} {parts : List (List Glyph)} (h : List.Forall₂ (Spells stop) texts parts) :
    Spells stop (between.intercalate texts) (Glyph.joined sep parts) := by
  cases h with
  | nil => exact .empty
  | cons hfirst hrest =>
      rename_i text gs texts parts
      rw [Glyph.joined]
      induction hrest generalizing text gs with
      | nil => simpa using hfirst
      | cons hsecond hrest ih =>
          rw [String.intercalate_cons_cons]
          have htail := (hfirst.append_fixed between [sep] hbetween hstart).append_any (ih hsecond)
          simpa using htail

example : Spells AnyChar "sequence<" [.word "sequence", .mark .angleOpen] := .closed (by decide)
example : Spells EndsName "unsigned long" [.word "unsigned", .word "long"] := .open (by decide)

end IdlBindings
