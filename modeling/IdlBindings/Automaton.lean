/-!
Longest-match scanning with a deterministic automaton. `munch` runs the automaton as far as it
steps and remembers the longest accepted run; `scan` cuts a text into lexemes. The lexemes
concatenate to the text (`scan_flatten`) and none is empty (`scan_ne_nil`).
-/

namespace IdlBindings

/-- A deterministic automaton with states `σ` whose accepting states name a kind `κ`. -/
structure Automaton (σ κ : Type) where
  start : σ
  step : σ → Char → Option σ
  accept : σ → Option κ

/-- A piece of text and its kind, `none` when no accepting state was reached. -/
structure Lexeme (κ : Type) where
  kind : Option κ
  text : List Char

namespace Automaton

variable {σ κ : Type}

/-- How far a run gets: the longest accepted length with its kind, and the longest length read. -/
structure Munch (κ : Type) where
  accepted : Option (κ × Nat)
  reach : Nat

/-- Run from state `s` for as long as the automaton steps. -/
def munch (A : Automaton σ κ) : σ → List Char → Munch κ
  | s, [] => ⟨(A.accept s).map (·, 0), 0⟩
  | s, c :: cs =>
    match A.step s c with
    | none => ⟨(A.accept s).map (·, 0), 0⟩
    | some next =>
      let m := A.munch next cs
      ⟨match m.accepted with
        | some (kind, length) => some (kind, length + 1)
        | none => (A.accept s).map (·, 0),
       m.reach + 1⟩

/-- Kind and length of the first lexeme: the longest accepted run, or else the longest run that
still steps. A lexeme has at least one character. -/
def first (A : Automaton σ κ) (cs : List Char) : Option κ × Nat :=
  let m := A.munch A.start cs
  match m.accepted with
  | some (kind, length) => (some kind, max length 1)
  | none => (none, max m.reach 1)

theorem one_le_first (A : Automaton σ κ) (cs : List Char) : 1 ≤ (A.first cs).2 := by
  simp only [first]
  split <;> exact Nat.le_max_right _ _

/-- Cut the text into lexemes. -/
def scan (A : Automaton σ κ) : List Char → List (Lexeme κ)
  | [] => []
  | c :: cs =>
    let next := A.first (c :: cs)
    ⟨next.1, (c :: cs).take next.2⟩ :: A.scan ((c :: cs).drop next.2)
termination_by cs => cs.length
decreasing_by
  have := A.one_le_first (c :: cs)
  simp only [List.length_drop, List.length_cons]
  omega

theorem scan_flatten (A : Automaton σ κ) (cs : List Char) :
    (A.scan cs).flatMap Lexeme.text = cs := by
  fun_induction scan with
  | case1 => rfl
  | case2 c cs next ih => simp [ih]

theorem scan_ne_nil (A : Automaton σ κ) (cs : List Char) :
    ∀ lexeme ∈ A.scan cs, lexeme.text ≠ [] := by
  fun_induction scan with
  | case1 => simp
  | case2 c cs next ih =>
    have hlen : 1 ≤ next.2 := A.one_le_first (c :: cs)
    intro lexeme hmem
    rcases List.mem_cons.1 hmem with rfl | hrest
    · simpa using Nat.ne_of_gt hlen
    · exact ih lexeme hrest

end Automaton

end IdlBindings
