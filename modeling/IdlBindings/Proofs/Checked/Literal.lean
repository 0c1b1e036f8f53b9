import IdlBindings.Proofs.Checked.Text
import IdlBindings.Proofs.Token.Valid
import IdlBindings.Syntax.Literal

/-!
Reading an integer literal in signed words of 128 bits, where the least number has no opposite. A
literal that the lexer accepts has no second sign, so the number behind its sign is not negative and
its opposite fits (`ConstValue.readInteger?_eq`).
-/

namespace IdlBindings

open Checked

namespace Numeral

/-- The number that the text after a sign writes; octal digits are cut out behind the `0`. -/
def readMagnitude? : List Char → Option (Option Int)
  | '0' :: 'x' :: cs | '0' :: 'X' :: cs => some ((signed? 16 cs).bind inWord?)
  | '0' :: c :: cs => do
    let digits ← slice? ('0' :: c :: cs) 1 (byteLength ('0' :: c :: cs))
    return (signed? 8 digits).bind inWord?
  | cs => some ((signed? 10 cs).bind inWord?)

/-- The opposite number. -/
def negate? (value : Int) : Option Int := inWord? (-value)

variable {cs : List Char} {n : Int} {radix : Nat}

theorem readMagnitude?_eq (cs : List Char) : readMagnitude? cs = some (magnitude? cs) := by
  fun_cases magnitude? cs with
  | case3 c cs hx hX =>
      have hslice : slice? ('0' :: c :: cs) 1 (byteLength ('0' :: c :: cs)) = some (c :: cs) := by
        have h := slice?_append ['0'] (c :: cs) []
        rwa [List.append_nil] at h
      rw [readMagnitude?.eq_3 c cs hx hX, hslice]
      rfl
  | case1 | case2 => rfl
  | case4 cs hx hX ho => rw [readMagnitude?.eq_4 cs hx hX ho]

theorem nonneg_of_signed? (h : '-' ∉ cs) (hn : signed? radix cs = some n) : 0 ≤ n := by
  unfold signed? at hn
  split at hn
  · obtain ⟨value, -, rfl⟩ := Option.map_eq_some_iff.1 hn
    exact Int.natCast_nonneg value
  · exact absurd List.mem_cons_self h
  · obtain ⟨value, -, rfl⟩ := Option.map_eq_some_iff.1 hn
    exact Int.natCast_nonneg value

theorem inWord?_eq_some_iff {value : Int} : inWord? value = some n ↔
    value = n ∧ -Int.pow 2 127 ≤ value ∧ value < Int.pow 2 127 := by
  rw [inWord?, Option.ite_none_right_eq_some, Option.some.injEq, and_comm]

/-- Without another sign, the number is not negative. -/
theorem bounds_of_magnitude? (h : '-' ∉ cs) (hn : magnitude? cs = some n) :
    0 ≤ n ∧ n < Int.pow 2 127 := by
  have hsigned {radix : Nat} {ds : List Char} (hds : '-' ∉ ds)
      (hvalue : (signed? radix ds).bind inWord? = some n) : 0 ≤ n ∧ n < Int.pow 2 127 := by
    obtain ⟨value, hread, hword⟩ := Option.bind_eq_some_iff.1 hvalue
    obtain ⟨rfl, -, hlt⟩ := inWord?_eq_some_iff.1 hword
    exact ⟨nonneg_of_signed? hds hread, hlt⟩
  unfold magnitude? at hn
  split at hn
  · exact hsigned (by simp_all) hn
  · exact hsigned (by simp_all) hn
  · exact hsigned (by simp_all) hn
  · exact hsigned h hn

theorem negate?_eq (h : 0 ≤ n) (hn : n < Int.pow 2 127) : negate? n = some (-n) := by
  rw [negate?, inWord?_eq_some_iff]
  generalize Int.pow 2 127 = bound at hn
  omega

end Numeral

namespace ConstValue

/-- The value of an integer literal. -/
def readInteger? : ConstValue → Option (Option Int)
  | .integer source =>
    match source.toList with
    | '-' :: cs => do
      match ← Numeral.readMagnitude? cs with
      | some n => return some (← Numeral.negate? n)
      | none => return none
    | cs => Numeral.readMagnitude? cs
  | _ => some none

/-- A literal that the lexer accepts is read within the word. -/
theorem readInteger?_eq {source : String} (h : Glyph.Valid ⟨.integer, source⟩) :
    readInteger? (.integer source) = some (integer? (.integer source)) := by
  obtain ⟨c, cs, s, t, htext, hbegin, hrun, haccept, -⟩ := h.begin
  change source.toList = c :: cs at htext
  have hstep : Token.LexState.step .start c = some s := hbegin
  have hsign : '-' ∉ cs := fun hmem => Token.LexState.forall_of_run
    (fun _ _ _ => Token.LexState.ne_minus_of_step) (Token.LexState.ne_start_of_step hstep) hrun
    haccept '-' hmem rfl
  rw [readInteger?, integer?, htext]
  by_cases hminus : c = '-'
  · subst hminus
    simp only [Numeral.readMagnitude?_eq, Option.bind_eq_bind, Option.bind_some]
    cases hvalue : Numeral.magnitude? cs with
    | none => rfl
    | some n =>
        obtain ⟨hnonneg, hlt⟩ := Numeral.bounds_of_magnitude? hsign hvalue
        simp only [Numeral.negate?_eq hnonneg hlt, Option.bind_some, Option.map_some]
        rfl
  · repeat' split
    all_goals first
      | exact Numeral.readMagnitude?_eq (c :: cs)
      | exact absurd (List.cons.inj ‹_›).1 hminus

/-- A second sign, which no lexeme has, leads to the number without an opposite. -/
example : readInteger? (.integer "-0x-80000000000000000000000000000000") = none := by
  decide +kernel

end ConstValue

end IdlBindings
