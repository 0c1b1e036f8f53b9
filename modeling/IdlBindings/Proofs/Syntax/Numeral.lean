import IdlBindings.Declaration.Lines
import IdlBindings.Proofs.Checked.Literal
import IdlBindings.Proofs.Token.Lexed
import Mathlib.Data.Nat.Digits.Defs

/-!
What integer literals mean. `Numeral.value` is the number that a literal writes: a sign, a prefix
for the radix, and digits by their places. A literal that the lexer accepts is read as that number
if the number behind the sign fits in the word, and the number is then what its constant declares
(`ConstValue.integer?_of_lexed`). The least number of the word is written with a sign, so it is not
read (`ConstValue.exists_unread_least`).
-/

namespace IdlBindings

open Token (LexState automaton isHexDigit isOctalDigit isAsciiDigit)

namespace Numeral

/-- The value of a digit, whatever its case. -/
def digitValue (c : Char) : Nat := "0123456789abcdef".toList.idxOf c.toLower

/-- The number that digits of a radix write, the most significant one first. -/
def number (radix : Nat) (cs : List Char) : Nat := Nat.ofDigits radix (cs.reverse.map digitValue)

/-- The number behind the sign: hexadecimal after `0x` or `0X`, octal where other digits follow a
`0`, and otherwise decimal. -/
def unsignedValue : List Char → Nat
  | '0' :: mark :: cs => if mark = 'x' ∨ mark = 'X' then number 16 cs else number 8 (mark :: cs)
  | cs => number 10 cs

/-- The number that an integer literal writes. -/
def value : List Char → Int
  | '-' :: cs => -(unsignedValue cs : Int)
  | cs => unsignedValue cs

example : value "-0x1F".toList = -31 ∧ value "017".toList = 15 ∧ value "90".toList = 90 := by decide

/-! ### The shape of a literal -/

/-- What an integer literal has behind its sign. -/
inductive Shape : List Char → Prop
  | hexadecimal {mark : Char} {cs : List Char} (hmark : mark = 'x' ∨ mark = 'X') (hne : cs ≠ [])
      (hcs : ∀ c ∈ cs, isHexDigit c = true) : Shape ('0' :: mark :: cs)
  | octal {cs : List Char} (hcs : ∀ c ∈ cs, isOctalDigit c = true) : Shape ('0' :: cs)
  | decimal {c : Char} {cs : List Char} (hc : c ≠ '0')
      (hcs : ∀ d ∈ c :: cs, isAsciiDigit d = true) : Shape (c :: cs)

section Runs

variable {s t : LexState} {cs : List Char} (hrun : automaton.run s cs = some t)
  (haccept : t.accept = some .integer)

include hrun haccept

/-- The first step of a run to an integer leads to a state from which there is one. -/
theorem exists_step_of_run {c : Char} {rest : List Char} (hcs : cs = c :: rest) :
    ∃ next, s.step c = some next ∧ .integer ∈ next.kinds ∧ automaton.run next rest = some t := by
  subst hcs
  obtain ⟨next, hstep, hrest⟩ := Option.bind_eq_some_iff.1 hrun
  exact ⟨next, hstep, LexState.accept_mem_kinds_of_run (LexState.ne_start_of_step hstep) hrest
    haccept, hrest⟩

/-- A state that an integer does not leave takes characters of one class only. -/
theorem forall_of_run_stay {P : Char → Bool} (hstay : ∀ c next, s.step c = some next →
    .integer ∈ next.kinds → P c = true ∧ next = s) : ∀ c ∈ cs, P c = true := by
  induction cs with
  | nil => exact List.forall_mem_nil _
  | cons c cs ih =>
      obtain ⟨next, hstep, hkind, hrest⟩ := exists_step_of_run hrun haccept rfl
      obtain ⟨hc, rfl⟩ := hstay c next hstep hkind
      exact List.forall_mem_cons.2 ⟨hc, ih hrest⟩

end Runs

section Automaton

variable {t : LexState} {cs : List Char} (haccept : t.accept = some .integer)

include haccept

theorem forall_isHexDigit (hrun : automaton.run .hex cs = some t) :
    ∀ c ∈ cs, isHexDigit c = true := by
  refine forall_of_run_stay hrun haccept fun c next hstep _ => ?_
  simp only [LexState.step] at hstep
  split at hstep
  · cases hstep
    exact ⟨‹_›, rfl⟩
  · cases hstep

theorem forall_isOctalDigit (hrun : automaton.run .octal cs = some t) :
    ∀ c ∈ cs, isOctalDigit c = true := by
  refine forall_of_run_stay hrun haccept fun c next hstep hkind => ?_
  simp only [LexState.step, LexState.number?] at hstep
  repeat' split at hstep
  all_goals cases hstep
  all_goals simp_all [LexState.kinds]

theorem forall_isAsciiDigit (hrun : automaton.run .integer cs = some t) :
    ∀ c ∈ cs, isAsciiDigit c = true := by
  refine forall_of_run_stay hrun haccept fun c next hstep hkind => ?_
  simp only [LexState.step, LexState.number?] at hstep
  repeat' split at hstep
  all_goals cases hstep
  all_goals simp_all [LexState.kinds]

/-- Behind a leading `0` come the mark of a hexadecimal number and its digits, or octal digits. -/
theorem shape_of_run_zero (hrun : automaton.run .zero cs = some t) : Shape ('0' :: cs) := by
  cases cs with
  | nil => exact .octal (List.forall_mem_nil _)
  | cons c cs =>
      obtain ⟨next, hstep, hkind, hrest⟩ := exists_step_of_run hrun haccept rfl
      simp only [LexState.step, LexState.number?] at hstep
      repeat' split at hstep
      all_goals cases hstep
      · rename_i hmark
        cases cs with
        | nil =>
            cases hrest
            cases haccept
        | cons d cs =>
            obtain ⟨last, hdigit, -, hdigits⟩ := exists_step_of_run hrest haccept rfl
            simp only [LexState.step] at hdigit
            split at hdigit
            · cases hdigit
              exact .hexadecimal (by simpa using hmark) (List.cons_ne_nil d cs)
                (List.forall_mem_cons.2 ⟨‹_›, forall_isHexDigit haccept hdigits⟩)
            · cases hdigit
      · exact .octal (List.forall_mem_cons.2 ⟨‹_›, forall_isOctalDigit haccept hrest⟩)
      all_goals simp [LexState.kinds] at hkind

theorem shape_of_run_integer {c : Char} (hc : ¬(c == '0') = true) (hdigit : isAsciiDigit c = true)
    (hrun : automaton.run .integer cs = some t) : Shape (c :: cs) :=
  .decimal (mt beq_iff_eq.2 hc) (List.forall_mem_cons.2 ⟨hdigit, forall_isAsciiDigit haccept hrun⟩)

/-- Behind a sign stands a number without one. -/
theorem shape_of_run_minus (hrun : automaton.run .minus cs = some t) : Shape cs := by
  cases cs with
  | nil =>
      cases hrun
      cases haccept
  | cons c cs =>
      obtain ⟨next, hstep, hkind, hrest⟩ := exists_step_of_run hrun haccept rfl
      simp only [LexState.step] at hstep
      repeat' split at hstep
      all_goals cases hstep
      all_goals try simp [LexState.kinds] at hkind
      · rename_i hzero
        obtain rfl := beq_iff_eq.1 hzero
        exact shape_of_run_zero haccept hrest
      · rename_i hzero hdigit
        exact shape_of_run_integer haccept hzero hdigit hrest

end Automaton

/-- An integer is a sign or none, and digits with their prefix. -/
theorem shape_of_valid {text : String} (h : Glyph.Valid ⟨.integer, text⟩) :
    ∃ cs, (text.toList = '-' :: cs ∨ text.toList = cs) ∧ Shape cs := by
  obtain ⟨c, cs, s, t, htext, hbegin, hrun, haccept, hmem⟩ := h.begin
  unfold LexState.begin? at hbegin
  split at hbegin
  · rename_i kind hpunctuation
    cases hbegin
    simp only [LexState.kinds, List.mem_singleton] at hmem
    subst hmem
    unfold LexState.punctuation? at hpunctuation
    split at hpunctuation <;> cases hpunctuation
  · repeat' split at hbegin
    all_goals cases hbegin
    all_goals try simp [LexState.kinds] at hmem
    · rename_i hzero
      obtain rfl := beq_iff_eq.1 hzero
      exact ⟨'0' :: cs, .inr htext, shape_of_run_zero haccept hrun⟩
    · rename_i hzero hdigit
      exact ⟨c :: cs, .inr htext, shape_of_run_integer haccept hzero hdigit hrun⟩
    · exact ⟨cs, .inl htext, shape_of_run_minus haccept hrun⟩

/-! ### Reading digits -/

section Digits

variable {radix : Nat} {c : Char} {cs : List Char}

/-- The digits are among the first characters, where each one is checked. -/
theorem exists_code_of_isHexDigit (h : isHexDigit c = true) : ∃ n < 128, c = Char.ofNat n := by
  have hle : c ≤ 'f' := by
    simp only [isHexDigit, isAsciiDigit, Bool.or_eq_true, Bool.and_eq_true,
      decide_eq_true_eq] at h
    rcases h with (⟨-, h⟩ | ⟨-, h⟩) | ⟨-, h⟩
    · exact Char.le_trans h (by decide)
    · exact h
    · exact Char.le_trans h (by decide)
  exact ⟨c.toNat, Nat.lt_of_le_of_lt hle (by decide), c.ofNat_toNat.symm⟩

theorem digit?_of_isHexDigit (h : isHexDigit c = true) : digit? 16 c = some (digitValue c) := by
  obtain ⟨n, hn, rfl⟩ := exists_code_of_isHexDigit h
  revert n
  decide

theorem isHexDigit_of_isAsciiDigit (h : isAsciiDigit c = true) : isHexDigit c = true := by
  simp [isHexDigit, h]

theorem digit?_of_isAsciiDigit (h : isAsciiDigit c = true) :
    digit? 10 c = some (digitValue c) := by
  obtain ⟨n, hn, rfl⟩ := exists_code_of_isHexDigit (isHexDigit_of_isAsciiDigit h)
  revert n
  decide

theorem digit?_of_isOctalDigit (h : isOctalDigit c = true) : digit? 8 c = some (digitValue c) := by
  have hdigit : isAsciiDigit c = true := by
    simp only [isOctalDigit, isAsciiDigit, Bool.and_eq_true, decide_eq_true_eq] at h ⊢
    exact ⟨h.1, Char.le_trans h.2 (by decide)⟩
  obtain ⟨n, hn, rfl⟩ := exists_code_of_isHexDigit (isHexDigit_of_isAsciiDigit hdigit)
  clear hdigit
  revert n
  decide

theorem number_cons (radix : Nat) (c : Char) (cs : List Char) :
    number radix (c :: cs) = digitValue c * radix ^ cs.length + number radix cs := by
  simp only [number, List.reverse_cons, List.map_append, Nat.ofDigits_append, List.map_cons,
    List.map_nil, Nat.ofDigits_singleton, List.length_map, List.length_reverse]
  ring

/-- Reading from the left is the same as the sum over the places. -/
theorem digitsFrom?_eq (h : ∀ c ∈ cs, digit? radix c = some (digitValue c)) (value : Nat) :
    digitsFrom? radix value cs = some (value * radix ^ cs.length + number radix cs) := by
  induction cs generalizing value with
  | nil => simp [digitsFrom?, number]
  | cons c cs ih =>
      obtain ⟨hc, hcs⟩ := List.forall_mem_cons.1 h
      rw [digitsFrom?, hc]
      refine (ih hcs _).trans ?_
      rw [number_cons, List.length_cons]
      ring_nf

/-- No sign is a digit, so digits are read as they stand. -/
theorem signed?_eq (hne : cs ≠ []) (h : ∀ c ∈ cs, digit? radix c = some (digitValue c)) :
    signed? radix cs = some (number radix cs : Int) := by
  have hsign {c : Char} (hc : digit? radix c = some (digitValue c)) : c ≠ '+' ∧ c ≠ '-' := by
    constructor <;>
    · rintro rfl
      simp [digit?] at hc
  have hdigits : digits? radix cs = some (number radix cs) := by
    rw [digits?, if_neg (by simpa using hne), digitsFrom?_eq h 0, Nat.zero_mul, Nat.zero_add]
  unfold signed?
  split
  · exact absurd rfl (hsign (h _ List.mem_cons_self)).1
  · exact absurd rfl (hsign (h _ List.mem_cons_self)).2
  · rw [hdigits]
    rfl

end Digits

/-- Without digits behind a leading `0`, the number is decimal. -/
theorem magnitude?_eq_decimal {cs : List Char} (h : ∀ c ds, cs ≠ '0' :: c :: ds) :
    magnitude? cs = (signed? 10 cs).bind inWord? ∧ unsignedValue cs = number 10 cs :=
  ⟨magnitude?.eq_4 cs (h 'x') (h 'X') h, unsignedValue.eq_2 cs h⟩

/-- Every number behind a sign is read, and kept if it fits. -/
theorem magnitude?_eq {cs : List Char} (h : Shape cs) :
    magnitude? cs = inWord? (unsignedValue cs) := by
  cases h with
  | @hexadecimal mark cs hmark hne hcs =>
      have hread := signed?_eq hne fun c hc => digit?_of_isHexDigit (hcs c hc)
      rw [unsignedValue, if_pos hmark, ← Option.bind_some _ inWord?, ← hread]
      rcases hmark with rfl | rfl
      · rfl
      · rfl
  | @octal cs hcs =>
      cases cs with
      | nil =>
          have hshort : ∀ c ds, ['0'] ≠ '0' :: c :: ds := by simp
          obtain ⟨hmagnitude, hvalue⟩ := magnitude?_eq_decimal hshort
          have hread : signed? 10 ['0'] = some (number 10 ['0'] : Int) := by decide
          rw [hmagnitude, hvalue, hread, Option.bind_some]
      | cons c cs =>
          have hmark : ¬(c = 'x' ∨ c = 'X') := by
            rintro (rfl | rfl)
            · exact absurd (hcs _ List.mem_cons_self) (by decide)
            · exact absurd (hcs _ List.mem_cons_self) (by decide)
          obtain ⟨hx, hX⟩ := not_or.1 hmark
          have hread := signed?_eq (List.cons_ne_nil c cs) fun c hc =>
            digit?_of_isOctalDigit (hcs c hc)
          rw [unsignedValue, if_neg hmark, magnitude?.eq_3 c cs hx hX, hread, Option.bind_some]
  | @decimal c cs hc hcs =>
      have hread := signed?_eq (List.cons_ne_nil c cs) fun d hd => digit?_of_isAsciiDigit (hcs d hd)
      obtain ⟨hmagnitude, hvalue⟩ := magnitude?_eq_decimal fun d ds heq =>
        hc (List.cons.inj heq : _ ∧ cs = d :: ds).1
      rw [hmagnitude, hvalue, hread, Option.bind_some]

theorem Shape.ne_minus {cs ds : List Char} (h : Shape cs) : cs ≠ '-' :: ds := by
  rintro rfl
  cases h with
  | decimal hc hcs => exact absurd (hcs '-' List.mem_cons_self) (by decide)

/-- Whether a number has its opposite in the word, too. -/
def Fits (n : Int) : Prop := -2 ^ 127 < n ∧ n ≤ 2 ^ 127 - 1

instance : DecidablePred Fits := fun _ => inferInstanceAs (Decidable (_ ∧ _))

/-- A number behind a sign fits if its opposite does. -/
theorem inWord?_natCast (n : Nat) :
    inWord? n = (if Fits n then some (n : Int) else none) ∧
      (inWord? n).map (- ·) = if Fits (-n) then some (-n : Int) else none := by
  rw [inWord?, show Int.pow 2 127 = 2 ^ 127 from rfl]
  by_cases h : (n : Int) < 2 ^ 127
  · have hfits : Fits n ∧ Fits (-n) := by
      unfold Fits
      omega
    rw [if_pos (by omega), if_pos hfits.1, if_pos hfits.2]
    exact ⟨rfl, rfl⟩
  · have hfits : ¬Fits n ∧ ¬Fits (-n) := by
      unfold Fits
      omega
    rw [if_neg (by omega), if_neg hfits.1, if_neg hfits.2]
    exact ⟨rfl, rfl⟩

end Numeral

namespace ConstValue

open Numeral (value)

/-- What an integer literal is read as. -/
theorem integer?_of_valid {text : String} (h : Glyph.Valid ⟨.integer, text⟩) :
    integer? (.integer text) =
      if Numeral.Fits (value text.toList) then some (value text.toList) else none := by
  obtain ⟨cs, htext, hshape⟩ := Numeral.shape_of_valid h
  obtain ⟨hplain, hopposite⟩ := Numeral.inWord?_natCast (Numeral.unsignedValue cs)
  rcases htext with htext | htext
  · rw [integer?, htext, value]
    simp only [Numeral.magnitude?_eq hshape]
    exact hopposite
  · have hread : integer? (.integer text) = Numeral.magnitude? cs := by
      rw [integer?, htext]
      split
      · exact absurd rfl hshape.ne_minus
      · rfl
    have hvalue : value text.toList = Numeral.unsignedValue cs := by
      rw [htext]
      exact value.eq_2 cs fun _ => hshape.ne_minus
    rw [hread, hvalue, Numeral.magnitude?_eq hshape]
    exact hplain

section Printed

variable (style : Style) (owner name : String) (type : IdlType)

/-- The lines that a constant puts into the declarations of its owner, where it shows `shown` as its
type. -/
structure Shows (value : ConstValue) (shown : String) : Prop where
  instance_eq : style.instanceLines owner (.const name type value) =
    ["readonly " ++ Text.propertyName name ++ ": " ++ shown ++ ";"]
  object_eq : style.objectLines owner (.const name type value) =
    ["readonly " ++ Text.propertyName name ++ ": " ++ shown ++ ";"]
  namespace_eq : style.namespaceLines (.const name type value) =
    ["const " ++ name ++ ": " ++ shown ++ ";"]

variable {style owner name type}

theorem shows_of_integer? {text : String} {n : Int} (h : integer? (.integer text) = some n) :
    Shows style owner name type (.integer text) (toString n) := by
  have htype : style.constType type (.integer text) = .literal (toString n) := by
    rw [Style.constType, h]
  constructor
  · rw [Style.instanceLines, Style.constLine, htype, TypeExpr.text]
  · rw [Style.objectLines, Style.constLine, htype, TypeExpr.text]
  · rw [Style.namespaceLines, htype, TypeExpr.text]

end Printed

variable {source : String} {base : Nat} {token : Token}

/-- An integer literal of any text is read as the number it writes if that has its opposite in the
word, and is no value otherwise; every declaration of a constant with that value shows the
number. -/
theorem integer?_of_lexed (h : token ∈ Token.lex source base) (hkind : token.kind = .integer) :
    integer? (.integer token.text) =
        (if -2 ^ 127 < value token.text.toList ∧ value token.text.toList ≤ 2 ^ 127 - 1
          then some (value token.text.toList) else none) ∧
      (-2 ^ 127 < value token.text.toList → value token.text.toList ≤ 2 ^ 127 - 1 →
        ∀ style owner name type, Shows style owner name type (.integer token.text)
          (toString (value token.text.toList))) := by
  have hmem : token ∈ Token.significant (Token.lex source base) :=
    List.mem_filter.2 ⟨h, by rw [hkind]; rfl⟩
  have hvalid : Glyph.Valid ⟨.integer, token.text⟩ := by
    rcases Token.valid_of_mem_lex hmem with hgarbage | hvalid
    · rw [hkind] at hgarbage
      cases hgarbage
    · rwa [Token.glyph, hkind] at hvalid
  have hread := integer?_of_valid hvalid
  refine ⟨hread, fun hlow hhigh style owner name type => shows_of_integer? ?_⟩
  rw [hread, if_pos ⟨hlow, hhigh⟩]

/-- The least number that is read. -/
theorem integer?_of_lexed_hexadecimal :
    let text := "-0x7fffffffffffffffffffffffffffffff"
    (⟨.integer, ⟨0, 35⟩, text⟩ : Token) ∈ Token.lex text 0 ∧
      integer? (.integer text) = some (-2 ^ 127 + 1) ∧
      Shows Style.default "A" "X" (.primitive .longLong) (.integer text)
        "-170141183460469231731687303715884105727" := by
  intro text
  have hvalid : Glyph.Valid ⟨.integer, text⟩ := by decide
  have hlex : (⟨.integer, ⟨0, 35⟩, text⟩ : Token) ∈ Token.lex text 0 := by
    rw [Token.lex_of_valid hvalid]
    exact List.mem_singleton.2 (by decide)
  have hvalue : value text.toList = -2 ^ 127 + 1 := by decide
  obtain ⟨hread, hshows⟩ := integer?_of_lexed hlex rfl
  simp only [hvalue] at hread hshows
  refine ⟨hlex, hread, ?_⟩
  exact hshows (by decide) (by decide) Style.default "A" "X" (.primitive .longLong)

/-- The least number of the word is no value, as it is read behind its sign; a constant shows its
type. -/
theorem exists_unread_least :
    let text := "-170141183460469231731687303715884105728"
    (⟨.integer, ⟨0, 40⟩, text⟩ : Token) ∈ Token.lex text 0 ∧
      value text.toList = -2 ^ 127 ∧ integer? (.integer text) = none ∧
      Style.default.namespaceLines (.const "X" (.primitive .longLong) (.integer text)) =
        ["const X: number;"] := by
  intro text
  have hvalid : Glyph.Valid ⟨.integer, text⟩ := by decide
  have hvalue : value text.toList = -2 ^ 127 := by decide
  have hread : integer? (.integer text) = none := by
    rw [integer?_of_valid hvalid, hvalue]
    rfl
  refine ⟨?_, hvalue, hread, ?_⟩
  · rw [Token.lex_of_valid hvalid]
    exact List.mem_singleton.2 (by decide)
  · rw [Style.namespaceLines, Style.constType, hread]
    rfl

end ConstValue

end IdlBindings
