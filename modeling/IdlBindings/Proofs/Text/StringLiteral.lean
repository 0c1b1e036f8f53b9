import IdlBindings.Declaration.Block
import IdlBindings.Proofs.Syntax.Numeral
import IdlBindings.Proofs.Text.Key

/-!
What string literals mean. `Text.Denotes` is the grammar of string literals in double quotes that
declaration files have, with the value that each literal stands for. A quoted text is a literal for
that text if it has no carriage return, which is not escaped, and otherwise no literal at all; what
was quoted can be told from it in both cases (`Text.denotes_quote`).
-/

namespace IdlBindings.Text

/-! ### Literals and their values -/

/-- The code units of a code point in UTF-16, where two stand for what does not fit in one. -/
def codeUnits (point : Nat) : List Nat :=
  if point < 0x10000 then [point]
  else [0xD800 + (point - 0x10000) / 0x400, 0xDC00 + (point - 0x10000) % 0x400]

/-- The value of a string with these characters. -/
def stringValue (cs : List Char) : List Nat := cs.flatMap fun c => codeUnits c.toNat

/-- The characters that end a line. -/
def endsLine (c : Char) : Bool := ['\n', '\r', '\u2028', '\u2029'].contains c

/-- What one character behind a backslash stands for. -/
def singleEscape? : Char → Option Char
  | 'b' => some '\x08'
  | 't' => some '\t'
  | 'n' => some '\n'
  | 'v' => some '\x0b'
  | 'f' => some '\x0c'
  | 'r' => some '\r'
  | '"' => some '"'
  | '\'' => some '\''
  | '\\' => some '\\'
  | _ => none

/-- The characters that begin a longer escape or none. -/
def beginsEscape (c : Char) : Bool := Token.isAsciiDigit c || c == 'x' || c == 'u'

/-- What stands between the quotes, with the value that it gives. -/
inductive Writes : List Char → List Nat → Prop
  | nil : Writes [] []
  /-- A character for itself. -/
  | plain {c : Char} {cs : List Char} {units : List Nat} (hquote : c ≠ '"') (hslash : c ≠ '\\')
      (hfeed : c ≠ '\n') (hreturn : c ≠ '\r') (hrest : Writes cs units) :
      Writes (c :: cs) (codeUnits c.toNat ++ units)
  | single {c d : Char} {cs : List Char} {units : List Nat} (hc : singleEscape? c = some d)
      (hrest : Writes cs units) : Writes ('\\' :: c :: cs) (codeUnits d.toNat ++ units)
  /-- A backslash before a character that needs none. -/
  | needless {c : Char} {cs : List Char} {units : List Nat} (hsingle : singleEscape? c = none)
      (hbegins : beginsEscape c = false) (hline : endsLine c = false) (hrest : Writes cs units) :
      Writes ('\\' :: c :: cs) (codeUnits c.toNat ++ units)
  | null {cs : List Char} {units : List Nat} (hdigit : ∀ c ∈ cs.head?, Token.isAsciiDigit c = false)
      (hrest : Writes cs units) : Writes ('\\' :: '0' :: cs) (0 :: units)
  | hexadecimal {ds cs : List Char} {units : List Nat} (hlength : ds.length = 2)
      (hds : ∀ d ∈ ds, Token.isHexDigit d = true) (hrest : Writes cs units) :
      Writes ('\\' :: 'x' :: (ds ++ cs)) (Numeral.number 16 ds :: units)
  | unit {ds cs : List Char} {units : List Nat} (hlength : ds.length = 4)
      (hds : ∀ d ∈ ds, Token.isHexDigit d = true) (hrest : Writes cs units) :
      Writes ('\\' :: 'u' :: (ds ++ cs)) (Numeral.number 16 ds :: units)
  | point {ds cs : List Char} {units : List Nat} (hne : ds ≠ [])
      (hds : ∀ d ∈ ds, Token.isHexDigit d = true) (hpoint : Numeral.number 16 ds ≤ 0x10FFFF)
      (hrest : Writes cs units) :
      Writes ('\\' :: 'u' :: '\x7b' :: (ds ++ '\x7d' :: cs))
        (codeUnits (Numeral.number 16 ds) ++ units)
  /-- A literal goes on behind the end of a line; a carriage return and a line feed end one line. -/
  | continued {c : Char} {cs : List Char} {units : List Nat} (hline : endsLine c = true)
      (hrest : Writes cs units) : Writes ('\\' :: c :: cs) units
  | continuedFeed {cs : List Char} {units : List Nat} (hrest : Writes cs units) :
      Writes ('\\' :: '\r' :: '\n' :: cs) units

/-- The text is a string literal in double quotes for the value. -/
def Denotes (text : String) (units : List Nat) : Prop :=
  ∃ cs, text.toList = '"' :: (cs ++ ['"']) ∧ Writes cs units

example : Denotes "\"\\u0041\\n\"" [0x41, 0x0A] := by
  have hdigits : ∀ d ∈ ['0', '0', '4', '1'], Token.isHexDigit d = true := List.all_eq_true.1 rfl
  have hfeed : Writes ['\\', 'n'] [0x0A] := @Writes.single 'n' '\n' [] [] rfl .nil
  exact ⟨"\\u0041\\n".toList, rfl, @Writes.unit ['0', '0', '4', '1'] _ _ rfl hdigits hfeed⟩

/-! ### Quoted texts -/

section Inversion

variable {c d : Char} {cs : List Char} {units : List Nat}

/-- Without a backslash, a character stands for itself and does not end the literal or the line. -/
theorem Writes.of_plain (h : Writes (c :: cs) units) (hc : c ≠ '\\') :
    c ≠ '\r' ∧ ∃ more, units = codeUnits c.toNat ++ more ∧ Writes cs more := by
  cases h with
  | plain hquote hslash hfeed hreturn hrest => exact ⟨hreturn, _, rfl, hrest⟩
  | _ => exact absurd rfl hc

/-- A character that an escape of its own has is not read in another way. -/
theorem Writes.of_single (h : Writes ('\\' :: c :: cs) units) (hc : singleEscape? c = some d) :
    ∃ more, units = codeUnits d.toNat ++ more ∧ Writes cs more := by
  cases h with
  | plain hquote hslash => exact absurd rfl hslash
  | single hsingle hrest =>
      obtain rfl := Option.some.inj (hc.symm.trans hsingle)
      exact ⟨_, rfl, hrest⟩
  | needless hsingle =>
      rw [hsingle] at hc
      cases hc
  | continued hline hrest =>
      have hnone : singleEscape? c = none := by
        simp only [endsLine, List.contains_eq_mem, List.mem_cons, List.not_mem_nil, or_false,
          decide_eq_true_eq] at hline
        rcases hline with rfl | rfl | rfl | rfl <;> rfl
      rw [hnone] at hc
      cases hc
  | _ => cases hc

end Inversion

/-- Each character is escaped so that it is read as itself, but for a carriage return. -/
theorem writes_escape_append {c : Char} {rest : List Char} {units : List Nat} :
    Writes (escape c ++ rest) units ↔
      c ≠ '\r' ∧ ∃ more, units = codeUnits c.toNat ++ more ∧ Writes rest more := by
  -- an escape of two characters, of which the second is not a carriage return
  have hsingle {d : Char} (hreturn : c ≠ '\r') (hd : singleEscape? d = some c) :
      Writes ('\\' :: d :: rest) units ↔
        c ≠ '\r' ∧ ∃ more, units = codeUnits c.toNat ++ more ∧ Writes rest more := by
    constructor
    · exact fun h => ⟨hreturn, h.of_single hd⟩
    · rintro ⟨-, more, rfl, hrest⟩
      exact .single hd hrest
  by_cases hquote : c = '"'
  · subst hquote
    exact hsingle (by decide) rfl
  by_cases hslash : c = '\\'
  · subst hslash
    exact hsingle (by decide) rfl
  by_cases hfeed : c = '\n'
  · subst hfeed
    exact hsingle (by decide) rfl
  rw [escape.eq_4 c hquote hslash hfeed, List.singleton_append]
  constructor
  · exact fun h => h.of_plain hslash
  · rintro ⟨hreturn, more, rfl, hrest⟩
    exact .plain hquote hslash hfeed hreturn hrest

theorem writes_escape {content : List Char} {units : List Nat} :
    Writes (content.flatMap escape) units ↔ '\r' ∉ content ∧ units = stringValue content := by
  induction content generalizing units with
  | nil =>
      constructor
      · rintro ⟨⟩
        exact ⟨List.not_mem_nil, rfl⟩
      · rintro ⟨-, rfl⟩
        exact .nil
  | cons c cs ih =>
      rw [List.flatMap_cons, writes_escape_append, List.mem_cons, not_or, and_assoc]
      refine and_congr (not_congr eq_comm) ?_
      simp only [ih]
      constructor
      · rintro ⟨more, rfl, hreturn, rfl⟩
        exact ⟨hreturn, rfl⟩
      · rintro ⟨hreturn, rfl⟩
        exact ⟨stringValue cs, rfl, hreturn, rfl⟩

theorem toList_quote (text : String) :
    (quote text).toList = '"' :: (text.toList.flatMap escape ++ ['"']) := by
  simp [quote]

theorem quote_injective : Function.Injective quote := by
  intro first second hsame
  have hkey := key?_quote second []
  rw [← hsame, key?_quote first []] at hkey
  exact String.toList_inj.1 (Option.some.inj hkey)

theorem denotes_quote_iff {text : String} {units : List Nat} :
    Denotes (quote text) units ↔ '\r' ∉ text.toList ∧ units = stringValue text.toList := by
  rw [← writes_escape]
  constructor
  · rintro ⟨cs, htext, hwrites⟩
    rw [toList_quote] at htext
    rwa [List.append_cancel_right (List.cons.inj htext).2]
  · exact fun hwrites => ⟨_, toList_quote text, hwrites⟩

theorem brandKey_injective (style : Style) : Function.Injective style.brandKey := fun _ _ h =>
  (String.append_right_inj _).1 (propertyName_injective h)

theorem brand_injective (style : Style) : Function.Injective style.brand := by
  have hkey (name : String) : lineKey? (style.brand name) = some (style.brandPrefix ++ name) := by
    have hends : EndsKey (": " ++ quote name) := by
      simp only [EndsKey, String.toList_append]
      rintro c ⟨⟩
      decide
    rw [Style.brand, Style.brandKey, String.append_assoc, String.append_assoc]
    exact lineKey?_readonly _ hends
  intro first second hsame
  have hname := hkey second
  rw [← hsame, hkey first] at hname
  exact (String.append_right_inj _).1 (Option.some.inj hname)

/-- A quoted text is a literal for exactly that text if it has no carriage return, and otherwise no
literal. Values of enumerations, property keys and brands that are written alike are equal. -/
theorem denotes_quote (style : Style) (text other : String) :
    (∀ units, Denotes (quote text) units ↔
      '\r' ∉ text.toList ∧ units = stringValue text.toList) ∧
    ((TypeExpr.stringLiteral (quote text)).text = (TypeExpr.stringLiteral (quote other)).text →
      text = other) ∧
    (propertyName text = propertyName other → text = other) ∧
    (style.brandKey text = style.brandKey other ∨ style.brand text = style.brand other →
      text = other) := by
  refine ⟨fun units => denotes_quote_iff, fun h => quote_injective h,
    fun h => propertyName_injective h, fun h => ?_⟩
  rcases h with hkey | hbrand
  · exact brandKey_injective style hkey
  · exact brand_injective style hbrand

/-- A line feed and a quote are escaped. -/
theorem denotes_quote_feed : quote "a\n\"" = "\"a\\n\\\"\"" ∧
    Denotes (quote "a\n\"") [0x61, 0x0A, 0x22] ∧
    (propertyName "a\n\"" = propertyName "a" → "a\n\"" = "a") := by
  obtain ⟨hliteral, -, hkey, -⟩ := denotes_quote Style.default "a\n\"" "a"
  exact ⟨by decide, (hliteral _).2 ⟨by decide, by decide⟩, hkey⟩

/-- A carriage return ends the line within the literal. -/
theorem not_denotes_quote_return : ¬∃ units, Denotes (quote "a\rb") units := by
  rintro ⟨units, h⟩
  exact absurd (denotes_quote_iff.1 h).1 (by decide)

end IdlBindings.Text
