import IdlBindings.Proofs.Token.Reading
import IdlBindings.Proofs.Token.Slot
import IdlBindings.Proofs.Token.Valid

/-!
What the success of a parser tells about the tokens that it has taken. `Gives p c Q` says that every
value that `p` gives at `c` has `Q`, `Took c gs d` that the tokens between the cursors `c` and `d`
are the glyphs `gs`, and `Parsed c slots P d` that they fill the slots and that `P` holds. The last
two are about tokens without escaped names: the names in `gs` and `slots` stand without their `_`.
-/

namespace IdlBindings

open Glyph
open Slot (exactly print Fills)

namespace Cursor

/-- The tokens are as the lexer makes them. -/
def Lexed (c : Cursor) : Prop := ∀ token ∈ c.rest, token.kind = .garbage ∨ token.glyph.Valid

/-- No name is escaped. -/
def Plain (c : Cursor) : Prop := ∀ token ∈ c.rest, token.glyph.isEscaped = false

theorem Lexed.of_suffix {c d : Cursor} (h : c.Lexed) (hsuffix : d.rest <:+ c.rest) : d.Lexed :=
  fun token htoken => h token (hsuffix.mem htoken)

theorem Plain.of_suffix {c d : Cursor} (h : c.Plain) (hsuffix : d.rest <:+ c.rest) : d.Plain :=
  fun token htoken => h token (hsuffix.mem htoken)

/-- From `c` to `d`, the tokens are `gs`. -/
structure Took (c : Cursor) (gs : List Glyph) (d : Cursor) : Prop where
  suffix : d.rest <:+ c.rest
  proper : c.Lexed → AllProper gs
  glyphs_eq : c.Lexed → c.Plain → c.glyphs = gs ++ d.glyphs

namespace Took

variable {c d e : Cursor} {gs hs : List Glyph}

theorem refl : Took c [] c := ⟨List.suffix_rfl, fun _ => allProper_nil, fun _ _ => rfl⟩

theorem lexed (h : Took c gs d) (hlexed : c.Lexed) : d.Lexed := hlexed.of_suffix h.suffix

theorem plain (h : Took c gs d) (hplain : c.Plain) : d.Plain := hplain.of_suffix h.suffix

theorem append (h : Took c gs d) (h' : Took d hs e) : Took c (gs ++ hs) e := by
  refine ⟨h'.suffix.trans h.suffix, fun hlexed => ?_, fun hlexed hplain => ?_⟩
  · exact allProper_append.2 ⟨h.proper hlexed, h'.proper (h.lexed hlexed)⟩
  · rw [h.glyphs_eq hlexed hplain, h'.glyphs_eq (h.lexed hlexed) (h.plain hplain),
      List.append_assoc]

theorem cons {g : Glyph} (h : Took c [g] d) (h' : Took d hs e) : Took c (g :: hs) e :=
  h.append h'

/-- One token. -/
theorem of_token {g : Glyph} {token : Token} {rest : List Token} (hrest : c.rest = token :: rest)
    (hproper : token.kind = .garbage ∨ token.glyph.Valid → g.Proper)
    (heq : token.kind = .garbage ∨ token.glyph.Valid → token.glyph.isEscaped = false →
      token.glyph = g) : Took c [g] c.advance := by
  have hadvance : c.advance.rest = rest := by rw [advance, hrest]
  have hmem : token ∈ c.rest := by rw [hrest]; exact List.mem_cons_self
  refine ⟨?_, fun hlexed => ?_, fun hlexed hplain => ?_⟩
  · rw [hadvance, hrest]
    exact List.suffix_cons token rest
  · exact allProper_cons.2 ⟨hproper (hlexed token hmem), allProper_nil⟩
  · rw [glyphs, glyphs, hadvance, hrest, List.map_cons, heq (hlexed token hmem) (hplain token hmem)]
    rfl

theorem rest_of_atKind {kind : TokenKind} (h : c.atKind kind = true) :
    ∃ token rest, c.rest = token :: rest ∧ token.kind = kind := by
  rw [atKind] at h
  split at h
  · rename_i token rest hrest
    exact ⟨token, rest, hrest, by simpa using h⟩
  · cases h

theorem proper_mark {kind : TokenKind} (hmark : markText kind ≠ "") : (Glyph.mark kind).Proper := by
  cases kind <;> first
    | decide
    | exact absurd rfl hmark

theorem mark {kind : TokenKind} (h : c.atKind kind = true) (hmark : markText kind ≠ "") :
    Took c [mark kind] c.advance := by
  obtain ⟨token, rest, hrest, rfl⟩ := rest_of_atKind h
  refine of_token hrest (fun _ => proper_mark hmark) fun hlexed _ => ?_
  rcases hlexed with hgarbage | hvalid
  · rw [hgarbage] at hmark
    exact absurd rfl hmark
  · exact hvalid.eq_mark hmark

theorem word {text : String} (h : c.glyphs.head? = some (word text))
    (hproper : (Glyph.word text).Proper) :
    Took c [Glyph.word text] c.advance := by
  obtain ⟨gs, hglyphs⟩ := List.head?_eq_some_iff.1 h
  obtain ⟨token, rest, hrest, hglyph, -⟩ := rest_of_glyphs hglyphs
  exact of_token hrest (fun _ => hproper) fun _ _ => hglyph

/-- A name, which is printed without its `_`. -/
theorem name (h : c.atKind .identifier = true) :
    Took c [Glyph.word (Parse.unescape c.text)] c.advance ∧
      (c.Plain → c.glyphs = Glyph.word (Parse.unescape c.text) :: c.advance.glyphs) := by
  obtain ⟨token, rest, hrest, hkind⟩ := rest_of_atKind h
  have htext : c.text = token.glyph.text := by rw [Cursor.text, hrest]; rfl
  have hword : token.glyph = Glyph.word token.glyph.text := eq_of_toList hkind rfl
  have heq (hplain : token.glyph.isEscaped = false) :
      token.glyph = Glyph.word (Parse.unescape c.text) := by
    rw [hword] at hplain
    rw [htext, Parse.unescape_of_not_escaped hplain]
    exact hword
  refine ⟨of_token hrest (fun hlexed => ?_) fun _ => heq, fun hplain => ?_⟩
  · rw [htext]
    rcases hlexed with hgarbage | hvalid
    · rw [hgarbage] at hkind
      cases hkind
    · exact hvalid.unescape hkind
  · rw [glyphs, glyphs, advance, hrest, List.map_cons,
      heq (hplain token (by rw [hrest]; exact List.mem_cons_self))]

theorem string (h : c.atKind .string = true) :
    Took c [quoted (Parse.unquote c.text)] c.advance := by
  obtain ⟨token, rest, hrest, hkind⟩ := rest_of_atKind h
  have htext : c.text = token.glyph.text := by rw [Cursor.text, hrest]; rfl
  have heq : token.kind = .garbage ∨ token.glyph.Valid →
      token.glyph.Valid ∧ token.glyph = quoted (Parse.unquote c.text) := by
    rintro (hgarbage | hvalid)
    · rw [hgarbage] at hkind
      cases hkind
    · rw [htext]
      exact ⟨hvalid, hvalid.eq_quoted hkind⟩
  refine of_token hrest (fun hlexed => ?_) fun hlexed _ => (heq hlexed).2
  obtain ⟨hvalid, hquoted⟩ := heq hlexed
  rw [← hquoted]
  refine ⟨hvalid, ?_⟩
  rw [isEscaped, show token.glyph.kind = .string from hkind]
  rfl

theorem number {kind : TokenKind} (h : c.atKind kind = true)
    (hnumber : kind = .integer ∨ kind = .decimal) :
    Took c [⟨kind, c.text⟩] c.advance := by
  obtain ⟨token, rest, hrest, hkind⟩ := rest_of_atKind h
  have htext : c.text = token.glyph.text := by rw [Cursor.text, hrest]; rfl
  have heq : token.glyph = ⟨kind, c.text⟩ := eq_of_toList hkind (by rw [htext])
  refine of_token hrest (fun hlexed => ?_) fun _ _ => heq
  rw [← heq]
  rcases hlexed with hgarbage | hvalid
  · rw [hgarbage] at hkind
    rcases hnumber with rfl | rfl <;> cases hkind
  · refine ⟨hvalid, ?_⟩
    rw [isEscaped, show token.glyph.kind = kind from hkind]
    rcases hnumber with rfl | rfl <;> rfl

end Took

/-- From `c` to `d`, the tokens fill the slots, and `P` holds if no name is escaped. -/
structure Parsed (c : Cursor) (slots : List Slot) (P : Prop) (d : Cursor) : Prop where
  suffix : d.rest <:+ c.rest
  proper : c.Lexed → AllProper (print slots)
  fills : c.Lexed → c.Plain → ∃ read, c.glyphs = read ++ d.glyphs ∧ Fills slots read
  holds : c.Lexed → c.Plain → P

namespace Parsed

variable {c d e : Cursor} {slots others : List Slot} {gs : List Glyph} {P Q : Prop}

theorem refl (h : P) : Parsed c [] P c :=
  ⟨List.suffix_rfl, fun _ => allProper_nil, fun _ _ => ⟨[], rfl, .nil⟩, fun _ _ => h⟩

theorem lexed (h : Parsed c slots P d) (hlexed : c.Lexed) : d.Lexed := hlexed.of_suffix h.suffix

theorem plain (h : Parsed c slots P d) (hplain : c.Plain) : d.Plain := hplain.of_suffix h.suffix

/-- What holds if no name is escaped. -/
theorem holding (h : Parsed c slots P d) (hle : c.Lexed → c.Plain → P → Q) :
    Parsed c slots Q d :=
  ⟨h.suffix, h.proper, h.fills, fun hlexed hplain => hle hlexed hplain (h.holds hlexed hplain)⟩

theorem mono (h : Parsed c slots P d) (hle : P → Q) : Parsed c slots Q d :=
  h.holding fun _ _ => hle

theorem append (h : Parsed c slots P d) (h' : Parsed d others Q e) :
    Parsed c (slots ++ others) (P ∧ Q) e := by
  refine ⟨h'.suffix.trans h.suffix, fun hlexed => ?_, fun hlexed hplain => ?_,
    fun hlexed hplain => ⟨h.holds hlexed hplain, h'.holds (h.lexed hlexed) (h.plain hplain)⟩⟩
  · rw [Slot.print_append]
    exact allProper_append.2 ⟨h.proper hlexed, h'.proper (h.lexed hlexed)⟩
  · obtain ⟨read, hc, hread⟩ := h.fills hlexed hplain
    obtain ⟨read', hd, hread'⟩ := h'.fills (h.lexed hlexed) (h.plain hplain)
    exact ⟨read ++ read', by rw [hc, hd, List.append_assoc], hread.append hread'⟩

/-- What was taken fills a slot. -/
theorem of_took {slot : Slot} (h : Took c gs d) (hgs : gs ∈ slot.printed :: slot.others) :
    Parsed c [slot] True d := by
  refine ⟨h.suffix, fun hlexed => ?_, fun hlexed hplain => ?_, fun _ _ => trivial⟩
  · simpa using Slot.allProper_printed hgs (h.proper hlexed)
  · exact ⟨gs, h.glyphs_eq hlexed hplain, .single hgs⟩

theorem exactly (h : Took c gs d) : Parsed c (exactly gs) True d := by
  refine ⟨h.suffix, fun hlexed => ?_, fun hlexed hplain => ?_, fun _ _ => trivial⟩
  · simpa using h.proper hlexed
  · exact ⟨gs, h.glyphs_eq hlexed hplain, .exactly gs⟩

theorem took (h : Parsed c (Slot.exactly gs) P d) : Took c gs d := by
  refine ⟨h.suffix, fun hlexed => ?_, fun hlexed hplain => ?_⟩
  · simpa using h.proper hlexed
  · obtain ⟨read, hc, hread⟩ := h.fills hlexed hplain
    rw [hc, hread.eq_of_exactly]

/-- Tokens before what is parsed. -/
theorem after (h : Parsed d slots P e) (htook : c.Took gs d) :
    Parsed c (Slot.exactly gs ++ slots) P e :=
  ((exactly htook).append h).mono And.right

/-- Tokens behind what is parsed. -/
theorem before (h : Parsed c slots P d) (htook : d.Took gs e) :
    Parsed c (slots ++ Slot.exactly gs) P e :=
  (h.append (exactly htook)).mono And.left

theorem head? (h : Parsed c slots P d) (hlexed : c.Lexed) (hplain : c.Plain) {g : Glyph}
    (hhead : slots.head? = some (.glyph g)) : c.glyphs.head? = some g := by
  obtain ⟨read, hc, hread⟩ := h.fills hlexed hplain
  rw [hc, List.head?_append, hread.head? hhead]
  rfl

/-- A part that has a token of its own takes a token. -/
theorem length_lt (h : Parsed c slots P d) (hlexed : c.Lexed) (hplain : c.Plain) {g : Glyph}
    (hmem : .glyph g ∈ slots) : d.rest.length < c.rest.length := by
  obtain ⟨read, hc, hread⟩ := h.fills hlexed hplain
  have hlength : c.rest.length = read.length + d.rest.length := by
    simpa [glyphs] using congrArg List.length hc
  have hpos : 0 < read.length := List.length_pos_of_mem (hread.mem hmem)
  omega

end Parsed

end Cursor

namespace Parse

open Cursor

variable {α β : Type} {p : Parse α} {f : α → Parse β} {c : Cursor} {P : α → Cursor → Prop}
  {Q : β → Cursor → Prop}

/-- Every value that the parser gives at `c` has `Q`, with the cursor behind it. -/
def Gives (p : Parse β) (c : Cursor) (Q : β → Cursor → Prop) : Prop :=
  ∀ b d, p c = .ok (b, d) → Q b d

namespace Gives

theorem pure {b : β} (h : Q b c) : Gives (Pure.pure b) c Q := by
  rintro _ _ ⟨⟩
  exact h

theorem bind (hp : Gives p c P) (hf : ∀ a d, P a d → Gives (f a) d Q) : Gives (p >>= f) c Q := by
  intro b e hrun
  obtain ⟨a, d, hfirst, hsecond⟩ := bind_eq_ok hrun
  exact hf a d (hp a d hfirst) b e hsecond

theorem mono {P Q : β → Cursor → Prop} {p : Parse β} (h : Gives p c P)
    (hle : ∀ b d, P b d → Q b d) : Gives p c Q :=
  fun b d hrun => hle b d (h b d hrun)

theorem map {g : α → β} (hp : Gives p c fun a d => Q (g a) d) : Gives (g <$> p) c Q := by
  intro b e hrun
  simp only [Functor.map, StateT.map, Bind.bind, Except.bind] at hrun
  cases hfirst : p c with
  | error d => simp [hfirst] at hrun
  | ok result =>
      rw [hfirst] at hrun
      cases hrun
      exact hp _ _ hfirst

theorem look {g : Cursor → α} : Gives (look g) c fun a d => a = g c ∧ d = c := by
  rintro _ _ ⟨⟩
  exact ⟨rfl, rfl⟩

/-- A test alone takes nothing. -/
theorem look_test (test : Cursor → Bool) : Gives (Parse.look test) c fun b d =>
    (b = true ∧ d = c) ∨ (b = false ∧ d = c) := by
  refine look.mono ?_
  rintro b _ ⟨rfl, rfl⟩
  cases h : test _ with
  | true => exact .inl ⟨rfl, rfl⟩
  | false => exact .inr ⟨rfl, rfl⟩

theorem advance : Gives advance c fun _ d => d = c.advance := by
  rintro _ _ ⟨⟩
  rfl

theorem failAt {kind : FaultKind} {span : Span} {detail : String} :
    Gives (failAt kind span detail) c Q := fun _ _ h => by cases h

theorem fail {kind : FaultKind} : Gives (fail kind) c Q := fun _ _ h => by cases h

theorem unexpected {what : String} : Gives (unexpected what) c Q := fun _ _ h => by cases h

theorem ite_look {test : Cursor → Bool} {p q : Parse β} (hyes : test c = true → Gives p c Q)
    (hno : test c = false → Gives q c Q) : Gives (do if ← Parse.look test then p else q) c Q := by
  refine look.bind ?_
  rintro b d ⟨rfl, rfl⟩
  cases h : test d with
  | true => exact hyes h
  | false => exact hno h

theorem atKind {kind : TokenKind} : Gives (atKind kind) c fun b d =>
    (b = true ∧ d = c) ∨ (b = false ∧ d = c ∧ True) := by
  rintro b _ ⟨⟩
  cases h : c.atKind kind with
  | true => exact .inl ⟨h, rfl⟩
  | false => exact .inr ⟨h, rfl, trivial⟩

theorem eatWord {text : String} (hproper : (word text).Proper) :
    Gives (eatWord text) c fun b d => (b = true ∧ Took c [word text] d) ∨
      (b = false ∧ d = c ∧ c.glyphs.head? ≠ some (word text)) := by
  intro b d hrun
  rw [Parse.eatWord] at hrun
  split at hrun <;> cases hrun
  · exact .inl ⟨rfl, .word (atWord_iff.1 ‹_›) hproper⟩
  · exact .inr ⟨rfl, rfl, fun h => ‹¬_› (atWord_iff.2 h)⟩

theorem ite_eatWord {text : String} {p q : Parse β} (hproper : (word text).Proper)
    (hyes : ∀ d, Took c [word text] d → Gives p d Q)
    (hno : c.glyphs.head? ≠ some (word text) → Gives q c Q) :
    Gives (do if ← Parse.eatWord text then p else q) c Q := by
  refine (eatWord hproper).bind ?_
  rintro b d (⟨rfl, htook⟩ | ⟨rfl, rfl, hhead⟩)
  · exact hyes d htook
  · exact hno hhead

theorem eat {kind : TokenKind} (hmark : markText kind ≠ "") :
    Gives (eat kind) c fun b d => (b = true ∧ Took c [mark kind] d) ∨
      (b = false ∧ d = c ∧ ∀ g ∈ c.glyphs.head?, g.kind ≠ kind) := by
  intro b d hrun
  rw [Parse.eat] at hrun
  split at hrun <;> cases hrun
  · exact .inl ⟨rfl, .mark ‹_› hmark⟩
  · exact .inr ⟨rfl, rfl, fun g hg h => ‹¬_› (atKind_iff.2 ⟨g, hg, h⟩)⟩

theorem ite_eat {kind : TokenKind} {p q : Parse β} (hmark : markText kind ≠ "")
    (hyes : ∀ d, Took c [mark kind] d → Gives p d Q)
    (hno : (∀ g ∈ c.glyphs.head?, g.kind ≠ kind) → Gives q c Q) :
    Gives (do if ← Parse.eat kind then p else q) c Q := by
  refine (eat hmark).bind ?_
  rintro b d (⟨rfl, htook⟩ | ⟨rfl, rfl, hhead⟩)
  · exact hyes d htook
  · exact hno hhead

theorem expect {kind : TokenKind} {what : String} (hmark : markText kind ≠ "") :
    Gives (expect kind what) c fun _ d => Took c [mark kind] d := by
  intro b d hrun
  rw [Parse.expect] at hrun
  split at hrun <;> cases hrun
  exact .mark ‹_› hmark

theorem expectWord {text : String} (hproper : (word text).Proper) :
    Gives (expectWord text) c fun _ d => Took c [word text] d := by
  intro b d hrun
  rw [Parse.expectWord] at hrun
  split at hrun <;> cases hrun
  exact .word (atWord_iff.1 ‹_›) hproper

theorem readName : Gives readName c fun name d => Took c [word name] d ∧
    (c.Plain → c.glyphs = word name :: d.glyphs) := by
  intro b d hrun
  rw [Parse.readName] at hrun
  split at hrun <;> cases hrun
  exact Took.name ‹_›

theorem stringContent {what : String} :
    Gives (stringContent what) c fun content d => Took c [quoted content] d := by
  intro b d hrun
  rw [Parse.stringContent] at hrun
  split at hrun <;> cases hrun
  exact .string ‹_›

/-- A part that is there or not, as the test says, and what follows. -/
theorem optionally {test : Parse Bool} {k : Option α → Parse β} {yes : Cursor → Prop} {no : Prop}
    (htest : Gives test c fun b d => (b = true ∧ yes d) ∨ (b = false ∧ d = c ∧ no))
    (hnone : no → Gives (k none) c Q)
    (hsome : ∀ d, yes d → Gives p d fun a e => Gives (k (some a)) e Q) :
    Gives (do if ← test then (some <$> p) >>= k else Pure.pure none >>= k) c Q := by
  refine htest.bind ?_
  rintro b d (⟨rfl, hyes⟩ | ⟨rfl, rfl, hno⟩)
  · exact (map (hsome d hyes)).bind fun a e hnext => hnext
  · exact hnone hno

/-! ### Repetition -/

section Repeat

variable {more : Parse Bool} {item : Parse α} {R : Cursor → α → Cursor → Prop}

/-- A chain of items behind a separator, from one cursor to another. -/
inductive Chain (sep : Cursor → Cursor → Prop) (R : Cursor → α → Cursor → Prop) :
    Cursor → List α → Cursor → Prop
  | nil {c : Cursor} : Chain sep R c [] c
  | cons {c d e last : Cursor} {a : α} {rest : List α} (hsep : sep c d) (hitem : R d a e)
      (hrest : Chain sep R e rest last) : Chain sep R c (a :: rest) last

theorem Chain.parsed {sep : Cursor → Cursor → Prop} (before : List Glyph)
    {slots : α → List Slot} {P : α → Prop} (hsep : ∀ c d, sep c d → Took c before d)
    (hitem : ∀ c a d, R c a d → Parsed c (slots a) (P a) d) {items : List α} {last : Cursor}
    (h : Chain sep R c items last) :
    Parsed c (items.flatMap fun a => exactly before ++ slots a) (∀ a ∈ items, P a) last := by
  induction h with
  | nil => exact .refl (by simp)
  | cons hc ha _ ih =>
      refine (((hitem _ _ _ ha).after (hsep _ _ hc)).append ih).mono fun h => ?_
      exact List.forall_mem_cons.2 h

theorem repeatUpTo {sep : Cursor → Cursor → Prop}
    (hmore : ∀ c, Gives more c fun b d => (b = true ∧ sep c d) ∨ (b = false ∧ d = c))
    (hitem : ∀ c, Gives item c (R c)) (limit : Nat) (c : Cursor) :
    Gives (repeatUpTo more item limit) c (Chain sep R c) := by
  induction limit generalizing c with
  | zero => exact .pure .nil
  | succ limit ih =>
      refine (hmore c).bind ?_
      rintro b d (⟨rfl, hsep⟩ | ⟨rfl, rfl⟩)
      · refine (hitem d).bind fun a e ha => (ih e).bind fun rest last hrest => ?_
        exact .pure (.cons hsep ha hrest)
      · exact .pure .nil

theorem repeatWhile {sep : Cursor → Cursor → Prop}
    (hmore : ∀ c, Gives more c fun b d => (b = true ∧ sep c d) ∨ (b = false ∧ d = c))
    (hitem : ∀ c, Gives item c (R c)) (c : Cursor) :
    Gives (repeatWhile more item) c (Chain sep R c) :=
  repeatUpTo hmore hitem _ c

/-- Items that each take a token are read until there is none left. -/
theorem repeatWhile_end {Holds : Cursor → Prop}
    (hitem : ∀ c, Holds c → Gives item c fun _ d => Holds d ∧ d.rest.length < c.rest.length)
    (hc : Holds c) :
    Gives (Parse.repeatWhile (Parse.look fun c => !c.rest.isEmpty) item) c
      fun _ d => d.rest = [] := by
  have hlimit (limit : Nat) (c : Cursor) (hc : Holds c) (hlt : c.rest.length < limit) :
      Gives (Parse.repeatUpTo (Parse.look fun c => !c.rest.isEmpty) item limit) c
        fun _ d => d.rest = [] := by
    induction limit generalizing c with
    | zero => omega
    | succ limit ih =>
        refine .ite_look (fun _ => ?_) fun hend => ?_
        · refine (hitem c hc).bind fun a d hd => ?_
          exact (ih d hd.1 (by omega)).bind fun rest last hlast => .pure hlast
        · exact .pure (by simpa using hend)
  exact hlimit _ c hc (Nat.lt_succ_self _)

/-- One item or more, with commas between. -/
theorem commaSeparated {slots : α → List Slot} {P : α → Prop}
    (hitem : ∀ c, Gives item c fun a d => Parsed c (slots a) (P a) d) (c : Cursor) :
    Gives (commaSeparated item) c fun items d => items ≠ [] ∧
      Parsed c (Slot.joined (mark .comma) (items.map slots)) (∀ a ∈ items, P a) d := by
  have hmore (c : Cursor) : Gives (Parse.eat .comma) c fun b d =>
      (b = true ∧ Took c [mark .comma] d) ∨ (b = false ∧ d = c) :=
    (eat (by decide)).mono fun b d h => h.imp_right fun h => ⟨h.1, h.2.1⟩
  refine (hitem c).bind fun a d ha => ?_
  refine (repeatWhile hmore hitem d).bind fun rest last hrest => ?_
  refine .pure ⟨List.cons_ne_nil _ _, ?_⟩
  have htail := hrest.parsed [mark .comma] (fun _ _ h => h) fun _ _ _ h => h
  have heq : Slot.joined (mark .comma) ((a :: rest).map slots)
      = slots a ++ rest.flatMap fun a => exactly [mark .comma] ++ slots a := by
    rw [List.map_cons, Slot.joined, List.flatMap_map]
    rfl
  rw [heq]
  exact (ha.append htail).mono fun h => List.forall_mem_cons.2 h

end Repeat

end Gives

end Parse

end IdlBindings
