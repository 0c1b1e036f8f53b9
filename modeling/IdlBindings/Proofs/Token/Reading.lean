import IdlBindings.Proofs.Token.Glyph
import IdlBindings.Proofs.Token.Passing
import IdlBindings.Token.Cursor
import Mathlib.Data.List.Forall2

/-!
What a parser makes of the glyphs in front of it. `Reads p input output Q` says that `p`, in front
of `input`, gives a value with `Q` and stops in front of `output`; it holds of a sequence of parsers
when it holds of the parts.
-/

namespace IdlBindings

/-- The glyphs that are still to be read. -/
def Cursor.glyphs (c : Cursor) : List Glyph := c.rest.map Token.glyph

namespace Cursor

theorem length_glyphs (c : Cursor) : c.glyphs.length = c.rest.length := List.length_map _

/-- A cursor in front of a glyph is in front of a token with that glyph. -/
theorem rest_of_glyphs {c : Cursor} {g : Glyph} {gs : List Glyph} (h : c.glyphs = g :: gs) :
    ∃ token rest, c.rest = token :: rest ∧ token.glyph = g ∧ rest.map Token.glyph = gs :=
  List.map_eq_cons_iff.1 h

theorem rest_of_glyphs_nil {c : Cursor} (h : c.glyphs = []) : c.rest = [] := List.map_eq_nil_iff.1 h

theorem glyphs_advance (c : Cursor) : c.advance.glyphs = c.glyphs.tail := by
  rw [advance, glyphs, glyphs]
  cases h : c.rest with
  | nil => simp [h]
  | cons token rest => rfl

theorem isWord_iff {token : Token} {text : String} :
    isWord token text = true ↔ token.glyph = .word text := by
  simp [isWord, Token.glyph, Glyph.word]

theorem atKind_iff {c : Cursor} {kind : TokenKind} :
    c.atKind kind = true ↔ ∃ g ∈ c.glyphs.head?, g.kind = kind := by
  rw [atKind, glyphs]
  cases c.rest <;> simp [Token.glyph]

theorem atWord_iff {c : Cursor} {text : String} :
    c.atWord text = true ↔ c.glyphs.head? = some (.word text) := by
  rw [atWord, glyphs]
  cases c.rest <;> simp [isWord_iff]

theorem beforeKind_iff {c : Cursor} {kind : TokenKind} :
    c.beforeKind kind = true ↔ ∃ g ∈ c.glyphs.tail.head?, g.kind = kind := by
  rw [beforeKind, glyphs]
  rcases c.rest with _ | ⟨first, _ | ⟨second, rest⟩⟩ <;> simp [Token.glyph]

theorem beforeWord_iff {c : Cursor} {text : String} :
    c.beforeWord text = true ↔ c.glyphs.tail.head? = some (.word text) := by
  rw [beforeWord, glyphs]
  rcases c.rest with _ | ⟨first, _ | ⟨second, rest⟩⟩ <;> simp [isWord_iff]

theorem text_of_glyphs {c : Cursor} {g : Glyph} {gs : List Glyph} (h : c.glyphs = g :: gs) :
    c.text = g.text := by
  obtain ⟨token, rest, hrest, rfl, -⟩ := rest_of_glyphs h
  rw [text, hrest]
  rfl

end Cursor

namespace Parse

variable {α β : Type} {p : Parse α} {f : α → Parse β} {input middle output : List Glyph}
  {P : α → Prop} {Q : β → Prop}

theorem unescape_of_not_escaped {name : String} (h : (Glyph.word name).isEscaped = false) :
    unescape name = name := by
  rw [unescape]
  split
  · next rest hlist => simp [Glyph.isEscaped, Glyph.word, hlist] at h
  · rfl

theorem unquote_quoted (content : String) : unquote (Glyph.quoted content).text = content := by
  simp [unquote, Glyph.quoted]

/-- In front of `input`, the parser gives a value with `Q` and stops in front of `output`. -/
def Reads (p : Parse β) (input output : List Glyph) (Q : β → Prop) : Prop :=
  ∀ c : Cursor, c.glyphs = input → ∃ b c', p c = .ok (b, c') ∧ c'.glyphs = output ∧ Q b

namespace Reads

theorem pure {b : β} (h : Q b) : Reads (Pure.pure b) input input Q :=
  fun c hc => ⟨b, c, rfl, hc, h⟩

theorem bind (hp : Reads p input middle P) (hf : ∀ a, P a → Reads (f a) middle output Q) :
    Reads (p >>= f) input output Q := by
  intro c hc
  obtain ⟨a, d, hrun, hd, ha⟩ := hp c hc
  obtain ⟨b, c', hnext, hc', hb⟩ := hf a ha d hd
  exact ⟨b, c', (bind_of_ok hrun).trans hnext, hc', hb⟩

/-- A parser with one possible value, and what follows. -/
theorem andThen {a : α} (hp : Reads p input middle (· = a)) (hf : Reads (f a) middle output Q) :
    Reads (p >>= f) input output Q :=
  hp.bind fun _ ha => ha ▸ hf

theorem mono {P Q : β → Prop} {p : Parse β} (h : Reads p input output P)
    (hle : ∀ b, P b → Q b) : Reads p input output Q := by
  intro c hc
  obtain ⟨b, c', hrun, hc', hb⟩ := h c hc
  exact ⟨b, c', hrun, hc', hle b hb⟩

theorem map {g : α → β} {a : α} (hp : Reads p input output (· = a)) (hQ : Q (g a)) :
    Reads (g <$> p) input output Q := by
  intro c hc
  obtain ⟨b, c', hrun, hc', rfl⟩ := hp c hc
  exact ⟨g b, c', by simp [Functor.map, StateT.map, hrun, Except.bind, Pure.pure, Except.pure,
    Bind.bind], hc', hQ⟩

/-- A test that holds. -/
theorem ite_true {test : Parse Bool} {q r : Parse β} (ht : Reads test input middle (· = true))
    (hq : Reads q middle output Q) : Reads (do if ← test then q else r) input output Q :=
  ht.andThen hq

/-- A test that does not hold. -/
theorem ite_false {test : Parse Bool} {q r : Parse β} (ht : Reads test input middle (· = false))
    (hr : Reads r middle output Q) : Reads (do if ← test then q else r) input output Q :=
  ht.andThen hr

/-- A part in front of `middle` that is there or not, as the test says, and what follows. -/
theorem optionally (middle : List Glyph) {test : Parse Bool} {k : Option α → Parse β}
    (value : Option α) (hnone : value = none → Reads test input middle (· = false))
    (hsome : ∀ a, value = some a → ∃ behind, Reads test input behind (· = true) ∧
      Reads p behind middle (· = a)) (hk : Reads (k value) middle output Q) :
    Reads (do if ← test then (some <$> p) >>= k else Pure.pure none >>= k) input output Q := by
  cases value with
  | none => exact .ite_false (hnone rfl) (.andThen (.pure rfl) hk)
  | some a =>
      obtain ⟨behind, htest, hitem⟩ := hsome a rfl
      exact .ite_true htest (.andThen (.map hitem rfl) hk)

theorem look {g : Cursor → α} {a : α} (h : ∀ c : Cursor, c.glyphs = input → g c = a) :
    Reads (look g) input input (· = a) :=
  fun c hc => ⟨g c, c, rfl, hc, h c hc⟩

theorem text {g : Glyph} : Reads (Parse.look Cursor.text) (g :: input) (g :: input) (· = g.text) :=
  look fun _ hc => Cursor.text_of_glyphs hc

/-- What is seen does not matter. -/
theorem look_any {g : Cursor → α} : Reads (Parse.look g) input input fun _ => True :=
  fun c hc => ⟨g c, c, rfl, hc, trivial⟩

theorem advance {g : Glyph} : Reads advance (g :: input) input fun _ => True :=
  fun c hc => ⟨(), c.advance, rfl, by rw [Cursor.glyphs_advance, hc, List.tail_cons], trivial⟩

theorem eat {g : Glyph} {kind : TokenKind} (h : g.kind = kind) :
    Reads (eat kind) (g :: input) input (· = true) := by
  intro c hc
  have hat : c.atKind kind = true := Cursor.atKind_iff.2 ⟨g, by simp [hc], h⟩
  refine ⟨true, c.advance, ?_, ?_, rfl⟩
  · rw [Parse.eat, if_pos hat]
  · rw [Cursor.glyphs_advance, hc, List.tail_cons]

theorem eat_none {kind : TokenKind} (h : ∀ g ∈ input.head?, g.kind ≠ kind) :
    Reads (Parse.eat kind) input input (· = false) := by
  intro c hc
  have hat : ¬c.atKind kind = true := by
    rw [Cursor.atKind_iff, hc]
    rintro ⟨g, hg, hkind⟩
    exact h g hg hkind
  exact ⟨false, c, by rw [Parse.eat, if_neg hat], hc, rfl⟩

theorem eat_other {g : Glyph} {kind : TokenKind} (h : g.kind ≠ kind) :
    Reads (Parse.eat kind) (g :: input) (g :: input) (· = false) := by
  refine eat_none ?_
  rintro _ ⟨⟩
  exact h

theorem atKind {g : Glyph} {kind : TokenKind} (h : g.kind = kind) :
    Reads (atKind kind) (g :: input) (g :: input) (· = true) :=
  look fun c hc => Cursor.atKind_iff.2 ⟨g, by simp [hc], h⟩

theorem atKind_none {kind : TokenKind} (h : ∀ g ∈ input.head?, g.kind ≠ kind) :
    Reads (Parse.atKind kind) input input (· = false) := by
  refine look fun c hc => ?_
  rw [Bool.eq_false_iff, ne_eq, Cursor.atKind_iff, hc]
  rintro ⟨g, hg, hkind⟩
  exact h g hg hkind

theorem atKind_other {g : Glyph} {kind : TokenKind} (h : g.kind ≠ kind) :
    Reads (Parse.atKind kind) (g :: input) (g :: input) (· = false) := by
  refine atKind_none ?_
  rintro _ ⟨⟩
  exact h

theorem eatWord {text : String} : Reads (eatWord text) (.word text :: input) input (· = true) := by
  intro c hc
  have hat : c.atWord text = true := Cursor.atWord_iff.2 (by rw [hc, List.head?_cons])
  refine ⟨true, c.advance, ?_, ?_, rfl⟩
  · rw [Parse.eatWord, if_pos hat]
  · rw [Cursor.glyphs_advance, hc, List.tail_cons]

theorem eatWord_none {text : String} (h : input.head? ≠ some (.word text)) :
    Reads (Parse.eatWord text) input input (· = false) := by
  intro c hc
  have hat : ¬c.atWord text = true := by rwa [Cursor.atWord_iff, hc]
  exact ⟨false, c, by rw [Parse.eatWord, if_neg hat], hc, rfl⟩

theorem eatWord_other {g : Glyph} {text : String} (h : g ≠ .word text) :
    Reads (Parse.eatWord text) (g :: input) (g :: input) (· = false) :=
  eatWord_none fun hhead => h (Option.some.inj hhead)

/-- In front of a word, what is read goes by the word. -/
theorem byWord {w : String} {k : String → Parse β} {other : Parse β}
    (h : Reads (k w) (.word w :: input) output Q) :
    Reads (do if ← Parse.atKind .identifier then Parse.look Cursor.text >>= k else other)
      (.word w :: input) output Q :=
  .ite_true (.atKind rfl) (.andThen .text h)

theorem expect {g : Glyph} {kind : TokenKind} {what : String} (h : g.kind = kind) :
    Reads (expect kind what) (g :: input) input fun _ => True := by
  intro c hc
  have hat : c.atKind kind = true := Cursor.atKind_iff.2 ⟨g, by simp [hc], h⟩
  refine ⟨(), c.advance, ?_, ?_, trivial⟩
  · rw [Parse.expect, if_pos hat]
  · rw [Cursor.glyphs_advance, hc, List.tail_cons]

theorem expectWord {text : String} :
    Reads (expectWord text) (.word text :: input) input fun _ => True := by
  intro c hc
  have hat : c.atWord text = true := Cursor.atWord_iff.2 (by rw [hc, List.head?_cons])
  refine ⟨(), c.advance, ?_, ?_, trivial⟩
  · rw [Parse.expectWord, if_pos hat]
  · rw [Cursor.glyphs_advance, hc, List.tail_cons]

theorem readName {name : String} (h : (Glyph.word name).isEscaped = false) :
    Reads readName (.word name :: input) input (· = name) := by
  intro c hc
  have hat : c.atKind .identifier = true := Cursor.atKind_iff.2 ⟨_, by rw [hc]; rfl, rfl⟩
  have htext : unescape c.text = name := by
    rw [Cursor.text_of_glyphs hc]
    exact unescape_of_not_escaped h
  refine ⟨name, c.advance, ?_, ?_, rfl⟩
  · rw [Parse.readName, if_pos hat, htext]
  · rw [Cursor.glyphs_advance, hc, List.tail_cons]

theorem stringContent {content what : String} :
    Reads (stringContent what) (.quoted content :: input) input (· = content) := by
  intro c hc
  have hat : c.atKind .string = true := Cursor.atKind_iff.2 ⟨_, by rw [hc]; rfl, rfl⟩
  refine ⟨content, c.advance, ?_, ?_, rfl⟩
  · rw [Parse.stringContent, if_pos hat, Cursor.text_of_glyphs hc]
    exact congrArg (fun text => Except.ok (text, c.advance)) (unquote_quoted content)
  · rw [Cursor.glyphs_advance, hc, List.tail_cons]

/-! ### Repetition -/

section Repeat

variable {more : Parse Bool} {item : Parse α} {before : List Glyph} {gs : α → List Glyph}
  {follow : List Glyph → Prop} {R : α → α → Prop}

/-- Items behind `before`, as many as there are. -/
theorem repeatUpTo {items : List α} {limit : Nat} (hlimit : items.length < limit)
    (hend : Reads more output output (· = false)) (hfollow : follow output)
    (hbefore : ∀ x ∈ items, ∀ rest, follow (before ++ (gs x ++ rest)))
    (hmore : ∀ x ∈ items, ∀ rest,
      Reads more (before ++ (gs x ++ rest)) (gs x ++ rest) (· = true))
    (hitem : ∀ x ∈ items, ∀ rest, follow rest → Reads item (gs x ++ rest) rest (R x)) :
    Reads (repeatUpTo more item limit) (items.flatMap (fun x => before ++ gs x) ++ output) output
      (List.Forall₂ R items) := by
  induction items generalizing limit with
  | nil =>
      obtain ⟨limit, rfl⟩ := Nat.exists_eq_add_one_of_ne_zero (Nat.ne_of_gt hlimit)
      exact .ite_false hend (.pure .nil)
  | cons x items ih =>
      obtain ⟨limit, rfl⟩ := Nat.exists_eq_add_one_of_ne_zero (Nat.ne_of_gt (Nat.zero_lt_of_lt hlimit))
      rw [List.forall_mem_cons] at hbefore hmore hitem
      have hrest : follow (items.flatMap (fun x => before ++ gs x) ++ output) := by
        cases items with
        | nil => exact hfollow
        | cons y items =>
            rw [List.flatMap_cons, List.append_assoc, List.append_assoc]
            exact hbefore.2 y List.mem_cons_self _
      rw [List.flatMap_cons, List.append_assoc, List.append_assoc]
      refine .ite_true (hmore.1 _) (.bind (hitem.1 _ hrest) fun first hfirst => ?_)
      refine .bind (ih (Nat.lt_of_succ_lt_succ hlimit) hbefore.2 hmore.2 hitem.2) fun rest hrest => ?_
      exact .pure (.cons hfirst hrest)

theorem repeatWhile (follow : List Glyph → Prop) {items : List α}
    (hend : Reads more output output (· = false)) (hfollow : follow output)
    (hbefore : ∀ x ∈ items, ∀ rest, follow (before ++ (gs x ++ rest)))
    (hmore : ∀ x ∈ items, ∀ rest,
      Reads more (before ++ (gs x ++ rest)) (gs x ++ rest) (· = true))
    (hitem : ∀ x ∈ items, ∀ rest, follow rest → Reads item (gs x ++ rest) rest (R x))
    (hne : ∀ x ∈ items, before ++ gs x ≠ []) :
    Reads (repeatWhile more item) (items.flatMap (fun x => before ++ gs x) ++ output) output
      (List.Forall₂ R items) := by
  have hlength : items.length ≤ (items.flatMap fun x => before ++ gs x).length := by
    clear hbefore hmore hitem
    induction items with
    | nil => exact Nat.zero_le _
    | cons x items ih =>
        rw [List.forall_mem_cons] at hne
        have hpos := List.length_pos_iff.2 hne.1
        rw [List.flatMap_cons, List.length_append, List.length_cons]
        have := ih hne.2
        omega
  intro c hc
  have hlimit : items.length < c.rest.length + 1 := by
    rw [← c.length_glyphs, hc, List.length_append]
    omega
  exact repeatUpTo hlimit hend hfollow hbefore hmore hitem c hc

theorem map_eq_of_forall₂ {γ : Type} {f : α → γ} {xs ys : List α}
    (h : List.Forall₂ (fun x y => f y = f x) xs ys) : ys.map f = xs.map f := by
  induction h with
  | nil => rfl
  | cons hxy _ ih => rw [List.map_cons, List.map_cons, hxy, ih]

theorem forall₂_flip_eq {xs ys : List α} (h : List.Forall₂ (fun x y => y = x) xs ys) :
    ys = xs := by
  simpa using map_eq_of_forall₂ (f := id) h

/-- Items with commas between, read one by one. -/
theorem commaSeparated (follow : List Glyph → Prop) {items : List α} {g : Glyph}
    (hne : items ≠ []) (hend : g.kind ≠ .comma) (hfollow : follow (g :: output))
    (hcomma : ∀ rest, follow (.mark .comma :: rest))
    (hitem : ∀ x ∈ items, ∀ rest, follow rest → Reads item (gs x ++ rest) rest (· = x)) :
    Reads (commaSeparated item) (Glyph.joined (.mark .comma) (items.map gs) ++ g :: output)
      (g :: output) (· = items) := by
  cases items with
  | nil => exact absurd rfl hne
  | cons x items =>
      rw [List.forall_mem_cons] at hitem
      have htail : (items.map gs).flatMap (.mark .comma :: ·)
          = items.flatMap fun x => [.mark .comma] ++ gs x := by
        rw [List.flatMap_map]
        rfl
      have hrest : follow (items.flatMap (fun x => [.mark .comma] ++ gs x) ++ g :: output) := by
        cases items with
        | nil => exact hfollow
        | cons y items => exact hcomma _
      rw [List.map_cons, Glyph.joined, htail, List.append_assoc]
      refine .andThen (hitem.1 _ hrest) ?_
      refine .bind (repeatWhile follow (eat_other hend) hfollow (fun _ _ _ => hcomma _)
        (fun _ _ _ => eat rfl) hitem.2 fun _ _ => List.cons_ne_nil _ _) ?_
      intro rest hrest
      rw [forall₂_flip_eq hrest]
      exact .pure rfl

end Repeat

end Reads

end Parse

end IdlBindings
