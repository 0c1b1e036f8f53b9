import IdlBindings.Proofs.Syntax.Relabel
import IdlBindings.Proofs.Token.Place
import IdlBindings.Proofs.Token.Reading
import Mathlib.Order.MinMax

/-!
Parsers on tokens that stand elsewhere. `Moves f g p q` says that `q` does at places changed by `f`
what `p` does at the old ones, and gives its value changed by `g`. As `f` keeps the order of places,
spans that are closed from the last token read move along. Tokens that stand one behind the other
are those of `Cursor.spaced`, moved by such an `f` (`Cursor.Ordered.exists_spaced`).
-/

namespace IdlBindings

namespace Token

variable {f : Nat → Nat}

theorem place_move {lexemes : List (Lexeme TokenKind)} {base base' : Nat}
    (hf : ∀ n ≤ byteLength (lexemes.flatMap Lexeme.text), f (base + n) = base' + n) :
    place base' lexemes = (place base lexemes).map (move f) := by
  induction lexemes generalizing base base' with
  | nil => rfl
  | cons lexeme rest ih =>
      rw [List.flatMap_cons, byteLength_append] at hf
      have hstart : f base = base' := hf 0 (Nat.zero_le _)
      have hstop := hf (byteLength lexeme.text) (Nat.le_add_right _ _)
      have hrest : ∀ n ≤ byteLength (rest.flatMap Lexeme.text),
          f (base + byteLength lexeme.text + n) = base' + byteLength lexeme.text + n := by
        intro n hn
        rw [Nat.add_assoc, Nat.add_assoc]
        exact hf _ (Nat.add_le_add_left hn _)
      rw [place, place, List.map_cons, ih hrest, move, Span.move, hstart, hstop]

/-- The tokens of a text that begins at another byte. -/
theorem lex_move {source : String} {base base' : Nat}
    (hf : ∀ n ≤ byteLength source.toList, f (base + n) = base' + n) :
    lex source base' = (lex source base).map (move f) := by
  refine place_move ?_
  rwa [joinGarbage_flatten, Automaton.scan_flatten]

theorem significant_lex_move {source : String} {base base' : Nat}
    (hf : ∀ n ≤ byteLength source.toList, f (base + n) = base' + n) :
    significant (lex source base') = (significant (lex source base)).map (move f) := by
  rw [lex_move hf, significant, significant, List.filter_map]
  rfl

/-- The places of a text that ends below byte `2 ^ 32` are stored as they are. -/
theorem lexAt_eq {source : String} {base : UInt32}
    (hfits : base.toNat + byteLength source.toList < UInt32.size) :
    lexAt source base = lex source base.toNat := by
  refine (lex_move fun n hn => ?_).symm
  rw [Nat.zero_add]
  exact storedPlace_of_lt (Nat.lt_of_le_of_lt (Nat.add_le_add_left hn _) hfits)

end Token

namespace Cursor

def move (f : Nat → Nat) (c : Cursor) : Cursor :=
  ⟨c.rest.map (Token.move f), f c.lastEnd, f c.eof⟩

section Moved

variable (f : Nat → Nat) (c : Cursor)

@[simp] theorem span_move : (c.move f).span = c.span.move f := by
  obtain ⟨rest, lastEnd, eof⟩ := c
  cases rest <;> rfl

@[simp] theorem found_move : (c.move f).found = c.found := by
  obtain ⟨rest, lastEnd, eof⟩ := c
  cases rest <;> rfl

@[simp] theorem text_move : (c.move f).text = c.text := by
  obtain ⟨rest, lastEnd, eof⟩ := c
  cases rest <;> rfl

@[simp] theorem atKind_move (kind : TokenKind) : (c.move f).atKind kind = c.atKind kind := by
  obtain ⟨rest, lastEnd, eof⟩ := c
  cases rest <;> rfl

@[simp] theorem atWord_move (word : String) : (c.move f).atWord word = c.atWord word := by
  obtain ⟨rest, lastEnd, eof⟩ := c
  cases rest <;> rfl

@[simp] theorem beforeKind_move (kind : TokenKind) :
    (c.move f).beforeKind kind = c.beforeKind kind := by
  obtain ⟨rest, lastEnd, eof⟩ := c
  rcases rest with - | ⟨first, - | ⟨second, rest⟩⟩ <;> rfl

@[simp] theorem beforeWord_move (word : String) :
    (c.move f).beforeWord word = c.beforeWord word := by
  obtain ⟨rest, lastEnd, eof⟩ := c
  rcases rest with - | ⟨first, - | ⟨second, rest⟩⟩ <;> rfl

@[simp] theorem length_rest_move : (c.move f).rest.length = c.rest.length := List.length_map ..

@[simp] theorem isEmpty_rest_move : (c.move f).rest.isEmpty = c.rest.isEmpty := List.isEmpty_map

@[simp] theorem advance_move : (c.move f).advance = c.advance.move f := by
  obtain ⟨rest, lastEnd, eof⟩ := c
  cases rest <;> rfl

end Moved

/-! ### Tokens in their order -/

/-- The cursor in front of these glyphs, when each of them has two places of its own. -/
def spaced : List Glyph → Cursor
  | [] => ⟨[], 0, 1⟩
  | g :: gs =>
    let later := (spaced gs).move (· + 2)
    ⟨⟨g.kind, ⟨1, 2⟩, g.text⟩ :: later.rest, 0, later.eof⟩

/-- The tokens ahead stand one behind the other, between the last token read and the end. -/
inductive Ordered : Cursor → Prop
  | nil {lastEnd eof : Nat} (h : lastEnd ≤ eof) : Ordered ⟨[], lastEnd, eof⟩
  | cons {token : Token} {rest : List Token} {lastEnd eof : Nat}
      (hstart : lastEnd ≤ token.span.start) (hstop : token.span.start ≤ token.span.stop)
      (hrest : Ordered ⟨rest, token.span.stop, eof⟩) : Ordered ⟨token :: rest, lastEnd, eof⟩

/-- Two places in front of those that `f` gives. -/
def placesBefore (first second : Nat) (f : Nat → Nat) : Nat → Nat
  | 0 => first
  | 1 => second
  | n + 2 => f n

theorem monotone_placesBefore {first second : Nat} {f : Nat → Nat} (hfirst : first ≤ second)
    (hsecond : second ≤ f 0) (hf : Monotone f) : Monotone (placesBefore first second f) := by
  apply monotone_nat_of_le_succ
  intro n
  match n with
  | 0 => exact hfirst
  | 1 => exact hsecond
  | n + 2 => exact hf (Nat.le_succ n)

theorem lastEnd_spaced (gs : List Glyph) : (spaced gs).lastEnd = 0 := by
  cases gs <;> rfl

/-- Tokens in their order are the spaced ones at other places. -/
theorem Ordered.exists_spaced {c : Cursor} (h : c.Ordered) :
    ∃ f, Monotone f ∧ c = (spaced c.glyphs).move f := by
  induction h with
  | @nil lastEnd eof h =>
      exact ⟨placesBefore lastEnd eof fun _ => eof,
        monotone_placesBefore h (Nat.le_refl eof) monotone_const, rfl⟩
  | @cons token rest lastEnd eof hstart hstop _ ih =>
      obtain ⟨f, hf, hrest⟩ := ih
      obtain ⟨htokens, hzero, heof⟩ := Cursor.mk.inj hrest
      rw [lastEnd_spaced] at hzero
      refine ⟨placesBefore lastEnd token.span.start f,
        monotone_placesBefore hstart (hzero ▸ hstop) hf, ?_⟩
      have hlater : (spaced (rest.map Token.glyph)).rest.map
          (Token.move (placesBefore lastEnd token.span.start f) ∘ Token.move (· + 2)) = rest :=
        htokens.symm
      have hfirst : Token.mk token.kind ⟨token.span.start, f 0⟩ token.text = token := by
        rw [← hzero]
      simp only [move, glyphs, List.map_cons, spaced, List.map_map, hlater]
      exact Cursor.mk.injEq .. ▸ ⟨congrArg (· :: rest) hfirst.symm, rfl, heof⟩

end Cursor

namespace Token

/-- The tokens of a piece of text stand one behind the other. -/
theorem Tiled.ordered {offset lastEnd : Nat} {text : List Char} {tokens : List Token}
    (h : Tiled offset text tokens) (hle : lastEnd ≤ offset) :
    Cursor.Ordered ⟨significant tokens, lastEnd, offset + byteLength text⟩ := by
  induction h generalizing lastEnd with
  | nil => exact .nil hle
  | @cons offset kind piece text tokens hne hrest ih =>
      rw [byteLength_append, ← Nat.add_assoc, significant, List.filter_cons]
      split
      · exact .cons hle (Nat.le_add_right _ _) (ih (Nat.le_refl _))
      · exact ih (Nat.le_add_right_of_le hle)

end Token

namespace Parse

variable {α β α' β' : Type} {f : Nat → Nat}

/-- At the moved cursor `q` does what `p` does, with the value changed by `g`. -/
def Moves (f : Nat → Nat) (g : α → α') (p : Parse α) (q : Parse α') : Prop :=
  ∀ c : Cursor, q (c.move f) = match p c with
    | .ok (a, d) => .ok (g a, d.move f)
    | .error fault => .error (fault.relabel (Span.move f))

/-- The parser gives the same value wherever the tokens stand. -/
abbrev Stays (f : Nat → Nat) (p : Parse α) : Prop := Moves f id p p

namespace Moves

variable {g : α → α'} {h : β → β'} {p : Parse α} {q : Parse α'} {k : α → Parse β}

theorem pure (a : α) : Moves f g (Pure.pure a) (Pure.pure (g a)) := fun _ => rfl

/-- The first parser gives a value that moves. -/
theorem follow {l : α' → Parse β'} (hp : Moves f g p q)
    (hk : ∀ a, Moves f h (k a) (l (g a))) : Moves f h (p >>= k) (q >>= l) := by
  intro c
  simp only [Bind.bind, StateT.bind, Except.bind, hp c]
  cases p c with
  | error fault => rfl
  | ok result => exact hk result.1 result.2

/-- The first parser gives the same value. -/
theorem bind {l : α → Parse β'} (hp : Stays f p) (hk : ∀ a, Moves f h (k a) (l a)) :
    Moves f h (p >>= k) (p >>= l) :=
  hp.follow hk

theorem map {m : α → β} (hp : Stays f p) : Stays f (m <$> p) := by
  rw [← bind_pure_comp]
  exact hp.bind fun _ => pure _

theorem ite {test : Bool} {p' : Parse α} {q' : Parse α'} (hyes : Moves f g p q)
    (hno : Moves f g p' q') :
    Moves f g (if test then p else p') (if test then q else q') := by
  cases test with
  | true => exact hyes
  | false => exact hno

/-! ### The basic parsers -/

theorem look {t : Cursor → α} (ht : ∀ c : Cursor, t (c.move f) = t c) : Stays f (Parse.look t) :=
  fun c => congrArg (fun a => Except.ok (a, c.move f)) (ht c)

theorem atEnd : Stays f Parse.atEnd := look fun c => c.isEmpty_rest_move f

theorem atKind {kind : TokenKind} : Stays f (Parse.atKind kind) :=
  look fun c => c.atKind_move f kind

theorem advance : Stays f Parse.advance := fun c =>
  congrArg (fun d => Except.ok ((), d)) (c.advance_move f)

theorem fail {kind : FaultKind} : Moves f g (Parse.fail kind) (Parse.fail kind) := by
  intro c
  simp only [Parse.fail, Cursor.span_move, Cursor.found_move, Diagnostic.relabel_report]

theorem unexpected {what : String} : Moves f g (Parse.unexpected what) (Parse.unexpected what) := by
  intro c
  simp only [Parse.unexpected, Cursor.span_move, Cursor.found_move, Diagnostic.relabel_report]

/-- A parser that goes past the next token if the cursor passes a test. -/
theorem test {t : Cursor → Bool} (ht : ∀ c : Cursor, t (c.move f) = t c) {v : Cursor → α}
    (hv : ∀ c : Cursor, v (c.move f) = v c) (hp : Stays f p) :
    Stays f fun c => if t c then .ok (v c, c.advance) else p c := by
  intro c
  simp only [ht c, hv c, Cursor.advance_move]
  cases t c with
  | true => rfl
  | false => exact hp c

theorem eat {kind : TokenKind} : Stays f (Parse.eat kind) :=
  test (fun c => c.atKind_move f kind) (fun _ => rfl) (pure false)

theorem eatWord {word : String} : Stays f (Parse.eatWord word) :=
  test (fun c => c.atWord_move f word) (fun _ => rfl) (pure false)

theorem eatIf {allowed : Bool} {kind : TokenKind} : Stays f (Parse.eatIf allowed kind) :=
  ite eat (pure false)

theorem expect {kind : TokenKind} {what : String} : Stays f (Parse.expect kind what) :=
  test (fun c => c.atKind_move f kind) (fun _ => rfl) unexpected

theorem expectWord {word : String} : Stays f (Parse.expectWord word) :=
  test (fun c => c.atWord_move f word) (fun _ => rfl) unexpected

theorem readName : Stays f Parse.readName :=
  test (fun c => c.atKind_move f .identifier) (fun c => congrArg unescape (c.text_move f)) fail

theorem stringContent {what : String} : Stays f (Parse.stringContent what) :=
  test (fun c => c.atKind_move f .string) (fun c => congrArg unquote (c.text_move f)) unexpected

/-- A fault at a place that has moved. -/
theorem failAt {kind : FaultKind} {span : Span} {detail : String} :
    Moves f g (Parse.failAt kind span detail) (Parse.failAt kind (span.move f) detail) :=
  fun _ => rfl

theorem start : Moves f f Parse.start Parse.start := fun c =>
  congrArg (fun span : Span => Except.ok (span.start, c.move f)) (c.span_move f)

theorem span : Moves f (Span.move f) (Parse.look Cursor.span) (Parse.look Cursor.span) := fun c =>
  congrArg (fun span : Span => Except.ok (span, c.move f)) (c.span_move f)

theorem spanFrom (hf : Monotone f) (first : Nat) :
    Moves f (Span.move f) (Parse.spanFrom first) (Parse.spanFrom (f first)) := fun c =>
  congrArg (fun stop => Except.ok (Span.mk (f first) stop, c.move f)) (hf.map_max.symm)

/-! ### Repetition -/

section Repeat

variable {more : Parse Bool} {item : Parse α} {item' : Parse α'}

theorem repeatUpTo (hmore : Stays f more) (hitem : Moves f g item item') (limit : Nat) :
    Moves f (List.map g) (Parse.repeatUpTo more item limit)
      (Parse.repeatUpTo more item' limit) := by
  induction limit with
  | zero => exact pure []
  | succ limit ih =>
      refine bind hmore fun _ => ite ?_ (pure [])
      exact follow hitem fun first => follow ih fun rest => pure (first :: rest)

theorem repeatWhile (hmore : Stays f more) (hitem : Moves f g item item') :
    Moves f (List.map g) (Parse.repeatWhile more item) (Parse.repeatWhile more item') := by
  intro c
  rw [Parse.repeatWhile, Cursor.length_rest_move]
  exact repeatUpTo hmore hitem _ c

end Repeat

end Moves

end Parse

end IdlBindings
