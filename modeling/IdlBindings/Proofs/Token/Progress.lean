import IdlBindings.Proofs.Token.Passing

/-!
Progress through the tokens. `Advances least p` says that `p` goes on at least so many positions
further and never behind the last token, or stops with one fault. A loop that reads a token in every
round ends within as many rounds as there are tokens, so what would come after them never shows
(`rounds_eq`). `Alike n p q` says that two parsers do the same wherever fewer than `n` tokens are
ahead, so it shows how deep a recursion goes.
-/

namespace IdlBindings

namespace Cursor

/-- The cursor stands in front of the token at this position, or behind the last one. -/
structure At (tokens : List Token) (pos : Nat) (c : Cursor) : Prop where
  le_length : pos ≤ tokens.length
  rest : c.rest = tokens.drop pos

theorem At.of_passed {tokens ts : List Token} {pos : Nat} {c d : Cursor} (h : c.At tokens pos)
    (hpassed : c.Passed ts d) : d.At tokens (pos + ts.length) := by
  have hsplit : tokens.drop pos = ts ++ d.rest := h.rest.symm.trans hpassed.rest
  refine ⟨?_, ?_⟩
  · have hlength := congrArg List.length hsplit
    have hle := h.le_length
    rw [List.length_drop, List.length_append] at hlength
    omega
  · rw [← List.drop_drop, hsplit, List.drop_left]

end Cursor

namespace Parse

open Cursor

variable {α β : Type}

/-- From every position, the parser goes on at least so many positions further, or it stops with one
fault. -/
def Advances (least : Nat) (p : Parse α) : Prop :=
  ∀ tokens pos c, c.At tokens pos →
    match p c with
    | .ok (_, d) => ∃ next, pos + least ≤ next ∧ d.At tokens next
    | .error fault => c.Faults fault

theorem Takes.advances {least : Nat} {p : Parse α} (h : Takes least p) : Advances least p := by
  intro tokens pos c hat
  have hrun := h c
  unfold Runs RunsFrom at hrun
  cases hp : p c with
  | error fault =>
      rw [hp] at hrun
      exact hrun
  | ok result =>
      rw [hp] at hrun
      obtain ⟨ts, hpassed, hlength⟩ := hrun
      exact ⟨pos + ts.length, Nat.add_le_add_left hlength pos, hat.of_passed hpassed⟩

/-! ### Loops -/

/-- Read items for as long as `more` says, and go on with `beyond` when the rounds are used up. -/
def rounds (more : Parse Bool) (item : Parse α) (beyond : Parse (List α)) : Nat → Parse (List α)
  | 0 => beyond
  | limit + 1 => do
    if ← more then
      let first ← item
      let rest ← rounds more item beyond limit
      return first :: rest
    else
      return []

/-- Every round that reads an item leaves fewer tokens. -/
def ReadsEach (more : Parse Bool) (item : Parse α) : Prop :=
  ∀ c d e a, more c = .ok (true, d) → item d = .ok (a, e) → e.rest.length < c.rest.length

section Rounds

variable {more : Parse Bool} {item : Parse α}

theorem Takes.length_le {p : Parse α} {n : Nat} (h : Takes n p) {c d : Cursor} {a : α}
    (hrun : p c = .ok (a, d)) : d.rest.length + n ≤ c.rest.length := by
  obtain ⟨ts, hpassed, hlength⟩ := (h c).of_ok hrun
  rw [hpassed.rest, List.length_append]
  omega

theorem ReadsEach.of_test (hmore : Tests more) (hitem : Takes 0 item) : ReadsEach more item := by
  intro c d e a hyes hread
  have hlt := hmore.length_lt hyes
  have hle := hitem.length_le hread
  omega

theorem repeatUpTo_eq_rounds (limit : Nat) :
    repeatUpTo more item limit = rounds more item (pure []) limit := by
  induction limit with
  | zero => rfl
  | succ limit ih => rw [repeatUpTo, rounds, ih]

/-- Rounds for all tokens are not used up. -/
theorem rounds_eq_rounds (h : ReadsEach more item) {beyond other : Parse (List α)} {n m : Nat}
    {c : Cursor} (hn : c.rest.length < n) (hm : c.rest.length < m) :
    rounds more item beyond n c = rounds more item other m c := by
  induction n generalizing m c with
  | zero => exact absurd hn (Nat.not_lt_zero _)
  | succ n ih =>
      obtain ⟨m, rfl⟩ : ∃ k, m = k + 1 := ⟨m - 1, by omega⟩
      rw [rounds, rounds]
      cases hmore : more c with
      | error fault => rw [bind_of_error hmore, bind_of_error hmore]
      | ok result =>
          obtain ⟨isMore, d⟩ := result
          rw [bind_of_ok hmore, bind_of_ok hmore]
          cases isMore with
          | false => rfl
          | true =>
              simp only [if_true]
              cases hitem : item d with
              | error fault => rw [bind_of_error hitem, bind_of_error hitem]
              | ok result =>
                  obtain ⟨first, e⟩ := result
                  have hshorter := h c d e first hmore hitem
                  rw [bind_of_ok hitem, bind_of_ok hitem]
                  exact bind_congr_at (ih (by omega) (by omega))

end Rounds

/-! ### Parsers that do the same -/

/-- The parsers do the same wherever fewer than `n` tokens are ahead. -/
def Alike (n : Nat) (p q : Parse α) : Prop := ∀ c, c.rest.length < n → p c = q c

namespace Alike

variable {n k : Nat} {p q : Parse α} {f g : α → Parse β}

theorem refl (p : Parse α) : Alike n p p := fun _ _ => rfl

theorem zero (p q : Parse α) : Alike 0 p q := fun _ hc => absurd hc (Nat.not_lt_zero _)

theorem mono (h : Alike n p q) (hle : k ≤ n) : Alike k p q := fun c hc =>
  h c (Nat.lt_of_lt_of_le hc hle)

/-- Behind tokens that were read, fewer are ahead. -/
theorem after (hp : Takes k p) (h : ∀ a, Alike n (f a) (g a)) :
    Alike (n + k) (p >>= f) (p >>= g) := by
  intro c hc
  cases hrun : p c with
  | error fault => rw [bind_of_error hrun, bind_of_error hrun]
  | ok result =>
      obtain ⟨a, d⟩ := result
      have hle := hp.length_le hrun
      rw [bind_of_ok hrun, bind_of_ok hrun]
      exact h a d (by omega)

theorem behind (hp : Takes 0 p) (h : ∀ a, Alike n (f a) (g a)) : Alike n (p >>= f) (p >>= g) :=
  after hp h

theorem first (h : Alike n p q) : Alike n (p >>= f) (q >>= f) := fun c hc =>
  bind_congr_at (h c hc)

theorem bind (h : Alike n p q) (hq : Takes 0 q) (hf : ∀ a, Alike n (f a) (g a)) :
    Alike n (p >>= f) (q >>= g) := fun c hc =>
  (h.first c hc).trans (behind hq hf c hc)

theorem look {see : Cursor → α} (h : ∀ a, Alike n (f a) (g a)) :
    Alike n (Parse.look see >>= f) (Parse.look see >>= g) := fun c hc => h (see c) c hc

theorem ite {test : Bool} {p' q' : Parse α} (h : Alike n p q) (h' : Alike n p' q') :
    Alike n (if test then p else p') (if test then q else q') := by
  cases test with
  | true => exact h
  | false => exact h'

theorem repeatWhile {more : Parse Bool} (hmore : Takes 0 more) (h : Alike n p q)
    (hq : Takes 0 q) : Alike n (Parse.repeatWhile more p) (Parse.repeatWhile more q) := by
  have hlimit (limit : Nat) : Alike n (repeatUpTo more p limit) (repeatUpTo more q limit) := by
    induction limit with
    | zero => exact refl _
    | succ limit ih => exact behind hmore fun _ => .ite (h.bind hq fun _ => ih.first) (refl _)
  exact fun c hc => hlimit _ c hc

theorem commaSeparated (h : Alike n p q) (hq : Takes 0 q) :
    Alike n (Parse.commaSeparated p) (Parse.commaSeparated q) :=
  h.bind hq fun _ => first (repeatWhile Tests.eat.takes h hq)

end Alike

end Parse

end IdlBindings
