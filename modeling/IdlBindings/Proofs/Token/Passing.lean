import IdlBindings.Token.Cursor

/-!
How parsers move through the tokens. `Runs p c Q` says that `p`, run at the cursor `c`, either goes
on behind the tokens that it has read, where `Q` holds, or stops with one fault of parsing at a
place that lies ahead of `c`. `Takes n p` says that `p` does so at every cursor and reads at least
`n` tokens when it goes on.
-/

namespace IdlBindings

namespace Cursor

/-- The tokens between `c` and `d` are `ts`. -/
structure Passed (c : Cursor) (ts : List Token) (d : Cursor) : Prop where
  rest : c.rest = ts ++ d.rest
  lastEnd : d.lastEnd = (ts.getLast?.map fun token => token.span.stop).getD c.lastEnd
  eof : d.eof = c.eof

/-- The place of a token from `c` on, of the end, or of some tokens from `c` on. -/
inductive Spot (c : Cursor) : Span → Prop
  | next {ts : List Token} {d : Cursor} (h : Passed c ts d) : Spot c d.span
  | part {ts us : List Token} {d e : Cursor} (h : Passed c ts d) (hpart : Passed d us e)
      (hne : us ≠ []) : Spot c ⟨d.span.start, max e.lastEnd d.span.start⟩

/-- A fault that stops a parser which was run at `c`. -/
structure Faults (c : Cursor) (e : Diagnostic) : Prop where
  stage : e.kind.stage = .parsing
  related : e.related = []
  spot : Spot c e.span

variable {c d e : Cursor} {ts us : List Token}

namespace Passed

theorem refl : Passed c [] c := ⟨rfl, rfl, rfl⟩

theorem append (h : Passed c ts d) (h' : Passed d us e) : Passed c (ts ++ us) e := by
  refine ⟨?_, ?_, h'.eof.trans h.eof⟩
  · rw [h.rest, h'.rest, List.append_assoc]
  · rw [h'.lastEnd, h.lastEnd, List.getLast?_append]
    cases us.getLast? <;> rfl

/-- The tokens between two cursors are known. -/
theorem unique (h : Passed c ts d) (h' : Passed c us d) : ts = us :=
  List.append_cancel_right (h.rest.symm.trans h'.rest)

theorem advance {token : Token} {rest : List Token} (h : c.rest = token :: rest) :
    Passed c [token] c.advance := by
  refine ⟨?_, ?_, ?_⟩ <;> rw [Cursor.advance, h] <;> rfl

theorem advance_atKind {kind : TokenKind} (h : c.atKind kind = true) :
    ∃ token, token.kind = kind ∧ Passed c [token] c.advance := by
  rw [atKind] at h
  split at h
  · exact ⟨_, beq_iff_eq.1 h, advance ‹_›⟩
  · cases h

theorem advance_atWord {word : String} (h : c.atWord word = true) :
    ∃ token, Passed c [token] c.advance := by
  rw [atWord] at h
  split at h
  · exact ⟨_, advance ‹_›⟩
  · cases h

theorem advance_beforeWord {word : String} (h : c.beforeWord word = true) :
    ∃ first second, Passed c [first, second] c.advance.advance := by
  rw [beforeWord] at h
  split at h
  · rename_i first second rest hrest
    have hadvance : c.advance.rest = second :: rest := by rw [Cursor.advance, hrest]
    exact ⟨first, second, (advance hrest).append (advance hadvance)⟩
  · cases h

end Passed

theorem Spot.of_passed {span : Span} (h : Passed c ts d) (hspot : Spot d span) : Spot c span := by
  cases hspot with
  | next h' => exact .next (h.append h')
  | part h' hpart hne => exact .part (h.append h') hpart hne

theorem Faults.of_passed {fault : Diagnostic} (h : Passed c ts d) (hfaults : Faults d fault) :
    Faults c fault :=
  ⟨hfaults.stage, hfaults.related, hfaults.spot.of_passed h⟩

end Cursor

namespace Parse

open Cursor

variable {α β : Type}

section Steps

variable {p q : Parse α} {k : α → Parse β} {c d : Cursor}

/-- A parser in two steps goes on if both do. -/
theorem bind_eq_ok {b : β} (h : (p >>= k) c = .ok (b, d)) :
    ∃ a e, p c = .ok (a, e) ∧ k a e = .ok (b, d) := by
  simp only [Bind.bind, StateT.bind, Except.bind] at h
  cases hp : p c with
  | error fault => simp [hp] at h
  | ok result =>
      rw [hp] at h
      exact ⟨result.1, result.2, rfl, h⟩

theorem bind_of_ok {a : α} (h : p c = .ok (a, d)) : (p >>= k) c = k a d := by
  simp only [Bind.bind, StateT.bind, Except.bind, h]

theorem bind_of_error {fault : Diagnostic} (h : p c = .error fault) :
    (p >>= k) c = .error fault := by
  simp only [Bind.bind, StateT.bind, Except.bind, h]

theorem bind_congr_at (h : p c = q c) : (p >>= k) c = (q >>= k) c := by
  simp only [Bind.bind, StateT.bind, h]

end Steps

/-- At `c`, the parser goes on behind tokens with `Q`, or it stops with a fault ahead of `o`. -/
def RunsFrom (o : Cursor) (p : Parse α) (c : Cursor) (Q : α → List Token → Cursor → Prop) : Prop :=
  match p c with
  | .ok (a, d) => ∃ ts, Passed c ts d ∧ Q a ts d
  | .error fault => Faults o fault

/-- At `c`, the parser goes on behind tokens with `Q`, or it stops with a fault ahead of `c`. -/
abbrev Runs (p : Parse α) (c : Cursor) (Q : α → List Token → Cursor → Prop) : Prop :=
  RunsFrom c p c Q

section Rules

variable {o c : Cursor} {p : Parse α} {f : α → Parse β} {P : α → List Token → Cursor → Prop}
  {Q : β → List Token → Cursor → Prop}

theorem RunsFrom.bind (hp : RunsFrom o p c P) (hf : ∀ a ts d, Passed c ts d → P a ts d →
    RunsFrom o (f a) d fun b us => Q b (ts ++ us)) : RunsFrom o (p >>= f) c Q := by
  unfold RunsFrom at hp ⊢
  simp only [Bind.bind, StateT.bind, Except.bind]
  cases hfirst : p c with
  | error fault =>
      rw [hfirst] at hp
      exact hp
  | ok result =>
      obtain ⟨a, d⟩ := result
      rw [hfirst] at hp
      obtain ⟨ts, hpassed, ha⟩ := hp
      have hnext := hf a ts d hpassed ha
      unfold RunsFrom at hnext
      simp only
      cases hsecond : f a d with
      | error fault =>
          rw [hsecond] at hnext
          exact hnext
      | ok result =>
          rw [hsecond] at hnext
          obtain ⟨us, hmore, hb⟩ := hnext
          exact ⟨ts ++ us, hpassed.append hmore, hb⟩

theorem RunsFrom.failAt {kind : FaultKind} {span : Span} {detail : String}
    (hkind : kind.stage = .parsing) (hspan : Spot o span) :
    RunsFrom o (Parse.failAt kind span detail) c Q :=
  ⟨hkind, rfl, hspan⟩

theorem RunsFrom.of_ok {a : α} {d : Cursor} (h : RunsFrom o p c P) (hrun : p c = .ok (a, d)) :
    ∃ ts, Passed c ts d ∧ P a ts d := by
  unfold RunsFrom at h
  rwa [hrun] at h

theorem RunsFrom.of_error {fault : Diagnostic} (h : RunsFrom o p c P)
    (hrun : p c = .error fault) : Faults o fault := by
  unfold RunsFrom at h
  rwa [hrun] at h

/-- Looking at the cursor moves nothing. -/
theorem RunsFrom.look {g : Cursor → α} (h : RunsFrom o (f (g c)) c Q) :
    RunsFrom o (Parse.look g >>= f) c Q :=
  h

/-- A fault ahead of a later cursor is ahead of an earlier one. -/
theorem Runs.from {p : Parse β} {ts : List Token} (h : Runs p c Q) (hpassed : Passed o ts c) :
    RunsFrom o p c Q := by
  unfold Runs RunsFrom at h
  unfold RunsFrom
  cases hrun : p c with
  | error fault =>
      rw [hrun] at h
      exact h.of_passed hpassed
  | ok result =>
      rw [hrun] at h
      exact h

end Rules

namespace Runs

variable {p : Parse α} {f : α → Parse β} {c : Cursor} {P : α → List Token → Cursor → Prop}
  {Q : β → List Token → Cursor → Prop}

theorem ok {p : Parse β} {b : β} {ts : List Token} {d : Cursor} (hrun : p c = .ok (b, d))
    (hpassed : Passed c ts d) (h : Q b ts d) : Runs p c Q := by
  unfold Runs RunsFrom
  rw [hrun]
  exact ⟨ts, hpassed, h⟩

theorem of_eq {p q : Parse β} (heq : p c = q c) (h : Runs q c Q) : Runs p c Q := by
  unfold Runs RunsFrom at h ⊢
  rwa [heq]

theorem pure {b : β} (h : Q b [] c) : Runs (Pure.pure b) c Q := ⟨[], .refl, h⟩

theorem bind (hp : Runs p c P)
    (hf : ∀ a ts d, Passed c ts d → P a ts d → Runs (f a) d fun b us => Q b (ts ++ us)) :
    Runs (p >>= f) c Q :=
  RunsFrom.bind hp fun a ts d hpassed ha => (hf a ts d hpassed ha).from hpassed

theorem mono {P Q : β → List Token → Cursor → Prop} {p : Parse β} (h : Runs p c P)
    (hle : ∀ b ts d, Passed c ts d → P b ts d → Q b ts d) : Runs p c Q := by
  unfold Runs RunsFrom at h ⊢
  cases hrun : p c with
  | error fault =>
      rw [hrun] at h
      exact h
  | ok result =>
      rw [hrun] at h
      obtain ⟨ts, hpassed, hb⟩ := h
      exact ⟨ts, hpassed, hle _ _ _ hpassed hb⟩

/-- What the parser gives is its result. -/
theorem result {p : Parse β} (h : Runs p c Q) :
    Runs p c fun b ts d => p c = .ok (b, d) ∧ Q b ts d := by
  unfold Runs RunsFrom at h ⊢
  cases hrun : p c with
  | error fault =>
      rw [hrun] at h
      exact h
  | ok result =>
      rw [hrun] at h
      obtain ⟨ts, hpassed, hb⟩ := h
      exact ⟨ts, hpassed, rfl, hb⟩

theorem fail {kind : FaultKind} (hkind : kind.stage = .parsing) : Runs (fail kind) c Q :=
  ⟨hkind, rfl, .next .refl⟩

theorem unexpected {what : String} : Runs (unexpected what) c Q :=
  ⟨rfl, rfl, .next .refl⟩

theorem ite_look {test : Cursor → Bool} {p q : Parse β} (hyes : test c = true → Runs p c Q)
    (hno : test c = false → Runs q c Q) : Runs (do if ← Parse.look test then p else q) c Q := by
  refine RunsFrom.look ?_
  cases h : test c with
  | true => exact hyes h
  | false => exact hno h

theorem advance {token : Token} {p : Parse β} (hpassed : Passed c [token] c.advance)
    (h : Runs p c.advance fun b us => Q b (token :: us)) : Runs (do Parse.advance; p) c Q :=
  bind (P := fun _ ts d => ts = [token] ∧ d = c.advance) ⟨_, hpassed, rfl, rfl⟩ fun _ _ _ _ h' => by
    obtain ⟨rfl, rfl⟩ := h'
    exact h

end Runs

/-- A test that reads a token when it answers yes. -/
def Tests (test : Parse Bool) : Prop :=
  ∀ c, Runs test c fun b ts _ => b = true → 1 ≤ ts.length

/-- The parser reads at least so many tokens, or it stops with a fault. -/
def Takes (least : Nat) (p : Parse α) : Prop :=
  ∀ c, Runs p c fun _ ts _ => least ≤ ts.length

namespace Takes

variable {n k : Nat} {p : Parse α} {f : α → Parse β}

theorem pure {a : α} : Takes 0 (Pure.pure a : Parse α) := fun _ => .pure (Nat.le_refl 0)

theorem mono (h : Takes n p) (hle : k ≤ n) : Takes k p :=
  fun c => (h c).mono fun _ _ _ _ hn => Nat.le_trans hle hn

theorem any (h : Takes n p) : Takes 0 p := h.mono (Nat.zero_le n)

theorem bind_add (hp : Takes n p) (hf : ∀ a, Takes k (f a)) : Takes (n + k) (p >>= f) := by
  refine fun c => (hp c).bind fun a ts d _ hn => (hf a d).mono fun b us _ _ hk => ?_
  rw [List.length_append]
  exact Nat.add_le_add hn hk

/-- The tokens are read first. -/
theorem bind (hp : Takes n p) (hf : ∀ a, Takes 0 (f a)) : Takes n (p >>= f) := hp.bind_add hf

/-- The tokens are read later. -/
theorem andThen (hp : Takes 0 p) (hf : ∀ a, Takes n (f a)) : Takes n (p >>= f) :=
  (hp.bind_add hf).mono (Nat.le_add_left n 0)

/-- What the first parser reads is not counted. -/
theorem skip (hp : Takes n p) (hf : ∀ a, Takes 0 (f a)) : Takes 0 (p >>= f) := hp.any.bind hf

theorem map {g : α → β} (hp : Takes n p) : Takes n (g <$> p) := by
  rw [← bind_pure_comp]
  exact hp.bind fun _ => .pure

theorem look {g : Cursor → α} (h : ∀ a, Takes n (f a)) : Takes n (Parse.look g >>= f) :=
  fun c => .look (h (g c) c)

/-- At the end of the tokens there is nothing to go past. -/
theorem advance : Takes 0 Parse.advance := by
  intro c
  cases h : c.rest with
  | nil =>
      have hsame : c.advance = c := by rw [Cursor.advance, h]
      exact .ok (congrArg (fun d => Except.ok ((), d)) hsame) .refl (Nat.le_refl 0)
  | cons token rest => exact .ok rfl (.advance h) (Nat.zero_le _)

theorem fail {kind : FaultKind} (hkind : kind.stage = .parsing) :
    Takes n (Parse.fail kind : Parse α) := fun _ => .fail hkind

theorem unexpected {what : String} : Takes n (Parse.unexpected what : Parse α) :=
  fun _ => .unexpected

theorem ite {test : Bool} {p q : Parse α} (hyes : Takes n p) (hno : Takes n q) :
    Takes n (if test then p else q) := by
  cases test with
  | true => exact hyes
  | false => exact hno

theorem ite_test {test : Parse Bool} {p q : Parse α} (htest : Tests test) (hyes : Takes n p)
    (hno : Takes (n + 1) q) : Takes (n + 1) (do if ← test then p else q) := by
  refine fun c => (htest c).bind fun b ts d _ hb => ?_
  cases b with
  | true =>
      refine (hyes d).mono fun _ us _ _ hn => ?_
      have := hb rfl
      rw [List.length_append]
      omega
  | false =>
      refine (hno d).mono fun _ us _ _ hn => ?_
      rw [List.length_append]
      omega

theorem expect {kind : TokenKind} {what : String} : Takes 1 (Parse.expect kind what) := by
  intro c
  by_cases h : c.atKind kind = true
  · obtain ⟨token, -, hpassed⟩ := Passed.advance_atKind h
    exact .ok (if_pos h) hpassed (Nat.le_refl 1)
  · exact .of_eq (if_neg h) .unexpected

theorem expectWord {word : String} : Takes 1 (Parse.expectWord word) := by
  intro c
  by_cases h : c.atWord word = true
  · obtain ⟨token, hpassed⟩ := Passed.advance_atWord h
    exact .ok (if_pos h) hpassed (Nat.le_refl 1)
  · exact .of_eq (if_neg h) .unexpected

theorem readName : Takes 1 Parse.readName := by
  intro c
  by_cases h : c.atKind .identifier = true
  · obtain ⟨token, -, hpassed⟩ := Passed.advance_atKind h
    exact .ok (if_pos h) hpassed (Nat.le_refl 1)
  · exact .of_eq (if_neg h) (.fail rfl)

theorem stringContent {what : String} : Takes 1 (Parse.stringContent what) := by
  intro c
  by_cases h : c.atKind .string = true
  · obtain ⟨token, -, hpassed⟩ := Passed.advance_atKind h
    exact .ok (if_pos h) hpassed (Nat.le_refl 1)
  · exact .of_eq (if_neg h) .unexpected

end Takes

namespace Tests

theorem takes {test : Parse Bool} (htest : Tests test) : Takes 0 test :=
  fun c => (htest c).mono fun _ _ _ _ _ => Nat.zero_le _

theorem length_lt {test : Parse Bool} (htest : Tests test) {c d : Cursor}
    (h : test c = .ok (true, d)) : d.rest.length < c.rest.length := by
  obtain ⟨ts, hpassed, hlength⟩ := (htest c).of_ok h
  have hone := hlength rfl
  rw [hpassed.rest, List.length_append]
  omega

theorem eat {kind : TokenKind} : Tests (Parse.eat kind) := by
  intro c
  by_cases h : c.atKind kind = true
  · obtain ⟨token, -, hpassed⟩ := Passed.advance_atKind h
    exact .ok (if_pos h) hpassed fun _ => Nat.le_refl 1
  · exact .ok (if_neg h) .refl fun hno => by cases hno

theorem eatWord {word : String} : Tests (Parse.eatWord word) := by
  intro c
  by_cases h : c.atWord word = true
  · obtain ⟨token, hpassed⟩ := Passed.advance_atWord h
    exact .ok (if_pos h) hpassed fun _ => Nat.le_refl 1
  · exact .ok (if_neg h) .refl fun hno => by cases hno

theorem eatIf {allowed : Bool} {kind : TokenKind} : Tests (Parse.eatIf allowed kind) := by
  cases allowed with
  | true => exact eat
  | false => exact fun c => .pure fun hno => by cases hno

end Tests

/-! ### What was read -/

/-- The parser gives `a` for the tokens `ts`, with some tokens behind them. -/
def ReadFrom (p : Parse α) (a : α) (ts : List Token) : Prop :=
  ∃ c d, p c = .ok (a, d) ∧ Passed c ts d

/-- The items come from the tokens `ts`, each from some of them, one after the other. -/
def AllReadFrom (item : Parse α) (items : List α) (ts : List Token) : Prop :=
  ∃ entries : List (α × List Token), entries.map Prod.fst = items ∧
    entries.flatMap Prod.snd = ts ∧ ∀ entry ∈ entries, ReadFrom item entry.1 entry.2

theorem AllReadFrom.nil {item : Parse α} : AllReadFrom item [] [] := ⟨[], rfl, rfl, by simp⟩

theorem AllReadFrom.cons {item : Parse α} {a : α} {items : List α} {ts us : List Token}
    (h : ReadFrom item a ts) (hrest : AllReadFrom item items us) :
    AllReadFrom item (a :: items) (ts ++ us) := by
  obtain ⟨entries, rfl, rfl, hentries⟩ := hrest
  exact ⟨(a, ts) :: entries, rfl, rfl, List.forall_mem_cons.2 ⟨h, hentries⟩⟩

/-! ### Repetition -/

section Repeat

variable {more : Parse Bool} {item : Parse α} {R : Cursor → α → Prop}

theorem Runs.repeatUpTo (hback : ∀ c ts d a, Passed c ts d → R d a → R c a)
    (hmore : Takes 0 more) (hitem : ∀ c, Runs item c fun a _ _ => R c a) (limit : Nat)
    (c : Cursor) : Runs (Parse.repeatUpTo more item limit) c fun items _ _ => ∀ a ∈ items, R c a := by
  induction limit generalizing c with
  | zero => exact .pure (by simp)
  | succ limit ih =>
      refine (hmore c).bind fun b ts d hpassed _ => ?_
      cases b with
      | false => exact .pure (by simp)
      | true =>
          refine (hitem d).bind fun a us e hread ha => (ih e).bind fun items _ _ _ hitems => ?_
          refine .pure (List.forall_mem_cons.2 ⟨hback _ _ _ _ hpassed ha, fun other hother => ?_⟩)
          exact hback _ _ _ _ hpassed (hback _ _ _ _ hread (hitems other hother))

theorem Runs.repeatWhile (hback : ∀ c ts d a, Passed c ts d → R d a → R c a)
    (hmore : Takes 0 more) (hitem : ∀ c, Runs item c fun a _ _ => R c a) (c : Cursor) :
    Runs (Parse.repeatWhile more item) c fun items _ _ => ∀ a ∈ items, R c a :=
  Runs.repeatUpTo hback hmore hitem _ c

/-- Items with nothing between them. -/
theorem Runs.repeatWhile_look {test : Cursor → Bool}
    (hback : ∀ c ts d a, Passed c ts d → R d a → R c a)
    (hitem : ∀ c, Runs item c fun a _ _ => R c a) (c : Cursor) :
    Runs (Parse.repeatWhile (Parse.look test) item) c fun items ts _ =>
      (∀ a ∈ items, R c a) ∧ AllReadFrom item items ts := by
  have hlimit (limit : Nat) (c : Cursor) : Runs (Parse.repeatUpTo (Parse.look test) item limit) c
      fun items ts _ => (∀ a ∈ items, R c a) ∧ AllReadFrom item items ts := by
    induction limit generalizing c with
    | zero => exact .pure ⟨by simp, .nil⟩
    | succ limit ih =>
        refine .ite_look (fun _ => ?_) fun _ => .pure ⟨by simp, .nil⟩
        refine (hitem c).result.bind fun a ts d hpassed ⟨hrun, ha⟩ => ?_
        refine (ih d).bind fun items us e _ ⟨hitems, hread⟩ => .pure ⟨?_, ?_⟩
        · exact List.forall_mem_cons.2 ⟨ha, fun b hb => hback _ _ _ _ hpassed (hitems b hb)⟩
        · rw [List.append_nil]
          exact .cons ⟨c, d, hrun, hpassed⟩ hread
  exact hlimit _ c

theorem Takes.repeatWhile (hmore : Takes 0 more) (hitem : Takes 0 item) :
    Takes 0 (Parse.repeatWhile more item) := by
  refine fun c => (Runs.repeatWhile (R := fun _ _ => True) ?_ hmore ?_ c).mono ?_
  · exact fun _ _ _ _ _ _ => trivial
  · exact fun c => (hitem c).mono fun _ _ _ _ _ => trivial
  · exact fun _ _ _ _ _ => Nat.zero_le _

theorem Takes.commaSeparated {n : Nat} (hitem : Takes n item) :
    Takes n (Parse.commaSeparated item) := by
  refine hitem.bind fun first => ?_
  exact (Takes.repeatWhile Tests.eat.takes hitem.any).bind fun rest => .pure

end Repeat

end Parse

end IdlBindings
