import IdlBindings.Proofs.Token.Passing

/-!
Parsers with other tokens behind. `Inside p q` says that `q` does what `p` does when more tokens
follow, if `p` leaves a token: it looks at no token but those that it reads and the next one.
`Ends p q` says that `p` reads a semicolon last, and that `q` does the same whatever follows.
-/

namespace IdlBindings

namespace Cursor

/-- The cursor with more tokens behind those ahead, and another end. -/
def extend (c : Cursor) (more : List Token) (eof : Nat) : Cursor :=
  ⟨c.rest ++ more, c.lastEnd, eof⟩

/-- With so many tokens ahead, `t` does not look behind them. -/
def Sees {α : Type} (least : Nat) (t : Cursor → α) : Prop :=
  ∀ c : Cursor, least ≤ c.rest.length → ∀ more eof, t (c.extend more eof) = t c

section Sees

variable {α β γ : Type} {n m : Nat} {t : Cursor → α} {u : Cursor → β}

theorem Sees.mono (h : Sees n t) (hle : n ≤ m) : Sees m t :=
  fun c hc => h c (Nat.le_trans hle hc)

theorem Sees.map (h : Sees n t) (g : α → γ) : Sees n fun c => g (t c) :=
  fun c hc more eof => congrArg g (h c hc more eof)

theorem Sees.map₂ (h : Sees n t) (h' : Sees n u) (g : α → β → γ) :
    Sees n fun c => g (t c) (u c) :=
  fun c hc more eof => congr (congrArg g (h c hc more eof)) (h' c hc more eof)

/-- What the next token alone decides. -/
theorem Sees.of_cons (h : ∀ token rest more lastEnd eof eof',
    t ⟨token :: (rest ++ more), lastEnd, eof'⟩ = t ⟨token :: rest, lastEnd, eof⟩) : Sees 1 t := by
  rintro ⟨- | ⟨token, rest⟩, lastEnd, eof⟩ hc more eof'
  · cases hc
  · exact h token rest more lastEnd eof eof'

/-- What the next two tokens decide. -/
theorem Sees.of_cons_cons (h : ∀ first second rest more lastEnd eof eof',
    t ⟨first :: second :: (rest ++ more), lastEnd, eof'⟩
      = t ⟨first :: second :: rest, lastEnd, eof⟩) : Sees 2 t := by
  rintro ⟨- | ⟨first, - | ⟨second, rest⟩⟩, lastEnd, eof⟩ hc more eof'
  · cases hc
  · exact absurd hc (Nat.not_succ_le_self 1)
  · exact h first second rest more lastEnd eof eof'

theorem sees_span : Sees 1 Cursor.span := .of_cons fun _ _ _ _ _ _ => rfl

theorem sees_text : Sees 1 Cursor.text := .of_cons fun _ _ _ _ _ _ => rfl

theorem sees_atKind (kind : TokenKind) : Sees 1 fun c => c.atKind kind :=
  .of_cons fun _ _ _ _ _ _ => rfl

theorem sees_atWord (word : String) : Sees 1 fun c => c.atWord word :=
  .of_cons fun _ _ _ _ _ _ => rfl

theorem sees_isEmpty : Sees 1 fun c => c.rest.isEmpty := .of_cons fun _ _ _ _ _ _ => rfl

theorem sees_beforeKind (kind : TokenKind) : Sees 2 fun c => c.beforeKind kind :=
  .of_cons_cons fun _ _ _ _ _ _ _ => rfl

theorem sees_beforeWord (word : String) : Sees 2 fun c => c.beforeWord word :=
  .of_cons_cons fun _ _ _ _ _ _ _ => rfl

end Sees

variable {c : Cursor}

theorem advance_extend (h : 1 ≤ c.rest.length) (more : List Token) (eof : Nat) :
    (c.extend more eof).advance = c.advance.extend more eof := by
  obtain ⟨- | ⟨token, rest⟩, lastEnd, old⟩ := c
  · cases h
  · rfl

theorem rest_advance_suffix (c : Cursor) : c.advance.rest <:+ c.rest := by
  obtain ⟨- | ⟨token, rest⟩, lastEnd, old⟩ := c
  · exact List.suffix_rfl
  · exact List.suffix_cons token rest

theorem one_le_of_atKind {kind : TokenKind} (h : c.atKind kind = true) : 1 ≤ c.rest.length := by
  obtain ⟨token, -, hpassed⟩ := Passed.advance_atKind h
  rw [hpassed.rest]
  exact Nat.le_add_left 1 _

theorem two_le_of_beforeWord {word : String} (h : c.beforeWord word = true) :
    2 ≤ c.rest.length := by
  obtain ⟨first, second, hpassed⟩ := Passed.advance_beforeWord h
  rw [hpassed.rest]
  exact Nat.le_add_left 2 _

theorem length_rest_advance (c : Cursor) : c.advance.rest.length = c.rest.length - 1 := by
  obtain ⟨- | ⟨token, rest⟩, lastEnd, old⟩ := c <;> rfl

theorem atKind_eq_false_of_atKind {kind other : TokenKind} (h : c.atKind kind = true)
    (hne : kind ≠ other) : c.atKind other = false := by
  obtain ⟨- | ⟨token, rest⟩, lastEnd, old⟩ := c
  · rfl
  · obtain rfl : token.kind = kind := beq_iff_eq.1 h
    exact beq_eq_false_iff_ne.2 hne

theorem atWord_eq_false_of_atKind {kind : TokenKind} (h : c.atKind kind = true)
    (hne : kind ≠ .identifier) (word : String) : c.atWord word = false := by
  have hother := atKind_eq_false_of_atKind h hne
  obtain ⟨- | ⟨token, rest⟩, lastEnd, old⟩ := c
  · rfl
  · exact Bool.and_eq_false_imp.2 fun htrue => absurd htrue (Bool.eq_false_iff.1 hother)

/-- A test of two tokens that no semicolon passes does not look behind a text with a semicolon: the
text has two tokens, or the semicolon is its only one. -/
theorem Sees.of_semicolon {t : Cursor → Bool} (h : Sees 2 t)
    (hfalse : ∀ c : Cursor, c.atKind .semicolon = true → t c = false)
    (hmem : ∃ token ∈ c.rest, token.kind = .semicolon) (more : List Token) (eof : Nat) :
    t (c.extend more eof) = t c := by
  obtain ⟨token, hmem, hkind⟩ := hmem
  by_cases htwo : 2 ≤ c.rest.length
  · exact h c htwo more eof
  · obtain ⟨- | ⟨first, - | ⟨second, rest⟩⟩, lastEnd, old⟩ := c
    · cases hmem
    · obtain rfl := List.mem_singleton.1 hmem
      have hfirst (rest : List Token) (eof : Nat) :
          Cursor.atKind ⟨token :: rest, lastEnd, eof⟩ .semicolon = true := beq_iff_eq.2 hkind
      exact (hfalse _ (hfirst more eof)).trans (hfalse _ (hfirst [] old)).symm
    · exact absurd (Nat.le_add_left 2 rest.length) htwo

end Cursor

namespace Parse

variable {α β : Type}

/-- If `p` goes on from `c` to a place in front of a token, `q` does the same when more tokens
follow. -/
def InsideAt (p q : Parse α) (c : Cursor) : Prop :=
  ∀ a d, p c = .ok (a, d) → d.rest <:+ c.rest ∧
    (d.rest ≠ [] → ∀ more eof, q (c.extend more eof) = .ok (a, d.extend more eof))

def Inside (p q : Parse α) : Prop := ∀ c, InsideAt p q c

/-- If `p` goes on, it does so behind a semicolon, and `q` does the same whatever follows. -/
def Ends (p q : Parse α) : Prop :=
  ∀ c a d, p c = .ok (a, d) → ∃ ts semi, semi.kind = .semicolon ∧ c.rest = ts ++ semi :: d.rest ∧
    ∀ more eof, q (c.extend more eof) = .ok (a, d.extend more eof)

/-- The parser only looks at the tokens that it reads and at the next one. -/
abbrev Local (p : Parse α) : Prop := Inside p p

/-- The parser ends with a semicolon and does not look at what follows. -/
abbrev Closes (p : Parse α) : Prop := Ends p p

/-- The two parsers give the same value at any place, and they read nothing. -/
def Rests (p q : Parse α) : Prop :=
  ∀ c, ∃ a, p c = .ok (a, c) ∧ ∀ more eof, q (c.extend more eof) = .ok (a, c.extend more eof)

namespace Rests

variable {p q : Parse α} {k l : α → Parse β}

theorem pure (a : α) : Rests (Pure.pure a) (Pure.pure a) := fun _ => ⟨a, rfl, fun _ _ => rfl⟩

theorem bind (hp : Rests p q) (hk : ∀ a, Rests (k a) (l a)) : Rests (p >>= k) (q >>= l) := by
  intro c
  obtain ⟨a, hpa, hqa⟩ := hp c
  obtain ⟨b, hkb, hlb⟩ := hk a c
  exact ⟨b, (bind_of_ok hpa).trans hkb, fun more eof => (bind_of_ok (hqa more eof)).trans
    (hlb more eof)⟩

theorem spanFrom {first : Nat} : Rests (Parse.spanFrom first) (Parse.spanFrom first) :=
  fun _ => ⟨_, rfl, fun _ _ => rfl⟩

end Rests

theorem InsideAt.bind {p q : Parse α} {k l : α → Parse β} {c : Cursor} (hp : InsideAt p q c)
    (hk : ∀ a d, p c = .ok (a, d) → InsideAt (k a) (l a) d) : InsideAt (p >>= k) (q >>= l) c := by
  intro b e hrun
  obtain ⟨a, d, hfirst, hsecond⟩ := bind_eq_ok hrun
  obtain ⟨hcd, hq⟩ := hp a d hfirst
  obtain ⟨hde, hl⟩ := hk a d hfirst b e hsecond
  refine ⟨hde.trans hcd, fun he more eof => ?_⟩
  rw [bind_of_ok (hq (hde.ne_nil he) more eof), hl he more eof]

theorem InsideAt.ite {p q p' q' : Parse α} {c : Cursor} {test : Bool}
    (hyes : test = true → InsideAt p q c) (hno : test = false → InsideAt p' q' c) :
    InsideAt (if test then p else p') (if test then q else q') c := by
  cases test with
  | true => exact hyes rfl
  | false => exact hno rfl

namespace Inside

variable {p q p' q' : Parse α} {k l : α → Parse β}

/-- As a parser that goes on in front of a token begins in front of one, it may look at one. -/
theorem of_next (h : ∀ c a d, p c = .ok (a, d) → d.rest <:+ c.rest ∧
    (1 ≤ c.rest.length → ∀ more eof, q (c.extend more eof) = .ok (a, d.extend more eof))) :
    Inside p q := by
  intro c a d hrun
  obtain ⟨hsuffix, hextend⟩ := h c a d hrun
  exact ⟨hsuffix, fun hd => hextend (List.length_pos_iff.2 (hsuffix.ne_nil hd))⟩

theorem of_rests (h : Rests p q) : Inside p q := by
  intro c a d hrun
  obtain ⟨b, hp, hq⟩ := h c
  rw [hp] at hrun
  cases hrun
  exact ⟨List.suffix_rfl, fun _ => hq⟩

theorem pure (a : α) : Local (Pure.pure a : Parse α) := of_rests (.pure a)

theorem bind (hp : Inside p q) (hk : ∀ a, Inside (k a) (l a)) : Inside (p >>= k) (q >>= l) :=
  fun c => (hp c).bind fun a d _ => hk a d

theorem map {m : α → β} (hp : Inside p q) : Inside (m <$> p) (m <$> q) := by
  rw [← bind_pure_comp, ← bind_pure_comp]
  exact hp.bind fun a => pure (m a)

/-- A parser that is given a limit above the number of tokens. -/
theorem of_size {p q : Nat → Parse α}
    (h : ∀ n m, n ≤ m → ∀ c, c.rest.length < n → InsideAt (p n) (q m) c) :
    Inside (fun c => p (c.rest.length + 1) c) (fun c => q (c.rest.length + 1) c) := by
  intro c a d hrun
  have hlt := Nat.lt_succ_self c.rest.length
  refine ⟨(h _ _ (Nat.le_refl _) c hlt a d hrun).1, fun hd more eof => ?_⟩
  have hle : c.rest.length + 1 ≤ (c.extend more eof).rest.length + 1 := by simp [Cursor.extend]
  exact (h _ _ hle c hlt a d hrun).2 hd more eof

theorem ite {test : Bool} (hyes : Inside p q) (hno : Inside p' q') :
    Inside (if test then p else p') (if test then q else q') :=
  fun c => .ite (fun _ => hyes c) fun _ => hno c

theorem fail {kind : FaultKind} : Inside (Parse.fail kind : Parse α) q := fun _ _ _ h => by cases h

theorem failAt {kind : FaultKind} {span : Span} {detail : String} :
    Inside (Parse.failAt kind span detail : Parse α) q := fun _ _ _ h => by cases h

theorem unexpected {what : String} : Inside (Parse.unexpected what : Parse α) q :=
  fun _ _ _ h => by cases h

/-! ### The basic parsers -/

/-- Looking moves nothing. -/
theorem eq_of_look {t : Cursor → α} {c d : Cursor} {a : α} (h : Parse.look t c = .ok (a, d)) :
    c = d :=
  congrArg Prod.snd (Except.ok.inj h)

theorem look {t : Cursor → α} (ht : Cursor.Sees 1 t) : Local (Parse.look t) := by
  refine of_next fun c a d hrun => ?_
  cases hrun
  refine ⟨List.suffix_rfl, fun hc more eof => ?_⟩
  exact congrArg (fun a => Except.ok (a, c.extend more eof)) (ht c hc more eof)

theorem atEnd : Local Parse.atEnd := look Cursor.sees_isEmpty

theorem atKind {kind : TokenKind} : Local (Parse.atKind kind) := look (Cursor.sees_atKind kind)

theorem text : Local (Parse.look Cursor.text) := look Cursor.sees_text

theorem span : Local (Parse.look Cursor.span) := look Cursor.sees_span

theorem start : Local Parse.start := look (Cursor.sees_span.map Span.start)

theorem spanFrom {first : Nat} : Local (Parse.spanFrom first) := of_rests .spanFrom

theorem advance : Local Parse.advance := by
  refine of_next fun c a d hrun => ?_
  cases hrun
  refine ⟨c.rest_advance_suffix, fun hc more eof => ?_⟩
  exact congrArg (fun d => Except.ok ((), d)) (Cursor.advance_extend hc more eof)

/-- A parser that goes past the next token if that passes a test. -/
theorem test {t : Cursor → Bool} {v : Cursor → α} (ht : Cursor.Sees 1 t) (hv : Cursor.Sees 1 v)
    (hp : Local p) : Local fun c => if t c then .ok (v c, c.advance) else p c := by
  intro c a d hrun
  dsimp only at hrun
  split at hrun
  · rename_i htrue
    cases hrun
    refine ⟨c.rest_advance_suffix, fun hd more eof => ?_⟩
    have hc := List.length_pos_iff.2 (c.rest_advance_suffix.ne_nil hd)
    dsimp only
    rw [if_pos ((ht c hc more eof).trans htrue), hv c hc, Cursor.advance_extend hc]
  · rename_i hfalse
    obtain ⟨hsuffix, hextend⟩ := hp c a d hrun
    refine ⟨hsuffix, fun hd more eof => ?_⟩
    have hc := List.length_pos_iff.2 (hsuffix.ne_nil hd)
    dsimp only
    rw [if_neg (by rwa [ht c hc more eof]), hextend hd more eof]

theorem eat {kind : TokenKind} : Local (Parse.eat kind) :=
  test (Cursor.sees_atKind kind) (fun _ _ _ _ => rfl) (pure false)

theorem eatWord {word : String} : Local (Parse.eatWord word) :=
  test (Cursor.sees_atWord word) (fun _ _ _ _ => rfl) (pure false)

theorem eatIf {allowed : Bool} {kind : TokenKind} : Local (Parse.eatIf allowed kind) :=
  ite eat (pure false)

theorem expect {kind : TokenKind} {what : String} : Local (Parse.expect kind what) :=
  test (Cursor.sees_atKind kind) (fun _ _ _ _ => rfl) unexpected

theorem expectWord {word : String} : Local (Parse.expectWord word) :=
  test (Cursor.sees_atWord word) (fun _ _ _ _ => rfl) unexpected

theorem readName : Local Parse.readName :=
  test (Cursor.sees_atKind .identifier) (Cursor.sees_text.map unescape) fail

theorem stringContent {what : String} : Local (Parse.stringContent what) :=
  test (Cursor.sees_atKind .string) (Cursor.sees_text.map unquote) unexpected

/-! ### Repetition -/

section Repeat

variable {more more' : Parse Bool} {item item' : Parse α}

/-- Each round reads a token, so a longer text, with its higher limit, does not add a round. -/
theorem repeatUpTo (hmore : Inside more more') (hitem : Inside item item')
    (hround : ∀ c d a e, more c = .ok (true, d) → item d = .ok (a, e) →
      e.rest.length < c.rest.length)
    {n m : Nat} (hle : n ≤ m) {c : Cursor} (hlt : c.rest.length < n) :
    InsideAt (Parse.repeatUpTo more item n) (Parse.repeatUpTo more' item' m) c := by
  induction n generalizing m c with
  | zero => omega
  | succ n ih =>
      obtain ⟨m, rfl⟩ : ∃ k, m = k + 1 := ⟨m - 1, by omega⟩
      refine (hmore c).bind fun b d hb => .ite (fun hyes => ?_) fun _ => pure [] d
      refine (hitem d).bind fun first e hfirst => ?_
      have hshorter := hround c d first e (hyes ▸ hb) hfirst
      refine (ih (Nat.le_of_succ_le_succ hle) (by omega)).bind fun others last _ => ?_
      exact pure (first :: others) last

theorem repeatWhile (hmore : Inside more more') (hitem : Inside item item')
    (hround : ∀ c d a e, more c = .ok (true, d) → item d = .ok (a, e) →
      e.rest.length < c.rest.length) :
    Inside (Parse.repeatWhile more item) (Parse.repeatWhile more' item') :=
  of_size fun _ _ hle _ hlt => repeatUpTo hmore hitem hround hle hlt

/-- Items behind a token that a test reads. -/
theorem repeatWhile_test (htest : Tests more) (hmore : Local more) (hitem : Inside item item') :
    Inside (Parse.repeatWhile more item) (Parse.repeatWhile more item') := by
  refine repeatWhile hmore hitem fun c d a e hyes hrun => ?_
  exact Nat.lt_of_le_of_lt (hitem d a e hrun).1.length_le (htest.length_lt hyes)

end Repeat

end Inside

namespace Ends

variable {p q p' q' : Parse α} {k l : α → Parse β}

theorem inside (h : Ends p q) : Inside p q := by
  intro c a d hrun
  obtain ⟨ts, semi, -, hrest, hextend⟩ := h c a d hrun
  exact ⟨⟨ts ++ [semi], by rw [hrest, List.append_assoc]; rfl⟩, fun _ => hextend⟩

theorem length_lt (h : Ends p q) {c d : Cursor} {a : α} (hrun : p c = .ok (a, d)) :
    d.rest.length < c.rest.length := by
  obtain ⟨ts, semi, -, hrest, -⟩ := h c a d hrun
  rw [hrest, List.length_append, List.length_cons]
  omega

/-- Items that end with a semicolon, for as long as the next token passes a test. -/
theorem repeatWhile {t : Cursor → Bool} {item item' : Parse α} (ht : Cursor.Sees 1 t)
    (hitem : Ends item item') :
    Inside (Parse.repeatWhile (Parse.look t) item) (Parse.repeatWhile (Parse.look t) item') := by
  refine .repeatWhile (.look ht) hitem.inside fun c d a e hyes hrun => ?_
  obtain rfl := Inside.eq_of_look hyes
  exact hitem.length_lt hrun

/-- What comes before the part with the semicolon goes on in front of a token. -/
theorem bind (hp : Inside p q) (hk : ∀ a, Ends (k a) (l a)) : Ends (p >>= k) (q >>= l) := by
  intro c b e hrun
  obtain ⟨a, d, hfirst, hsecond⟩ := bind_eq_ok hrun
  obtain ⟨ts, semi, hsemi, hd, hl⟩ := hk a d b e hsecond
  obtain ⟨⟨us, hus⟩, hq⟩ := hp c a d hfirst
  refine ⟨us ++ ts, semi, hsemi, by rw [← hus, hd, List.append_assoc], fun more eof => ?_⟩
  have hne : d.rest ≠ [] := by
    rw [hd]
    exact List.append_ne_nil_of_right_ne_nil ts (List.cons_ne_nil _ _)
  rw [bind_of_ok (hq hne more eof), hl more eof]

/-- Nothing is read behind the part with the semicolon. -/
theorem rest (hp : Ends p q) (hk : ∀ a, Rests (k a) (l a)) : Ends (p >>= k) (q >>= l) := by
  intro c b e hrun
  obtain ⟨a, d, hfirst, hsecond⟩ := bind_eq_ok hrun
  obtain ⟨b', hkb, hlb⟩ := hk a d
  rw [hkb] at hsecond
  cases hsecond
  obtain ⟨ts, semi, hsemi, hrest, hq⟩ := hp c a e hfirst
  exact ⟨ts, semi, hsemi, hrest, fun more eof => (bind_of_ok (hq more eof)).trans (hlb more eof)⟩

theorem ite {test : Bool} (hyes : Ends p q) (hno : Ends p' q') :
    Ends (if test then p else p') (if test then q else q') := by
  cases test with
  | true => exact hyes
  | false => exact hno

/-- The test may look at two tokens if it is not about a semicolon, with which the text ends. -/
theorem ite_look {t : Cursor → Bool} (ht : Cursor.Sees 2 t)
    (hfalse : ∀ c : Cursor, c.atKind .semicolon = true → t c = false)
    (hyes : Ends p q) (hno : Ends p' q') :
    Ends (do if ← Parse.look t then p else p') (do if ← Parse.look t then q else q') := by
  intro c a d hrun
  change (if t c then p else p') c = .ok (a, d) at hrun
  have hends : Ends (if t c then p else p') (if t c then q else q') := hyes.ite hno
  obtain ⟨ts, semi, hsemi, hrest, hextend⟩ := hends c a d hrun
  refine ⟨ts, semi, hsemi, hrest, fun more eof => ?_⟩
  have hmem : semi ∈ c.rest := by
    rw [hrest]
    exact List.mem_append_right ts List.mem_cons_self
  change (if t (c.extend more eof) then q else q') (c.extend more eof) = _
  rw [ht.of_semicolon hfalse ⟨semi, hmem, hsemi⟩]
  exact hextend more eof

/-- The semicolon may be the one that the test reads. -/
theorem ite_eatIf {allowed : Bool} (hyes : Rests p q) (hno : Ends p' q') :
    Ends (do if ← Parse.eatIf allowed .semicolon then p else p')
      (do if ← Parse.eatIf allowed .semicolon then q else q') := by
  cases allowed with
  | false => exact hno
  | true =>
      intro c a d hrun
      have heat (c : Cursor) (h : c.atKind .semicolon = true) :
          Parse.eatIf true .semicolon c = .ok (true, c.advance) := if_pos h
      have hnot (c : Cursor) (h : c.atKind .semicolon = false) :
          Parse.eatIf true .semicolon c = .ok (false, c) := if_neg (Bool.eq_false_iff.1 h)
      cases hsemicolon : c.atKind .semicolon with
      | true =>
          obtain ⟨semi, hsemi, hpassed⟩ := Cursor.Passed.advance_atKind hsemicolon
          have hc := Cursor.one_le_of_atKind hsemicolon
          obtain ⟨b, hp, hq⟩ := hyes c.advance
          rw [bind_of_ok (heat c hsemicolon)] at hrun
          cases hp.symm.trans hrun
          refine ⟨[], semi, hsemi, hpassed.rest, fun more eof => ?_⟩
          rw [bind_of_ok (heat _ ((Cursor.sees_atKind _ c hc more eof).trans hsemicolon)),
            Cursor.advance_extend hc]
          exact hq more eof
      | false =>
          rw [bind_of_ok (hnot c hsemicolon)] at hrun
          obtain ⟨ts, semi, hsemi, hrest, hq⟩ := hno c a d hrun
          have hc := Nat.lt_of_le_of_lt (Nat.zero_le _) (hno.length_lt hrun)
          refine ⟨ts, semi, hsemi, hrest, fun more eof => ?_⟩
          rw [bind_of_ok (hnot _ ((Cursor.sees_atKind _ c hc more eof).trans hsemicolon))]
          exact hq more eof

theorem fail {kind : FaultKind} : Ends (Parse.fail kind : Parse α) q := fun _ _ _ h => by cases h

theorem failAt {kind : FaultKind} {span : Span} {detail : String} :
    Ends (Parse.failAt kind span detail : Parse α) q := fun _ _ _ h => by cases h

theorem unexpected {what : String} : Ends (Parse.unexpected what : Parse α) q :=
  fun _ _ _ h => by cases h

theorem expect {what : String} : Closes (Parse.expect .semicolon what) := by
  intro c a d hrun
  rw [Parse.expect] at hrun
  split at hrun
  · rename_i hsemicolon
    cases hrun
    obtain ⟨semi, hsemi, hpassed⟩ := Cursor.Passed.advance_atKind hsemicolon
    have hc := Cursor.one_le_of_atKind hsemicolon
    refine ⟨[], semi, hsemi, hpassed.rest, fun more eof => ?_⟩
    rw [Parse.expect, if_pos ((Cursor.sees_atKind _ c hc more eof).trans hsemicolon),
      Cursor.advance_extend hc]
  · cases hrun

end Ends

end Parse

end IdlBindings
