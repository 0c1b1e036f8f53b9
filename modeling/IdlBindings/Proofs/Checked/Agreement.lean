import IdlBindings.Proofs.Checked.Reader

/-!
When a reader does what a parser does. `Follows r c` relates their states. `Agrees n q p` says that
reading with `q` gives what parsing with `p` gives wherever fewer than `n` tokens are ahead, and so
is never out of range there; the rules follow the way that parsers are put together.
-/

namespace IdlBindings

namespace Reader

variable {α β : Type}

/-- The reader is where the cursor is: the tokens ahead have the same kinds, places and texts. -/
structure Follows (r : Reader) (c : Cursor) : Prop where
  marks : r.marks.drop r.pos = c.rest.map Token.mark
  texts : ∀ token ∈ c.rest, r.markText? token.mark = some token.text
  /-- A string has its two quotes. -/
  quoted : ∀ token ∈ c.rest, token.kind = .string →
    unquote? token.text = some (Parse.unquote token.text)
  lastEnd : r.lastEnd = c.lastEnd
  eof : r.eofSpan? = some ⟨c.eof, c.eof⟩

/-- Reading at `r` gives what the parser gives at `c`. -/
def AgreesAt (q : Run α) (p : Parse α) (r : Reader) (c : Cursor) : Prop :=
  match p c with
  | .ok (a, d) => ∃ s, q r = some (.ok (a, s)) ∧ Follows s d ∧ d.rest.length ≤ c.rest.length
  | .error fault => q r = some (.error fault)

/-- Reading gives what the parser gives wherever fewer than `n` tokens are ahead. -/
def Agrees (n : Nat) (q : Run α) (p : Parse α) : Prop :=
  ∀ r c, Follows r c → c.rest.length < n → AgreesAt q p r c

variable {r s : Reader} {c d : Cursor} {n : Nat}

namespace Follows

theorem ahead? (h : Follows r c) (n : Nat) : r.ahead? n = c.rest[n]?.map Token.mark := by
  rw [Reader.ahead?, ← List.getElem?_drop, h.marks, List.getElem?_map]

theorem span? (h : Follows r c) : r.span? = some c.span := by
  rw [Reader.span?, h.ahead?, Cursor.span]
  cases c.rest with
  | nil => exact h.eof
  | cons token rest => rfl

theorem text? (h : Follows r c) : r.text? = some c.text := by
  rw [Reader.text?, h.ahead?, Cursor.text]
  have htexts := h.texts
  cases hrest : c.rest with
  | nil => rfl
  | cons token rest =>
      rw [hrest] at htexts
      exact htexts token List.mem_cons_self

theorem found? (h : Follows r c) : r.found? = some c.found := by
  rw [Reader.found?, h.ahead?, Cursor.found]
  have htexts := h.texts
  cases hrest : c.rest with
  | nil => rfl
  | cons token rest =>
      rw [hrest] at htexts
      simp [htexts token List.mem_cons_self]

theorem hasKind (h : Follows r c) (kind : TokenKind) : r.hasKind 0 kind = c.atKind kind := by
  rw [Reader.hasKind, h.ahead?, Cursor.atKind]
  cases c.rest <;> rfl

theorem hasKind_one (h : Follows r c) (kind : TokenKind) :
    r.hasKind 1 kind = c.beforeKind kind := by
  rw [Reader.hasKind, h.ahead?, Cursor.beforeKind]
  rcases c.rest with _ | ⟨_, _ | ⟨_, _⟩⟩ <;> rfl

/-- The text is only looked at when the token is an identifier. -/
theorem isWord (h : Follows r c) {token : Token} (hmem : token ∈ c.rest) (word : String) :
    (if token.mark.kind == .identifier then (r.markText? token.mark).map (· == word)
      else some false) = some (Cursor.isWord token word) := by
  rw [h.texts token hmem, Cursor.isWord]
  cases hkind : token.kind == .identifier <;> simp [Token.mark, hkind]

theorem hasWord? (h : Follows r c) (word : String) : r.hasWord? 0 word = some (c.atWord word) := by
  rw [Reader.hasWord?, h.ahead?, Cursor.atWord]
  have hword := fun (token : Token) (hmem : token ∈ c.rest) => h.isWord hmem word
  cases hrest : c.rest with
  | nil => rfl
  | cons token rest => exact hword token (hrest ▸ List.mem_cons_self)

theorem hasWord?_one (h : Follows r c) (word : String) :
    r.hasWord? 1 word = some (c.beforeWord word) := by
  rw [Reader.hasWord?, h.ahead?, Cursor.beforeWord]
  have hword := fun (token : Token) (hmem : token ∈ c.rest) => h.isWord hmem word
  rcases hrest : c.rest with _ | ⟨first, _ | ⟨second, rest⟩⟩
  · rfl
  · rfl
  · exact hword second (hrest ▸ List.mem_cons_of_mem first List.mem_cons_self)

theorem isNone (h : Follows r c) : (r.ahead? 0).isNone = c.rest.isEmpty := by
  rw [h.ahead?]
  cases c.rest <;> rfl

/-- A reader has at least the tokens that are ahead. -/
theorem length_le (h : Follows r c) : c.rest.length ≤ r.marks.length := by
  have hlength := congrArg List.length h.marks
  rw [List.length_drop, List.length_map] at hlength
  omega

/-- Where a token is next, the reader goes past it. -/
theorem bump? (h : Follows r c) {token : Token} {rest : List Token}
    (hrest : c.rest = token :: rest) :
    ∃ s, r.bump? = some (token.mark, s) ∧ Follows s c.advance ∧ s.markText? = r.markText? := by
  have hnext : r.ahead? 0 = some token.mark := by rw [h.ahead?, hrest]; rfl
  have hadvance : c.advance = { c with rest, lastEnd := token.span.stop } := by
    rw [Cursor.advance, hrest]
  have hmem : ∀ other ∈ rest, other ∈ c.rest := fun other hother =>
    hrest ▸ List.mem_cons_of_mem token hother
  refine ⟨{ r with pos := r.pos + 1, lastEnd := token.span.stop }, ?_, ?_, rfl⟩
  · rw [Reader.bump?, hnext]
    rfl
  · rw [hadvance]
    refine ⟨?_, fun other hother => h.texts other (hmem other hother),
      fun other hother => h.quoted other (hmem other hother), rfl, h.eof⟩
    have hmarks := h.marks
    rw [hrest, List.map_cons] at hmarks
    simp only
    rw [← List.drop_drop, hmarks]
    rfl

end Follows

variable {q : Run α} {p : Parse α} {g : α → Run β} {f : α → Parse β}

theorem length_advance_le (c : Cursor) : c.advance.rest.length ≤ c.rest.length := by
  unfold Cursor.advance
  split
  · rename_i hrest
    rw [hrest]
    exact Nat.le_succ _
  · exact Nat.le_refl _

/-! ### Rules -/

/-- Looking goes on in the same place. -/
theorem run_look {look : Reader → Option α} {a : α} (hlook : look r = some a) (g : α → Run β) :
    (Reader.look look >>= g) r = g a r := by
  simp only [Bind.bind, StateT.bind, ExceptT.bind, ExceptT.mk, Reader.look, hlook]
  rfl

namespace AgreesAt

theorem of_eq {p p' : Parse α} (heq : p c = p' c) (h : AgreesAt q p' r c) : AgreesAt q p r c := by
  unfold AgreesAt at h ⊢
  rwa [heq]

theorem of_run_eq {q q' : Run α} (heq : q r = q' r) (h : AgreesAt q' p r c) :
    AgreesAt q p r c := by
  unfold AgreesAt at h ⊢
  rwa [heq]

theorem bind (h : AgreesAt q p r c) (hnext : ∀ a s d, p c = .ok (a, d) → Follows s d →
    d.rest.length ≤ c.rest.length → AgreesAt (g a) (f a) s d) :
    AgreesAt (q >>= g) (p >>= f) r c := by
  unfold AgreesAt at h ⊢
  simp only [Bind.bind, StateT.bind, ExceptT.bind, Except.bind, ExceptT.mk]
  cases hp : p c with
  | error fault =>
      rw [hp] at h
      rw [h]
      rfl
  | ok result =>
      obtain ⟨a, d⟩ := result
      rw [hp] at h
      obtain ⟨s, hq, hfollows, hle⟩ := h
      have hagrees := hnext a s d hp hfollows hle
      unfold AgreesAt at hagrees
      rw [hq]
      simp only [Option.bind_some, ExceptT.bindCont]
      cases hf : f a d with
      | error fault =>
          rw [hf] at hagrees
          exact hagrees
      | ok result =>
          rw [hf] at hagrees
          obtain ⟨t, hg, hlast, hless⟩ := hagrees
          exact ⟨t, hg, hlast, Nat.le_trans hless hle⟩

theorem pure (h : Follows r c) (a : α) : AgreesAt (Pure.pure a) (Pure.pure a) r c :=
  ⟨r, rfl, h, Nat.le_refl _⟩

/-- Looking moves neither. -/
theorem look {γ : Type} {look : Reader → Option γ} {see : Cursor → γ} {g : γ → Run β}
    {f : γ → Parse β} (hlook : look r = some (see c)) (h : AgreesAt (g (see c)) (f (see c)) r c) :
    AgreesAt (Reader.look look >>= g) (Parse.look see >>= f) r c :=
  of_run_eq (run_look hlook g) (of_eq (p := Parse.look see >>= f) rfl h)

/-- Going past a token that is there. -/
theorem bump {g : Mark → Run β} {p : Parse β} (h : Follows r c) {token : Token} {rest : List Token}
    (hrest : c.rest = token :: rest) (hnext : ∀ s, Follows s c.advance →
      s.markText? = r.markText? → AgreesAt (g token.mark) p s c.advance) :
    AgreesAt (Reader.bump >>= g) (Parse.advance >>= fun _ => p) r c := by
  obtain ⟨s, hbump, hfollows, hsame⟩ := h.bump? hrest
  have hagrees := hnext s hfollows hsame
  have hq : (Reader.bump >>= g) r = g token.mark s := by
    simp only [Bind.bind, StateT.bind, ExceptT.bind, ExceptT.mk, Reader.bump, hbump]
    rfl
  unfold AgreesAt at hagrees ⊢
  rw [hq]
  show match p c.advance with | .ok (a, d) => _ | .error fault => _
  cases hp : p c.advance with
  | error fault =>
      rw [hp] at hagrees
      exact hagrees
  | ok result =>
      rw [hp] at hagrees
      obtain ⟨t, hg, hlast, hle⟩ := hagrees
      exact ⟨t, hg, hlast, Nat.le_trans hle (length_advance_le c)⟩

end AgreesAt

namespace Agrees

theorem mono {m : Nat} (h : Agrees n q p) (hle : m ≤ n) : Agrees m q p :=
  fun r c hfollows hlt => h r c hfollows (Nat.lt_of_lt_of_le hlt hle)

theorem pure (a : α) : Agrees n (Pure.pure a) (Pure.pure a) := fun _ _ h _ => .pure h a

theorem bind (h : Agrees n q p) (hnext : ∀ a, Agrees n (g a) (f a)) :
    Agrees n (q >>= g) (p >>= f) := by
  intro r c hfollows hlt
  refine (h r c hfollows hlt).bind fun a s d _ hfollows' hle => ?_
  exact hnext a s d hfollows' (Nat.lt_of_le_of_lt hle hlt)

theorem map {h : α → β} (hq : Agrees n q p) : Agrees n (h <$> q) (h <$> p) := by
  rw [← bind_pure_comp, ← bind_pure_comp]
  exact hq.bind fun a => .pure (h a)

theorem look {γ : Type} {look : Reader → Option γ} {see : Cursor → γ} {g : γ → Run β}
    {f : γ → Parse β} (hlook : ∀ r c, Follows r c → look r = some (see c))
    (h : ∀ a, Agrees n (g a) (f a)) :
    Agrees n (Reader.look look >>= g) (Parse.look see >>= f) :=
  fun r c hfollows hlt => .look (hlook r c hfollows) (h (see c) r c hfollows hlt)

theorem ite {test : Bool} {q q' : Run α} {p p' : Parse α} (hyes : Agrees n q p)
    (hno : Agrees n q' p') : Agrees n (if test then q else q') (if test then p else p') := by
  cases test with
  | true => exact hyes
  | false => exact hno

end Agrees

/-! ### Tokens and words -/

theorem exists_of_atKind {kind : TokenKind} (h : c.atKind kind = true) :
    ∃ token rest, c.rest = token :: rest ∧ token.kind = kind := by
  unfold Cursor.atKind at h
  split at h
  · exact ⟨_, _, by assumption, beq_iff_eq.1 h⟩
  · cases h

theorem exists_of_atWord {word : String} (h : c.atWord word = true) :
    ∃ token rest, c.rest = token :: rest := by
  unfold Cursor.atWord at h
  split at h
  · exact ⟨_, _, by assumption⟩
  · cases h

theorem length_advance_lt {token : Token} {rest : List Token} (h : c.rest = token :: rest) :
    c.advance.rest.length < c.rest.length := by
  rw [Cursor.advance, h]
  exact Nat.lt_succ_self _

namespace AgreesAt

/-- A test that both sides answer alike; the parser's is part of `p`. -/
theorem of_test {test : Reader → Option Bool} {b : Bool} {q' : Run α} (htest : test r = some b)
    (h : AgreesAt (if b then q else q') p r c) :
    AgreesAt (do if ← Reader.look test then q else q') p r c :=
  of_run_eq (run_look htest _) h

theorem look_pure {look : Reader → Option α} {a : α} (h : Follows r c) (hlook : look r = some a) :
    AgreesAt (Reader.look look) (Pure.pure a) r c :=
  ⟨r, by rw [Reader.look, hlook]; rfl, h, Nat.le_refl _⟩

theorem fail {kind : FaultKind} (h : Follows r c) :
    AgreesAt (Reader.fail kind : Run α) (Parse.fail kind) r c :=
  of_run_eq (run_look h.span? _) (of_run_eq (run_look h.found? _) rfl)

theorem unexpected {what : String} (h : Follows r c) :
    AgreesAt (Reader.unexpected what : Run α) (Parse.unexpected what) r c :=
  of_run_eq (run_look h.span? _) (of_run_eq (run_look h.found? _) rfl)

end AgreesAt

namespace Agrees

theorem fail {kind : FaultKind} : Agrees n (Reader.fail kind : Run α) (Parse.fail kind) :=
  fun _ _ h _ => .fail h

theorem unexpected {what : String} :
    Agrees n (Reader.unexpected what : Run α) (Parse.unexpected what) :=
  fun _ _ h _ => .unexpected h

theorem failAt {kind : FaultKind} {span : Span} {detail : String} :
    Agrees n (Reader.failAt kind span detail : Run α) (Parse.failAt kind span detail) :=
  fun _ _ _ _ => rfl

theorem start : Agrees n Reader.start Parse.start :=
  fun _ _ h _ => .of_run_eq (run_look h.span? _) (.pure h _)

theorem spanFrom (first : Nat) : Agrees n (Reader.spanFrom first) (Parse.spanFrom first) := by
  intro r c h _
  have hspan : Parse.spanFrom first c =
      (Pure.pure ⟨first, max r.lastEnd first⟩ : Parse Span) c := by
    rw [h.lastEnd]
    rfl
  exact .of_eq hspan (.look_pure h rfl)

/-- What is read where a token of a kind is next. -/
theorem of_kind {kind : TokenKind} {q' : Run α} {u v : Parse α}
    (hp : ∀ c, p c = if c.atKind kind then u c else v c)
    (hyes : ∀ r c token rest, Follows r c → c.rest.length < n → c.rest = token :: rest →
      token.kind = kind → AgreesAt q u r c)
    (hno : Agrees n q' v) : Agrees n (do if ← Reader.atKind kind then q else q') p := by
  intro r c h hlt
  refine .of_test (b := c.atKind kind) (congrArg some (h.hasKind kind)) ?_
  cases hkind : c.atKind kind with
  | true =>
      obtain ⟨token, rest, hrest, htoken⟩ := exists_of_atKind hkind
      have heq : p c = u c := by rw [hp, if_pos hkind]
      exact .of_eq heq (hyes r c token rest h hlt hrest htoken)
  | false =>
      have heq : p c = v c := by rw [hp, if_neg (Bool.eq_false_iff.1 hkind)]
      exact .of_eq heq (hno r c h hlt)

/-- What is read where a word is next. -/
theorem of_word {word : String} {q' : Run α} {u v : Parse α}
    (hp : ∀ c, p c = if c.atWord word then u c else v c)
    (hyes : ∀ r c token rest, Follows r c → c.rest.length < n → c.rest = token :: rest →
      AgreesAt q u r c)
    (hno : Agrees n q' v) : Agrees n (do if ← Reader.atWord word then q else q') p := by
  intro r c h hlt
  refine .of_test (b := c.atWord word) (h.hasWord? word) ?_
  cases hword : c.atWord word with
  | true =>
      obtain ⟨token, rest, hrest⟩ := exists_of_atWord hword
      have heq : p c = u c := by rw [hp, if_pos hword]
      exact .of_eq heq (hyes r c token rest h hlt hrest)
  | false =>
      have heq : p c = v c := by rw [hp, if_neg (Bool.eq_false_iff.1 hword)]
      exact .of_eq heq (hno r c h hlt)

/-- A test that both sides answer alike, with what a yes tells about the place. -/
theorem ite_look {test : Reader → Option Bool} {see : Cursor → Bool} {q' : Run α} {u v : Parse α}
    (htest : ∀ r c, Follows r c → test r = some (see c))
    (hyes : ∀ r c, Follows r c → c.rest.length < n → see c = true → AgreesAt q u r c)
    (hno : Agrees n q' v) : Agrees n (do if ← Reader.look test then q else q')
      (do if ← Parse.look see then u else v) := by
  intro r c h hlt
  refine .look (htest r c h) ?_
  cases hsee : see c with
  | true => exact hyes r c h hlt hsee
  | false => exact hno r c h hlt

theorem ite_kind {kind : TokenKind} {q' : Run α} {u v : Parse α}
    (hyes : ∀ r c token rest, Follows r c → c.rest.length < n → c.rest = token :: rest →
      token.kind = kind → AgreesAt q u r c)
    (hno : Agrees n q' v) : Agrees n (do if ← Reader.atKind kind then q else q')
      (do if ← Parse.atKind kind then u else v) := by
  refine ite_look (fun _ _ h => congrArg some (h.hasKind kind)) (fun r c h hlt hkind => ?_) hno
  obtain ⟨token, rest, hrest, htoken⟩ := exists_of_atKind hkind
  exact hyes r c token rest h hlt hrest htoken

/-- Going past the next token gives `a`. -/
theorem bump_pure {token : Token} {rest : List Token} (h : Follows r c)
    (hrest : c.rest = token :: rest) (a : α) :
    AgreesAt (Reader.bump >>= fun _ => Pure.pure a) (Parse.advance >>= fun _ => Pure.pure a) r c :=
  .bump h hrest fun _ hs _ => .pure hs a

theorem eat {kind : TokenKind} : Agrees n (Reader.eat kind) (Parse.eat kind) :=
  of_kind (fun _ => rfl) (fun _ _ _ _ h _ hrest _ => bump_pure h hrest true) (pure false)

theorem eatIf {allowed : Bool} {kind : TokenKind} :
    Agrees n (Reader.eatIf allowed kind) (Parse.eatIf allowed kind) :=
  ite eat (pure false)

theorem eatWord {word : String} : Agrees n (Reader.eatWord word) (Parse.eatWord word) :=
  of_word (fun _ => rfl) (fun _ _ _ _ h _ hrest => bump_pure h hrest true) (pure false)

theorem expect {kind : TokenKind} {what : String} :
    Agrees n (Reader.expect kind what) (Parse.expect kind what) :=
  of_kind (fun _ => rfl) (fun _ _ _ _ h _ hrest _ => bump_pure h hrest ()) unexpected

theorem expectWord {word : String} :
    Agrees n (Reader.expectWord word) (Parse.expectWord word) :=
  of_word (fun _ => rfl) (fun _ _ _ _ h _ hrest => bump_pure h hrest ()) unexpected

theorem readName : Agrees n Reader.readName Parse.readName := by
  refine of_kind (u := Parse.look Cursor.text >>= fun text => Parse.advance >>= fun _ =>
    Pure.pure (Parse.unescape text)) (fun _ => rfl) ?_ fail
  intro r c token rest h _ hrest _
  exact .look h.text? (bump_pure h hrest _)

theorem stringContent {what : String} :
    Agrees n (Reader.stringContent what) (Parse.stringContent what) := by
  refine of_kind (u := fun c => .ok (Parse.unquote c.text, c.advance)) (fun _ => rfl) ?_ unexpected
  intro r c token rest h _ hrest hkind
  have hmem : token ∈ c.rest := hrest ▸ List.mem_cons_self
  have htext : c.text = token.text := by rw [Cursor.text, hrest]
  refine .of_eq (p := fun c => .ok (Parse.unquote c.text, c.advance)) rfl
    (.bump h hrest fun s hs hsame => .look_pure hs (a := Parse.unquote c.text) ?_)
  rw [hsame, h.texts token hmem, htext]
  exact h.quoted token hmem hkind

/-- Behind a token that has to be there, fewer are left. -/
theorem expect_bind {kind : TokenKind} {what : String} {g : Unit → Run β} {f : Unit → Parse β}
    (h : Agrees n (g ()) (f ())) :
    Agrees (n + 1) (Reader.expect kind what >>= g) (Parse.expect kind what >>= f) := by
  intro r c hfollows hlt
  refine (expect r c hfollows hlt).bind fun _ s d hp hs _ => h s d hs ?_
  by_cases hkind : c.atKind kind = true
  · obtain ⟨token, rest, hrest, -⟩ := exists_of_atKind hkind
    have hexpect : Parse.expect kind what c = .ok ((), c.advance) := if_pos hkind
    rw [hexpect] at hp
    cases hp
    have := length_advance_lt hrest
    omega
  · have hexpect : Parse.expect kind what c = Parse.unexpected what c := if_neg hkind
    rw [hexpect] at hp
    cases hp

/-! ### Repetition -/

/-- Each round takes a token, so neither side runs out of rounds. -/
theorem repeatUpTo {more : Run Bool} {item : Run α} {more' : Parse Bool} {item' : Parse α}
    (hmore : Agrees n more more') (hitem : Agrees n item item')
    (hround : ∀ c d e a, more' c = .ok (true, d) → d.rest.length ≤ c.rest.length →
      item' d = .ok (a, e) → e.rest.length ≤ d.rest.length → e.rest.length < c.rest.length)
    (limit limit' : Nat) {r : Reader} {c : Cursor} (h : Follows r c) (hlt : c.rest.length < n)
    (hlimit : c.rest.length < limit) (hlimit' : c.rest.length < limit') :
    AgreesAt (Reader.repeatUpTo more item limit) (Parse.repeatUpTo more' item' limit') r c := by
  induction limit generalizing limit' r c with
  | zero => cases hlimit
  | succ limit ih =>
      obtain ⟨limit', rfl⟩ :=
        Nat.exists_eq_succ_of_ne_zero (Nat.ne_of_gt (Nat.zero_lt_of_lt hlimit'))
      refine (hmore r c h hlt).bind fun yes s d hyes hs hd => ?_
      cases yes with
      | false => exact .pure hs []
      | true =>
          refine (hitem s d hs (Nat.lt_of_le_of_lt hd hlt)).bind fun a t e ha ht he => ?_
          have hless := hround c d e a hyes hd ha he
          refine (ih limit' ht (by omega) (by omega) (by omega)).bind fun rest u f _ hu _ => ?_
          exact .pure hu (a :: rest)

theorem repeatWhile {more : Run Bool} {item : Run α} {more' : Parse Bool} {item' : Parse α}
    (hmore : Agrees n more more') (hitem : Agrees n item item')
    (hround : ∀ c d e a, more' c = .ok (true, d) → d.rest.length ≤ c.rest.length →
      item' d = .ok (a, e) → e.rest.length ≤ d.rest.length → e.rest.length < c.rest.length) :
    Agrees n (Reader.repeatWhile more item) (Parse.repeatWhile more' item') :=
  fun _ _ h hlt => repeatUpTo hmore hitem hround _ _ h hlt (Nat.lt_succ_of_le h.length_le)
    (Nat.lt_succ_self _)

theorem length_lt_of_eat {kind : TokenKind} (h : Parse.eat kind c = .ok (true, d)) :
    d.rest.length < c.rest.length := by
  by_cases hkind : c.atKind kind = true
  · obtain ⟨token, rest, hrest, -⟩ := exists_of_atKind hkind
    have heat : Parse.eat kind c = .ok (true, c.advance) := if_pos hkind
    rw [heat] at h
    cases h
    exact length_advance_lt hrest
  · have heat : Parse.eat kind c = .ok (false, c) := if_neg hkind
    rw [heat] at h
    cases h

theorem length_lt_of_eatWord {word : String} (h : Parse.eatWord word c = .ok (true, d)) :
    d.rest.length < c.rest.length := by
  by_cases hword : c.atWord word = true
  · obtain ⟨token, rest, hrest⟩ := exists_of_atWord hword
    have heat : Parse.eatWord word c = .ok (true, c.advance) := if_pos hword
    rw [heat] at h
    cases h
    exact length_advance_lt hrest
  · have heat : Parse.eatWord word c = .ok (false, c) := if_neg hword
    rw [heat] at h
    cases h

theorem commaSeparated {item : Run α} {item' : Parse α} (h : Agrees n item item') :
    Agrees n (Reader.commaSeparated item) (Parse.commaSeparated item') := by
  refine h.bind fun first => (repeatWhile eat h ?_).bind fun rest => pure (first :: rest)
  intro c d e a hyes _ _ he
  exact Nat.lt_of_le_of_lt he (length_lt_of_eat hyes)

end Agrees

end Reader

end IdlBindings
