import IdlBindings.Automaton

/-!
The words that an automaton accepts, and the place of such a word in a longer text: a word that the
next character does not extend is cut off as one lexeme (`scan_append`), and every lexeme with a
kind is an accepted word (`accepts_of_mem_scan`).
-/

namespace IdlBindings.Automaton

variable {σ κ : Type} {A : Automaton σ κ}

/-- The state after reading `cs` from state `s`, if every character steps. -/
def run (A : Automaton σ κ) : σ → List Char → Option σ
  | s, [] => some s
  | s, c :: cs => (A.step s c).bind fun next => A.run next cs

/-- The whole of `cs` is one word of this kind. -/
def Accepts (A : Automaton σ κ) (kind : κ) (cs : List Char) : Prop :=
  ∃ s, A.run A.start cs = some s ∧ A.accept s = some kind

theorem run_append (s : σ) (cs ds : List Char) :
    A.run s (cs ++ ds) = (A.run s cs).bind fun next => A.run next ds := by
  induction cs generalizing s with
  | nil => rfl
  | cons c cs ih =>
      simp only [List.cons_append, run]
      cases A.step s c with
      | none => rfl
      | some next => exact ih next

/-- A run that stops in an accepting state is the longest accepted one. -/
theorem munch_append {s s' : σ} {kind : κ} {cs rest : List Char} (hrun : A.run s cs = some s')
    (hkind : A.accept s' = some kind) (hstop : ∀ c ∈ rest.head?, A.step s' c = none) :
    (A.munch s (cs ++ rest)).accepted = some (kind, cs.length) := by
  induction cs generalizing s with
  | nil =>
      obtain rfl : s = s' := Option.some.inj hrun
      cases rest with
      | nil => simp [munch, hkind]
      | cons c rest => simp [munch, hstop c rfl, hkind]
  | cons c cs ih =>
      rw [run, Option.bind_eq_some_iff] at hrun
      obtain ⟨next, hstep, hrun⟩ := hrun
      simp [munch, hstep, ih hrun]

/-- A word that the next character does not extend is the first lexeme. -/
theorem first_append {s : σ} {kind : κ} {cs rest : List Char} (hne : cs ≠ [])
    (hrun : A.run A.start cs = some s) (hkind : A.accept s = some kind)
    (hstop : ∀ c ∈ rest.head?, A.step s c = none) :
    A.first (cs ++ rest) = (some kind, cs.length) := by
  have hlen : 1 ≤ cs.length := List.length_pos_iff.2 hne
  rw [first, munch_append hrun hkind hstop]
  simp [Nat.max_eq_left hlen]

theorem scan_append {s : σ} {kind : κ} {cs rest : List Char} (hne : cs ≠ [])
    (hrun : A.run A.start cs = some s) (hkind : A.accept s = some kind)
    (hstop : ∀ c ∈ rest.head?, A.step s c = none) :
    A.scan (cs ++ rest) = ⟨some kind, cs⟩ :: A.scan rest := by
  have hfirst := first_append hne hrun hkind hstop
  cases cs with
  | nil => exact absurd rfl hne
  | cons c cs =>
      rw [List.cons_append, scan, ← List.cons_append, hfirst, List.take_left, List.drop_left]

theorem run_of_stay {s : σ} {cs : List Char} (h : ∀ c ∈ cs, A.step s c = some s) :
    A.run s cs = some s := by
  induction cs with
  | nil => rfl
  | cons c cs ih =>
      obtain ⟨hc, hcs⟩ := List.forall_mem_cons.1 h
      rw [run, hc]
      exact ih hcs

/-- Characters that lead to one state and do not leave it are one lexeme. -/
theorem scan_of_stay {s : σ} {kind : κ} {cs rest : List Char} (hne : cs ≠ [])
    (hbegin : ∀ c ∈ cs, A.step A.start c = some s) (hstay : ∀ c ∈ cs, A.step s c = some s)
    (hkind : A.accept s = some kind) (hstop : ∀ c ∈ rest.head?, A.step s c = none) :
    A.scan (cs ++ rest) = ⟨some kind, cs⟩ :: A.scan rest := by
  have hrun : A.run A.start cs = some s := by
    obtain ⟨c, ds, rfl⟩ := List.exists_cons_of_ne_nil hne
    rw [run, hbegin c List.mem_cons_self]
    exact run_of_stay (List.forall_mem_cons.1 hstay).2
  exact scan_append hne hrun hkind hstop

/-- An accepting state has a longest accepted run. -/
theorem munch_of_accept {s : σ} {kind : κ} (h : A.accept s = some kind) (cs : List Char) :
    ∃ best, (A.munch s cs).accepted = some best := by
  cases cs with
  | nil => exact ⟨(kind, 0), by rw [munch, h]; rfl⟩
  | cons c cs =>
      rw [munch]
      cases A.step s c with
      | none => exact ⟨(kind, 0), by rw [h]; rfl⟩
      | some next =>
          cases hnext : (A.munch next cs).accepted with
          | none => exact ⟨(kind, 0), by simp [hnext, h]⟩
          | some best => exact ⟨(best.1, best.2 + 1), by simp [hnext]⟩

theorem run_take_zero {s : σ} {kind : κ} {n : Nat} (cs : List Char)
    (h : (A.accept s).map (·, 0) = some (kind, n)) :
    ∃ s', A.run s (cs.take n) = some s' ∧ A.accept s' = some kind := by
  obtain ⟨found, hfound, heq⟩ := Option.map_eq_some_iff.1 h
  obtain ⟨rfl, rfl⟩ := Prod.mk.inj heq
  exact ⟨s, rfl, hfound⟩

/-- The longest accepted run is a run, and its state accepts. -/
theorem run_of_munch {s : σ} {kind : κ} {n : Nat} {cs : List Char}
    (h : (A.munch s cs).accepted = some (kind, n)) :
    ∃ s', A.run s (cs.take n) = some s' ∧ A.accept s' = some kind := by
  induction cs generalizing s n with
  | nil => exact run_take_zero [] h
  | cons c cs ih =>
      rw [munch] at h
      cases hstep : A.step s c with
      | none => exact run_take_zero (c :: cs) (by simpa [hstep] using h)
      | some next =>
          simp only [hstep] at h
          cases hnext : (A.munch next cs).accepted with
          | none => exact run_take_zero (c :: cs) (by simpa [hnext] using h)
          | some best =>
              obtain ⟨found, m⟩ := best
              simp only [hnext, Option.some.injEq, Prod.mk.injEq] at h
              obtain ⟨rfl, rfl⟩ := h
              obtain ⟨s', hrun, hkind⟩ := ih hnext
              exact ⟨s', by simp [run, hstep, hrun], hkind⟩

theorem munch_le_length (s : σ) (cs : List Char) :
    (∀ best ∈ (A.munch s cs).accepted, best.2 ≤ cs.length) ∧ (A.munch s cs).reach ≤ cs.length := by
  induction cs generalizing s with
  | nil =>
      refine ⟨fun best hbest => ?_, Nat.le_refl 0⟩
      obtain ⟨kind, -, rfl⟩ := Option.map_eq_some_iff.1 hbest
      exact Nat.le_refl 0
  | cons c cs ih =>
      have hhere : ∀ best ∈ (A.accept s).map (·, 0), best.2 ≤ (c :: cs).length := by
        intro best hbest
        obtain ⟨kind, -, rfl⟩ := Option.map_eq_some_iff.1 hbest
        exact Nat.zero_le _
      rw [munch]
      cases A.step s c with
      | none => exact ⟨hhere, Nat.zero_le _⟩
      | some next =>
          obtain ⟨haccepted, hreach⟩ := ih next
          refine ⟨?_, Nat.succ_le_succ hreach⟩
          cases hnext : (A.munch next cs).accepted with
          | none => simpa only [hnext] using hhere
          | some best =>
              simp only [hnext]
              rintro _ ⟨⟩
              exact Nat.succ_le_succ (haccepted best hnext)

/-- The first lexeme lies within the text. -/
theorem first_le_length {cs : List Char} (hne : cs ≠ []) : (A.first cs).2 ≤ cs.length := by
  have hpos : 1 ≤ cs.length := List.length_pos_iff.2 hne
  obtain ⟨haccepted, hreach⟩ := munch_le_length (A := A) A.start cs
  rw [first]
  cases hmunch : (A.munch A.start cs).accepted with
  | none => exact Nat.max_le.2 ⟨hreach, hpos⟩
  | some best => exact Nat.max_le.2 ⟨haccepted best hmunch, hpos⟩

/-- When nothing is accepted before the first character, a first lexeme with a kind is a word of that
kind. -/
theorem accepts_of_first (hstart : A.accept A.start = none) {cs : List Char} {kind : κ}
    (h : (A.first cs).1 = some kind) : A.Accepts kind (cs.take (A.first cs).2) := by
  rw [first] at h ⊢
  cases hmunch : (A.munch A.start cs).accepted with
  | none => simp [hmunch] at h
  | some best =>
      obtain ⟨found, n⟩ := best
      simp only [hmunch, Option.some.injEq] at h ⊢
      subst h
      obtain ⟨s, hrun, haccept⟩ := run_of_munch hmunch
      have hpos : n ≠ 0 := by
        rintro rfl
        obtain rfl : A.start = s := Option.some.inj hrun
        simp [hstart] at haccept
      rw [Nat.max_eq_left (Nat.one_le_iff_ne_zero.2 hpos)]
      exact ⟨s, hrun, haccept⟩

/-- Each lexeme with a kind is a word of that kind. -/
theorem accepts_of_mem_scan (hstart : A.accept A.start = none) (cs : List Char)
    {lexeme : Lexeme κ} (hmem : lexeme ∈ A.scan cs) {kind : κ} (hkind : lexeme.kind = some kind) :
    A.Accepts kind lexeme.text := by
  fun_induction scan A cs with
  | case1 => simp at hmem
  | case2 c cs next ih =>
      rcases List.mem_cons.1 hmem with rfl | hrest
      · exact accepts_of_first hstart hkind
      · exact ih hrest

end IdlBindings.Automaton
