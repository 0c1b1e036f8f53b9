import IdlBindings.Proofs.Span

/-!
Arithmetic and slices that can go out of range. A step gives `none` where a word of 32 bits
overflows, a difference falls below zero, or a slice does not hold whole characters
(`slice?_eq_some_iff`).
-/

namespace IdlBindings.Checked

/-- The number, if it fits in a word of 32 bits. -/
def word? (n : Nat) : Option Nat := if n < UInt32.size then some n else none

/-- The sum of two words. -/
def add? (a b : Nat) : Option Nat := word? (a + b)

def sub? (a b : Nat) : Option Nat := if b ≤ a then some (a - b) else none

/-- The same range, `offset` bytes later. -/
def shift? (span : Span) (offset : Nat) : Option Span := do
  return ⟨← add? span.start offset, ← add? span.stop offset⟩

/-- The text up to byte `n` and the text from there on. -/
def split? : Nat → List Char → Option (List Char × List Char)
  | 0, text => some ([], text)
  | _ + 1, [] => none
  | n + 1, c :: text => do
    let rest ← sub? (n + 1) c.utf8Size
    let (before, after) ← split? rest text
    return (c :: before, after)

/-- The bytes of the text from `start` up to, not including, `stop`. -/
def slice? (text : List Char) (start stop : Nat) : Option (List Char) := do
  let length ← sub? stop start
  let (_, behind) ← split? start text
  let (piece, _) ← split? length behind
  return piece

variable {text before piece after : List Char} {n start stop : Nat}

theorem word?_of_lt (h : n < UInt32.size) : word? n = some n := if_pos h

theorem sub?_add (a b : Nat) : sub? (a + b) a = some b := by
  rw [sub?, if_pos (Nat.le_add_right a b), Nat.add_sub_cancel_left]

theorem shift?_of_lt {span : Span} {offset : Nat} (hle : span.start ≤ span.stop)
    (h : span.stop + offset < UInt32.size) : shift? span offset = some (span.shift offset) := by
  have hstart : span.start + offset < UInt32.size := by omega
  rw [shift?, add?, add?, word?_of_lt h, word?_of_lt hstart]
  rfl

theorem split?_append (before after : List Char) :
    split? (byteLength before) (before ++ after) = some (before, after) := by
  induction before with
  | nil => rw [byteLength_nil, List.nil_append, split?]
  | cons c before ih =>
      obtain ⟨n, hn⟩ : ∃ n, c.utf8Size + byteLength before = n + 1 :=
        ⟨_, (Nat.succ_pred_eq_of_pos (Nat.add_pos_left c.utf8Size_pos _)).symm⟩
      rw [byteLength_cons, hn, List.cons_append, split?, ← hn, sub?_add, Option.bind_eq_bind,
        Option.bind_some, ih]
      rfl

theorem split?_eq_some_iff :
    split? n text = some (before, after) ↔ text = before ++ after ∧ byteLength before = n := by
  constructor
  · intro h
    induction text generalizing n before with
    | nil =>
        cases n with
        | zero =>
            cases h
            exact ⟨rfl, rfl⟩
        | succ n => cases h
    | cons c text ih =>
        cases n with
        | zero =>
            cases h
            exact ⟨rfl, rfl⟩
        | succ n =>
            obtain ⟨rest, hrest, hnext⟩ := Option.bind_eq_some_iff.1 h
            obtain ⟨⟨front, back⟩, hsplit, heq⟩ := Option.bind_eq_some_iff.1 hnext
            cases heq
            obtain ⟨rfl, rfl⟩ := ih hsplit
            refine ⟨rfl, ?_⟩
            unfold sub? at hrest
            split at hrest
            · have := Option.some.inj hrest
              rw [byteLength_cons]
              omega
            · cases hrest
  · rintro ⟨rfl, rfl⟩
    exact split?_append before after

/-- A slice is a piece of the text between characters. -/
theorem slice?_eq_some_iff : slice? text start stop = some piece ↔ ∃ before after,
    text = before ++ (piece ++ after) ∧ byteLength before = start ∧
      start + byteLength piece = stop := by
  constructor
  · intro h
    obtain ⟨length, hlength, h⟩ := Option.bind_eq_some_iff.1 h
    obtain ⟨⟨before, behind⟩, hbefore, h⟩ := Option.bind_eq_some_iff.1 h
    obtain ⟨⟨front, after⟩, hpiece, h⟩ := Option.bind_eq_some_iff.1 h
    cases h
    obtain ⟨rfl, rfl⟩ := split?_eq_some_iff.1 hbefore
    obtain ⟨rfl, rfl⟩ := split?_eq_some_iff.1 hpiece
    refine ⟨before, after, rfl, rfl, ?_⟩
    unfold sub? at hlength
    split at hlength
    · have := Option.some.inj hlength
      omega
    · cases hlength
  · rintro ⟨before, after, rfl, rfl, rfl⟩
    rw [slice?, sub?_add, Option.bind_eq_bind, Option.bind_some, split?_append]
    simp only [Option.bind_eq_bind, Option.bind_some, split?_append]
    rfl

theorem slice?_append (before piece after : List Char) :
    slice? (before ++ (piece ++ after)) (byteLength before) (byteLength before + byteLength piece)
      = some piece :=
  slice?_eq_some_iff.2 ⟨before, after, rfl, rfl, rfl⟩

/-- Steps none of which goes out of range. -/
theorem mapM_eq_some {α β : Type} {f : α → Option β} {g : α → β} {l : List α}
    (h : ∀ a ∈ l, f a = some (g a)) : l.mapM f = some (l.map g) := by
  induction l with
  | nil => rfl
  | cons a l ih =>
      obtain ⟨hfirst, hrest⟩ := List.forall_mem_cons.1 h
      rw [List.mapM_cons, hfirst, ih hrest]
      rfl

end IdlBindings.Checked
