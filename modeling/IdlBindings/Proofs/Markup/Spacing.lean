import IdlBindings.Proofs.Markup.Cut
import Mathlib.Order.Monotone.Basic

/-!
The distances between fragments. Tags stand between the texts of two fragments
(`Fragment.spaced_of_fragments`), so texts that are laid side by side, with one byte between, can be
moved to their places in the document without a change of order (`Fragment.strictMono_spread`).
-/

namespace IdlBindings

namespace Fragment

/-- The number of bytes of the text. -/
def size (fragment : Fragment) : Nat := byteLength fragment.text.toList

/-- The fragments stand one after the other from byte `least` on, with other bytes between. -/
def Spaced : Nat → List Fragment → Prop
  | _, [] => True
  | least, fragment :: rest =>
    least ≤ fragment.offset ∧ Spaced (fragment.offset + fragment.size + 1) rest

theorem Spaced.mono {least most : Nat} {fragments : List Fragment} (h : Spaced most fragments)
    (hle : least ≤ most) : Spaced least fragments := by
  cases fragments with
  | nil => trivial
  | cons fragment rest => exact ⟨Nat.le_trans hle h.1, h.2⟩

end Fragment

open Fragment

namespace Markup

variable {offset : Nat} {text rest piece : List Char} {found : List Fragment}

/-- What follows a turn is behind the closing tag of what it finds. -/
theorem Turn.spaced (h : Turn offset rest piece found) {others : List Fragment}
    (hothers : Spaced (offset + byteLength piece) others) : Spaced offset (found ++ others) := by
  cases h with
  | prose => exact hothers.mono (Nat.le_add_right _ _)
  | comment => exact hothers.mono (Nat.le_add_right _ _)
  | block hne hfirst hclose =>
      rename_i element opening content closing
      unfold blockFragments
      split
      · have hclosing : 0 < byteLength closing := by
          obtain ⟨letters, blanks, -, -, rfl⟩ := closingTag_of_findClose hclose
          exact byteLength_pos (by simp)
        refine ⟨Nat.le_add_right _ _, hothers.mono ?_⟩
        show offset + byteLength opening + byteLength (String.ofList content).toList + 1 ≤ _
        rw [String.toList_ofList, byteLength_append, byteLength_append]
        omega
      · exact hothers.mono (Nat.le_add_right _ _)

theorem Passes.spaced (h : Passes offset rest text found) : Spaced offset found := by
  induction h with
  | nil => trivial
  | cons hturn hrest ih => exact hturn.spaced ih

end Markup

namespace Fragment

variable {least : Nat} {fragments : List Fragment}

theorem spaced_of_fragments {doc : String} (h : IdlBindings.fragments doc = .ok fragments) :
    Spaced 0 fragments :=
  (Markup.fragmentsFrom_eq_ok_iff.1 h).spaced

/-! ### Texts side by side -/

/-- Fragments of these texts side by side, the first at byte `base`, with one byte between. -/
def sideBySide : Nat → List String → List Fragment
  | _, [] => []
  | base, text :: rest =>
    ⟨.pre, base, ⟨0, 0⟩, text⟩ :: sideBySide (base + byteLength text.toList + 1) rest

/-- `f` takes the bytes of texts that stand side by side from byte `base` on to the fragments. -/
def Carries (f : Nat → Nat) : Nat → List Fragment → Prop
  | _, [] => True
  | base, fragment :: rest =>
    (∀ n ≤ fragment.size, f (base + n) = fragment.offset + n) ∧
      Carries f (base + fragment.size + 1) rest

/-- The place of byte `n` of the texts side by side. What is behind them goes behind byte `least`
and behind the fragments. -/
def spread : Nat → List Fragment → Nat → Nat
  | least, [], n => least + n
  | _, fragment :: rest, n =>
    if n ≤ fragment.size then fragment.offset + n
    else spread (fragment.offset + fragment.size + 1) rest (n - (fragment.size + 1))

theorem le_spread (h : Spaced least fragments) (n : Nat) : least ≤ spread least fragments n := by
  induction fragments generalizing least n with
  | nil => exact Nat.le_add_right _ _
  | cons fragment rest ih =>
      rw [spread]
      split
      · exact Nat.le_add_right_of_le h.1
      · have hrest := ih h.2 (n - (fragment.size + 1))
        have hfirst := h.1
        omega

theorem strictMono_spread (h : Spaced least fragments) : StrictMono (spread least fragments) := by
  induction fragments generalizing least with
  | nil => exact fun n k hlt => Nat.add_lt_add_left hlt least
  | cons fragment rest ih =>
      intro n k hlt
      rw [spread, spread]
      by_cases hn : n ≤ fragment.size
      · rw [if_pos hn]
        split
        · exact Nat.add_lt_add_left hlt _
        · have hrest := le_spread h.2 (k - (fragment.size + 1))
          omega
      · have hk : ¬ k ≤ fragment.size := by omega
        rw [if_neg hn, if_neg hk]
        exact ih h.2 (by omega)

theorem carries_of_spread {f : Nat → Nat} {base : Nat}
    (hf : ∀ n, f (base + n) = spread least fragments n) : Carries f base fragments := by
  induction fragments generalizing base least with
  | nil => trivial
  | cons fragment rest ih =>
      have hrest : ∀ n, f (base + fragment.size + 1 + n)
          = spread (fragment.offset + fragment.size + 1) rest n := by
        intro n
        have hbehind : ¬ fragment.size + 1 + n ≤ fragment.size := by omega
        rw [Nat.add_assoc, Nat.add_assoc, ← Nat.add_assoc fragment.size, hf, spread,
          if_neg hbehind, Nat.add_sub_cancel_left]
      refine ⟨fun n hn => ?_, ih hrest⟩
      rw [hf, spread, if_pos hn]

/-- Texts that are laid side by side can be moved to their places in a document, in order. -/
theorem exists_carries {doc : String} (h : IdlBindings.fragments doc = .ok fragments) :
    ∃ f, StrictMono f ∧ Carries f 0 fragments :=
  ⟨spread 0 fragments, strictMono_spread (spaced_of_fragments h),
    carries_of_spread fun n => congrArg (spread 0 fragments) (Nat.zero_add n)⟩

end Fragment

end IdlBindings
