import IdlBindings.Diagnostic.Snippet

/-!
Ranges that hold whole characters of a text. `Span.Shown` is what the printing of a range needs: the
part that is shown is not empty and begins and ends between characters (`Span.Shown.visible`).
`Span.Row` holds of ranges that come one after the other. A place below byte `2 ^ 32` is stored as
it is (`storedPlace_of_lt`).
-/

namespace IdlBindings

theorem byteLength_pos {text : List Char} (h : text ≠ []) : 0 < byteLength text := by
  obtain ⟨c, text, rfl⟩ := List.exists_cons_of_ne_nil h
  exact Nat.add_pos_left c.utf8Size_pos _

/-- Byte `n` of the text begins a character, or it is the end of the text. -/
def Boundary (text : List Char) (n : Nat) : Prop :=
  ∃ before after, text = before ++ after ∧ byteLength before = n

namespace Boundary

variable {text before after : List Char} {n : Nat}

theorem le_byteLength (h : Boundary text n) : n ≤ byteLength text := by
  obtain ⟨before, after, rfl, rfl⟩ := h
  rw [byteLength_append]
  exact Nat.le_add_right _ _

theorem within (h : Boundary text n) :
    Boundary (before ++ (text ++ after)) (byteLength before + n) := by
  obtain ⟨front, back, rfl, rfl⟩ := h
  exact ⟨before ++ front, back ++ after, by simp, byteLength_append _ _⟩

theorem whole : Boundary text (byteLength text) := ⟨text, [], by simp, rfl⟩

/-- The byte before `after`, behind `before`. -/
theorem of_append (before after : List Char) : Boundary (before ++ after) (byteLength before) :=
  ⟨before, after, rfl, rfl⟩

end Boundary

namespace Span

/-- The range lies in the text and holds whole characters of it. -/
structure In (span : Span) (text : List Char) : Prop where
  le : span.start ≤ span.stop
  start : Boundary text span.start
  stop : Boundary text span.stop

/-- The range holds whole characters, or it is empty and a character of one byte follows. -/
structure Shown (span : Span) (text : List Char) : Prop extends span.In text where
  covers : span.start = span.stop → Boundary text (span.start + 1)

variable {span : Span} {text : List Char}

theorem In.stop_le (h : span.In text) : span.stop ≤ byteLength text := h.stop.le_byteLength

theorem Shown.of_lt (hlt : span.start < span.stop) (hstart : Boundary text span.start)
    (hstop : Boundary text span.stop) : span.Shown text :=
  ⟨⟨Nat.le_of_lt hlt, hstart, hstop⟩, fun heq => absurd heq (Nat.ne_of_lt hlt)⟩

/-- The range that is shown. -/
theorem Shown.visible (h : span.Shown text) : (span.visible (byteLength text)).In text ∧
    (span.visible (byteLength text)).start < (span.visible (byteLength text)).stop := by
  have hstart := Nat.min_eq_left h.start.le_byteLength
  have hstop := Nat.min_eq_left h.stop.le_byteLength
  rw [Span.visible, hstart, hstop]
  by_cases heq : span.start = span.stop
  · have hnext := h.covers heq
    rw [if_pos heq, Nat.min_eq_left hnext.le_byteLength]
    exact ⟨⟨Nat.le_succ _, h.start, hnext⟩, Nat.lt_succ_self _⟩
  · rw [if_neg heq]
    exact ⟨h.toIn, Nat.lt_of_le_of_ne h.le heq⟩

/-- Ranges one after the other, between two bytes, and none is empty. -/
structure Row (start stop : Nat) (spans : List Span) : Prop where
  within : ∀ span ∈ spans, start ≤ span.start ∧ span.start < span.stop ∧ span.stop ≤ stop
  ordered : spans.Pairwise fun former later => former.stop ≤ later.start

namespace Row

variable {start stop : Nat} {spans : List Span}

theorem nil : Row start stop [] := ⟨List.forall_mem_nil _, .nil⟩

theorem single (h : span.start < span.stop) : Row span.start span.stop [span] :=
  ⟨List.forall_mem_singleton.2 ⟨Nat.le_refl _, h, Nat.le_refl _⟩, List.pairwise_singleton ..⟩

theorem nodup (h : Row start stop spans) : spans.Nodup := by
  refine h.ordered.imp_of_mem fun hformer _ hle heq => ?_
  have hlt := (h.within _ hformer).2.1
  rw [← heq] at hle
  omega

/-- Rows one after the other. -/
theorem flatMap {α : Type} {items : List α} {spans : α → List Span} (place : α → Span)
    (hwithin : ∀ item ∈ items, start ≤ (place item).start ∧ (place item).stop ≤ stop)
    (hordered : items.Pairwise fun former later => (place former).stop ≤ (place later).start)
    (h : ∀ item ∈ items, Row (place item).start (place item).stop (spans item)) :
    Row start stop (items.flatMap spans) := by
  constructor
  · intro span hspan
    obtain ⟨item, hitem, hspan⟩ := List.mem_flatMap.1 hspan
    have hplace := hwithin item hitem
    have hrow := (h item hitem).within span hspan
    omega
  · refine List.pairwise_flatMap.2 ⟨fun item hitem => (h item hitem).ordered, ?_⟩
    refine hordered.imp_of_mem fun hformer hlater hle span hspan other hother => ?_
    have hbefore := (h _ hformer).within span hspan
    have hafter := (h _ hlater).within other hother
    omega

end Row

end Span

/-! ### Stored places -/

theorem map_eq_self_of_mem {α : Type} {f : α → α} {items : List α}
    (h : ∀ item ∈ items, f item = item) : items.map f = items := by
  rw [List.map_congr_left h, List.map_id']

theorem storedPlace_eq_mod (base : UInt32) (n : Nat) :
    storedPlace base n = (base.toNat + n) % UInt32.size :=
  calc storedPlace base n = (n % UInt32.size + base.toNat) % UInt32.size := rfl
    _ = (n + base.toNat) % UInt32.size := Nat.mod_add_mod ..
    _ = (base.toNat + n) % UInt32.size := by rw [Nat.add_comm]

/-- Below byte `2 ^ 32` nothing is lost. -/
theorem storedPlace_of_lt {base : UInt32} {n : Nat} (h : base.toNat + n < UInt32.size) :
    storedPlace base n = base.toNat + n := by
  rw [storedPlace_eq_mod, Nat.mod_eq_of_lt h]

theorem Span.move_storedPlace {span : Span} (hle : span.start ≤ span.stop)
    (hlt : span.stop < UInt32.size) : span.move (storedPlace 0) = span := by
  have hplace (n : Nat) (hn : n ≤ span.stop) : storedPlace 0 n = n := by
    have hfits : (0 : UInt32).toNat + n < UInt32.size := by
      rw [UInt32.toNat_zero, Nat.zero_add]
      exact Nat.lt_of_le_of_lt hn hlt
    rw [storedPlace_of_lt hfits, UInt32.toNat_zero, Nat.zero_add]
  rw [Span.move, hplace _ hle, hplace _ (Nat.le_refl _)]

end IdlBindings
