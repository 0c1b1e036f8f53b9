import IdlBindings.Model.Merge

/-!
What merging leaves of two lists of members. When members replace others, each one stays that no
later one collides with (`merged_replace_perm`); when collisions are errors, a merge without one puts
the lists together (`merge_reject`).
-/

namespace IdlBindings.Member

/-- The members that none of `incoming` displaces. -/
def kept (incoming members : List Member) : List Member :=
  members.filter fun m => !incoming.any m.collides

/-- The members that none behind them displaces. -/
def lasting : List Member → List Member
  | [] => []
  | m :: rest => if rest.any m.collides then lasting rest else m :: lasting rest

/-- No incoming member collides with one that is there before it. -/
def Clean (target incoming : List Member) : Prop :=
  ∀ before m after, incoming = before ++ m :: after →
    ∀ other ∈ target ++ before, other.collides m = false

/-- The members that merging gives, whoever owns them. -/
def merged (collision : Collision) (target incoming : List Member) : List Member :=
  (merge "" collision target incoming).1

variable {target incoming : List Member} {m : Member}

/-! ### Clean lists -/

theorem clean_nil : Clean target [] := by
  intro before m after h
  cases before <;> cases h

theorem clean_cons :
    Clean target (m :: incoming) ↔
      (∀ other ∈ target, other.collides m = false) ∧ Clean (target ++ [m]) incoming := by
  constructor
  · intro h
    constructor
    · intro other hother
      exact h [] m incoming rfl other (by simpa using hother)
    · intro before next after heq other hother
      apply h (m :: before) next after (by rw [heq]; rfl) other
      simpa using hother
  · rintro ⟨hfirst, hrest⟩ before next after heq other hother
    cases before with
    | nil =>
        obtain ⟨rfl, rfl⟩ := List.cons.inj heq
        exact hfirst other (by simpa using hother)
    | cons first before =>
        obtain ⟨rfl, rfl⟩ := List.cons.inj heq
        exact hrest before next after rfl other (by simpa using hother)

theorem clean_append {more : List Member} :
    Clean target (incoming ++ more) ↔ Clean target incoming ∧ Clean (target ++ incoming) more := by
  induction incoming generalizing target with
  | nil => simp [clean_nil]
  | cons m rest ih =>
      rw [List.cons_append, clean_cons, clean_cons, ih, and_assoc, List.append_assoc]
      rfl

/-! ### One member -/

theorem insert_of_clean (h : ∀ other ∈ target, other.collides m = false) :
    m.insert target = target ++ [m] := by
  induction target with
  | nil => rfl
  | cons first rest ih =>
      have hfirst : first.collides m = false := h first List.mem_cons_self
      rw [insert, if_neg (by rw [hfirst]; decide), ih fun other hother =>
        h other (List.mem_cons_of_mem first hother), List.cons_append]

/-- What an inserted member displaces is gone, and the rest stays. -/
theorem insert_perm (m : Member) (target : List Member) :
    (m.insert target).Perm (kept [m] target ++ [m]) := by
  induction target with
  | nil => exact .refl _
  | cons first rest ih =>
      rw [insert]
      cases hcollides : first.collides m with
      | true =>
          have hkept : kept [m] (first :: rest) = rest.filter fun other => !other.collides m := by
            simp [kept, hcollides]
          rw [if_pos rfl, hkept]
          exact (List.perm_append_singleton _ _).symm
      | false =>
          have hkept : kept [m] (first :: rest) = first :: kept [m] rest := by
            simp [kept, hcollides]
          rw [if_neg (by decide), hkept, List.cons_append]
          exact ih.cons first

theorem kept_sublist_insert (m : Member) (target : List Member) :
    (kept [m] target).Sublist (m.insert target) := by
  induction target with
  | nil => exact List.nil_sublist _
  | cons first rest ih =>
      rw [insert]
      cases hcollides : first.collides m with
      | true =>
          have hkept : kept [m] (first :: rest) = rest.filter fun other => !other.collides m := by
            simp [kept, hcollides]
          rw [if_pos rfl, hkept]
          exact List.sublist_cons_self _ _
      | false =>
          have hkept : kept [m] (first :: rest) = first :: kept [m] rest := by
            simp [kept, hcollides]
          rw [if_neg (by decide), hkept]
          exact ih.cons_cons first

theorem mem_insert {other : Member} (h : other ∈ m.insert target) : other ∈ target ∨ other = m := by
  rcases List.mem_append.1 ((insert_perm m target).mem_iff.1 h) with hkept | hnew
  · exact .inl (List.mem_filter.1 hkept).1
  · exact .inr (List.mem_singleton.1 hnew)

theorem kept_cons (m : Member) (incoming members : List Member) :
    kept (m :: incoming) members = kept incoming (kept [m] members) := by
  rw [kept, kept, kept, List.filter_filter]
  apply List.filter_congr
  intro other _
  simp [Bool.and_comm]

/-! ### All members -/

theorem find?_collides_eq_none :
    (target.find? (·.collides m)) = none ↔ ∀ other ∈ target, other.collides m = false := by
  simp [List.find?_eq_none]

/-- A member that goes in. -/
theorem merge_cons (owner : String) (collision : Collision) (incoming : List Member)
    (h : collision = .reject → ∀ other ∈ target, other.collides m = false) :
    merge owner collision target (m :: incoming)
      = merge owner collision (m.insert target) incoming := by
  cases collision with
  | replace => rfl
  | reject =>
      rw [merge.eq_def]
      dsimp only
      rw [find?_collides_eq_none.2 (h rfl)]

/-- The fault of a member that does not go in. -/
def collisionFault (owner : String) (m other : Member) : Diagnostic :=
  (Diagnostic.report .duplicateMember m.span (owner ++ "." ++ m.label)).withRelated
    "previously declared here" other.span

theorem merge_cons_of_collides (owner : String) {other : Member} (incoming : List Member)
    (h : target.find? (·.collides m) = some other) :
    merge owner .reject target (m :: incoming) = ((merge owner .reject target incoming).1,
      collisionFault owner m other :: (merge owner .reject target incoming).2) := by
  rw [merge.eq_def]
  dsimp only
  rw [h]
  rfl

/-- A member goes in, or it collides and that is a fault. -/
theorem goes_in_or_collides (collision : Collision) (target : List Member) (m : Member) :
    (collision = .reject → ∀ other ∈ target, other.collides m = false) ∨
      (collision = .reject ∧ ∃ other, target.find? (·.collides m) = some other) := by
  cases collision with
  | replace => exact .inl (by simp)
  | reject =>
      cases hfind : target.find? (·.collides m) with
      | none => exact .inl fun _ => find?_collides_eq_none.1 hfind
      | some other => exact .inr ⟨rfl, other, rfl⟩

theorem merge_append (owner : String) (collision : Collision) (target incoming more : List Member) :
    merge owner collision target (incoming ++ more) =
      ((merge owner collision (merge owner collision target incoming).1 more).1,
        (merge owner collision target incoming).2
          ++ (merge owner collision (merge owner collision target incoming).1 more).2) := by
  induction incoming generalizing target with
  | nil => rfl
  | cons m rest ih =>
      rw [List.cons_append]
      rcases goes_in_or_collides collision target m with hclean | ⟨rfl, other, hfind⟩
      · rw [merge_cons owner collision _ hclean, merge_cons owner collision _ hclean]
        exact ih _
      · rw [merge_cons_of_collides owner _ hfind, merge_cons_of_collides owner _ hfind, ih]
        rfl

/-- The owner matters to the messages only. -/
theorem merge_fst (owner : String) (collision : Collision) (target incoming : List Member) :
    (merge owner collision target incoming).1 = merged collision target incoming := by
  rw [merged]
  induction incoming generalizing target with
  | nil => rfl
  | cons m rest ih =>
      rcases goes_in_or_collides collision target m with hclean | ⟨rfl, other, hfind⟩
      · rw [merge_cons owner collision _ hclean, merge_cons "" collision _ hclean]
        exact ih _
      · rw [merge_cons_of_collides owner _ hfind, merge_cons_of_collides "" _ hfind]
        exact ih _

theorem merged_nil (collision : Collision) (target : List Member) :
    merged collision target [] = target :=
  rfl

theorem merged_append (collision : Collision) (target incoming more : List Member) :
    merged collision target (incoming ++ more)
      = merged collision (merged collision target incoming) more := by
  rw [merged, merge_append]
  rfl

theorem merged_cons (collision : Collision) (incoming : List Member)
    (h : collision = .reject → ∀ other ∈ target, other.collides m = false) :
    merged collision target (m :: incoming) = merged collision (m.insert target) incoming := by
  rw [merged, merge_cons "" collision incoming h, merged]

/-- Merging invents no members. -/
theorem mem_merged {collision : Collision} {other : Member}
    (h : other ∈ merged collision target incoming) : other ∈ target ∨ other ∈ incoming := by
  induction incoming generalizing target with
  | nil => exact .inl h
  | cons m rest ih =>
      rcases goes_in_or_collides collision target m with hclean | ⟨rfl, _, hfind⟩
      · rw [merged_cons collision rest hclean] at h
        rcases ih h with hinsert | hrest
        · rcases mem_insert hinsert with htarget | rfl
          · exact .inl htarget
          · exact .inr List.mem_cons_self
        · exact .inr (List.mem_cons_of_mem m hrest)
      · rw [merged, merge_cons_of_collides "" rest hfind] at h
        exact (ih h).imp_right (List.mem_cons_of_mem m)

/-! ### The last one wins -/

/-- No faults are found. -/
theorem merge_replace_snd (owner : String) (target incoming : List Member) :
    (merge owner .replace target incoming).2 = [] := by
  induction incoming generalizing target with
  | nil => rfl
  | cons m rest ih =>
      rw [merge_cons owner .replace rest (by simp)]
      exact ih _

/-- The members are those that no later incoming member collides with. -/
theorem merged_replace_perm (target incoming : List Member) :
    (merged .replace target incoming).Perm (kept incoming target ++ lasting incoming) := by
  induction incoming generalizing target with
  | nil =>
      have hkept : kept [] target = target := by simp [kept]
      rw [merged_nil, lasting, hkept, List.append_nil]
  | cons m rest ih =>
      rw [merged_cons .replace rest (by simp), kept_cons]
      have hinsert : (kept rest (m.insert target)).Perm (kept rest (kept [m] target ++ [m])) :=
        (insert_perm m target).filter _
      have hlast : kept rest [m] ++ lasting rest = lasting (m :: rest) := by
        rw [lasting]
        cases hany : rest.any m.collides <;> simp [kept, hany]
      have hall : kept rest (kept [m] target ++ [m]) ++ lasting rest
          = kept rest (kept [m] target) ++ lasting (m :: rest) := by
        rw [← hlast, ← List.append_assoc]
        exact congrArg (· ++ lasting rest) (List.filter_append ..)
      rw [← hall]
      exact (ih _).trans (hinsert.append_right _)

/-- The members that were there and stay keep their order. -/
theorem kept_sublist_merged (target incoming : List Member) :
    (kept incoming target).Sublist (merged .replace target incoming) := by
  induction incoming generalizing target with
  | nil => exact List.filter_sublist
  | cons m rest ih =>
      rw [merged_cons .replace rest (by simp), kept_cons]
      exact ((kept_sublist_insert m target).filter _).trans (ih _)

/-! ### Collisions are errors -/

/-- A merge without faults is a clean one. -/
theorem merge_reject_snd (owner : String) (target incoming : List Member) :
    (merge owner .reject target incoming).2 = [] ↔ Clean target incoming := by
  induction incoming generalizing target with
  | nil => exact iff_of_true rfl clean_nil
  | cons m rest ih =>
      rw [clean_cons]
      cases hfind : target.find? (·.collides m) with
      | some other =>
          have hnone : ¬ ∀ other ∈ target, other.collides m = false := by
            rw [← find?_collides_eq_none, hfind]
            simp
          rw [merge_cons_of_collides owner rest hfind]
          exact iff_of_false (List.cons_ne_nil _ _) fun h => hnone h.1
      | none =>
          have hclean := find?_collides_eq_none.1 hfind
          rw [merge_cons owner .reject rest fun _ => hclean, ← insert_of_clean hclean,
            and_iff_right hclean]
          exact ih _

/-- Where nothing collides, it does not matter what is done about it. -/
theorem merged_of_clean (collision : Collision) (h : Clean target incoming) :
    merged collision target incoming = target ++ incoming := by
  induction incoming generalizing target with
  | nil => rw [merged_nil, List.append_nil]
  | cons m rest ih =>
      obtain ⟨hclean, hrest⟩ := clean_cons.1 h
      rw [merged_cons collision rest fun _ => hclean, insert_of_clean hclean, ih hrest,
        List.append_assoc]
      rfl

theorem merged_reject (h : Clean target incoming) :
    merged .reject target incoming = target ++ incoming :=
  merged_of_clean .reject h

/-- When merging finds no fault. -/
theorem merge_snd_eq_nil (owner : String) (collision : Collision) (target incoming : List Member) :
    (merge owner collision target incoming).2 = [] ↔
      (collision = .reject → Clean target incoming) := by
  cases collision with
  | replace => exact iff_of_true (merge_replace_snd ..) (by simp)
  | reject =>
      rw [merge_reject_snd]
      exact ⟨fun h _ => h, fun h => h rfl⟩

end IdlBindings.Member
