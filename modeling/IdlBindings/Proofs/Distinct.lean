import Mathlib.Data.List.Nodup

/-! Lists without duplicates: of equal items the first one stays. -/

namespace IdlBindings

variable {α : Type} [BEq α] [LawfulBEq α]

theorem eraseDups_cons_of_notMem {first : α} {rest : List α} (h : first ∉ rest) :
    (first :: rest).eraseDups = first :: rest.eraseDups := by
  have hkept : rest.filter (fun other => !other == first) = rest :=
    List.filter_eq_self.2 fun other hother => by simpa using ne_of_mem_of_not_mem hother h
  rw [List.eraseDups_cons, hkept]

theorem eraseDups_map {β : Type} [BEq β] [LawfulBEq β] {f : α → β}
    (hf : Function.Injective f) (items : List α) :
    (items.map f).eraseDups = items.eraseDups.map f := by
  induction hlength : items.length using Nat.strongRecOn generalizing items with
  | ind length ih =>
      cases items with
      | nil => rfl
      | cons first rest =>
          have hkept : (rest.map f).filter (fun other => !other == f first)
              = (rest.filter fun other => !other == first).map f := by
            rw [List.filter_map]
            refine congrArg _ (List.filter_congr fun other _ => ?_)
            rw [Function.comp_apply, Bool.eq_iff_iff]
            simp [hf.eq_iff]
          have hshort := ih (rest.filter fun other => !other == first).length
            (hlength ▸ Nat.lt_succ_of_le (List.length_filter_le _ _)) _ rfl
          calc ((first :: rest).map f).eraseDups
              = f first :: ((rest.map f).filter fun other => !other == f first).eraseDups :=
                List.eraseDups_cons
            _ = f first :: ((rest.filter fun other => !other == first).map f).eraseDups := by
                rw [hkept]
            _ = f first :: (rest.filter fun other => !other == first).eraseDups.map f := by
                rw [hshort]
            _ = (first :: rest).eraseDups.map f := by rw [List.eraseDups_cons, List.map_cons]

theorem filter_eraseDups (keep : α → Bool) (items : List α) :
    items.eraseDups.filter keep = (items.filter keep).eraseDups := by
  induction hlength : items.length using Nat.strongRecOn generalizing items with
  | ind length ih =>
      cases items with
      | nil => rfl
      | cons first rest =>
          have hshort := ih (rest.filter fun other => !other == first).length
            (hlength ▸ Nat.lt_succ_of_le (List.length_filter_le _ _)) _ rfl
          rw [List.eraseDups_cons, List.filter_cons, List.filter_cons, hshort]
          by_cases hkeep : keep first = true
          · rw [if_pos hkeep, if_pos hkeep, List.eraseDups_cons, List.filter_filter,
              List.filter_filter]
            simp only [Bool.and_comm]
          · rw [if_neg hkeep, if_neg hkeep, List.filter_filter]
            -- what equals the first item is not kept anyway
            refine congrArg _ (List.filter_congr fun other _ => ?_)
            by_cases hother : other = first
            · simp [hother, hkeep]
            · simp [hother]

theorem nodup_eraseDups (items : List α) : items.eraseDups.Nodup := by
  induction hlength : items.length using Nat.strongRecOn generalizing items with
  | ind length ih =>
      cases items with
      | nil => exact List.nodup_nil
      | cons first rest =>
          rw [List.eraseDups_cons, List.nodup_cons]
          refine ⟨by simp, ih _ ?_ _ rfl⟩
          exact hlength ▸ Nat.lt_succ_of_le (List.length_filter_le _ _)

theorem eraseDups_of_nodup {items : List α} (h : items.Nodup) : items.eraseDups = items := by
  induction items with
  | nil => rfl
  | cons first rest ih =>
      obtain ⟨hfirst, hrest⟩ := List.nodup_cons.1 h
      rw [eraseDups_cons_of_notMem hfirst, ih hrest]

/-- Duplicates may be left out of the parts first. -/
theorem eraseDups_flatMap_eraseDups (parts : List (List α)) :
    (parts.flatMap List.eraseDups).eraseDups = parts.flatten.eraseDups := by
  induction parts with
  | nil => rfl
  | cons part rest ih =>
      rw [List.flatMap_cons, List.flatten_cons, List.eraseDups_append, List.eraseDups_append,
        eraseDups_of_nodup (nodup_eraseDups part)]
      simp only [List.removeAll, ← filter_eraseDups, ih]
      refine congrArg _ (List.filter_congr fun other _ => ?_)
      simp

end IdlBindings
