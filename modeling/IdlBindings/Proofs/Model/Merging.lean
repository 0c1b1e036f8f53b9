import IdlBindings.Proofs.Model.Collisions
import Mathlib.Data.List.Induction

/-!
Merging and collisions. Where the last one wins, members that stand apart stay apart, and to merge
the same members once more changes nothing (`Member.merged_again`), so a repeated includes statement
does not matter. Where collisions are errors, the members that come in are those that collide with
nothing there before them, and each of the others is reported (`Member.merge_spec`).
-/

namespace IdlBindings

namespace Member

/-- The incoming members, one after another, that collide with nothing kept before them. -/
def admitted (target incoming : List Member) : List Member :=
  incoming.foldl (fun before m =>
    if (target ++ before).any (·.collides m) then before else before ++ [m]) []

variable {target incoming : List Member} {m : Member}

theorem collides_self (m : Member) : m.collides m = true := by
  simp [collides, MemberKey.collides]

/-! ### The last one wins -/

theorem mem_lasting {before after : List Member} (h : ∀ other ∈ after, m.collides other = false) :
    m ∈ lasting (before ++ m :: after) := by
  induction before with
  | nil =>
      have hany : after.any m.collides = false :=
        List.any_eq_false.2 fun other hother => Bool.eq_false_iff.1 (h other hother)
      rw [List.nil_append, lasting, hany]
      exact List.mem_cons_self
  | cons first before ih =>
      rw [List.cons_append, lasting]
      split
      · exact ih
      · exact List.mem_cons_of_mem _ ih

theorem lasting_of_apart (h : Apart incoming) : lasting incoming = incoming := by
  induction incoming with
  | nil => rfl
  | cons m rest ih =>
      obtain ⟨hm, hrest⟩ := List.pairwise_cons.1 (apart_iff_pairwise.1 h)
      have hany : rest.any m.collides = false :=
        List.any_eq_false.2 fun other hother => Bool.eq_false_iff.1 (hm other hother)
      rw [lasting, hany, ih (apart_iff_pairwise.2 hrest)]
      rfl

/-- Merged members stand apart if those that were there do. -/
theorem apart_merged_replace (target incoming : List Member) (h : Apart target) :
    Apart (merged .replace target incoming) :=
  (apart_merged_iff .replace target incoming (by simp)).2 (h.sublist List.filter_sublist)

/-- A member that is there takes its own place. -/
theorem insert_of_mem (h : Apart target) (hm : m ∈ target) : m.insert target = target := by
  induction target with
  | nil => cases hm
  | cons first rest ih =>
      obtain ⟨hfirst, hrest⟩ := List.pairwise_cons.1 (apart_iff_pairwise.1 h)
      -- The first member that collides with `m` is `m` itself, and it displaces no other.
      rcases List.mem_cons.1 hm with rfl | hmem
      · have hkept : rest.filter (fun other => !other.collides m) = rest := by
          refine List.filter_eq_self.2 fun other hother => ?_
          rw [collides_comm, hfirst other hother]
          rfl
        rw [insert, if_pos (collides_self m), hkept]
      · rw [insert, if_neg (by rw [hfirst m hmem]; decide),
          ih (apart_iff_pairwise.2 hrest) hmem]

theorem merged_of_subset (h : Apart target) (hsub : incoming ⊆ target) :
    merged .replace target incoming = target := by
  induction incoming with
  | nil => rfl
  | cons m rest ih =>
      obtain ⟨hm, hrest⟩ := List.cons_subset.1 hsub
      rw [merged_cons .replace rest (by simp), insert_of_mem h hm, ih hrest]

theorem merged_again (htarget : Apart target) (hincoming : Apart incoming) :
    merged .replace (merged .replace target incoming) incoming
      = merged .replace target incoming := by
  refine merged_of_subset (apart_merged_replace target incoming htarget) fun m hm => ?_
  rw [(merged_replace_perm target incoming).mem_iff, lasting_of_apart hincoming]
  exact List.mem_append_right _ hm

/-! ### Collisions are errors -/

theorem admitted_append_singleton (target before : List Member) (m : Member) :
    admitted target (before ++ [m]) =
      if (target ++ admitted target before).any (·.collides m) then admitted target before
      else admitted target before ++ [m] := by
  rw [admitted, List.foldl_append]
  rfl

theorem merged_reject_singleton (target : List Member) (m : Member) :
    merged .reject target [m] = if target.any (·.collides m) then target else target ++ [m] := by
  cases hfind : target.find? (·.collides m) with
  | some other =>
      have hany : target.any (·.collides m) = true :=
        List.any_eq_true.2
          ⟨other, List.mem_of_find?_eq_some hfind, by simpa using List.find?_some hfind⟩
      rw [merged, merge_cons_of_collides "" [] hfind, if_pos hany]
      rfl
  | none =>
      have hclean := find?_collides_eq_none.1 hfind
      have hany : ¬target.any (·.collides m) = true := by simpa using hclean
      rw [merged_cons .reject [] fun _ => hclean, insert_of_clean hclean, if_neg hany]
      rfl

/-- Members that come in stand behind those that were there. -/
theorem merged_reject_eq (target incoming : List Member) :
    merged .reject target incoming = target ++ admitted target incoming := by
  -- From the back: the last member meets all that were kept before it.
  induction incoming using List.reverseRecOn with
  | nil => exact (List.append_nil target).symm
  | append_singleton before m ih =>
      rw [merged_append, ih, merged_reject_singleton, admitted_append_singleton]
      split
      · rfl
      · rw [List.append_assoc]

/-- One fault for each collision. -/
theorem length_merge_reject_snd (owner : String) (target incoming : List Member) :
    (merge owner .reject target incoming).2.length = collisionCount .reject target incoming := by
  induction incoming generalizing target with
  | nil => rfl
  | cons m rest ih =>
      cases hfind : target.find? (·.collides m) with
      | some other =>
          rw [merge_cons_of_collides owner rest hfind, collisionCount.eq_def]
          dsimp only
          rw [hfind, List.length_cons, ih]
      | none =>
          rw [merge_cons owner .reject rest fun _ => find?_collides_eq_none.1 hfind,
            collisionCount.eq_def]
          dsimp only
          rw [hfind, ih]

/-- A member comes in, or it is reported. -/
theorem length_merge_reject (owner : String) (target incoming : List Member) :
    (merge owner .reject target incoming).1.length + (merge owner .reject target incoming).2.length
      = target.length + incoming.length := by
  induction incoming generalizing target with
  | nil => rfl
  | cons m rest ih =>
      cases hfind : target.find? (·.collides m) with
      | some other =>
          rw [merge_cons_of_collides owner rest hfind, List.length_cons, ← Nat.add_assoc, ih,
            List.length_cons, Nat.add_assoc]
      | none =>
          have hclean := find?_collides_eq_none.1 hfind
          rw [merge_cons owner .reject rest fun _ => hclean, ih, insert_of_clean hclean,
            List.length_append, List.length_singleton, List.length_cons]
          omega

theorem length_admitted (target incoming : List Member) :
    (admitted target incoming).length + collisionCount .reject target incoming
      = incoming.length := by
  have hlength := length_merge_reject "" target incoming
  rw [merge_fst, merged_reject_eq, length_merge_reject_snd, List.length_append] at hlength
  omega

end Member

namespace Linked

variable {policy : Policy} {linked : Linked} {d : Definition}

theorem insertName_again (names : List String) (name : String) :
    insertName (insertName names name) name = insertName names name := by
  unfold insertName
  by_cases h : names.contains name = true
  · rw [if_pos h, if_pos h]
  · rw [if_neg h, if_pos (by simp)]

theorem setMembers_again (d : Definition) (members : List Member) :
    setMembers (setMembers d members) members = setMembers d members := by
  obtain ⟨name, body, extAttrs, span⟩ := d
  cases body <;> rfl

/-- The members of a definition that a step has set, set once more. -/
theorem update_setMembers_again (definitions : List Definition) (name : String)
    (members : List Member) :
    update (update definitions name (setMembers · members)) name (setMembers · members)
      = update definitions name (setMembers · members) := by
  rw [update, update, List.map_map]
  refine List.map_congr_left fun d _ => ?_
  rw [Function.comp_apply]
  by_cases h : (d.name == name) = true
  · rw [if_pos h, setMembers_name, if_pos h, setMembers_again]
  · rw [if_neg h, if_neg h]

theorem named?_update (definitions : List Definition) (name other : String)
    (members : List Member) :
    Definition.named? (update definitions name (setMembers · members)) other
      = (Definition.named? definitions other).map
        fun e => if e.name == name then setMembers e members else e :=
  Definition.named?_map (fun e => by split <;> simp) definitions other

/-- Setting the members of one definition leaves the kinds of names as they are. -/
theorem declaredKind_update (definitions : List Definition) (name other : String)
    (members : List Member) :
    (declared? (update definitions name (setMembers · members)) other).map Prod.snd
      = (declared? definitions other).map Prod.snd := by
  rw [update, declared?_map (fun d => by split <;> simp) (fun d => by split <;> simp),
    Option.map_map]
  rfl

/-- An includes statement without a fault. -/
theorem applyIncludes_of_fits {mixin : String} {target source : Definition}
    (hd : d.body = .includes mixin)
    (hinterface : (declared? linked.definitions d.name).map Prod.snd
      = some (.container .interface))
    (hmixin : (declared? linked.definitions mixin).map Prod.snd = some (.container .mixin))
    (htarget : Definition.named? linked.definitions d.name = some target)
    (hsource : Definition.named? linked.definitions mixin = some source)
    (hlast : policy.collision = .replace) :
    applyIncludes policy linked d =
      { definitions := update linked.definitions d.name
          (setMembers · (Member.merged .replace target.members source.members))
        consumedMixins := insertName linked.consumedMixins mixin
        diagnostics := linked.diagnostics } := by
  have hname : target.name = d.name := by simpa using List.find?_some htarget
  unfold applyIncludes
  rw [hd]
  dsimp only
  rw [containerFault?_eq_none_iff.2 hinterface, containerFault?_eq_none_iff.2 hmixin, htarget,
    hsource]
  simp only [Option.toList_none, List.append_nil, addMembers, hlast, Member.merge_fst,
    Member.merge_replace_snd, hname]

theorem exists_named?_of_declared {definitions : List Definition} {name : String}
    {kind : SymbolKind} (h : (declared? definitions name).map Prod.snd = some kind) :
    ∃ e, Definition.named? definitions name = some e ∧ e.symbolKind? = some kind := by
  obtain ⟨⟨e, found⟩, hdeclared, rfl⟩ := Option.map_eq_some_iff.1 h
  obtain ⟨_, hnamed, hkind⟩ := Option.bind_eq_some_iff.1 hdeclared
  obtain ⟨_, hkind, heq⟩ := Option.map_eq_some_iff.1 hkind
  cases heq
  exact ⟨e, hnamed, hkind⟩

/-- An includes statement without a fault names an interface and a mixin. -/
theorem declared_of_applyIncludes {mixin : String} (hd : d.body = .includes mixin)
    (hfaults : (applyIncludes policy linked d).diagnostics = linked.diagnostics) :
    (declared? linked.definitions d.name).map Prod.snd = some (.container .interface) ∧
      (declared? linked.definitions mixin).map Prod.snd = some (.container .mixin) := by
  have hnone : (containerFault? linked.definitions .interface d.name d.span).toList
      ++ (containerFault? linked.definitions .mixin mixin d.span).toList = [] := by
    unfold applyIncludes at hfaults
    rw [hd] at hfaults
    dsimp only at hfaults
    split at hfaults
    · assumption
    · exact List.append_right_eq_self.1 hfaults
  rw [List.append_eq_nil_iff, Option.toList_eq_nil_iff, Option.toList_eq_nil_iff,
    containerFault?_eq_none_iff, containerFault?_eq_none_iff] at hnone
  exact hnone

/-- An includes statement that is repeated changes nothing. -/
theorem applyIncludes_again (hlast : policy.collision = .replace)
    (hapart : ∀ e ∈ linked.definitions, Member.Apart e.members)
    (hfaults : (applyIncludes policy linked d).diagnostics = linked.diagnostics) :
    applyIncludes policy (applyIncludes policy linked d) d = applyIncludes policy linked d := by
  by_cases hbody : ∃ mixin, d.body = .includes mixin
  · obtain ⟨mixin, hd⟩ := hbody
    obtain ⟨hinterface, hmixin⟩ := declared_of_applyIncludes hd hfaults
    obtain ⟨target, htarget, htargetKind⟩ := exists_named?_of_declared hinterface
    obtain ⟨source, hsource, hsourceKind⟩ := exists_named?_of_declared hmixin
    have hfirst := applyIncludes_of_fits hd hinterface hmixin htarget hsource hlast
    have htargetName : target.name = d.name := by simpa using List.find?_some htarget
    have hsourceName : source.name = mixin := by simpa using List.find?_some hsource
    -- An interface and a mixin have different names, so the mixin stays as it is.
    have hne : source.name ≠ d.name := by
      rintro hsame
      rw [hsourceName] at hsame
      subst hsame
      rw [hinterface] at hmixin
      cases hmixin
    have hcontainer : target.container? ≠ none := by
      obtain ⟨c, hc, -⟩ := Definition.container?_of_symbolKind? htargetKind
      rw [hc]
      exact Option.some_ne_none c
    have htarget' : Definition.named? (applyIncludes policy linked d).definitions d.name
        = some (setMembers target (Member.merged .replace target.members source.members)) := by
      rw [hfirst]
      rw [named?_update, htarget, Option.map_some, htargetName, if_pos (beq_self_eq_true _)]
    have hsource' : Definition.named? (applyIncludes policy linked d).definitions mixin
        = some source := by
      rw [hfirst]
      rw [named?_update, hsource, Option.map_some, if_neg (by simpa using hne)]
    have hkinds (name : String) : (declared? (applyIncludes policy linked d).definitions name).map
        Prod.snd = (declared? linked.definitions name).map Prod.snd := by
      rw [hfirst]
      exact declaredKind_update ..
    have hmerged := Member.merged_again (hapart target (List.mem_of_find?_eq_some htarget))
      (hapart source (List.mem_of_find?_eq_some hsource))
    rw [applyIncludes_of_fits hd ((hkinds _).trans hinterface) ((hkinds _).trans hmixin) htarget'
      hsource' hlast, members_setMembers _ _ hcontainer, hmerged, hfirst]
    dsimp only
    rw [update_setMembers_again, insertName_again]
  · have hsame (linked : Linked) : applyIncludes policy linked d = linked := by
      unfold applyIncludes
      split
      · rename_i mixin hd
        exact absurd ⟨mixin, hd⟩ hbody
      · rfl
    rw [hsame, hsame]

end Linked

namespace Member

/-- Where the last one wins, every incoming member is there that no later one collides with, members
that stand apart stay apart, and neither a second merge of the same members nor a repeated includes
statement changes anything. Where collisions are errors, the members that collide with nothing kept
before them come behind those that were there, and each of the others is reported. -/
theorem merge_spec (owner : String) (target incoming : List Member) :
    (∀ before m after, incoming = before ++ m :: after →
      (∀ other ∈ after, m.collides other = false) →
        m ∈ (merge owner .replace target incoming).1) ∧
    (Apart target → Apart (merge owner .replace target incoming).1) ∧
    (Apart target → Apart incoming →
      (merge owner .replace (merge owner .replace target incoming).1 incoming).1
        = (merge owner .replace target incoming).1) ∧
    (∀ (policy : Policy) (linked : Linked) (d : Definition), policy.collision = .replace →
      (∀ e ∈ linked.definitions, Apart e.members) →
        (Linked.applyIncludes policy linked d).diagnostics = linked.diagnostics →
          Linked.applyIncludes policy (Linked.applyIncludes policy linked d) d
            = Linked.applyIncludes policy linked d) ∧
    (merge owner .reject target incoming).1 = target ++ admitted target incoming ∧
    (merge owner .reject target incoming).2.length = collisionCount .reject target incoming ∧
    (admitted target incoming).length + collisionCount .reject target incoming
      = incoming.length := by
  simp only [merge_fst]
  refine ⟨?_, apart_merged_replace target incoming, merged_again,
    fun _ _ _ => Linked.applyIncludes_again, merged_reject_eq target incoming,
    length_merge_reject_snd owner target incoming, length_admitted target incoming⟩
  rintro before m after rfl hafter
  rw [(merged_replace_perm target (before ++ m :: after)).mem_iff]
  exact List.mem_append_right _ (mem_lasting hafter)

/-- An interface with these members, and a mixin with the incoming ones. -/
def interfaceAndMixin (members incoming : List Member) : Linked :=
  ⟨[⟨"A", .container ⟨.interface, false, none, members⟩, [], ⟨0, 1⟩⟩,
    ⟨"M", .container ⟨.mixin, false, none, incoming⟩, [], ⟨1, 2⟩⟩], [], []⟩

/-- An attribute takes the place of the first of two overloads, and the other goes; the interface
includes it once or twice. -/
theorem merge_spec_overloads : ∃ f g f' a : Member,
    (f.text = "any f();" ∧ g.text = "attribute any g;" ∧ f'.text = "any f(any i);"
      ∧ a.text = "attribute any f;") ∧
    (merge "A" .replace [f, g, f'] [a]).1 = [a, g] ∧ a ∈ (merge "A" .replace [f, g, f'] [a]).1 ∧
    Apart (merge "A" .replace [f, g, f'] [a]).1 ∧
    (merge "A" .replace (merge "A" .replace [f, g, f'] [a]).1 [a]).1
      = (merge "A" .replace [f, g, f'] [a]).1 ∧
    Linked.applyIncludes .default (Linked.applyIncludes .default
        (interfaceAndMixin [f, g, f'] [a]) ⟨"A", .includes "M", [], ⟨2, 3⟩⟩)
        ⟨"A", .includes "M", [], ⟨2, 3⟩⟩
      = Linked.applyIncludes .default
        (interfaceAndMixin [f, g, f'] [a]) ⟨"A", .includes "M", [], ⟨2, 3⟩⟩ := by
  have htarget : Apart [⟨.operation ⟨some "f", .any, [], false, none⟩, [], ⟨0, 1⟩⟩,
      ⟨.attribute ⟨"g", .any, false, false, false, false⟩, [], ⟨1, 2⟩⟩,
      ⟨.operation ⟨some "f", .any, [⟨"i", .any, false, false, none, []⟩], false, none⟩, [],
        ⟨2, 3⟩⟩] := apart_iff_pairwise.2 (by decide)
  have hincoming : Apart [⟨.attribute ⟨"f", .any, false, false, false, false⟩, [], ⟨3, 4⟩⟩] :=
    apart_iff_pairwise.2 (List.pairwise_singleton _ _)
  have hagain := (merge_spec "A" _ _).2.2.1 htarget hincoming
  refine ⟨_, _, _, _, by decide, rfl, ?_, (merge_spec "A" _ _).2.1 htarget, hagain, ?_⟩
  · exact (merge_spec "A" _ _).1 [] _ [] rfl (List.forall_mem_nil _)
  · refine (merge_spec "A" [] []).2.2.2.1 _ _ _ rfl ?_ rfl
    rw [interfaceAndMixin, List.forall_mem_cons, List.forall_mem_singleton]
    exact ⟨htarget, hincoming⟩

end Member

end IdlBindings
