import IdlBindings.Pipeline
import IdlBindings.Proofs.Model.Content

/-!
Members that stand side by side in a linked container. Merging puts a member in only where it
collides with none, so two members of a container collide only if they stand together in the body of
its declaration and nothing that comes in displaces one of them (`Model.apart_of_link_iff`). The
body itself is taken as it is.
-/

namespace IdlBindings

namespace MemberKey

theorem collides_comm (a b : MemberKey) : a.collides b = b.collides a := by
  have hslots : (a.slot?.isSome && a.slot? == b.slot?) = (b.slot?.isSome && b.slot? == a.slot?) := by
    by_cases h : a.slot? = b.slot?
    · rw [h]
    · rw [beq_eq_false_iff_ne.2 h, beq_eq_false_iff_ne.2 (Ne.symm h), Bool.and_false, Bool.and_false]
  rw [collides, collides, hslots, Bool.beq_comm, Bool.and_comm a.isOperation]

end MemberKey

namespace Member

theorem collides_comm (a b : Member) : a.collides b = b.collides a :=
  MemberKey.collides_comm a.key b.key

/-- The members at two different places never collide. -/
def Apart (members : List Member) : Prop :=
  ∀ (i j : Nat) (hi : i < members.length) (hj : j < members.length), i ≠ j →
    members[i].collides members[j] = false

variable {target incoming members others : List Member} {m : Member}

theorem apart_iff_pairwise :
    Apart members ↔ members.Pairwise fun a b => a.collides b = false := by
  rw [List.pairwise_iff_getElem]
  constructor
  · intro h i j hi hj hlt
    exact h i j hi hj (Nat.ne_of_lt hlt)
  · intro h i j hi hj hne
    rcases Nat.lt_or_gt_of_ne hne with hlt | hgt
    · exact h i j hi hj hlt
    · rw [collides_comm]
      exact h j i hj hi hgt

theorem apart_append : Apart (members ++ others) ↔
    Apart members ∧ Apart others ∧ ∀ a ∈ members, ∀ b ∈ others, a.collides b = false := by
  rw [apart_iff_pairwise, apart_iff_pairwise, apart_iff_pairwise, List.pairwise_append]

theorem Apart.sublist (h : Apart members) (hsub : others.Sublist members) : Apart others :=
  apart_iff_pairwise.2 ((apart_iff_pairwise.1 h).sublist hsub)

/-- The order of members does not matter. -/
theorem apart_of_perm (h : members.Perm others) : Apart members ↔ Apart others := by
  rw [apart_iff_pairwise, apart_iff_pairwise]
  apply h.pairwise_iff
  intro a b hab
  rw [collides_comm]
  exact hab

theorem collides_of_mem_kept {a b : Member} (ha : a ∈ kept incoming members) (hb : b ∈ incoming) :
    a.collides b = false := by
  have hnone := (List.mem_filter.1 ha).2
  rw [Bool.not_eq_true', List.any_eq_false] at hnone
  exact Bool.eq_false_iff.2 (hnone b hb)

/-- An inserted member stands beside members that it does not collide with. -/
theorem apart_kept_insert (incoming target : List Member) (m : Member) :
    Apart (kept incoming (m.insert target)) ↔ Apart (kept (m :: incoming) target) := by
  have hperm : (kept incoming (m.insert target)).Perm
      (kept incoming (kept [m] target) ++ kept incoming [m]) := by
    have hfilter := (insert_perm m target).filter fun other => !incoming.any other.collides
    rw [List.filter_append] at hfilter
    exact hfilter
  have hone : Apart (kept incoming [m]) := by
    have hsingle : Apart [m] := apart_iff_pairwise.2 (List.pairwise_singleton _ m)
    exact hsingle.sublist List.filter_sublist
  have hcross : ∀ a ∈ kept incoming (kept [m] target), ∀ b ∈ kept incoming [m],
      a.collides b = false := by
    intro a ha b hb
    exact collides_of_mem_kept (List.mem_filter.1 ha).1 (List.mem_filter.1 hb).1
  rw [apart_of_perm hperm, apart_append, kept_cons m incoming target]
  exact ⟨fun h => h.1, fun h => ⟨h, hone, hcross⟩⟩

/-- Merged members collide only where two members collide that were there before and stay. -/
theorem apart_merged_iff (collision : Collision) (target incoming : List Member)
    (hclean : collision = .reject → Clean target incoming) :
    Apart (merged collision target incoming) ↔ Apart (kept incoming target) := by
  induction incoming generalizing target with
  | nil =>
      have hkept : kept [] target = target := by simp [kept]
      rw [merged_nil, hkept]
  | cons m rest ih =>
      have hgoes : collision = .reject → ∀ other ∈ target, other.collides m = false :=
        fun hreject => (clean_cons.1 (hclean hreject)).1
      have hrest : collision = .reject → Clean (m.insert target) rest := by
        intro hreject
        rw [insert_of_clean (hgoes hreject)]
        exact (clean_cons.1 (hclean hreject)).2
      rw [merged_cons collision rest hgoes, ih (m.insert target) hrest, apart_kept_insert]

end Member

open Definition Linked

variable {policy : Policy} {definitions : List Definition} {model : Model}

/-- Two members of a linked definition collide exactly when two members of the body of its
declaration do that nothing displaces. So no members collide when they do in no body. -/
theorem Model.apart_of_link_iff (h : Model.link policy definitions = .ok model) :
    (∀ d ∈ model.definitions, ∃ base ∈ declarations definitions, base.name = d.name ∧
      (Member.Apart d.members ↔
        Member.Apart (Member.kept (incomingMembers policy definitions base.name) base.members))) ∧
    ((∀ base ∈ declarations definitions, Member.Apart base.members) →
      ∀ d ∈ model.definitions, Member.Apart d.members) := by
  obtain ⟨hwell, hfolded, -⟩ := wellFormed_of_link h
  have hiff : ∀ d ∈ model.definitions, ∃ base ∈ declarations definitions, base.name = d.name ∧
      (Member.Apart d.members ↔
        Member.Apart (Member.kept (incomingMembers policy definitions base.name) base.members)) := by
    intro d hd
    rw [hfolded, folded_eq_map] at hd
    obtain ⟨base, hbase, rfl⟩ := List.mem_map.1 hd
    refine ⟨base, hbase, (content_foldedOne hwell.fit hbase).name.symm, ?_⟩
    rw [members_foldedOne hwell.fit hbase]
    exact Member.apart_merged_iff _ _ _ fun hreject => hwell.fit.clean hreject hbase
  refine ⟨hiff, fun hbodies d hd => ?_⟩
  obtain ⟨base, hbase, -, hbase_iff⟩ := hiff d hd
  exact hbase_iff.2 ((hbodies base hbase).sublist List.filter_sublist)

/-- Two members of the body collide, and the member that displaces them collides with none of the
two that are left. -/
theorem Model.apart_of_link_iff_displacedTwins : ∃ model,
    Model.link .default displacedTwins = .ok model ∧
    (∃ base ∈ declarations displacedTwins, ¬Member.Apart base.members) ∧
    ∀ d ∈ model.definitions, d.members.length = 3 ∧ Member.Apart d.members := by
  have hlink : Model.link .default displacedTwins = .ok _ := rfl
  refine ⟨_, hlink, ⟨_, List.mem_singleton_self _, ?_⟩, fun d hd => ?_⟩
  · rw [Member.apart_iff_pairwise]
    decide
  obtain ⟨base, hbase, -, hiff⟩ := (Model.apart_of_link_iff hlink).1 d hd
  obtain rfl := List.mem_singleton.1 hbase
  obtain rfl := List.mem_singleton.1 hd
  refine ⟨rfl, hiff.2 ?_⟩
  rw [Member.apart_iff_pairwise]
  decide

/-- A definition with two iterations has members that collide. -/
theorem Definition.not_apart_of_keys {d : Definition}
    (h : d.members.map Member.key = [.iteration, .iteration]) : ¬ Member.Apart d.members := by
  intro hapart
  have hkeys : (d.members.map Member.key).Pairwise fun a b => a.collides b = false :=
    List.pairwise_map.2 (Member.apart_iff_pairwise.1 hapart)
  rw [h] at hkeys
  exact absurd ((List.pairwise_cons.1 hkeys).1 .iteration List.mem_cons_self) (by decide)

/-- A document whose one body has two iterations. -/
def twoIterations : String :=
  "<pre class=idl>interface A \x7b iterable<any>; iterable<any>; \x7d;</pre>"

/-- The body goes into the model as it is, also where collisions are errors. -/
theorem Pipeline.model_twoIterations :
    (∃ m, Pipeline.model .default twoIterations = .ok m ∧
      ∃ d ∈ m.definitions, ¬ Member.Apart d.members) ∧
    ∃ m, Pipeline.model (Policy.default.withCollision .reject) twoIterations = .ok m ∧
      ∃ d ∈ m.definitions, ¬ Member.Apart d.members := by
  have hfound {policy : Policy} {doc : String}
      (h : (Pipeline.model policy doc).toOption.map
        (fun m => m.definitions.map fun d => d.members.map Member.key)
          = some [[.iteration, .iteration]]) :
      ∃ m, Pipeline.model policy doc = .ok m ∧ ∃ d ∈ m.definitions, ¬ Member.Apart d.members := by
    cases hmodel : Pipeline.model policy doc with
    | error failure =>
        rw [hmodel] at h
        cases h
    | ok m =>
        rw [hmodel] at h
        obtain ⟨d, hdefinitions, hkeys⟩ := List.map_eq_singleton_iff.1 (Option.some.inj h)
        refine ⟨m, rfl, d, ?_, Definition.not_apart_of_keys hkeys⟩
        rw [hdefinitions]
        exact List.mem_singleton_self d
  exact ⟨hfound (by decide +kernel), hfound (by decide +kernel)⟩

end IdlBindings
