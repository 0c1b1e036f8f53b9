import IdlBindings.Proofs.Model.Dependencies
import Mathlib.Data.List.Sort

/-!
How far the order of declarations keeps the order of the document. A visit puts nothing in order but
its definition and what that leads to (`Model.mem_order_visit`), and what is in order keeps its
place. So a name that overtakes an earlier one is led to from that one or from a definition before
it, and where no reference points forward the two orders agree (`Model.documentOrder_of_link`).
-/

namespace IdlBindings

open Definition Relation

namespace Model

variable {model : Model} {depth : Nat} {state : Visit} {d : Definition} {name : String}

/-- The declaration of `name` stands before that of `other` in the document. -/
def Precedes (model : Model) (name other : String) : Prop :=
  model.names.idxOf name < model.names.idxOf other

instance : Std.Irrefl model.Precedes := ⟨fun _ => Nat.lt_irrefl _⟩

instance : Std.Antisymm model.Precedes := ⟨fun _ _ h h' => absurd h' (Nat.lt_asymm h)⟩

/-- The definition refers to nothing that is declared behind it: each name is its own, that of a
mixin, one that the model does not have, or one that is declared before. -/
def RefersBack (model : Model) (d : Definition) : Prop :=
  ∀ name, d.RefersTo name →
    name = d.name ∨ (∃ m ∈ model.definitions, m.name = name ∧ m.isMixin = true) ∨
      name ∉ model.names ∨ model.Precedes name d.name

/-! ### What a visit puts in order -/

/-- What is in order keeps its place. -/
theorem order_prefix_visit : state.order <+: (visit model depth state d).order := by
  induction depth generalizing state d with
  | zero => exact List.prefix_rfl
  | succ depth ih =>
      have hall : state.order <+: (visitAll model depth d.dependencies (state.enter d)).order :=
        visitAll_induction (P := fun later => state.order <+: later.order) _
          (fun _ hprefix _ _ _ => hprefix.trans ih) List.prefix_rfl
      rcases visit_cases model depth state d with ⟨-, heq⟩ | ⟨-, heq⟩ | heq
      · exact heq.symm ▸ List.prefix_rfl
      · exact heq.symm ▸ List.prefix_rfl
      · rw [heq]
        exact hall.trans (List.prefix_append _ _)

theorem order_prefix_foldl (items : List Definition) :
    state.order <+: (items.foldl (visit model depth) state).order := by
  induction items generalizing state with
  | nil => exact List.prefix_rfl
  | cons d rest ih => exact order_prefix_visit.trans ih

/-- What many visits put in order, one of them does. -/
theorem mem_order_visitAll {names : List String}
    (hvisit : ∀ state, ∀ e ∈ model.definitions, name ∈ (visit model depth state e).order →
      name ∈ state.order ∨ (e.isMixin = false ∧ ReflTransGen model.Leads e.name name))
    (hname : name ∈ (visitAll model depth names state).order) :
    name ∈ state.order ∨ ∃ e ∈ model.definitions, e.name ∈ names ∧ e.isMixin = false ∧
      ReflTransGen model.Leads e.name name := by
  refine visitAll_induction (P := fun later => name ∈ later.order → name ∈ state.order ∨
    ∃ e ∈ model.definitions, e.name ∈ names ∧ e.isMixin = false ∧
      ReflTransGen model.Leads e.name name) names ?_ Or.inl hname
  intro later hlater e he hmem hvisited
  rcases hvisit later e he hvisited with hbefore | ⟨hmixin, hleads⟩
  · exact hlater hbefore
  · exact .inr ⟨e, he, hmem, hmixin, hleads⟩

/-- A visit puts its definition in order and what that leads to, and nothing else. -/
theorem mem_order_visit (hd : d ∈ model.definitions)
    (hname : name ∈ (visit model depth state d).order) :
    name ∈ state.order ∨ (d.isMixin = false ∧ ReflTransGen model.Leads d.name name) := by
  induction depth generalizing state d with
  | zero => exact .inl hname
  | succ depth ih =>
      by_cases hmet : state.visited.contains d.name = true
      · rw [visit, if_pos hmet] at hname
        exact .inl hname
      cases hmixin : d.isMixin with
      | true =>
          rw [visit, if_neg hmet, if_pos hmixin] at hname
          exact .inl hname
      | false =>
          rw [visit, if_neg hmet, if_neg (by simp [hmixin])] at hname
          rcases List.mem_append.1 hname with hneeded | hself
          · change name ∈ (visitAll model depth d.dependencies (state.enter d)).order at hneeded
            rcases mem_order_visitAll (fun _ _ he => ih he) hneeded with
              hbefore | ⟨e, he, hmem, hnot, hleads⟩
            · exact .inl hbefore
            · have hstep : model.Leads d.name e.name :=
                ⟨⟨d, hd, rfl, hmixin, mem_dependencies.1 hmem⟩, e, he, rfl, hnot⟩
              exact .inr ⟨rfl, hleads.head hstep⟩
          · rw [List.mem_singleton.1 hself]
            exact .inr ⟨rfl, .refl⟩

theorem mem_order_foldl {items : List Definition} (hitems : ∀ d ∈ items, d ∈ model.definitions)
    (hname : name ∈ (items.foldl (visit model depth) state).order) :
    name ∈ state.order ∨ ∃ d ∈ items, ReflTransGen model.Leads d.name name := by
  induction items generalizing state with
  | nil => exact .inl hname
  | cons first rest ih =>
      obtain ⟨hfirst, hrest⟩ := List.forall_mem_cons.1 hitems
      rcases ih hrest hname with hvisited | ⟨d, hd, hleads⟩
      · rcases mem_order_visit hfirst hvisited with hbefore | ⟨-, hleads⟩
        · exact .inl hbefore
        · exact .inr ⟨first, List.mem_cons_self, hleads⟩
      · exact .inr ⟨d, List.mem_cons_of_mem first hd, hleads⟩

/-! ### Names that overtake others -/

/-- What the first definitions put in order is the beginning of the whole order. -/
theorem order_prefix_emissionOrder {front after : List Definition}
    (h : model.definitions = front ++ after) :
    (front.foldl (visit model model.definitions.length) ⟨[], []⟩).order
      <+: model.emissionOrder := by
  have hfold : model.emissionOrder = (after.foldl (visit model model.definitions.length)
      (front.foldl (visit model model.definitions.length) ⟨[], []⟩)).order := by
    rw [← List.foldl_append, ← h, emissionOrder]
  rw [hfold]
  exact order_prefix_foldl after

section Order

variable (hnodup : (model.definitions.map Definition.name).Nodup)

include hnodup

/-- A definition stands behind those that come before it in the list of definitions. -/
theorem idxOf_name_le {before after : List Definition}
    (h : model.definitions = before ++ d :: after) {c : Definition} (hc : c ∈ before ++ [d]) :
    model.names.idxOf c.name ≤ model.names.idxOf d.name := by
  have hnames : model.names
      = (before.map Definition.name ++ [d.name]) ++ after.map Definition.name := by
    simp [names, h]
  have hnew : d.name ∉ before.map Definition.name := by
    rw [h, List.map_append, List.map_cons] at hnodup
    exact fun hmem => (List.nodup_append.1 hnodup).2.2 d.name hmem d.name List.mem_cons_self rfl
  have hmem : c.name ∈ before.map Definition.name ++ [d.name] := by
    simpa using List.mem_map_of_mem (f := Definition.name) hc
  have hlast : model.names.idxOf d.name = before.length := by
    rw [hnames, List.idxOf_append_of_mem (by simp), List.idxOf_append_of_notMem hnew]
    simp
  rw [hlast, hnames, List.idxOf_append_of_mem hmem]
  have hlt := List.idxOf_lt_length_of_mem hmem
  simp only [List.length_append, List.length_map, List.length_singleton] at hlt
  omega

/-- A name that stands in order before a definition is led to from that one or from one that comes
earlier in the document. -/
theorem exists_leads_of_before {other : String} (hd : d ∈ model.definitions)
    (hmixin : d.isMixin = false)
    (hbefore : model.emissionOrder.idxOf other < model.emissionOrder.idxOf d.name) :
    ∃ c ∈ model.definitions, model.names.idxOf c.name ≤ model.names.idxOf d.name ∧
      ReflTransGen model.Leads c.name other := by
  obtain ⟨before, after, hsplit⟩ := List.append_of_mem hd
  have hfront : model.definitions = (before ++ [d]) ++ after := by simpa using hsplit
  have hitems : ∀ c ∈ before ++ [d], c ∈ model.definitions := fun c hc =>
    hfront ▸ List.mem_append_left after hc
  obtain ⟨more, horder⟩ := order_prefix_emissionOrder hfront
  have hplaced := name_mem_order_foldl hnodup hitems (by simp) hmixin
  -- `d` has its place among the first ones, and so has what stands before it
  rw [← horder, List.idxOf_append_of_mem hplaced] at hbefore
  have hother : other ∈ ((before ++ [d]).foldl (visit model model.definitions.length)
      ⟨[], []⟩).order := by
    by_contra hnot
    rw [List.idxOf_append_of_notMem hnot] at hbefore
    have := List.idxOf_lt_length_of_mem hplaced
    omega
  rcases mem_order_foldl hitems hother with hempty | ⟨c, hc, hleads⟩
  · cases hempty
  · exact ⟨c, hitems c hc, idxOf_name_le hnodup hsplit hc, hleads⟩

/-- The names of the model stand in the order of its definitions. -/
theorem pairwise_names : model.names.Pairwise model.Precedes := by
  have hnames : model.names.Nodup := hnodup
  refine List.pairwise_iff_getElem.2 fun i j hi hj hlt => ?_
  rw [Precedes, hnames.idxOf_getElem i hi, hnames.idxOf_getElem j hj]
  exact hlt

section Back

variable (hback : ∀ d ∈ model.definitions, d.isMixin = false → model.RefersBack d)

include hback

/-- Without forward references, what a definition leads to does not stand behind it. -/
theorem idxOf_le_of_leads {other : String} (h : ReflTransGen model.Leads name other) :
    model.names.idxOf other ≤ model.names.idxOf name := by
  induction h with
  | refl => exact Nat.le_refl _
  | tail _ hlast ih =>
      refine Nat.le_trans ?_ ih
      obtain ⟨⟨d, hd, rfl, hmixin, hrefers⟩, e, he, rfl, hnot⟩ := hlast
      rcases hback d hd hmixin e.name hrefers with hself | ⟨m, hm, hname, hmixed⟩ | hnone | hbefore
      · rw [hself]
      · obtain rfl := eq_of_name hnodup hm he hname
        rw [hnot] at hmixed
        cases hmixed
      · exact absurd (List.mem_map_of_mem he) hnone
      · exact Nat.le_of_lt hbefore

theorem pairwise_precedes_emissionOrder : model.emissionOrder.Pairwise model.Precedes := by
  have horder := nodup_emissionOrder hnodup
  refine List.pairwise_iff_getElem.2 fun i j hi hj hlt => ?_
  have hne : model.emissionOrder[i] ≠ model.emissionOrder[j] := fun heq =>
    Nat.ne_of_lt hlt ((horder.getElem_inj_iff).1 heq)
  have hbefore : model.emissionOrder.idxOf model.emissionOrder[i]
      < model.emissionOrder.idxOf model.emissionOrder[j] := by
    rwa [horder.idxOf_getElem i hi, horder.idxOf_getElem j hj]
  obtain ⟨d, hd, hname, hmixin⟩ := (mem_emissionOrder hnodup).1 (List.getElem_mem hj)
  obtain ⟨first, hfirst, hsame, -⟩ := (mem_emissionOrder hnodup).1 (List.getElem_mem hi)
  rw [← hname] at hbefore hne ⊢
  obtain ⟨c, -, hle, hleads⟩ := exists_leads_of_before hnodup hd hmixin hbefore
  have hnames : model.emissionOrder[i] ∈ model.names := hsame ▸ List.mem_map_of_mem hfirst
  refine Nat.lt_of_le_of_ne (Nat.le_trans (idxOf_le_of_leads hnodup hback hleads) hle) fun heq => ?_
  exact hne ((List.idxOf_inj hnames).1 heq)

/-- Where no reference points forward, the order of declarations is that of the document. -/
theorem emissionOrder_of_refersBack :
    model.emissionOrder = (model.definitions.filter fun d => !d.isMixin).map Definition.name := by
  have hdocument : ((model.definitions.filter fun d => !d.isMixin).map Definition.name).Pairwise
      model.Precedes :=
    (pairwise_names hnodup).sublist (List.filter_sublist.map Definition.name)
  refine (pairwise_precedes_emissionOrder hnodup hback).eq_of_mem_iff hdocument fun name => ?_
  rw [mem_emissionOrder hnodup, Emits]
  simp only [List.mem_map, List.mem_filter, Bool.not_eq_true']
  constructor
  · rintro ⟨d, hd, rfl, hmixin⟩
    exact ⟨d, ⟨hd, hmixin⟩, rfl⟩
  · rintro ⟨d, ⟨hd, hmixin⟩, rfl⟩
    exact ⟨d, hd, rfl, hmixin⟩

end Back

end Order

/-- In a linked model, a name that overtakes one that stands before it in the document is led to
from that one or from a definition before it. When no definition refers to what is declared behind
it, the declarations stand in the order of the document. -/
theorem documentOrder_of_link {policy : Policy} {definitions : List Definition}
    (h : Model.link policy definitions = .ok model) :
    (∀ first later, model.Emits first → model.Emits later → model.Precedes first later →
      model.emissionOrder.idxOf later < model.emissionOrder.idxOf first →
        ∃ c, (c = first ∨ model.Precedes c first) ∧ TransGen model.Leads c later) ∧
    ((∀ d ∈ model.definitions, d.isMixin = false → model.RefersBack d) →
      model.emissionOrder
        = (model.definitions.filter fun d => !d.isMixin).map Definition.name) := by
  have hnodup := nodup_names_of_link h
  refine ⟨?_, emissionOrder_of_refersBack hnodup⟩
  rintro first later ⟨d, hd, rfl, hmixin⟩ - hprecedes hovertakes
  obtain ⟨c, hc, hle, hleads⟩ := exists_leads_of_before hnodup hd hmixin hovertakes
  refine ⟨c.name, ?_, ?_⟩
  · rcases Nat.eq_or_lt_of_le hle with heq | hlt
    · exact .inl ((List.idxOf_inj (List.mem_map_of_mem hc)).1 heq)
    · exact .inr hlt
  · rcases reflTransGen_iff_eq_or_transGen.1 hleads with hself | htrans
    · -- the later name itself stands behind the first one
      rw [← hself] at hle
      exact absurd hprecedes (Nat.not_lt.2 hle)
    · exact htrans

/-- The first definition refers to the third. -/
def laterReference : List Definition :=
  [⟨"A", .typedef (.named "C"), [], ⟨0, 1⟩⟩, ⟨"B", .typedef .any, [], ⟨1, 2⟩⟩,
    ⟨"C", .typedef .any, [], ⟨2, 3⟩⟩]

/-- The second definition refers to itself and to the first. -/
def earlierReference : List Definition :=
  [⟨"A", .typedef .any, [], ⟨0, 1⟩⟩,
    ⟨"B", .typedef (.union [.named "B", .named "A"]), [], ⟨1, 2⟩⟩]

/-- In the one model the third name overtakes the second, and in the other nothing is overtaken. -/
theorem documentOrder_of_link_references : ∃ model other,
    Model.link .default laterReference = .ok model ∧
    model.Emits "B" ∧ model.Emits "C" ∧ model.Precedes "B" "C" ∧
    model.emissionOrder.idxOf "C" < model.emissionOrder.idxOf "B" ∧
    (∃ c, (c = "B" ∨ model.Precedes c "B") ∧ TransGen model.Leads c "C") ∧
    Model.link .default earlierReference = .ok other ∧
    (∀ d ∈ other.definitions, d.isMixin = false → other.RefersBack d) ∧
    other.emissionOrder = ["A", "B"] := by
  obtain ⟨model, hmodel, hdefinitions, horder⟩ : ∃ model,
      Model.link .default laterReference = .ok model ∧ model.definitions = laterReference ∧
      model.emissionOrder = ["C", "A", "B"] := ⟨_, rfl, rfl, rfl⟩
  obtain ⟨other, hother, hpair⟩ : ∃ other,
      Model.link .default earlierReference = .ok other ∧ other.definitions = earlierReference :=
    ⟨_, rfl, rfl⟩
  have hnames : model.names = ["A", "B", "C"] := by rw [names, hdefinitions]; rfl
  have hlater : model.Emits "C" := by
    rw [Emits, hdefinitions]
    exact ⟨_, List.mem_of_mem_getLast? rfl, rfl, rfl⟩
  have hfirst : model.Emits "B" := by
    rw [Emits, hdefinitions]
    exact ⟨_, List.mem_cons_of_mem _ List.mem_cons_self, rfl, rfl⟩
  have hprecedes : model.Precedes "B" "C" := by rw [Precedes, hnames]; decide
  have hovertakes : model.emissionOrder.idxOf "C" < model.emissionOrder.idxOf "B" := by
    rw [horder]
    decide
  have hback : ∀ d ∈ other.definitions, d.isMixin = false → other.RefersBack d := by
    intro d hd _ name hrefers
    rw [hpair, earlierReference] at hd
    rw [← mem_dependencies] at hrefers
    have hcases : d.dependencies = [] ∨ d.name = "B" ∧ d.dependencies = ["B", "A"] := by
      simp only [List.mem_cons, List.not_mem_nil, or_false] at hd
      rcases hd with rfl | rfl
      · exact .inl (by decide)
      · exact .inr (by decide)
    rcases hcases with hnone | ⟨hname, hboth⟩
    · rw [hnone] at hrefers
      cases hrefers
    · have htwo : name = "B" ∨ name = "A" := by simpa [hboth] using hrefers
      rcases htwo with rfl | rfl
      · exact .inl hname.symm
      · refine .inr (.inr (.inr ?_))
        rw [Precedes, names, hpair, hname]
        decide
  refine ⟨model, other, hmodel, hfirst, hlater, hprecedes, hovertakes,
    (documentOrder_of_link hmodel).1 "B" "C" hfirst hlater hprecedes hovertakes, hother, hback, ?_⟩
  rw [(documentOrder_of_link hother).2 hback, hpair]
  rfl

end Model

end IdlBindings
