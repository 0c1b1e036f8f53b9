import IdlBindings.Proofs.Markup.Cut
import IdlBindings.Proofs.Model.References
import IdlBindings.Proofs.Pipeline.Stage
import IdlBindings.Proofs.Syntax.Extent

/-!
References to types in a document. The owners of types stand in it one after the other
(`Pipeline.row_owners`), so a span names one owner, however often that owner was folded in, and what
linking reports for a span it reports for that owner (`Pipeline.references_reported`).
-/

namespace IdlBindings

open Definition

namespace Definition

variable {source : String} {base : Nat} {definitions : List Definition}

/-- The owners that a definition has stand in its place. -/
theorem row_owners_of_mem (h : ofSource source base = .ok definitions) {d : Definition}
    (hd : d ∈ definitions) : Span.Row d.span.start d.span.stop (d.owners.map Owner.span) := by
  obtain ⟨_, hlaid⟩ := (laidOut_of_ofSource h).exists_laid hd
  have hmembers (c : Container) (hc : c ∈ d.container?) :
      Span.Row d.span.start d.span.stop (c.members.map Member.span) := by
    obtain ⟨_, -, hlaidOut, hinside⟩ := members_laidOut_of_ofSource h hd hc
    refine ⟨fun span hspan => ?_, List.pairwise_map.2 hlaidOut.ordered⟩
    obtain ⟨m, hm, rfl⟩ := List.mem_map.1 hspan
    obtain ⟨_, hplace⟩ := hlaidOut.exists_laid hm
    obtain ⟨hstart, hstop⟩ := hinside m hm
    exact ⟨hstart.le, hplace.nonempty, hstop.le⟩
  obtain ⟨name, body, extAttrs, span⟩ := d
  cases body with
  | container c =>
      have howners : owners ⟨name, .container c, extAttrs, span⟩ = c.members.map .member := rfl
      rw [howners, List.map_map]
      exact hmembers c rfl
  | typedef type => exact .single hlaid.nonempty
  | callback result args => exact .single hlaid.nonempty
  | enumeration values => exact .nil
  | includes mixin => exact .nil

theorem row_owners_of_ofSource (h : ofSource source base = .ok definitions) :
    Span.Row base (base + byteLength source.toList)
      ((definitions.flatMap owners).map Owner.span) := by
  rw [List.map_flatMap]
  apply Span.Row.flatMap span
  · intro d hd
    obtain ⟨_, hlaid⟩ := (laidOut_of_ofSource h).exists_laid hd
    exact hlaid.within
  · exact (laidOut_of_ofSource h).ordered
  · exact fun d hd => row_owners_of_mem h hd

end Definition

namespace Pipeline

variable {doc : String} {all : List Definition}

/-- The owners of types stand in the document one after the other. -/
theorem row_owners (h : definitions doc = .ok all) :
    Span.Row 0 doc.utf8ByteSize ((all.flatMap owners).map Owner.span) := by
  obtain ⟨found, hfound, hparse⟩ := definitions_eq_ok.1 h
  obtain ⟨own, rfl, hown⟩ := exists_of_ofFragments hparse
  have hpasses := Markup.fragmentsFrom_eq_ok_iff.1 hfound
  have hcut := hpasses.cut
  have hplace (fragment : Fragment) (hmem : fragment ∈ found) :
      fragment.tag.start ≤ fragment.offset ∧
        fragment.offset + byteLength fragment.text.toList ≤ doc.utf8ByteSize := by
    obtain ⟨before, opening, closing, after, hdoc, -, -, -, hstart, hstop, hoffset⟩ :=
      hcut fragment hmem
    rw [List.append_nil] at hdoc
    rw [← byteLength_toList, hdoc]
    simp only [byteLength_append]
    omega
  rw [List.flatMap_assoc, List.map_flatMap]
  apply Span.Row.flatMap fun fragment =>
    ⟨fragment.offset, fragment.offset + byteLength fragment.text.toList⟩
  · exact fun fragment hmem => ⟨Nat.zero_le _, (hplace fragment hmem).2⟩
  · exact hpasses.ordered.imp_of_mem fun _ hlater hle => hle.trans (hplace _ hlater).1
  · exact fun fragment hmem => row_owners_of_ofSource (hown fragment hmem)

/-- Each bad reference is reported once for its owner, and a span names one owner. -/
theorem references_reported (h : definitions doc = .ok all) (policy : Policy) :
    (∃ pairs reports, Linked.ReferenceReports policy all pairs reports) ∧
      ∀ owner ∈ (Linked.ofDefinitions policy all).definitions.flatMap owners,
        ∀ other ∈ (Linked.ofDefinitions policy all).definitions.flatMap owners,
          owner.span = other.span → owner = other := by
  have hgiven {owner : Owner}
      (howner : owner ∈ (Linked.ofDefinitions policy all).definitions.flatMap owners) :
      owner ∈ all.flatMap owners := by
    obtain ⟨d, hd, howner⟩ := List.mem_flatMap.1 howner
    obtain ⟨source, hsource, howner⟩ := Linked.owner_ofDefinitions policy all d hd owner howner
    exact List.mem_flatMap.2 ⟨source, hsource, howner⟩
  refine ⟨Linked.exists_referenceReports policy all, fun owner howner other hother hspan => ?_⟩
  exact List.inj_on_of_nodup_map (row_owners h).nodup (hgiven howner) (hgiven hother) hspan

/-- Two interfaces include a mixin whose attribute has an unknown type, and a typedef names the
mixin. -/
def sharedMixin : String :=
  "<xmp class=idl>interface mixin M \x7b attribute X a; \x7d; interface A \x7b\x7d; " ++
    "interface B \x7b\x7d; A includes M; B includes M; typedef M T;</xmp>"

/-- Three owners have one span, and one fault is reported for them. -/
theorem references_reported_sharedMixin : ∃ all, definitions sharedMixin = .ok all ∧
    ((Linked.ofDefinitions .default all).definitions.flatMap owners).map Owner.span
      = [⟨35, 49⟩, ⟨35, 49⟩, ⟨35, 49⟩, ⟨113, 125⟩] ∧
    (Model.faults .default all).map (fun fault => (fault.kind, fault.span))
      = [(.unresolvedName, ⟨35, 49⟩), (.kindConflict, ⟨113, 125⟩)] ∧
    (∃ pairs reports, Linked.ReferenceReports .default all pairs reports) ∧
    ∀ owner ∈ (Linked.ofDefinitions .default all).definitions.flatMap owners,
      ∀ other ∈ (Linked.ofDefinitions .default all).definitions.flatMap owners,
        owner.span = other.span → owner = other := by
  have hrun : (definitions sharedMixin).toOption.map (fun all =>
      (((Linked.ofDefinitions .default all).definitions.flatMap owners).map Owner.span,
        (Model.faults .default all).map fun fault => (fault.kind, fault.span)))
      = some ([⟨35, 49⟩, ⟨35, 49⟩, ⟨35, 49⟩, ⟨113, 125⟩],
        [(.unresolvedName, ⟨35, 49⟩), (.kindConflict, ⟨113, 125⟩)]) := by
    decide +kernel
  cases hall : definitions sharedMixin with
  | error failure =>
      rw [hall] at hrun
      cases hrun
  | ok all =>
      rw [hall] at hrun
      obtain ⟨hspans, hfaults⟩ := Prod.mk.inj (Option.some.inj hrun)
      obtain ⟨hreports, hone⟩ := references_reported hall .default
      exact ⟨all, rfl, hspans, hfaults, hreports, hone⟩

end Pipeline

end IdlBindings
