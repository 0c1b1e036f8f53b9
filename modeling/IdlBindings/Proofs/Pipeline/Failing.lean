import IdlBindings.Proofs.Markup.Cut
import IdlBindings.Proofs.Model.Reported
import IdlBindings.Proofs.Pipeline.Stage
import IdlBindings.Proofs.Syntax.Definition.Passing
import IdlBindings.Proofs.Token.Place

/-!
How the pipeline fails. A failure names all that is wrong at the stage that it stops, and every
place of it can be shown in the document (`Pipeline.complete_of_stops`). The places come from the
pieces of markup and from the tokens of a fragment; behind a fragment stands the `<` of its closing
tag, which is what a fault at the end of a fragment shows.
-/

namespace IdlBindings

open Definition

/-- The place can be shown in the document. -/
structure Span.Points (span : Span) (doc : String) : Prop extends span.In doc.toList where
  stop_le : span.stop ≤ doc.utf8ByteSize
  visible : (span.visible doc.utf8ByteSize).In doc.toList
  nonempty : (span.visible doc.utf8ByteSize).start < (span.visible doc.utf8ByteSize).stop

theorem Span.Shown.points {span : Span} {doc : String} (h : span.Shown doc.toList) :
    span.Points doc := by
  obtain ⟨hvisible, hlt⟩ := h.visible
  have hle := h.toIn.stop_le
  rw [byteLength_toList] at hvisible hlt hle
  exact ⟨h.toIn, hle, hvisible, hlt⟩

/-- The failure says all that is wrong with the document at its stage, and where. -/
structure Failure.Complete (failure : Failure) (doc : String) : Prop where
  nonempty : failure.diagnostics ≠ []
  stage : ∀ d ∈ failure.diagnostics, d.kind.stage = failure.stage
  extraction : failure.stage = .extraction →
    ∃ d, failure.diagnostics = [d] ∧ fragments doc = .error d
  /-- Every fragment that cannot be read has one diagnostic, in the order of the fragments. -/
  parsing : failure.stage = .parsing → ∃ found, fragments doc = .ok found ∧
    failure.diagnostics = found.filterMap Fragment.fault?
  points : ∀ d ∈ failure.diagnostics, d.span.Points doc ∧ ∀ r ∈ d.related, r.span.Points doc

/-! ### Fragments -/

/-- The tokens of a text that stands in a document, in front of a tag, have their places in it. -/
theorem Definition.located_cursor (before : List Char) (source : String) (after : List Char) :
    (cursor source (byteLength before)).Located (before ++ (source.toList ++ '<' :: after)) := by
  have htiled := Token.tiled_lex source (byteLength before)
  have hsublist : (cursor source (byteLength before)).rest.Sublist
    (Token.lex source (byteLength before)) := List.filter_sublist
  have hwithin {n : Nat} (h : Boundary source.toList n) :
      Boundary (before ++ (source.toList ++ '<' :: after)) (byteLength before + n) := h.within
  refine ⟨fun token hmem => ?_, htiled.pairwise.sublist hsublist, hwithin .whole, ?_⟩
  · obtain ⟨front, back, hsource, hne, hstart, hstop⟩ :=
      htiled.exists_append (hsublist.subset hmem)
    have hlt : token.span.start < token.span.stop := by
      rw [hstop]
      exact Nat.lt_add_of_pos_right (byteLength_pos hne)
    refine ⟨.of_lt hlt ?_ ?_, hlt⟩
    · rw [hstart]
      exact hwithin (hsource ▸ .of_append front _)
    · rw [hstop, hstart, Nat.add_assoc, ← byteLength_append]
      refine hwithin ⟨front ++ token.text.toList, back, ?_, rfl⟩
      rw [hsource, List.append_assoc]
  · refine ⟨before ++ (source.toList ++ ['<']), after, by simp, ?_⟩
    rw [byteLength_append, byteLength_append, ← Nat.add_assoc]
    rfl

namespace Pipeline

variable {doc : String} {found : List Fragment} {all : List Definition}

/-- The tokens of a fragment have their places in the document. -/
theorem located_of_fragments (h : IdlBindings.fragments doc = .ok found) {fragment : Fragment}
    (hmem : fragment ∈ found) :
    (cursor fragment.text fragment.offset).Located doc.toList := by
  have hcut := (Markup.fragmentsFrom_eq_ok_iff.1 h).cut fragment hmem
  rw [List.append_nil] at hcut
  obtain ⟨before, opening, closing, after, hdoc, -, -, hclosing, hstart, hstop, hoffset⟩ := hcut
  obtain ⟨inner, rfl, -⟩ := hclosing.split
  have hbase : fragment.offset = byteLength (before ++ opening) := by
    rw [hoffset, hstop, hstart, byteLength_append, Nat.zero_add]
  rw [hdoc, hbase, ← List.append_assoc]
  exact located_cursor (before ++ opening) fragment.text _

/-- The fault of a fragment is at its tokens. -/
theorem faults_of_fault? {fragment : Fragment} {fault : Diagnostic}
    (h : fragment.fault? = some fault) :
    (cursor fragment.text fragment.offset).Faults fault := by
  unfold Fragment.fault? at h
  split at h
  · cases h
  · rename_i hsource
    cases h
    exact faults_of_ofSource hsource

/-- Every definition of a document has its places in it. -/
theorem within_of_definitions (h : definitions doc = .ok all) :
    ∀ d ∈ all, d.Within fun span => span.Shown doc.toList := by
  obtain ⟨found, hfound, hparse⟩ := definitions_eq_ok.1 h
  refine forall_of_ofFragments hparse fun fragment hfragment own hown d hd => ?_
  have hlocated := located_of_fragments hfound hfragment
  have hspots := spots_of_ofSource hown d hd
  refine ⟨hlocated.shown hspots.span, fun m hm => ?_⟩
  obtain ⟨name, body, extAttrs, span⟩ := d
  cases body with
  | container body => exact hlocated.shown (hspots.body m hm)
  | _ => cases hm

/-! ### Stages -/

variable {failure : Failure}

theorem complete_of_fragments (h : fragments doc = .error failure) :
    failure.Complete doc := by
  obtain ⟨fault, hfault, rfl⟩ := fragments_eq_error.1 h
  obtain ⟨before, rest, found, hdoc, -, hwrong⟩ := Markup.fragmentsFrom_eq_error_iff.1 hfault
  rw [Nat.zero_add] at hwrong
  obtain ⟨hstage, hspan, hrelated⟩ := hwrong.shown
  rw [← hdoc] at hspan hrelated
  refine ⟨List.cons_ne_nil _ _, ?_, fun _ => ⟨fault, rfl, hfault⟩, nofun, ?_⟩
  · exact List.forall_mem_singleton.2 hstage
  · exact List.forall_mem_singleton.2 ⟨hspan.points, fun r hr => (hrelated r hr).points⟩

theorem complete_of_definitions (h : definitions doc = .error failure) :
    failure.Complete doc := by
  rcases definitions_eq_error.1 h with hfragments | ⟨found, faults, hfound, hparse, rfl⟩
  · exact complete_of_fragments hfragments
  obtain ⟨hfaults, hne⟩ := ofFragments_eq_error_iff.1 hparse
  have heach : ∀ d ∈ faults, d.kind.stage = .parsing ∧ d.related = [] ∧ d.span.Shown doc.toList := by
    intro d hd
    rw [← hfaults] at hd
    obtain ⟨fragment, hfragment, hfault⟩ := List.mem_filterMap.1 hd
    have hplace := faults_of_fault? hfault
    exact ⟨hplace.stage, hplace.related, (located_of_fragments hfound hfragment).shown hplace.spot⟩
  refine ⟨hne, fun d hd => (heach d hd).1, nofun, fun _ => ⟨found, hfound, hfaults.symm⟩, ?_⟩
  intro d hd
  obtain ⟨-, hrelated, hspan⟩ := heach d hd
  refine ⟨hspan.points, ?_⟩
  rw [hrelated]
  exact List.forall_mem_nil _

theorem complete_of_model {policy : Policy} (h : model policy doc = .error failure) :
    failure.Complete doc := by
  rcases model_eq_error.1 h with hdefinitions | ⟨all, faults, hall, hlink, rfl⟩
  · exact complete_of_definitions hdefinitions
  obtain ⟨hne, hlinks⟩ := Model.links_of_link (within_of_definitions hall) hlink
  exact ⟨hne, fun d hd => (hlinks d hd).stage, nofun, nofun, fun d hd =>
    ⟨(hlinks d hd).span.points, fun r hr => ((hlinks d hd).related r hr).points⟩⟩

/-- Some step of the pipeline, under some configuration, stops with this failure. -/
inductive Stops (doc : String) (failure : Failure) : Prop
  | fragments (h : fragments doc = .error failure)
  | definitions (h : definitions doc = .error failure)
  | model (policy : Policy) (h : model policy doc = .error failure)
  | declarations (policy : Policy) (style : Style)
      (h : declarations policy style doc = .error failure)
  | interfaceText (policy : Policy) (indent : Nat)
      (h : interfaceText policy indent doc = .error failure)

/-- However the pipeline stops, the failure is complete, and it reads the definitions exactly when
each fragment can be read. -/
theorem complete_of_stops (doc : String) :
    (∀ failure, Stops doc failure → failure.Complete doc) ∧
      ((∃ all, definitions doc = .ok all) ↔ ∃ found, IdlBindings.fragments doc = .ok found ∧
        ∀ fragment ∈ found, ∃ own, ofSource fragment.text fragment.offset = .ok own) := by
  constructor
  · intro failure hstops
    cases hstops with
    | fragments h => exact complete_of_fragments h
    | definitions h => exact complete_of_definitions h
    | model policy h => exact complete_of_model h
    | declarations policy style h => exact complete_of_model (declarations_eq_error.1 h)
    | interfaceText policy indent h => exact complete_of_model (interfaceText_eq_error.1 h)
  · simp only [definitions_eq_ok, ← Fragment.fault?_eq_none_iff, ← ofFragments_eq_ok_iff]
    constructor
    · rintro ⟨all, found, hfound, hparse⟩
      exact ⟨found, hfound, all, hparse⟩
    · rintro ⟨found, hfound, all, hparse⟩
      exact ⟨all, found, hfound, hparse⟩

/-- Two fragments of which neither can be read. -/
def twoFragments : String := "é<pre class=idl>interface</pre><pre class=idl>enum A \x7b é</pre>"

/-- Both are reported: one at its end, and one at a letter of two bytes. -/
theorem complete_of_stops_twoFragments : ∃ failure, Stops twoFragments failure ∧
    failure.Complete twoFragments ∧ failure.stage = .parsing ∧
    failure.diagnostics.map Diagnostic.span = [⟨26, 26⟩, ⟨56, 58⟩] := by
  have hstops : Stops twoFragments
      ⟨.parsing, [.report .expectedIdentifier ⟨26, 26⟩ "found end of block",
        .report .unexpectedToken ⟨56, 58⟩ "an enum value string, found `é`"]⟩ :=
    .declarations .default .default (by decide +kernel)
  exact ⟨_, hstops, (complete_of_stops _).1 _ hstops, rfl, rfl⟩

end Pipeline

end IdlBindings
