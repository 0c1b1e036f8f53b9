import IdlBindings.Proofs.Syntax.Splitting
import IdlBindings.Proofs.Token.Lexed
import IdlBindings.Proofs.Token.Place
import IdlBindings.Proofs.Token.Valid
import Mathlib.Data.List.Basic

/-!
Where definitions and members stand in a text. Each one is read from tokens of its own, which end
with a semicolon, so the spans are in order and apart, and those of members lie inside that of their
definition (`Definition.ofSource_laid`). With places in words of 32 bits this holds for a text that
ends below byte `2 ^ 32` (`Definition.parseAt_laid`).
-/

namespace IdlBindings

open Parse Cursor

namespace Token

variable {source : String} {base : Nat} {token : Token} {text : String}

/-- A token that is always written alike is there in the text. -/
theorem exists_of_text (h : token ∈ significant (lex source base)) (htext : token.text = text) :
    ∃ before after, source.toList = before ++ (text.toList ++ after) ∧
      token.span.start = base + byteLength before ∧
      token.span.stop = base + byteLength before + byteLength text.toList := by
  obtain ⟨before, after, hsource, -, hstart, hstop⟩ :=
    (tiled_lex source base).exists_append (List.mem_filter.1 h).1
  rw [htext] at hsource hstop
  exact ⟨before, after, hsource, hstart, by rw [hstop, hstart]⟩

theorem text_eq_markText (h : token ∈ significant (lex source base)) {kind : TokenKind}
    (hkind : token.kind = kind) (hmark : Glyph.markText kind ≠ "") :
    token.text = Glyph.markText kind := by
  subst hkind
  rcases valid_of_mem_lex h with hgarbage | hvalid
  · rw [hgarbage] at hmark
    exact absurd rfl hmark
  · exact congrArg Glyph.text (hvalid.eq_mark hmark)

end Token

/-! ### Places in a text -/

/-- The place, in a text that begins at byte `base`, of something that was read from the tokens `ts`.
It reaches from the first byte of the first token, which is a `[` exactly if there are extended
attributes, to the last token, which is a `;`. -/
structure Span.Laid (source : String) (base : Nat) (span : Span)
    (extAttrs : List ExtendedAttribute) (ts : List Token) : Prop where
  nonempty : span.start < span.stop
  within : base ≤ span.start ∧ span.stop ≤ base + byteLength source.toList
  first : ∃ token, ts.head? = some token ∧ span.start = token.span.start ∧
    (extAttrs ≠ [] ↔ token.kind = .bracketOpen)
  last : ∃ token, ts.getLast? = some token ∧ span.stop = token.span.stop ∧
    token.kind = .semicolon
  bracket : extAttrs ≠ [] → ∃ before after, source.toList = before ++ '[' :: after ∧
    span.start = base + byteLength before
  semicolon : ∃ before after, source.toList = before ++ ';' :: after ∧
    span.stop = base + byteLength before + 1

/-- The items that were read from the tokens `ts`: each has tokens of its own, and its place ends
before the next one begins. -/
structure Parse.LaidOut {α : Type} (source : String) (base : Nat) (item : Parse α) (span : α → Span)
    (extAttrs : α → List ExtendedAttribute) (items : List α) (ts : List Token) : Prop where
  entries : ∃ entries : List (α × List Token), entries.map Prod.fst = items ∧
    entries.flatMap Prod.snd = ts ∧ ∀ entry ∈ entries, ReadFrom item entry.1 entry.2 ∧
      (span entry.1).Laid source base (extAttrs entry.1) entry.2
  ordered : items.Pairwise fun former later => (span former).stop ≤ (span later).start

theorem Parse.LaidOut.exists_laid {α : Type} {source : String} {base : Nat} {item : Parse α}
    {span : α → Span} {extAttrs : α → List ExtendedAttribute} {items : List α} {ts : List Token}
    (h : LaidOut source base item span extAttrs items ts) {a : α} (ha : a ∈ items) :
    ∃ us, (span a).Laid source base (extAttrs a) us := by
  obtain ⟨entries, rfl, -, hentries⟩ := h.entries
  obtain ⟨entry, hentry, rfl⟩ := List.mem_map.1 ha
  exact ⟨entry.2, (hentries entry hentry).2⟩

namespace Span.Laid

variable {source : String} {base : Nat} {span other : Span}
  {extAttrs otherAttrs : List ExtendedAttribute} {ts us : List Token}

/-- Of two places, the one whose tokens come first ends first. -/
theorem stop_le_start (h : span.Laid source base extAttrs ts)
    (h' : other.Laid source base otherAttrs us)
    (hordered : ∀ former ∈ ts, ∀ later ∈ us, former.span.stop ≤ later.span.start) :
    span.stop ≤ other.start := by
  obtain ⟨former, hformer, hstop, -⟩ := h.last
  obtain ⟨later, hlater, hstart, -⟩ := h'.first
  rw [hstop, hstart]
  exact hordered former (List.mem_of_getLast? hformer) later (List.mem_of_head? hlater)

/-- A place whose tokens are among those of another one, and neither first nor last there. -/
theorem inside {opening inner closing : List Token}
    (h : span.Laid source base extAttrs (opening ++ (inner ++ closing)))
    (hordered : Token.Ordered (opening ++ (inner ++ closing))) (hopening : opening ≠ [])
    (hclosing : closing ≠ []) (h' : other.Laid source base otherAttrs us) (hsub : us ⊆ inner) :
    span.start < other.start ∧ other.stop < span.stop := by
  obtain ⟨hbefore, hafter, hapart⟩ := List.pairwise_append.1 hordered.pairwise
  constructor
  · obtain ⟨token, htoken, hstart, -⟩ := h.first
    obtain ⟨first, hfirst, hstart', -⟩ := h'.first
    rw [List.head?_append_of_ne_nil _ hopening] at htoken
    have hmem := List.mem_of_head? htoken
    have hlt := hordered.nonempty token (List.mem_append_left _ hmem)
    have hle := hapart token hmem first
      (List.mem_append_left _ (hsub (List.mem_of_head? hfirst)))
    omega
  · obtain ⟨token, htoken, hstop, -⟩ := h.last
    obtain ⟨last, hlast, hstop', -⟩ := h'.last
    rw [← List.append_assoc, List.getLast?_append_of_ne_nil _ hclosing] at htoken
    have hmem := List.mem_of_getLast? htoken
    have hlt := hordered.nonempty token
      (List.mem_append_right _ (List.mem_append_right _ hmem))
    have hle := (List.pairwise_append.1 hafter).2.2 last (hsub (List.mem_of_getLast? hlast)) token
      hmem
    omega

end Span.Laid

/-! ### What is read -/

section Item

variable {α : Type} {item : Parse α} {span : α → Span} {extAttrs : α → List ExtendedAttribute}
  (hruns : ∀ c, Runs item c fun a ts d => ts ≠ [] ∧
    span a = ⟨c.span.start, max d.lastEnd c.span.start⟩ ∧
    (extAttrs a ≠ [] ↔ c.atKind .bracketOpen = true))
  (hcloses : Closes item) {source : String} {base : Nat} {ts : List Token}
  (hpart : ts.Sublist (Token.significant (Token.lex source base)))

include hruns hcloses hpart

theorem Parse.ReadFrom.laid {a : α} (h : ReadFrom item a ts) :
    (span a).Laid source base (extAttrs a) ts := by
  obtain ⟨c, d, hrun, hpassed⟩ := h
  obtain ⟨_, hsame, hne, hspan, hattrs⟩ := (hruns c).of_ok hrun
  obtain rfl := hpassed.unique hsame
  have hordered := (Token.ordered_lex source base).sublist hpart
  obtain ⟨first, last, hfirst, hlast, heq⟩ := hpassed.exists_span hne hordered
  have hfirstMem := hpart.subset (List.mem_of_head? hfirst)
  have hlastMem := hpart.subset (List.mem_of_getLast? hlast)
  have hbracket : extAttrs a ≠ [] ↔ first.kind = .bracketOpen := by
    obtain ⟨rest, rfl⟩ := List.head?_eq_some_iff.1 hfirst
    have hnext : c.rest = first :: (rest ++ d.rest) := hpassed.rest
    rw [hattrs, Cursor.atKind, hnext]
    exact beq_iff_eq
  have hsemicolon : last.kind = .semicolon := by
    obtain ⟨us, semi, hsemi, hrest, -⟩ := hcloses c a d hrun
    have hts : ts = us ++ [semi] := by
      rw [← List.append_left_inj d.rest, ← hpassed.rest, hrest, List.append_assoc]
      rfl
    rw [hts, List.getLast?_concat] at hlast
    obtain rfl := Option.some.inj hlast
    exact hsemi
  have htiled := Token.tiled_lex source base
  rw [hspan, heq]
  refine
    { nonempty := hordered.start_lt_stop hfirst hlast
      within := ⟨htiled.le_start (List.mem_filter.1 hfirstMem).1,
        htiled.stop_le (List.mem_filter.1 hlastMem).1⟩
      first := ⟨first, hfirst, rfl, hbracket⟩
      last := ⟨last, hlast, rfl, hsemicolon⟩
      bracket := fun hne => ?_
      semicolon := ?_ }
  · obtain ⟨before, after, hsource, hstart, -⟩ := Token.exists_of_text hfirstMem
      (Token.text_eq_markText hfirstMem (hbracket.1 hne) (by decide))
    exact ⟨before, after, hsource, hstart⟩
  · obtain ⟨before, after, hsource, -, hstop⟩ := Token.exists_of_text hlastMem
      (Token.text_eq_markText hlastMem hsemicolon (by decide))
    exact ⟨before, after, hsource, hstop⟩

/-- What was read one after the other stands so. -/
theorem Parse.AllReadFrom.laidOut {items : List α} (h : AllReadFrom item items ts) :
    LaidOut source base item span extAttrs items ts := by
  obtain ⟨entries, rfl, rfl, hread⟩ := h
  have hlaid (entry : α × List Token) (hentry : entry ∈ entries) :
      (span entry.1).Laid source base (extAttrs entry.1) entry.2 :=
    (hread entry hentry).laid hruns hcloses
      ((List.sublist_flatten_of_mem (List.mem_map_of_mem hentry)).trans hpart)
  refine ⟨⟨entries, rfl, rfl, fun entry hentry => ⟨hread entry hentry, hlaid entry hentry⟩⟩, ?_⟩
  have hordered := ((Token.ordered_lex source base).sublist hpart).pairwise
  rw [List.pairwise_map]
  refine (List.pairwise_flatMap.1 hordered).2.imp_of_mem fun hformer hlater hapart => ?_
  exact (hlaid _ hformer).stop_le_start (hlaid _ hlater) hapart

end Item

namespace Definition

variable {source : String} {base : Nat} {definitions : List Definition}

/-- A text is read to its end. -/
theorem allReadFrom_of_ofSource (h : ofSource source base = .ok definitions) :
    AllReadFrom Definition.parse definitions (Token.significant (Token.lex source base)) := by
  obtain ⟨last, hparse⟩ := exists_parseAll_of_ofSource h
  obtain ⟨ts, hpassed, -, hread⟩ := (runs_all (cursor source base)).of_ok hparse
  have hall : Token.significant (Token.lex source base) = ts := by
    have hrest := hpassed.rest
    rwa [(closes.chain_of_repeatWhile hparse).2, List.append_nil] at hrest
  rwa [hall]

theorem exists_inner {d : Definition} {ts : List Token} (h : d.body.Holds ts) {c : Container}
    (hc : c ∈ d.container?) : ∃ opening inner closing, ts = opening ++ (inner ++ closing) ∧
      opening ≠ [] ∧ closing ≠ [] ∧
      AllReadFrom (Member.parse (c.kind == .dictionary)) c.members inner := by
  obtain ⟨name, body, extAttrs, span⟩ := d
  cases body with
  | container body =>
      obtain rfl := Option.some.inj hc
      exact h
  | _ => cases hc

theorem laidOut_of_ofSource (h : ofSource source base = .ok definitions) :
    LaidOut source base Definition.parse Definition.span Definition.extAttrs definitions
      (Token.significant (Token.lex source base)) := by
  have hruns (c : Cursor) : Runs Definition.parse c fun d ts e => ts ≠ [] ∧
      d.span = ⟨c.span.start, max e.lastEnd c.span.start⟩ ∧
      (d.extAttrs ≠ [] ↔ c.atKind .bracketOpen = true) :=
    (runs c).mono fun _ _ _ _ h => ⟨h.1, h.2.1, h.2.2.1⟩
  exact (allReadFrom_of_ofSource h).laidOut hruns closes (List.Sublist.refl _)

theorem members_laidOut_of_ofSource (h : ofSource source base = .ok definitions) {d : Definition}
    (hd : d ∈ definitions) {c : Container} (hc : c ∈ d.container?) : ∃ ts,
      ts <:+: Token.significant (Token.lex source base) ∧
      LaidOut source base (Member.parse (c.kind == .dictionary)) Member.span Member.extAttrs
        c.members ts ∧
      ∀ m ∈ c.members, d.span.start < m.span.start ∧ m.span.stop < d.span.stop := by
  obtain ⟨entries, rfl, hall, hentries⟩ := (laidOut_of_ofSource h).entries
  obtain ⟨⟨d, ts⟩, hentry, rfl⟩ := List.mem_map.1 hd
  obtain ⟨⟨start, stop, hrun, hpassed⟩, hplace⟩ := hentries _ hentry
  obtain ⟨_, hsame, -, -, -, -, hholds⟩ := (runs start).of_ok hrun
  obtain rfl := hpassed.unique hsame
  obtain ⟨opening, inner, closing, rfl, hopening, hclosing, hread⟩ := exists_inner hholds hc
  have hpart : opening ++ (inner ++ closing) <:+: Token.significant (Token.lex source base) :=
    hall ▸ List.infix_of_mem_flatten (List.mem_map_of_mem hentry)
  have hinner : inner <:+: Token.significant (Token.lex source base) :=
    List.IsInfix.trans ⟨opening, closing, List.append_assoc ..⟩ hpart
  have hmembers := hread.laidOut (Member.runs _) (Member.closes _) hinner.sublist
  refine ⟨inner, hinner, hmembers, fun m hm => ?_⟩
  obtain ⟨places, hplaces, htokens, hlaid⟩ := hmembers.entries
  rw [← hplaces] at hm
  obtain ⟨⟨m, us⟩, hmember, rfl⟩ := List.mem_map.1 hm
  refine hplace.inside ((Token.ordered_lex source base).sublist hpart.sublist) hopening hclosing
    (hlaid _ hmember).2 ?_
  rw [← htokens]
  exact fun token htoken => List.mem_flatMap.2 ⟨_, hmember, htoken⟩

/-- The definitions of a text stand in it one after the other, and the members of each do so inside
its place. -/
theorem ofSource_laid (h : ofSource source base = .ok definitions) :
    LaidOut source base Definition.parse Definition.span Definition.extAttrs definitions
      (Token.significant (Token.lex source base)) ∧
    ∀ d ∈ definitions, ∀ c ∈ d.container?, ∃ ts,
      ts <:+: Token.significant (Token.lex source base) ∧
      LaidOut source base (Member.parse (c.kind == .dictionary)) Member.span Member.extAttrs
        c.members ts ∧
      ∀ m ∈ c.members, d.span.start < m.span.start ∧ m.span.stop < d.span.stop :=
  ⟨laidOut_of_ofSource h, fun _ hd _ hc => members_laidOut_of_ofSource h hd hc⟩

/-- With their places stored in words of 32 bits they do so too, if the text ends below byte
`2 ^ 32`. -/
theorem parseAt_laid {base : UInt32}
    (hfits : base.toNat + byteLength source.toList < UInt32.size)
    (h : parseAt source base = .ok definitions) :
    LaidOut source base.toNat Definition.parse Definition.span Definition.extAttrs definitions
      (Token.significant (Token.lexAt source base)) ∧
    ∀ d ∈ definitions, ∀ c ∈ d.container?, ∃ ts,
      ts <:+: Token.significant (Token.lexAt source base) ∧
      LaidOut source base.toNat (Member.parse (c.kind == .dictionary)) Member.span
        Member.extAttrs c.members ts ∧
      ∀ m ∈ c.members, d.span.start < m.span.start ∧ m.span.stop < d.span.stop := by
  rw [parseAt_eq hfits] at h
  rw [Token.lexAt_eq hfits]
  exact ofSource_laid h

/-- One definition and one member have brackets, and the others do without. -/
def bracketedText : String :=
  "[A] interface B \x7b attribute any c; [D] stringifier; \x7d; typedef B E;"

theorem parseAt_laid_bracketedText : ∃ definitions,
    (3 : UInt32).toNat + byteLength bracketedText.toList < UInt32.size ∧
    parseAt bracketedText 3 = .ok definitions ∧ definitions.map span = [⟨3, 57⟩, ⟨58, 70⟩] ∧
    definitions.map (fun d => d.members.map Member.span) = [[⟨21, 37⟩, ⟨38, 54⟩], []] ∧
    LaidOut bracketedText 3 Definition.parse Definition.span Definition.extAttrs definitions
      (Token.significant (Token.lexAt bracketedText 3)) ∧
    ∀ d ∈ definitions, ∀ c ∈ d.container?, ∀ m ∈ c.members,
      d.span.start < m.span.start ∧ m.span.stop < d.span.stop := by
  have hfits : (3 : UInt32).toNat + byteLength bracketedText.toList < UInt32.size := by
    decide +kernel
  have hspans : (parseAt bracketedText 3).toOption.map (fun definitions =>
      (definitions.map span, definitions.map fun d => d.members.map Member.span))
      = some ([⟨3, 57⟩, ⟨58, 70⟩], [[⟨21, 37⟩, ⟨38, 54⟩], []]) := by decide +kernel
  obtain ⟨definitions, hparse, heq⟩ := exists_of_toOption hspans
  obtain ⟨hdefinitions, hmembers⟩ := Prod.mk.inj heq
  obtain ⟨hlaid, hinside⟩ := parseAt_laid hfits hparse
  refine ⟨definitions, hfits, hparse, hdefinitions, hmembers, hlaid, fun d hd c hc => ?_⟩
  obtain ⟨_, -, -, hbetween⟩ := hinside d hd c hc
  exact hbetween

def emptyBody : String := "interface A \x7b\x7d;"

/-- Where it ends at byte `2 ^ 32`, the place of its `;` wraps around, and its own place is empty. -/
theorem not_laid_emptyBody : ∃ d,
    (4294967281 : UInt32).toNat + byteLength emptyBody.toList = UInt32.size ∧
    parseAt emptyBody 4294967281 = .ok [d] ∧ d.span = ⟨4294967281, 4294967281⟩ ∧
    ∀ ts, ¬d.span.Laid emptyBody 4294967281 d.extAttrs ts := by
  have hspans : (parseAt emptyBody 4294967281).toOption.map (List.map span)
      = some [⟨4294967281, 4294967281⟩] := by decide +kernel
  obtain ⟨definitions, hparse, heq⟩ := exists_of_toOption hspans
  obtain ⟨d, rfl, hspan⟩ := List.map_eq_singleton_iff.1 heq
  refine ⟨d, by decide, hparse, hspan, fun ts hlaid => ?_⟩
  have hlt := hlaid.nonempty
  rw [hspan] at hlt
  exact Nat.lt_irrefl _ hlt

end Definition

end IdlBindings
