import MessageLayout.Proofs.QuotedElements
import MessageLayout.Proofs.QuotedLayout

/-!
# Quotations

A quotation of texts, line breaks, styles and code blocks comes to rows, each behind a mark. Only the
lines of a code block behind its first stand without: code is put aside while the marks are set, and
comes back last. A mark of the text itself is guarded at the start of the text and behind its line
feeds, but not behind a line break, a tag or a code block.

    renderText c ds = pure s, and s is written of the parts of ds           (exists_renderText_quotable)
    renderMrkdwn options (a quotation of ds) = unlines rows, each row behind a mark, and
      (∀ row ∈ rows, ¬IsDoublyQuoted row) ↔ marksAreFirst (quotationParts ds)
                                                                              (renderMrkdwn_quotation)
-/

namespace MessageLayout

open Mrkdwn (QuotePart enclosedParts)

/-! ## Trees -/

/-- The elements that a quotation may hold for its rows to be told: line breaks, styles, spans and
code blocks. -/
def quotableNames : List String :=
  ["br", "b", "strong", "i", "em", "s", "strike", "del", "code", "span", "pre"]

mutual

/-- Whether a node is such an element and holds such elements and texts. -/
def Node.isQuotable : Node → Bool
  | ⟨kind, _, children, hook⟩ =>
    kind.tagName?.any quotableNames.contains && hook.isNone && childrenAreQuotable children

/-- Whether all children are texts or such elements. -/
def childrenAreQuotable : List Child → Bool
  | [] => true
  | .node n :: ds => n.isQuotable && childrenAreQuotable ds
  | .text _ :: ds => childrenAreQuotable ds

end

/-- Whether such an element is passed through within the elements of `ancestry`. -/
def Ancestry.passesThrough (ancestry : Ancestry) (name : String) : Bool :=
  ancestry.isChildOf ["pre", "code"] ||
    (Markup.Inline.ofName? name).any fun kind => ancestry.isDescendantOf kind.hiddenWithin

/-- The parts of an element around some parts, within the elements of `ancestry`. -/
def elementParts (ancestry : Ancestry) (name : String) (within : List QuotePart) : List QuotePart :=
  if name = "br" then [.lineBreak]
  else if ancestry.passesThrough name then within
  else if name = "pre" then [.code (within.any QuotePart.shows)]
  else enclosedParts within

mutual

/-- The parts of a node for the rows of a quotation. -/
def Node.quoteParts (ancestry : Ancestry) : Node → List QuotePart
  | ⟨kind, _, children, _⟩ =>
    match kind.tagName? with
    | some name => elementParts ancestry name (childrenQuoteParts (ancestry.push name) children)
    | none => []

/-- The parts of some children for the rows of a quotation. -/
def childrenQuoteParts (ancestry : Ancestry) : List Child → List QuotePart
  | [] => []
  | .node n :: ds => n.quoteParts ancestry ++ childrenQuoteParts ancestry ds
  | .text s :: ds => s.toList.map QuotePart.ofChar ++ childrenQuoteParts ancestry ds

end

/-! ## Fragments -/

namespace Markup

variable {ps : List QuotePart} {content : List Char} {ancestry : Ancestry}

theorem exists_kind_of_mem_quotableNames {name : String} (hn : name ∈ quotableNames) (hbr : name ≠ "br") :
    (name = "pre" ∧ Inline.ofName? name = some .codeBlock) ∨
      name ≠ "pre" ∧ ∃ kind, Inline.ofName? name = some kind ∧
        (kind ∈ [.strong, .emphasis, .strike, .code] ∨ kind = .plain ∧ name = "span") := by
  have hstyles : ∀ n ∈ ["b", "strong", "i", "em", "s", "strike", "del", "code"], n ≠ "pre" ∧
      ∃ kind ∈ [Inline.strong, .emphasis, .strike, .code], Inline.ofName? n = some kind := by
    decide
  by_cases hstyle : name ∈ ["b", "strong", "i", "em", "s", "strike", "del", "code"]
  · obtain ⟨hpre, kind, hkind, hk⟩ := hstyles name hstyle
    exact .inr ⟨hpre, kind, hk, .inl hkind⟩
  have hrest : ∀ n ∈ quotableNames, n ≠ "br" →
      n ∉ ["b", "strong", "i", "em", "s", "strike", "del", "code"] → n = "span" ∨ n = "pre" := by
    decide
  rcases hrest name hn hbr hstyle with rfl | rfl
  · exact .inr ⟨by decide, .plain, rfl, .inr ⟨rfl, rfl⟩⟩
  · exact .inl ⟨rfl, rfl⟩

/-- A style is written around content of the same parts. -/
theorem exists_write_quoteText {kind : Inline} {name : String} (attrs : Attributes)
    (hk : kind ∈ [.strong, .emphasis, .strike, .code] ∨ kind = .plain ∧ name = "span")
    (h : QuoteText ps content) :
    ∃ html, kind.write name attrs content ancestry = .ok html ∧
      QuoteText (enclosedParts ps) html := by
  simp only [List.mem_cons, List.not_mem_nil, or_false] at hk
  rcases hk with (rfl | rfl | rfl | rfl) | ⟨rfl, rfl⟩
  · exact ⟨_, rfl, .enclosed (by decide) (h.guardText (.of_substitute (by decide)))⟩
  · exact ⟨_, rfl, .enclosed (by decide) (h.guardText .of_substituteUnderscores)⟩
  · exact ⟨_, rfl, .enclosed (by decide) (h.guardText (.of_substitute (by decide)))⟩
  · exact ⟨_, rfl, .enclosed (by decide) (h.guardText (.of_substitute (by decide)))⟩
  · exact ⟨_, rfl, .enclosed (by decide) h⟩

/-- An element is written around content of some parts to a text of its parts. -/
theorem exists_renderTag_quoteText {name : String} (hn : name ∈ quotableNames) (attrs : Attributes)
    (ancestry : Ancestry) (h : QuoteText ps content) :
    ∃ html, renderTag name attrs content ancestry = .ok html ∧
      QuoteText (elementParts ancestry name ps) html := by
  by_cases hbr : name = "br"
  · subst hbr
    refine ⟨lineBreak, rfl, ?_⟩
    rw [← List.append_nil lineBreak]
    exact .lineBreak .nil
  have hother : (name != "a") = true ∧ (name != "time") = true := by
    have hall : ∀ n ∈ quotableNames, (n != "a") = true ∧ (n != "time") = true := by decide
    exact hall name hn
  by_cases hchild : ancestry.isChildOf ["pre", "code"] = true
  · refine ⟨content, ?_, ?_⟩
    · simp only [renderTag, if_neg hbr, hchild, hother.1, hother.2, Bool.and_self, if_true]
    · simpa only [elementParts, Ancestry.passesThrough, if_neg hbr, hchild, Bool.true_or, if_true]
        using h
  rw [Bool.not_eq_true] at hchild
  have key : ∀ kind, Inline.ofName? name = some kind →
      (∃ html, kind.write name attrs content ancestry = .ok html ∧
        QuoteText (if name = "pre" then [.code (ps.any QuotePart.shows)] else enclosedParts ps)
          html) →
      ∃ html, renderTag name attrs content ancestry = .ok html ∧
        QuoteText (elementParts ancestry name ps) html := by
    intro kind hk hwritten
    simp only [renderTag, elementParts, Ancestry.passesThrough, if_neg hbr, hchild, Bool.false_and,
      Bool.false_or, Bool.false_eq_true, if_false, hk, Option.any_some]
    by_cases hhidden : ancestry.isDescendantOf kind.hiddenWithin = true
    · simp only [hhidden, if_true]
      exact ⟨content, rfl, h⟩
    · simpa only [hhidden, Bool.false_eq_true, if_false] using hwritten
  rcases exists_kind_of_mem_quotableNames hn hbr with ⟨rfl, hk⟩ | ⟨hpre, kind, hk, hkind⟩
  · exact key _ hk ⟨_, rfl, (h.guardText (.of_substitute (by decide))).codeBlock⟩
  · refine key kind hk ?_
    rw [if_neg hpre]
    exact exists_write_quoteText attrs hkind h

end Markup

namespace Render

open Markup

mutual

theorem exists_renderNode_quotable {c : Context} (hc : c.mode = .html) : (n : Node) →
    n.isQuotable = true →
    ∃ s, renderNode c n = pure (.text s) ∧ QuoteText (n.quoteParts c.ancestry) s
  | ⟨kind, ⟨entries⟩, children, hook⟩, h => by
    simp only [Node.isQuotable, Bool.and_eq_true, Option.any_eq_true, Option.isNone_iff_eq_none,
      List.contains_iff_mem] at h
    obtain ⟨⟨⟨name, hname, hn⟩, rfl⟩, hchildren⟩ := h
    cases kind with
    | tag name' =>
      obtain rfl := Option.some.inj hname
      obtain ⟨content, hcontent, hparts⟩ :=
        exists_renderText_quotable (c := c.enter name') hc children hchildren
      obtain ⟨html, hhtml, hq⟩ := exists_renderTag_quoteText hn ⟨entries⟩ c.ancestry hparts
      refine ⟨html, ?_, hq⟩
      rw [renderNode_tag hc, hcontent, pure_bind, hhtml]
      rfl
    | _ => cases hname

/-- Children that a quotation may hold are written to a text of their parts. -/
theorem exists_renderText_quotable {c : Context} (hc : c.mode = .html) : (ds : List Child) →
    childrenAreQuotable ds = true →
    ∃ s, renderText c ds = pure s ∧ QuoteText (childrenQuoteParts c.ancestry ds) s
  | [], _ => ⟨[], rfl, .nil⟩
  | .node n :: ds, h => by
    simp only [childrenAreQuotable, Bool.and_eq_true] at h
    obtain ⟨s, hs, hps⟩ := exists_renderNode_quotable hc n h.1
    obtain ⟨t, ht, hpt⟩ := exists_renderText_quotable hc ds h.2
    refine ⟨s ++ t, ?_, hps.append hpt⟩
    simp only [renderText, renderChild, hs, ht, pure_bind]
    rfl
  | .text s :: ds, h => by
    obtain ⟨t, ht, hpt⟩ := exists_renderText_quotable hc ds h
    refine ⟨Text.escapeEntity s.toList ++ t, ?_, (QuoteText.of_escapeEntity s.toList).append hpt⟩
    simp only [renderText, renderChild, pure_bind, leaf, hc, Output.toText, ht]
    rfl

end

end Render

/-! ## Both stages -/

/-- The parts of the content of a quotation that stands by itself. -/
def quotationParts (ds : List Child) : List QuotePart :=
  childrenQuoteParts ((∅ : Ancestry).push "blockquote") ds

/-- A quotation. -/
def quotation (attributes : Attributes) (ds : List Child) : Child :=
  .node ⟨.tag "blockquote", attributes, ds, none⟩

section Quotation

open Render Markup

/-- A quotation is written around the guarded text of its parts. -/
theorem exists_renderFragment_quotation (options : FormatOptions) (attributes : Attributes)
    {ds : List Child} (h : childrenAreQuotable ds = true) :
    ∃ s, QuoteText (guardedParts true (quotationParts ds)) s ∧
      renderFragment options (.ofChild (quotation attributes ds))
        = .ok (String.ofList (enclose "blockquote" [] s)) := by
  obtain ⟨content, hcontent, hparts⟩ := exists_renderText_quotable
    (c := ((Context.ofOptions options).withMode .html).enter "blockquote") rfl ds h
  refine ⟨guardQuote content, hparts.guardAt true, ?_⟩
  have hx : renderText ((Context.ofOptions options).withMode .html) [quotation attributes ds]
      = pure (enclose "blockquote" [] (guardQuote content)) := by
    rw [quotation, renderText_singleton, renderChild, renderNode_tag rfl, hcontent]
    rfl
  rw [CodePlace.renderFragment_of_renderText (Content.normalize_ofChild _) hx]
  rfl

/-- A quotation in which something shows comes to rows, each behind a mark, with its code blocks whole.
No row has two marks if and only if every mark of the text that comes first on a row stands where the
guard looks for it. -/
theorem renderMrkdwn_quotation (options : FormatOptions) (attributes : Attributes) {ds : List Child}
    (h : childrenAreQuotable ds = true)
    (hs : (quotationParts ds).any QuotePart.shows = true) :
    ∃ out blocks rows, renderMrkdwn options (.ofChild (quotation attributes ds)) = .ok out ∧
      out.toList = Text.unlines rows ∧ Mrkdwn.QuotationRows blocks rows ∧
        blocks.length = (quotationParts ds).count (.code true) ∧
          ((∀ row ∈ rows, ¬Mrkdwn.IsDoublyQuoted row) ↔ marksAreFirst (quotationParts ds) = true) := by
  obtain ⟨s, hparts, hfragment⟩ := exists_renderFragment_quotation options attributes h
  obtain ⟨inner, hinner, hcount, hparse⟩ := Html.exists_parse_quotation hparts
  obtain ⟨hshows, hcode⟩ := guardedParts_eq true (quotationParts ds)
  have hvisible : Html.Dom.HasVisible inner := by
    rwa [← Mrkdwn.any_shows_quotePartsOf inner hinner, hcount, Html.any_shows_filter, hshows]
  obtain ⟨rows, hout, hrows, hsingle⟩ := Mrkdwn.ofDoms_blockquote options [] hinner hvisible
  have hmrkdwn := renderMrkdwn_eq_map_renderFragment options (.ofChild (quotation attributes ds))
  rw [hfragment] at hmrkdwn
  refine ⟨_, _, rows, hmrkdwn, ?_, hrows, ?_, ?_⟩
  · rw [String.toList_ofList, String.toList_ofList, Mrkdwn.ofHtml, hparse, hout]
  · rw [Mrkdwn.length_codeBlocksOf _ inner hinner, hcount, List.count_filter rfl, hcode]
  · rw [hsingle, hcount, Mrkdwn.rowAfter?_filter, isSome_rowAfter?_eq_marksAreFirst]

/-- A quotation of a text with marks of its own, a style and a code block of two lines. -/
theorem renderMrkdwn_quotation_mixed :
    let ds : List Child := [.text "> a\n> b", .node ⟨.tag "br", ⟨[]⟩, [], none⟩,
      .node ⟨.tag "b", ⟨[]⟩, [.text "c"], none⟩, .node ⟨.tag "pre", ⟨[]⟩, [.text "x\ny"], none⟩]
    let out := "&gt; \u00ad&gt; a \u00ad&gt; b\n&gt; *c*\n&gt; \x60\x60\x60\nx\ny\n\x60\x60\x60"
    childrenAreQuotable ds = true ∧ (quotationParts ds).any QuotePart.shows = true ∧
      marksAreFirst (quotationParts ds) = true ∧
        renderMrkdwn {} (.ofChild (quotation ⟨[]⟩ ds)) = .ok out ∧
          ∃ blocks rows, out.toList = Text.unlines rows ∧ Mrkdwn.QuotationRows blocks rows ∧
            blocks.length = 1 ∧ ∀ row ∈ rows, ¬Mrkdwn.IsDoublyQuoted row := by
  intro ds out
  have h : childrenAreQuotable ds = true := by cbv
  have hs : (quotationParts ds).any QuotePart.shows = true := by cbv
  have hfirst : marksAreFirst (quotationParts ds) = true := by cbv
  have hcount : (quotationParts ds).count (.code true) = 1 := by cbv
  have hresult : renderMrkdwn {} (.ofChild (quotation ⟨[]⟩ ds)) = .ok out := by cbv
  obtain ⟨out', blocks, rows, hout, htext, hrows, hblocks, hsingle⟩ :=
    renderMrkdwn_quotation {} ⟨[]⟩ h hs
  obtain rfl : out = out' := Except.ok.inj (hresult.symm.trans hout)
  exact ⟨h, hs, hfirst, hresult, blocks, rows, htext, hrows, hblocks.trans hcount, hsingle.mpr hfirst⟩

/-- A mark of the text right behind a line break is not guarded, and its row has two. -/
theorem renderMrkdwn_quotation_doublyQuoted :
    let ds : List Child := [.text "a", .node ⟨.tag "br", ⟨[]⟩, [], none⟩, .text "> b"]
    let out := "&gt; a\n&gt; &gt; b"
    renderMrkdwn {} (.ofChild (quotation ⟨[]⟩ ds)) = .ok out ∧
      ∃ row ∈ Text.lines out.toList, Mrkdwn.IsDoublyQuoted row := by
  refine ⟨by cbv, "&gt; &gt; b".toList, by decide, ?_⟩
  exact ⟨" b".toList, rfl⟩

/-- Behind its first line a code block stands without marks. -/
example : renderMrkdwn {} (.ofChild (quotation ⟨[]⟩ [.node ⟨.tag "pre", ⟨[]⟩, [.text "a"], none⟩]))
    = .ok "&gt; \x60\x60\x60\na\n\x60\x60\x60" := by
  cbv

end Quotation

end MessageLayout
