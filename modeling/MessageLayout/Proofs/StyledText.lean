import MessageLayout.Proofs.LineEdges
import MessageLayout.Proofs.QuotedElements

/-!
# Styled text

Children that are texts, line breaks and styles are written to a fragment of the same, and the tree
that is read from it holds no other elements. So the delimiters of their mrkdwn hug the lines that
they are put around, but for spaces that stand before line breaks.

    StyledText (the fragment of the children)                          (exists_renderText_styled)
    StyledText s → EveryOf StyleOrBreak (parse s)                        (everyOf_styleOrBreak_parse)
    EveryOf (HugsLines …) (parse html), html the fragment of the children      (renderMrkdwn_hugsLines)
-/

namespace MessageLayout

open Mrkdwn (styleNames StyleOrBreak)

/-! ## Fragments -/

namespace Markup

/-- The names that styles are written with. -/
def writtenStyles : List String :=
  ["b", "i", "s", "code", "span", "small"]

/-- A fragment of texts, line breaks and styles. -/
inductive StyledText : List Char → Prop
  | nil : StyledText []
  | char {c : Char} {s : List Char} : c ≠ '<' → c ≠ '&' → StyledText s → StyledText (c :: s)
  | entity {c : Char} {s : List Char} :
      c ∈ ['&', '<', '>'] → StyledText s → StyledText (Text.entity c ++ s)
  | lineBreak {s : List Char} : StyledText s → StyledText (Markup.lineBreak ++ s)
  | element {name : String} {content s : List Char} :
      name ∈ writtenStyles → StyledText content → StyledText s →
        StyledText (enclose name [] content ++ s)

theorem written_of_mem_writtenStyles {name : String} (h : name ∈ writtenStyles) :
    name ∈ writtenNames := by
  have hall : ∀ n ∈ writtenStyles, n ∈ writtenNames := by decide
  exact hall name h

namespace StyledText

variable {s t content : List Char}

theorem append (h : StyledText s) (h' : StyledText t) : StyledText (s ++ t) := by
  induction h with
  | nil => exact h'
  | char hc ha _ ih => exact char hc ha ih
  | entity hc _ ih =>
    rw [List.append_assoc]
    exact entity hc ih
  | lineBreak _ ih =>
    rw [List.append_assoc]
    exact lineBreak ih
  | element hn hc _ _ ih =>
    rw [List.append_assoc]
    exact element hn hc ih

theorem hyphens (n : Nat) : StyledText (List.replicate n '\u00ad') := by
  induction n with
  | zero => exact nil
  | succ n ih => exact char (by decide) (by decide) ih

theorem of_escapeEntity (s : List Char) : StyledText (Text.escapeEntity s) := by
  induction s with
  | nil => exact nil
  | cons c s ih =>
    rw [Text.escapeEntity_cons]
    by_cases hc : c ∈ ['&', '<', '>']
    · exact entity hc ih
    · simp only [List.mem_cons, List.not_mem_nil, or_false, not_or] at hc
      rw [Text.entity_of_ne hc.1 hc.2.1 hc.2.2]
      exact char hc.2.1 hc.1 ih

theorem enclosed {name : String} (hn : name ∈ writtenStyles) (h : StyledText content) :
    StyledText (enclose name [] content) := by
  rw [← List.append_nil (enclose name [] content)]
  exact element hn h nil

/-- Harmless changes leave a styled text a styled text. -/
theorem alike (h : StyledText s) (ha : Alike s t) : StyledText t := by
  induction h generalizing t with
  | nil =>
    cases ha
    exact nil
  | @char c s hc hamp h ih =>
    generalize hx : c :: s = x at ha
    cases ha with
    | nil => cases hx
    | char d ha =>
      obtain ⟨rfl, rfl⟩ := List.cons.inj hx
      exact char hc hamp (ih ha)
    | swap hd ha =>
      obtain ⟨rfl, rfl⟩ := List.cons.inj hx
      exact char (mem_lookalikes hd).2.2.1 (mem_lookalikes hd).2.2.2.1 (ih ha)
    | lineEnd ha =>
      obtain ⟨rfl, rfl⟩ := List.cons.inj hx
      exact ih (.char '\n' ha)
    | hyphen _ => exact absurd (List.cons.inj hx).1 hamp
  | @entity c s hc _ ih =>
    obtain ⟨w, hw, hfirm⟩ := exists_entity hc
    rw [hw] at ha
    obtain ⟨n, t₁, rfl, h₁⟩ := ha.exists_ampersand
    obtain ⟨t', rfl, h'⟩ := h₁.exists_append hfirm
    refine (hyphens n).append ?_
    rw [← List.cons_append, ← hw]
    exact entity hc (ih h')
  | lineBreak _ ih =>
    obtain ⟨t', rfl, h'⟩ := ha.exists_append (Text.forall_mem_of_all (by decide))
    exact lineBreak (ih h')
  | @element name content s hn _ _ ihc ih =>
    obtain ⟨-, content', s', rfl, rfl, hc, hs⟩ := alike_enclose (P := fun attrs => attrs = [])
      (written_of_mem_writtenStyles hn) (fun {u v} h => by
        obtain ⟨v', rfl, h'⟩ := h.exists_cons (by decide)
        exact ⟨[], v', rfl, rfl, h'⟩) ha
    exact element hn (ihc hc) (ih hs)

theorem dropMark (h : StyledText s) : StyledText (Html.dropMark s) := by
  unfold Html.dropMark
  split
  next s =>
    generalize hx : '\ufeff' :: s = x at h
    cases h with
    | nil => cases hx
    | char _ _ h =>
      obtain ⟨rfl, rfl⟩ := List.cons.inj hx
      exact h
    | entity hc _ =>
      obtain ⟨w, hw, -⟩ := exists_entity hc
      rw [hw] at hx
      exact absurd (List.cons.inj hx).1 (by decide)
    | lineBreak _ => exact absurd (List.cons.inj hx).1 (by decide)
    | element _ _ _ => exact absurd (List.cons.inj hx).1 (by decide)
  · exact h

end StyledText

/-! ## Elements -/

variable {content : List Char}

/-- A style is written around styled text to styled text. -/
theorem exists_write_styled {name : String} (hn : name ∈ styleNames) (attrs : Attributes)
    (ancestry : Ancestry) (h : StyledText content) :
    ∃ kind html, Inline.ofName? name = some kind ∧ kind.write name attrs content ancestry = .ok html ∧
      StyledText html := by
  have hguard : ∀ {c d : Char}, (c, d) ∈ lookalikes → StyledText (guardText (substitute c d) content) :=
    fun hcd => h.alike (alike_guardText (alike_substitute hcd) _)
  simp only [styleNames, List.mem_cons, List.not_mem_nil, or_false] at hn
  rcases hn with rfl | rfl | rfl | rfl | rfl | rfl | rfl | rfl | rfl | rfl
  · exact ⟨.strong, _, rfl, rfl, .enclosed (by decide) (hguard (by decide))⟩
  · exact ⟨.strong, _, rfl, rfl, .enclosed (by decide) (hguard (by decide))⟩
  · exact ⟨.emphasis, _, rfl, rfl,
      .enclosed (by decide) (h.alike (alike_guardText alike_substituteUnderscores _))⟩
  · exact ⟨.emphasis, _, rfl, rfl,
      .enclosed (by decide) (h.alike (alike_guardText alike_substituteUnderscores _))⟩
  · exact ⟨.strike, _, rfl, rfl, .enclosed (by decide) (hguard (by decide))⟩
  · exact ⟨.strike, _, rfl, rfl, .enclosed (by decide) (hguard (by decide))⟩
  · exact ⟨.strike, _, rfl, rfl, .enclosed (by decide) (hguard (by decide))⟩
  · exact ⟨.code, _, rfl, rfl, .enclosed (by decide) (hguard (by decide))⟩
  · exact ⟨.plain, _, rfl, rfl, .enclosed (by decide) h⟩
  · exact ⟨.plain, _, rfl, rfl, .enclosed (by decide) h⟩

/-- A style or a line break is written to styled text, also where only its content is written. -/
theorem exists_renderTag_styled {name : String} (hn : name = "br" ∨ name ∈ styleNames)
    (attrs : Attributes) (ancestry : Ancestry) (h : StyledText content) :
    ∃ html, renderTag name attrs content ancestry = .ok html ∧ StyledText html := by
  unfold renderTag
  split
  · exact ⟨lineBreak, rfl, .lineBreak .nil⟩
  next hbr =>
    split
    · exact ⟨content, rfl, h⟩
    · obtain ⟨kind, html, hk, hwrite, hstyled⟩ := exists_write_styled (hn.resolve_left hbr) attrs
        ancestry h
      rw [hk]
      dsimp only
      split
      · exact ⟨content, rfl, h⟩
      · exact ⟨html, hwrite, hstyled⟩

end Markup

/-! ## Trees -/

mutual

/-- Whether a node is a style or a line break that holds such elements and texts. -/
def Node.isStyled : Node → Bool
  | ⟨kind, _, children, hook⟩ =>
    kind.tagName?.any ("br" :: styleNames).contains && hook.isNone && childrenAreStyled children

/-- Whether all children are texts, line breaks and styles. -/
def childrenAreStyled : List Child → Bool
  | [] => true
  | .node n :: ds => n.isStyled && childrenAreStyled ds
  | .text _ :: ds => childrenAreStyled ds

end

namespace Render

open Markup

mutual

theorem exists_renderNode_styled {c : Context} (hc : c.mode = .html) : (n : Node) →
    n.isStyled = true → ∃ s, renderNode c n = pure (.text s) ∧ StyledText s
  | ⟨kind, ⟨entries⟩, children, hook⟩, h => by
    simp only [Node.isStyled, Bool.and_eq_true, Option.any_eq_true, Option.isNone_iff_eq_none,
      List.contains_iff_mem, List.mem_cons] at h
    obtain ⟨⟨⟨name, hname, hn⟩, rfl⟩, hchildren⟩ := h
    cases kind with
    | tag name' =>
      obtain rfl := Option.some.inj hname
      obtain ⟨content, hcontent, hstyled⟩ :=
        exists_renderText_styled (c := c.enter name') hc children hchildren
      obtain ⟨html, hhtml, hwritten⟩ := exists_renderTag_styled hn ⟨entries⟩ c.ancestry hstyled
      refine ⟨html, ?_, hwritten⟩
      rw [renderNode_tag hc, hcontent, pure_bind, hhtml]
      rfl
    | _ => cases hname

/-- Children that are texts, line breaks and styles are written to styled text. -/
theorem exists_renderText_styled {c : Context} (hc : c.mode = .html) : (ds : List Child) →
    childrenAreStyled ds = true → ∃ s, renderText c ds = pure s ∧ StyledText s
  | [], _ => ⟨[], rfl, .nil⟩
  | .node n :: ds, h => by
    simp only [childrenAreStyled, Bool.and_eq_true] at h
    obtain ⟨s, hs, hn⟩ := exists_renderNode_styled hc n h.1
    obtain ⟨t, ht, hds⟩ := exists_renderText_styled hc ds h.2
    refine ⟨s ++ t, ?_, hn.append hds⟩
    simp only [renderText, renderChild, hs, ht, pure_bind]
    rfl
  | .text s :: ds, h => by
    obtain ⟨t, ht, hds⟩ := exists_renderText_styled hc ds h
    refine ⟨Text.escapeEntity s.toList ++ t, ?_, (StyledText.of_escapeEntity s.toList).append hds⟩
    simp only [renderText, renderChild, pure_bind, leaf, hc, Output.toText, ht]
    rfl

end

end Render

/-! ## Reading -/

namespace Html

open Markup (StyledText written_of_mem_writtenStyles)

/-- A token of a style or a line break, or of no element. -/
abbrev BringsStyle : Token → Prop :=
  Construction.Brings fun name _ => name = "br" ∨ name ∈ styleNames

/-- The tags of a styled text are those of styles and line breaks. -/
theorem StyledText.exists_runFrom {s : List Char} (h : StyledText s) :
    ∃ ts, runFrom (.reading .text) s = (.reading .text, ts) ∧ ∀ t ∈ ts, BringsStyle t := by
  induction h with
  | nil => exact ⟨[], rfl, nofun⟩
  | @char c s hc ha _ ih =>
    obtain ⟨ts, hr, hts⟩ := ih
    by_cases hz : c.toNat = 0
    · exact ⟨.null :: ts, by simp [runFrom, Mode.step, Place.step, textChar, hc, ha, hz, hr],
        List.forall_mem_cons.mpr ⟨trivial, hts⟩⟩
    · exact ⟨.char c :: ts, by simp [runFrom, Mode.step, Place.step, textChar, hc, ha, hz, hr],
        List.forall_mem_cons.mpr ⟨trivial, hts⟩⟩
  | @entity c s hc _ ih =>
    obtain ⟨ts, hr, hts⟩ := ih
    have hz : c.toNat ≠ 0 := by
      simp only [List.mem_cons, List.not_mem_nil, or_false] at hc
      rcases hc with rfl | rfl | rfl <;> decide
    refine ⟨.char c :: ts, ?_, List.forall_mem_cons.mpr ⟨trivial, hts⟩⟩
    rw [runFrom_append, runFrom_entity hz, hr]
    rfl
  | lineBreak _ ih =>
    obtain ⟨ts, hr, hts⟩ := ih
    have hb : runFrom (.reading .text) Markup.lineBreak = (.reading .text, [.startTag "br" []]) := rfl
    refine ⟨.startTag "br" [] :: ts, ?_, List.forall_mem_cons.mpr ⟨.inl rfl, hts⟩⟩
    rw [runFrom_append, hb, hr]
    rfl
  | @element name content s hn _ _ ihc ih =>
    obtain ⟨us, hrc, hus⟩ := ihc
    obtain ⟨ts, hr, hts⟩ := ih
    have hname : name ∈ styleNames := by
      have hall : ∀ n ∈ Markup.writtenStyles, n ∈ styleNames := by decide
      exact hall name hn
    refine ⟨(.startTag name [] :: us ++ [.endTag name]) ++ ts, ?_, ?_⟩
    · rw [runFrom_append, runFrom_plainElement (written_of_mem_writtenStyles hn) hrc, hr]
    · exact List.forall_mem_append.mpr ⟨List.forall_mem_append.mpr ⟨List.forall_mem_cons.mpr
        ⟨.inr hname, hus⟩, List.forall_mem_singleton.mpr (.inr hname)⟩, hts⟩

/-- The tree of a styled text holds styles and line breaks only. -/
theorem everyOf_styleOrBreak_parse {html : List Char} (h : StyledText html) :
    Dom.EveryOf StyleOrBreak (parse html) := by
  obtain ⟨ts, hr, hts⟩ := StyledText.exists_runFrom (h.dropMark.alike (alike_unifyLineEnds _))
  have hbuilt := everyOf_built_parse (tokens_eq_of_runFrom hr ▸ hts)
  exact Dom.EveryOf.mono (fun _ _ _ hb _ => hb.1) _ hbuilt hbuilt

end Html

/-! ## Both stages -/

section Lines

open Mrkdwn Html

/-- The delimiters in the mrkdwn of texts, line breaks and styles hug the lines that they are put
around: the text between two of them starts with no space, and ends with one only if it stands before
a line break. -/
theorem renderMrkdwn_hugsLines (options : FormatOptions) {content : Content}
    (h : childrenAreStyled content.normalize = true) :
    ∃ html, renderFragment options content = .ok html ∧
      renderMrkdwn options content = .ok (String.ofList (ofHtml options html.toList)) ∧
        Dom.EveryOf (HugsLines (delimiters options)) (parse html.toList) := by
  obtain ⟨s, hs, hstyled⟩ := Render.exists_renderText_styled
    (c := (Render.Context.ofOptions options).withMode .html) rfl content.normalize h
  have hfragment : renderFragment options content = .ok (String.ofList s) :=
    CodePlace.renderFragment_of_renderText rfl hs
  refine ⟨String.ofList s, hfragment, ?_, ?_⟩
  · rw [renderMrkdwn_eq_map_renderFragment, hfragment]
    rfl
  · rw [String.toList_ofList]
    exact everyOf_hugsLines (delimiting_delimiters options) _ (everyOf_styleOrBreak_parse hstyled)

/-- Struck text of two lines within strong text. -/
theorem renderMrkdwn_hugsLines_nested :
    let content : Content := .node ⟨.tag "b", ⟨[]⟩, [.text " a ",
      .node ⟨.tag "s", ⟨[]⟩, [.text "b", .node ⟨.tag "br", ⟨[]⟩, [], none⟩, .text " c "], none⟩], none⟩
    childrenAreStyled content.normalize = true ∧
      ∃ html, renderFragment {} content = .ok html ∧
        renderMrkdwn {} content = .ok (String.ofList (ofHtml {} html.toList)) ∧
          Dom.EveryOf (HugsLines (delimiters {})) (parse html.toList) := by
  intro content
  have h : childrenAreStyled content.normalize = true := by decide
  exact ⟨h, renderMrkdwn_hugsLines {} h⟩

/-- A space before a line break stays between the delimiters of its line. -/
theorem renderMrkdwn_space_before_lineBreak :
    let content : Content := .node ⟨.tag "b", ⟨[]⟩,
      [.text "a ", .node ⟨.tag "br", ⟨[]⟩, [], none⟩, .text "b"], none⟩
    let children : List Dom := [.text "a ".toList, .element "br" [] [], .text "b".toList]
    childrenAreStyled content.normalize = true ∧ renderMrkdwn {} content = .ok "*a *\n*b*" ∧
      parse "<b>a <br />b</b>".toList = [.element "b" [] children] ∧
        renderFragment {} content = .ok "<b>a <br />b</b>" ∧
          ∃ line ∈ Text.lines (styledText (delimiters {}) "b" [] [] children), ∃ rest,
            wrappedText? true line = some rest ∧ (dropBreakMarks rest).getLast? = some ' ' := by
  refine ⟨by decide, by cbv, by cbv, by cbv,
    "a <br />".toList, ?_, "a <br />".toList, ?_, ?_⟩
  · have hlines : Text.lines (styledText (delimiters {}) "b" [] []
        [.text "a ".toList, .element "br" [] [], .text "b".toList])
          = ["a <br />".toList, "b".toList] := by cbv
    rw [hlines]
    exact List.mem_cons_self
  · decide +kernel
  · decide +kernel

end Lines

end MessageLayout
