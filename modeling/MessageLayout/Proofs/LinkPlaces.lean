import MessageLayout.Proofs.LinkTags
import MessageLayout.Proofs.VisibleText

/-!
# Links in a fragment

A link in inline children is written as an element with its target, whatever elements stand around
it, and with something to show if its children have it. The guards of the elements around leave the
tags of the link as they are; only a quotation puts soft hyphens before quote marks that start lines
of the target.

    LinkedText href p s → LinkedText href p (guardText f s)              (LinkedText.guardText)
    LinkIn href children ds → renderText c ds writes a LinkedText        (LinkIn.writes_linkedText)
-/

namespace MessageLayout

mutual

/-- Whether a node is a line break, or holds one or a text with a character that is no blank, in no
code block. -/
def Node.isVisible : Node → Bool
  | ⟨kind, _, children, _⟩ =>
    kind.tagName?.any fun name => name == "br" || name != "pre" && childrenAreVisible children

/-- Whether some child is or holds something to show. -/
def childrenAreVisible : List Child → Bool
  | [] => false
  | .node n :: ds => n.isVisible || childrenAreVisible ds
  | .text s :: ds => s.toList.any (fun c => !Text.isBlank c && c != '\x00') || childrenAreVisible ds

end

/-- Whether a link with the given target and children has something to show: its children do, or it
mentions someone and has no children, so that a text stands for them. -/
def LinkShows (href : String) (children : List Child) : Prop :=
  childrenAreVisible children = true ∨
    children.isEmpty = true ∧ (Mention.ofHref? href.toList).isSome = true

instance (href : String) (children : List Child) : Decidable (LinkShows href children) :=
  inferInstanceAs (Decidable (_ ∨ _))

/-- A link with the given target and children is among the children, or below them in elements that
show a link. A quotation does unless a line of the target starts with a quote mark. -/
inductive LinkIn (href : String) (children : List Child) : List Child → Prop
  | here {left right : List Child} {attributes : Attributes} :
      Targets href attributes →
        LinkIn href children (left ++ .node ⟨.tag "a", attributes, children, none⟩ :: right)
  | within {name : String} {attributes : Attributes} {left inner right : List Child} :
      name ∉ ["a", "br", "code", "pre", "time"] → (name = "blockquote" → Unquoted href.toList) →
        LinkIn href children inner →
          LinkIn href children (left ++ .node ⟨.tag name, attributes, inner, none⟩ :: right)

namespace Markup

/-! ## Content of links -/

/-- The content of a link, with something to show if so told. -/
structure LinkContent (shows : Prop) (s : List Char) : Prop where
  balanced : Balanced true true s
  visible : shows → Visible s

variable {shows : Prop} {s t : List Char}

theorem LinkContent.alike (h : LinkContent shows s) (ha : Alike s t) : LinkContent shows t :=
  ⟨h.balanced.alike ha, fun hs => (h.visible hs).alike ha⟩

theorem LinkContent.append {shows' : Prop} (h : LinkContent shows s) (h' : LinkContent shows' t) :
    LinkContent (shows ∨ shows') (s ++ t) := by
  refine ⟨h.balanced.append h'.balanced, ?_⟩
  rintro (hs | hs)
  · exact (h.visible hs).append_balanced h'.balanced
  · exact .balanced_append h.balanced (h'.visible hs)

theorem linkContent_escapeEntity (s : List Char) :
    LinkContent (s.any (fun c => !Text.isBlank c && c != '\x00') = true) (Text.escapeEntity s) := by
  refine ⟨.of_escapeEntity s, fun h => ?_⟩
  simp only [List.any_eq_true, Bool.and_eq_true, Bool.not_eq_true', bne_iff_ne, ne_eq] at h
  obtain ⟨c, hc, hb, hz⟩ := h
  refine .of_escapeEntity hc hb fun he => hz ?_
  rw [← Char.ofNat_toNat c, he]

/-- An element in a link shows what is in it. -/
theorem visible_renderTag {name : String} {entries : List (String × AttrValue)} {ancestry : Ancestry}
    {content html : List Char} (ha : name = "ol" → entries.all (fun e => isAttrName e.1) = true)
    (hl : ancestry.isDescendantOf ["a"] = true) (hpre : name ≠ "pre")
    (hv : name = "br" ∨ Visible content)
    (hr : renderTag name ⟨entries⟩ content ancestry = .ok html) :
    Visible html := by
  simp only [renderTag] at hr
  split at hr
  · obtain rfl := Except.ok.inj hr
    have hb : Visible ([] ++ (lineBreak ++ [])) := .lineBreak .nil .nil
    simpa using hb
  next hbr =>
    have hv := hv.resolve_left hbr
    split at hr
    · exact Except.ok.inj hr ▸ hv
    · split at hr
      · cases hr
      next kind hk =>
        split at hr
        · exact Except.ok.inj hr ▸ hv
        next hshown =>
          have hlink : kind ≠ .link := by
            rintro rfl
            have hsub : ["a"] ⊆ Inline.link.hiddenWithin := by decide
            rw [not_isDescendantOf_of_subset hsub (by simpa using hshown)] at hl
            cases hl
          have hcode : kind ≠ .codeBlock := by
            rintro rfl
            exact hpre (Inline.eq_of_onlyName? hk rfl)
          obtain ⟨written, attrs, changed, ht, -, hne, -, halike, rfl⟩ :=
            Inline.exists_enclose true true hk ⟨hlink, hcode⟩ (fun _ => rfl) ha hr
          exact (hv.alike halike).enclosed ht hne

/-! ## Text with a link -/

/-- A text with a link to the given target within any elements, and with something to show in the
link if so told. -/
inductive LinkedText (href : List Char) (shows : Prop) : List Char → Prop
  | intro {names : List String} {before attrs content : List Char} (after : List Char) :
      Opened true names before → HrefText href attrs → '>' ∉ attrs → LinkContent shows content →
        LinkedText href shows (before ++ (enclose "a" attrs content ++ after))

namespace LinkedText

variable {href : List Char}

theorem append (h : LinkedText href shows s) (t : List Char) : LinkedText href shows (s ++ t) := by
  obtain ⟨after, hb, hh, hgt, hc⟩ := h
  rw [List.append_assoc, List.append_assoc]
  exact .intro _ hb hh hgt hc

theorem balanced_append (hs : Balanced true false s) (h : LinkedText href shows t) :
    LinkedText href shows (s ++ t) := by
  obtain ⟨after, hb, hh, hgt, hc⟩ := h
  rw [← List.append_assoc]
  exact .intro after (.balanced_append hs hb) hh hgt hc

/-- A link by itself. -/
theorem of_link {attrs content : List Char} (hh : HrefText href attrs) (hgt : '>' ∉ attrs)
    (hc : LinkContent shows content) : LinkedText href shows (enclose "a" attrs content) := by
  have h : LinkedText href shows ([] ++ (enclose "a" attrs content ++ [])) :=
    .intro [] (.here .nil) hh hgt hc
  simpa using h

theorem enclosed {name : String} {attrs : List Char} (hn : name ∈ placeNames)
    (ht : TagText true false name attrs) (h : LinkedText href shows s) :
    LinkedText href shows (enclose name attrs s) := by
  cases h with
  | @intro names before attrs' content after hb hh hgt hc =>
    have hopened : Opened true (name :: names)
        ([] ++ '<' :: (name.toList ++ (attrs ++ '>' :: before))) := .within .nil hn ht hb
    have hin := intro (after ++ "</".toList ++ name.toList ++ ['>']) hopened hh hgt hc
    have he : enclose name attrs (before ++ (enclose "a" attrs' content ++ after))
        = [] ++ '<' :: (name.toList ++ (attrs ++ '>' :: before))
            ++ (enclose "a" attrs' content ++ (after ++ "</".toList ++ name.toList ++ ['>'])) := by
      rw [enclose]
      simp only [List.append_assoc, List.cons_append, List.nil_append]
    rw [he]
    exact hin

theorem enclose_link_append (attrs content after : List Char) :
    enclose "a" attrs content ++ after
      = '<' :: ('a' :: attrs ++ '>' :: (content ++ '<' :: ("/a".toList ++ '>' :: after))) := by
  have hopen : "a".toList = ['a'] := rfl
  have hclose : "</".toList = ['<', '/'] := rfl
  have hend : "/a".toList = ['/', 'a'] := rfl
  simp [enclose, hopen, hclose, hend]

/-- The guard of a style works on what stands before a tag without a bracket in it by itself, and
leaves the tag as it is. -/
theorem exists_guardFrom_tag (f : List Char → List Char) (depth : Nat) {s w : List Char}
    (hs : Closed s) (hw : '>' ∉ w) :
    ∃ depth', ∀ t, guardFrom f depth (spans (s ++ '<' :: (w ++ '>' :: t)))
      = guardFrom f depth (spans s) ++ '<' :: (w ++ '>' :: guardFrom f depth' (spans t)) := by
  obtain ⟨depth', h⟩ := exists_guardFrom_append f depth (spans s)
  refine ⟨codeDepth depth' ('<' :: w ++ ['>']), fun t => ?_⟩
  have hcut : spans (s ++ '<' :: (w ++ '>' :: t))
      = spans s ++ .tag ('<' :: w ++ ['>']) :: spans t := by
    rw [spans, spansFrom_append hs (by simp) false [] (by simp), spansFrom_tag hw]
    rfl
  rw [hcut, h, guardFrom]
  simp

/-- The guard of a style leaves a link a link with the same tag. -/
theorem guardText {f : List Char → List Char} (hf : ∀ s, Alike s (f s))
    (h : LinkedText href shows s) : LinkedText href shows (guardText f s) := by
  cases h with
  | @intro names before attrs content after hb hh hgt hc =>
    have hstart : '>' ∉ 'a' :: attrs := by simpa using hgt
    obtain ⟨d₁, h₁⟩ := exists_guardFrom_tag f 0 hb.closed hstart
    obtain ⟨d₂, h₂⟩ := exists_guardFrom_tag f d₁ hc.balanced.closed (w := "/a".toList) (by decide)
    have hcontent := alike_guardFrom hf d₁ (spans content)
    rw [flatMap_content_spans] at hcontent
    rw [enclose_link_append, Markup.guardText, h₁, h₂, ← enclose_link_append]
    exact .intro _ (hb.alike (alike_guardText hf before)) hh hgt (hc.alike hcontent)

/-- The guard of a quotation leaves a link a link with the same target, unless a line of the target
starts with a quote mark. -/
theorem guardQuote (hq : Unquoted href) (h : LinkedText href shows s) :
    LinkedText href shows (guardQuote s) := by
  cases h with
  | @intro names before attrs content after hb hh hgt hc =>
    have hgt' : '>' ∉ guardLater attrs := not_mem_of_alike (by decide) (alike_guardLater attrs) hgt
    have hend : guardLater ("/a".toList ++ '>' :: after)
        = "/a".toList ++ '>' :: guardLater after := by
      rw [guardLater_append_of_not_mem (by decide), guardLater_cons (by decide)]
    rw [enclose_link_append, guardQuote_append, List.cons_append, guardLater_cons (by decide),
      guardLater_append (by decide) (by decide), guardLater_append (by decide) (by decide), hend,
      ← List.cons_append, ← enclose_link_append]
    exact .intro _ (hb.alike (alike_guardQuote before))
      (changesValues_guardLater.hrefText (guardLater_escapeAttr hq) hh) hgt'
      (hc.alike (alike_guardLater content))

end LinkedText

/-- An element around a link is written around the text with it. -/
theorem LinkedText.write {href : List Char} {content html : List Char}
    (h : LinkedText href shows content) {kind : Inline} {name : String} {entries : List (String × AttrValue)} {ancestry : Ancestry}
    (hk : Inline.ofName? name = some kind) (hn : name ∉ ["a", "br", "code", "pre", "time"])
    (hq : name = "blockquote" → Unquoted href)
    (ha : name = "ol" → entries.all (fun e => isAttrName e.1) = true)
    (hl : ancestry.isDescendantOf ["a"] = false)
    (hr : kind.write name ⟨entries⟩ content ancestry = .ok html) : LinkedText href shows html := by
  have hplace : ∀ {written : String} {s : List Char}, written ∈ placeNames →
      LinkedText href shows s → LinkedText href shows (enclose written [] s) :=
    fun hw hs => hs.enclosed hw (tagText_of_mem_placeNames hw)
  have hother : ∀ only, kind.onlyName? = some only → only ∉ ["a", "br", "code", "pre", "time"] :=
    fun only ho => Inline.eq_of_onlyName? hk ho ▸ hn
  cases kind with
  | strong =>
    obtain rfl := Except.ok.inj hr
    exact hplace (by decide) (h.guardText (alike_substitute (by decide)))
  | emphasis =>
    obtain rfl := Except.ok.inj hr
    exact hplace (by decide) (h.guardText alike_substituteUnderscores)
  | strike =>
    obtain rfl := Except.ok.inj hr
    exact hplace (by decide) (h.guardText (alike_substitute (by decide)))
  | paragraph =>
    obtain rfl := Except.ok.inj hr
    exact hplace (by decide) h
  | quotation =>
    simp only [Inline.write, hl] at hr
    obtain rfl := Except.ok.inj hr
    exact hplace (by decide) (h.guardQuote (hq (Inline.eq_of_onlyName? hk rfl)))
  | numberedList =>
    obtain rfl := Except.ok.inj hr
    have hol : name = "ol" := Inline.eq_of_onlyName? hk rfl
    exact h.enclosed (by decide) ⟨by decide, fun _ => rfl, attrsText_writeAttrs (ha hol),
      fun hs => absurd hs (by decide), fun e => absurd e (by decide), fun e => absurd e (by decide)⟩
  | plain =>
    obtain rfl := Except.ok.inj hr
    have hm := Inline.mem_of_ofName?_plain hk
    have hall : ["small", "span", "ul", "li"] ⊆ placeNames := by decide
    exact hplace (hall hm) h
  | code => exact absurd (by simp) (hother "code" rfl)
  | codeBlock => exact absurd (by simp) (hother "pre" rfl)
  | link => exact absurd (by simp) (hother "a" rfl)
  | time => exact absurd (by simp) (hother "time" rfl)

/-- An element around a link keeps it, whether it is written or passed through. -/
theorem LinkedText.renderTag {href : List Char} {content html : List Char}
    (h : LinkedText href shows content) {name : String} {entries : List (String × AttrValue)}
    {ancestry : Ancestry} (hn : name ∉ ["a", "br", "code", "pre", "time"])
    (hq : name = "blockquote" → Unquoted href)
    (ha : name = "ol" → entries.all (fun e => isAttrName e.1) = true)
    (hl : ancestry.isDescendantOf ["a"] = false)
    (hr : Markup.renderTag name ⟨entries⟩ content ancestry = .ok html) :
    LinkedText href shows html := by
  have hbr : name ≠ "br" := by
    rintro rfl
    simp at hn
  simp only [Markup.renderTag, hbr, if_false] at hr
  split at hr
  · exact Except.ok.inj hr ▸ h
  · split at hr
    · cases hr
    · split at hr
      · exact Except.ok.inj hr ▸ h
      · exact h.write ‹_› hn hq ha hl hr

/-- The target of a link is that of its attributes. -/
theorem str?_of_targets {href : String} {attributes : Attributes} (h : Targets href attributes) :
    attributes.str? "href" = some href := by
  obtain ⟨entries⟩ := attributes
  obtain ⟨before, after, rfl, hbefore⟩ := h
  have hnone : before.lookup "href" = none := by
    refine List.lookup_eq_none_iff.mpr fun e he => ?_
    rw [bne_iff_ne]
    exact fun heq => hbefore e he (by rw [← heq]; decide)
  simp [Fields.str?, Fields.get?, List.lookup_append, hnone, AttrValue.str?, Json.str?]

/-- A link is written with its target, and shows what its children show, or that it mentions. -/
theorem linkedText_write {href : String} {children : List Child}
    {entries : List (String × AttrValue)} {content : List Char} (ht : Targets href ⟨entries⟩)
    (ha : entries.all (fun e => isAttrName e.1) = true)
    (hc : LinkContent (childrenAreVisible children = true) content)
    (hempty : children.isEmpty = true → content = []) :
    LinkedText href.toList (LinkShows href children)
      (enclose "a" (writeAttrs ⟨entries⟩) (linkContent ⟨entries⟩ content)) := by
  refine .of_link (hrefText_writeAttrs ht ha) (gt_not_mem_writeAttrs ha)
    ⟨hc.balanced.linkContent _, ?_⟩
  have hlabel : Text.escapeEntity emptyMentionLabel = emptyMentionLabel := by decide
  have hshown : Visible emptyMentionLabel := by
    rw [← hlabel]
    exact .of_escapeEntity (c := 's') (by decide) rfl (by decide)
  simp only [linkContent, str?_of_targets ht, Option.bind_some]
  rintro (hv | ⟨hnone, hm⟩)
  · split
    · exact hshown
    · exact hc.visible hv
  · rw [hempty hnone, hm]
    exact hshown

end Markup

namespace Render

open Markup

theorem inLink_enter {c : Context} (hl : c.inLink = true) (name : String) :
    (c.enter name).inLink = true := by
  rw [Context.inLink] at hl
  rw [Context.inLink, Context.enter, Ancestry.isDescendantOf_push, hl, Bool.or_true]

mutual

theorem writes_content_renderNode {c : Context} (hc : c.mode = .html) (hl : c.inLink = true) :
    (n : Node) → n.isInline true = true →
      Writes (fun o => LinkContent (n.isVisible = true) o.toText) (renderNode c n)
  | ⟨kind, ⟨entries⟩, children, hook⟩, h => by
    simp only [Node.isInline, Bool.and_eq_true, Option.any_eq_true, Bool.or_eq_true,
      Bool.not_eq_true', Option.isNone_iff_eq_none] at h
    obtain ⟨⟨⟨name, hname, hn, ha⟩, rfl⟩, hchildren⟩ := h
    cases kind with
    | tag name' =>
      obtain rfl := Option.some.inj hname
      have ha : name' ∈ ["a", "ol"] → entries.all (fun e => isAttrName e.1) = true := fun hm => by
        simpa [hm] using ha
      have hlink := inLink_enter hl name'
      rw [renderNode_tag hc]
      refine (writes_content_renderText (c := c.enter name') hc hlink children hchildren).bind
        fun content hin => ?_
      have hbalanced : Balanced true (c.enter name').inLink content := by
        rw [hlink]
        exact hin.balanced
      have hwritten := written_renderTag (by simpa using hn) ha hbalanced
      refine (Writes.ofExcept (hwritten.imp fun html hr hb => ?_)).bind fun html h => .pure h
      have hout : Balanced true c.inLink html := hb
      rw [hl] at hout
      refine ⟨hout, fun hv => ?_⟩
      simp only [Node.isVisible, Kind.tagName?, Option.any_some, Bool.or_eq_true, beq_iff_eq,
        Bool.and_eq_true, bne_iff_ne, ne_eq] at hv
      refine visible_renderTag (fun e => ha (by simp [e])) hl ?_
        (hv.imp_right fun h => hin.visible h.2) hr
      rintro rfl
      simp at hv
    | _ => cases hname

/-- The children of a link are written to its content. -/
theorem writes_content_renderText {c : Context} (hc : c.mode = .html) (hl : c.inLink = true) :
    (ds : List Child) → childrenAreInline true ds = true →
      Writes (LinkContent (childrenAreVisible ds = true)) (renderText c ds)
  | [], _ => .pure ⟨.nil, fun h => absurd h (by simp [childrenAreVisible])⟩
  | .node n :: ds, h => by
    simp only [childrenAreInline, Bool.and_eq_true] at h
    simp only [renderText, renderChild, childrenAreVisible, Bool.or_eq_true]
    refine (writes_content_renderNode hc hl n h.1).bind fun o ho => ?_
    exact (writes_content_renderText hc hl ds h.2).bind fun s hs => .pure (ho.append hs)
  | .text s :: ds, h => by
    simp only [renderText, renderChild, pure_bind, childrenAreVisible, Bool.or_eq_true]
    refine (writes_content_renderText hc hl ds h).bind fun t ht => .pure (LinkContent.append ?_ ht)
    simp only [leaf, hc, Output.toText]
    exact linkContent_escapeEntity s.toList

end

variable {c : Context} {href : String} {children : List Child} {entries : List (String × AttrValue)}

/-- A link is written where no link and no date stands around it. -/
theorem writes_link (hc : c.mode = .html) (hout : c.ancestry.isDescendantOf ["a", "time"] = false)
    (ht : Targets href ⟨entries⟩)
    (hn : Node.isInline true ⟨.tag "a", ⟨entries⟩, children, none⟩ = true) :
    Writes (fun o => LinkedText href.toList (LinkShows href children) o.toText)
      (renderNode c ⟨.tag "a", ⟨entries⟩, children, none⟩) := by
  simp only [Node.isInline, Bool.and_eq_true, Option.any_eq_true, Bool.or_eq_true,
    Bool.not_eq_true', Kind.tagName?, Option.some.injEq] at hn
  obtain ⟨⟨⟨_, rfl, -, ha⟩, -⟩, hchildren⟩ := hn
  have hin : (c.enter "a").inLink = true := by simp [Context.inLink, Context.enter]
  have hshown : c.ancestry.isDescendantOf Inline.link.hiddenWithin = false := hout
  have hwrite : ∀ content, renderTag "a" ⟨entries⟩ content c.ancestry
      = .ok (enclose "a" (writeAttrs ⟨entries⟩) (linkContent ⟨entries⟩ content)) := fun content => by
    simp [renderTag, Inline.ofName?, hshown, Inline.write]
  have hempty : children.isEmpty = true → renderText (c.enter "a") children = pure [] := by
    cases children with
    | nil => exact fun _ => by rw [renderText]
    | cons d ds => exact fun h => by cases h
  rw [renderNode_tag hc]
  rcases writes_content_renderText (c := c.enter "a") hc hin children hchildren with
    ⟨text, hfail⟩ | ⟨content, hcontent, hok⟩
  · exact .inl ⟨text, by rw [hfail, fail_bind]⟩
  · rw [hok, pure_bind, hwrite]
    refine .pure (linkedText_write ht (by simpa using ha) hcontent fun he => ?_)
    have hnil := hok.symm.trans (hempty he)
    cases hnil
    rfl

/-- An element around a link is written to a text with the link. -/
theorem writes_around_link {name : String} {shows : Prop} {inner : List Child} (hc : c.mode = .html)
    (hout : c.ancestry.isDescendantOf ["a", "time"] = false)
    (hname : name ∉ ["a", "br", "code", "pre", "time"])
    (hq : name = "blockquote" → Unquoted href.toList)
    (hn : Node.isInline true ⟨.tag name, ⟨entries⟩, inner, none⟩ = true)
    (hinner : Writes (LinkedText href.toList shows) (renderText (c.enter name) inner)) :
    Writes (fun o => LinkedText href.toList shows o.toText)
      (renderNode c ⟨.tag name, ⟨entries⟩, inner, none⟩) := by
  simp only [Node.isInline, Bool.and_eq_true, Option.any_eq_true, Bool.or_eq_true,
    Bool.not_eq_true', Kind.tagName?, Option.some.injEq] at hn
  obtain ⟨⟨⟨_, rfl, hkind, ha⟩, -⟩, hchildren⟩ := hn
  have ha' : name ∈ ["a", "ol"] → entries.all (fun e => isAttrName e.1) = true := fun hm => by
    simpa [hm] using ha
  have hlink : c.ancestry.isDescendantOf ["a"] = false :=
    not_isDescendantOf_of_subset (by simp) hout
  rw [renderNode_tag hc]
  refine ((writes_renderText (c := c.enter name) hc inner hchildren).and hinner).bind
    fun content hcontent => ?_
  have hwritten := written_renderTag (by simpa using hkind) ha' hcontent.1
  refine (Writes.ofExcept (hwritten.imp fun html hr _ => ?_)).bind fun html h => .pure h
  exact hcontent.2.renderTag hname hq (fun e => ha' (by simp [e])) hlink hr

/-- Siblings stand beside a node with a link. -/
theorem writes_beside_link {shows : Prop} {left right : List Child} {n : Node} (hc : c.mode = .html)
    (hout : c.ancestry.isDescendantOf ["a", "time"] = false)
    (hl : childrenAreInline true left = true) (hr : childrenAreInline true right = true)
    (hn : Writes (fun o => LinkedText href.toList shows o.toText) (renderNode c n)) :
    Writes (LinkedText href.toList shows) (renderText c (left ++ .node n :: right)) := by
  have hlink : c.inLink = false := not_isDescendantOf_of_subset (by simp) hout
  rw [renderText_append]
  refine (writes_renderText hc left hl).bind fun s hs => ?_
  rw [hlink] at hs
  simp only [renderText, renderChild, bind_assoc, pure_bind]
  refine hn.bind fun o ho => (writes_renderText hc right hr).bind fun t _ => .pure ?_
  exact .balanced_append hs (ho.append t)

end Render

open Render Markup

/-- Children with a link in them are written to a text with the link, wherever no link and no date
stands around them. -/
theorem LinkIn.writes_linkedText {href : String} {children ds : List Child}
    (h : LinkIn href children ds) {c : Context} (hc : c.mode = .html)
    (hout : c.ancestry.isDescendantOf ["a", "time"] = false)
    (hds : childrenAreInline true ds = true) :
    Writes (LinkedText href.toList (LinkShows href children)) (renderText c ds) := by
  induction h generalizing c with
  | @here left right attributes ht =>
    rw [childrenAreInline_append, Bool.and_eq_true, childrenAreInline, Bool.and_eq_true] at hds
    obtain ⟨hleft, hnode, hright⟩ := hds
    exact writes_beside_link hc hout hleft hright (writes_link hc hout ht hnode)
  | @within name attributes left inner right hname hq _ ih =>
    rw [childrenAreInline_append, Bool.and_eq_true, childrenAreInline, Bool.and_eq_true] at hds
    obtain ⟨hleft, hnode, hright⟩ := hds
    have hinner := hnode
    simp only [Node.isInline, Bool.and_eq_true] at hinner
    have hplain : (c.enter name).ancestry.isDescendantOf ["a", "time"] = false := by
      simp only [List.mem_cons, not_or] at hname
      simp [Context.enter, Ancestry.isDescendantOf_push, hout, hname]
    exact writes_beside_link hc hout hleft hright
      (writes_around_link hc hout hname hq hnode (ih (c := c.enter name) hc hplain hinner.2))

end MessageLayout
