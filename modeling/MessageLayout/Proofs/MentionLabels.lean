import MessageLayout.Proofs.LabelledText

/-!
# The text for an empty mention

A link that mentions someone and has no content is written with a text in its place, since a link
without text would be dropped. The reader sees the mention and never this text, whatever it is: with
any label as its content, the link is rendered alike, wherever it stands outside of code blocks. A
code block shows the text of what is in it, and so the text for an empty mention in it comes out. When
it is in no part of the mrkdwn is told in `emptyMentionLabel_not_infix`.

    renderMrkdwn options (the children with labels) = renderMrkdwn options (the children)
                                                                          (renderMrkdwn_labelled)
-/

namespace MessageLayout

/-! ## Labels in a tree -/

/-- Whether a code block is written as one within the given elements, and not passed through. -/
def Ancestry.showsCodeBlock (a : Ancestry) : Bool :=
  !(a.isChildOf ["pre", "code"] || a.isDescendantOf Markup.Inline.codeBlock.hiddenWithin)

/-- Whether a link with the given attributes and children mentions someone and has no content. -/
def Render.Context.isEmptyMention (c : Context) (attributes : Attributes)
    (children : List Child) : Bool :=
  ((attributes.str? "href").bind fun href => Mention.ofHref? href.toList).isSome &&
    match renderText (c.enter "a") children with
    | .ok content => content.output.isEmpty
    | .error _ => false

open Render (Context)

mutual

/-- The node with the given label in each link without content that mentions someone, save in code
blocks. In links and dates no further link is written. -/
def Node.labelled (label : String) (c : Context) : Node → Node
  | ⟨.tag name, attributes, children, hook⟩ =>
    if name = "a" then
      ⟨.tag name, attributes,
        if c.isEmptyMention attributes children then [.text label] else children, hook⟩
    else if name = "time" || name = "pre" && c.ancestry.showsCodeBlock then
      ⟨.tag name, attributes, children, hook⟩
    else ⟨.tag name, attributes, childrenLabelled label (c.enter name) children, hook⟩
  | n => n

/-- The children with the given label in each link without content that mentions someone, save in
code blocks. -/
def childrenLabelled (label : String) (c : Context) : List Child → List Child
  | [] => []
  | .node n :: ds => .node (n.labelled label c) :: childrenLabelled label c ds
  | .text s :: ds => .text s :: childrenLabelled label c ds

end

mutual

/-- Whether the names of the attributes of a node and of all nodes below it have no capital
letters. -/
def Node.isLowerCase : Node → Bool
  | ⟨_, ⟨entries⟩, children, _⟩ =>
    entries.all (fun e => e.1.toList.all fun c => !c.isUpper) && childrenAreLowerCase children

/-- Whether the names of the attributes of all nodes among and below the children have no capital
letters. -/
def childrenAreLowerCase : List Child → Bool
  | [] => true
  | .node n :: ds => n.isLowerCase && childrenAreLowerCase ds
  | .text _ :: ds => childrenAreLowerCase ds

end

theorem toLower_of_isUpper_eq_false {c : Char} (h : c.isUpper = false) : c.toLower = c := by
  rw [Char.toLower, dif_neg]
  intro hc
  rw [show c.isUpper = true from decide_eq_true hc] at h
  cases h

/-- Where no name has capital letters, the target of a link is the one that is read. -/
theorem targets_of_str? {href : String} {entries : List (String × AttrValue)}
    (hlower : entries.all (fun e => e.1.toList.all fun c => !c.isUpper) = true)
    (h : Fields.str? ⟨entries⟩ "href" = some href) : Targets href ⟨entries⟩ := by
  obtain ⟨v, hv, hs⟩ := Option.bind_eq_some_iff.mp h
  obtain ⟨before, after, hentries, hbefore⟩ := List.lookup_eq_some_iff.mp hv
  have hvalue : v = .json (.str href) := by
    cases v with
    | json j =>
      cases j with
      | str t => exact congrArg (fun t => AttrValue.json (.str t)) (Option.some.inj hs)
      | _ => cases hs
    | _ => cases hs
  obtain rfl : entries = _ := hentries
  refine ⟨before, after, by rw [hvalue], fun e he hname => ?_⟩
  have hkeep : e.1.toList.map Char.toLower = e.1.toList := by
    have hall := List.all_eq_true.mp (List.all_eq_true.mp hlower e (by simp [he]))
    refine (List.map_congr_left fun c hc => ?_).trans (List.map_id _)
    exact toLower_of_isUpper_eq_false (by simpa using hall c hc)
  have hne := hbefore e he
  rw [hkeep, String.toList_inj] at hname
  rw [hname] at hne
  simp at hne

namespace Markup

variable {u v content content' : List Char}

/-- An element other than a link, a date or a code block is written around texts that differ in
labels to such texts. -/
theorem Labelled.write (hu : IsLabel u) (hv : IsLabel v) (h : Labelled u v content content')
    {kind : Inline} {name : String} {entries : List (String × AttrValue)} {ancestry : Ancestry}
    (hk : Inline.ofName? name = some kind) (hn : name ∉ ["a", "pre", "time"])
    (ha : name = "ol" → entries.all (fun e => isAttrName e.1) = true) :
    ∃ html html', kind.write name ⟨entries⟩ content ancestry = .ok html ∧
      kind.write name ⟨entries⟩ content' ancestry = .ok html' ∧ Labelled u v html html' := by
  have hplain : ∀ {written : String} {s t : List Char},
      written ∈ ["b", "i", "s", "code", "p", "blockquote", "q", "small", "span", "ul", "li"] →
        Labelled u v s t → Labelled u v (enclose written [] s) (enclose written [] t) := by
    intro written s t hw hs
    have hall : ∀ n ∈ ["b", "i", "s", "code", "p", "blockquote", "q", "small", "span", "ul", "li"],
        n ∈ writtenNames ∧ n ≠ "a" ∧ n ≠ "time" ∧ n ≠ "pre" := by decide
    obtain ⟨hw, hna, hnt, hnp⟩ := hall written hw
    have htag : TagText true false written [] := tagText_nil hw (fun _ => rfl) hna hnt
    exact hs.enclosed htag hnp
  have hother : ∀ only, kind.onlyName? = some only → only ∉ ["a", "pre", "time"] :=
    fun only ho => Inline.eq_of_onlyName? hk ho ▸ hn
  have hswap : ∀ {c d : Char}, (c, d) ∈ lookalikes → c.isAlphanum = false →
      Labelled u v (Markup.guardText (substitute c d) content)
        (Markup.guardText (substitute c d) content') := fun hc ha =>
    h.guardText (alike_substitute hc) (substitute_of_not_mem _ (hu.not_mem ha))
      (substitute_of_not_mem _ (hv.not_mem ha)) hu hv
  cases kind with
  | strong => exact ⟨_, _, rfl, rfl, hplain (by decide) (hswap (by decide) (by decide))⟩
  | emphasis =>
    have hword : ∀ {w}, IsLabel w → substituteUnderscores w = w := by
      intro w hw
      have he := substituteUnderscores_append (hw.not_mem (by decide)) []
      have hnil : substituteUnderscores [] = [] := by rw [substituteUnderscores]
      rwa [List.append_nil, substitute_of_not_mem _ (hw.not_mem (by decide)), hnil,
        List.append_nil] at he
    exact ⟨_, _, rfl, rfl, hplain (by decide)
      (h.guardText alike_substituteUnderscores (hword hu) (hword hv) hu hv)⟩
  | strike => exact ⟨_, _, rfl, rfl, hplain (by decide) (hswap (by decide) (by decide))⟩
  | code => exact ⟨_, _, rfl, rfl, hplain (by decide) (hswap (by decide) (by decide))⟩
  | paragraph => exact ⟨_, _, rfl, rfl, hplain (by decide) h⟩
  | quotation =>
    refine ⟨_, _, rfl, rfl, hplain ?_ (h.guardQuote hu hv)⟩
    split <;> decide
  | numberedList =>
    have hol : name = "ol" := Inline.eq_of_onlyName? hk rfl
    have htag : TagText true false "ol" (writeAttrs ⟨entries⟩) :=
      ⟨by decide, fun _ => rfl, attrsText_writeAttrs (ha hol), fun hs => absurd hs (by decide),
        fun e => absurd e (by decide), fun e => absurd e (by decide)⟩
    exact ⟨_, _, rfl, rfl, h.enclosed htag (by decide)⟩
  | plain =>
    have hm := Inline.mem_of_ofName?_plain hk
    have hall : ["small", "span", "ul", "li"]
        ⊆ ["b", "i", "s", "code", "p", "blockquote", "q", "small", "span", "ul", "li"] := by decide
    exact ⟨_, _, rfl, rfl, hplain (hall hm) h⟩
  | codeBlock => exact absurd (by simp) (hother "pre" rfl)
  | link => exact absurd (by simp) (hother "a" rfl)
  | time => exact absurd (by simp) (hother "time" rfl)

/-- An element other than a link, a date or a code block that is shown keeps labels apart from the
rest, whether it is written or passed through. -/
theorem Labelled.renderTag (hu : IsLabel u) (hv : IsLabel v) (h : Labelled u v content content')
    {name : String} {entries : List (String × AttrValue)} {ancestry : Ancestry}
    (hname : name = "br" ∨ (Inline.ofName? name).isSome = true) (hn : name ∉ ["a", "time"])
    (hpre : name = "pre" → ancestry.showsCodeBlock = false)
    (ha : name = "ol" → entries.all (fun e => isAttrName e.1) = true) :
    ∃ html html', Markup.renderTag name ⟨entries⟩ content ancestry = .ok html ∧
      Markup.renderTag name ⟨entries⟩ content' ancestry = .ok html' ∧ Labelled u v html html' := by
  simp only [Markup.renderTag]
  split
  · have hbreak : Balanced true false lineBreak := (fragments_balanced true).lineBreak
    exact ⟨_, _, rfl, rfl, .same (.of_balanced hbreak)⟩
  next hbr =>
    split
    · exact ⟨_, _, rfl, rfl, h⟩
    next hcode =>
      split
      next hk => simp [hbr, hk] at hname
      next kind hk =>
        split
        · exact ⟨_, _, rfl, rfl, h⟩
        next hshown =>
          refine h.write hu hv hk (fun hm => ?_) ha
          have hblock : name = "pre" := by
            simp only [List.mem_cons, List.not_mem_nil, or_false, not_or] at hn hm
            exact (hm.resolve_left hn.1).resolve_right hn.2
          subst hblock
          obtain rfl := Option.some.inj hk
          have hpass := hpre rfl
          simp_all [Ancestry.showsCodeBlock]

end Markup

namespace Render

open Markup

/-! ## Both renderings -/

/-- What two renderings come to: related results and no checks, or the refusal of the same date. -/
def WritesBoth {α : Type} (R : α → α → Prop) (x y : RenderM α) : Prop :=
  (∃ text, x = RenderM.fail (.invalidDatetime text) ∧ y = RenderM.fail (.invalidDatetime text)) ∨
    ∃ a b, R a b ∧ x = pure a ∧ y = pure b

namespace WritesBoth

variable {α β : Type} {R : α → α → Prop} {S : β → β → Prop}

theorem pure {a b : α} (h : R a b) : WritesBoth R (Pure.pure a : RenderM α) (Pure.pure b) :=
  .inr ⟨a, b, h, rfl, rfl⟩

theorem bind {x y : RenderM α} {f g : α → RenderM β} (h : WritesBoth R x y)
    (hf : ∀ a b, R a b → WritesBoth S (f a) (g b)) : WritesBoth S (x >>= f) (y >>= g) := by
  rcases h with ⟨text, rfl, rfl⟩ | ⟨a, b, hab, rfl, rfl⟩
  · exact .inl ⟨text, fail_bind _ f, fail_bind _ g⟩
  · rw [pure_bind, pure_bind]
    exact hf a b hab

/-- A rendering by itself. -/
theorem of_writes {P : α → Prop} {x : RenderM α} (h : Writes P x) (hR : ∀ a, P a → R a a) :
    WritesBoth R x x := by
  rcases h with ⟨text, hx⟩ | ⟨a, ha, hx⟩
  · exact .inl ⟨text, hx, hx⟩
  · exact .inr ⟨a, a, hR a ha, hx, hx⟩

end WritesBoth

variable {label : String}

theorem isLabel_emptyMentionLabel : IsLabel emptyMentionLabel :=
  ⟨by decide, Text.forall_mem_of_all (by decide)⟩

theorem renderText_label (hl : IsLabel label.toList) {c : Context} (hc : c.mode = .html) :
    renderText (c.enter "a") [.text label] = pure label.toList := by
  have hplain := Text.escapeEntity_eq_self_iff.mpr hl.plainWord.plain
  have hmode : (c.enter "a").mode = .html := hc
  simp only [renderText, renderChild, pure_bind, leaf, hmode, Output.toText, if_true, hplain,
    List.append_nil]

/-- A node that gets no label. -/
theorem writesBoth_same (label : String) {c : Context} (hc : c.mode = .html) {n : Node}
    (h : n.isInline true = true) :
    WritesBoth (fun o o' => Labelled emptyMentionLabel label.toList o.toText o'.toText)
      (renderNode c n) (renderNode c n) :=
  .of_writes (writes_renderNode hc n h) fun _ hb => .same (.of_balanced hb)

/-- A link that mentions someone is written with the label in the place of the text for an empty
mention. -/
theorem writesBoth_link (hl : IsLabel label.toList) {c : Context} (hc : c.mode = .html)
    (hout : c.ancestry.isDescendantOf ["a", "time"] = false) {entries : List (String × AttrValue)}
    {children : List Child} (ha : entries.all (fun e => isAttrName e.1) = true)
    (hlower : entries.all (fun e => e.1.toList.all fun c => !c.isUpper) = true)
    (hchildren : childrenAreInline true children = true)
    (hm : c.isEmptyMention ⟨entries⟩ children = true) :
    WritesBoth (fun o o' => Labelled emptyMentionLabel label.toList o.toText o'.toText)
      (renderNode c ⟨.tag "a", ⟨entries⟩, children, none⟩)
      (renderNode c ⟨.tag "a", ⟨entries⟩, [.text label], none⟩) := by
  simp only [Context.isEmptyMention, Bool.and_eq_true] at hm
  obtain ⟨hsome, hempty⟩ := hm
  have hshown : c.ancestry.isDescendantOf Inline.link.hiddenWithin = false := hout
  have hwrite : ∀ content, renderTag "a" ⟨entries⟩ content c.ancestry
      = .ok (enclose "a" (writeAttrs ⟨entries⟩) (linkContent ⟨entries⟩ content)) := fun content => by
    simp [renderTag, Inline.ofName?, hshown, Inline.write]
  have hnone : renderText (c.enter "a") children = pure [] := by
    rcases writes_renderText (c := c.enter "a") hc children hchildren with ⟨text, hx⟩ | ⟨s, -, hx⟩
    · rw [hx] at hempty
      cases hempty
    · rw [hx] at hempty ⊢
      exact congrArg pure (List.isEmpty_iff.mp hempty)
  obtain ⟨m, hbind⟩ := Option.isSome_iff_exists.mp hsome
  obtain ⟨href, hstr, hmention⟩ := Option.bind_eq_some_iff.mp hbind
  have hcontent : linkContent ⟨entries⟩ [] = emptyMentionLabel ∧
      linkContent ⟨entries⟩ label.toList = label.toList := by
    have hne : label.toList.isEmpty = false := List.isEmpty_eq_false_iff.mpr hl.ne_nil
    simp only [linkContent, hsome, hne]
    exact ⟨rfl, rfl⟩
  rw [renderNode_tag hc, renderNode_tag hc, hnone, renderText_label hl hc, pure_bind, pure_bind,
    hwrite, hwrite, hcontent.1, hcontent.2]
  exact .pure (.of_label (hrefText_writeAttrs (targets_of_str? hlower hstr) ha)
    (gt_not_mem_writeAttrs ha) (Option.isSome_iff_exists.mpr ⟨m, hmention⟩))

mutual

theorem writesBoth_renderNode (hl : IsLabel label.toList) {c : Context} (hc : c.mode = .html)
    (hout : c.ancestry.isDescendantOf ["a", "time"] = false) : (n : Node) →
    n.isInline true = true → n.isLowerCase = true →
    WritesBoth (fun o o' => Labelled emptyMentionLabel label.toList o.toText o'.toText)
      (renderNode c n) (renderNode c (n.labelled label c))
  | ⟨kind, ⟨entries⟩, children, hook⟩, h, hlow => by
    have hsame := writesBoth_same label hc h
    simp only [Node.isInline, Bool.and_eq_true, Option.any_eq_true, Bool.or_eq_true,
      Bool.not_eq_true', Option.isNone_iff_eq_none] at h
    obtain ⟨⟨⟨name, hname, hn, ha⟩, rfl⟩, hchildren⟩ := h
    simp only [Node.isLowerCase, Bool.and_eq_true] at hlow
    cases kind with
    | tag name' =>
      obtain rfl := Option.some.inj hname
      have ha : name' ∈ ["a", "ol"] → entries.all (fun e => isAttrName e.1) = true := fun hm => by
        simpa [hm] using ha
      simp only [Node.labelled]
      split
      next hlink =>
        subst hlink
        split
        next hm => exact writesBoth_link hl hc hout (ha (by simp)) hlow.1 hchildren hm
        · exact hsame
      next hlink =>
        split
        · exact hsame
        next hshown =>
          simp only [Bool.or_eq_true, decide_eq_true_eq, Bool.and_eq_true, not_or, not_and,
            Bool.not_eq_true] at hshown
          have hplain : (c.enter name').ancestry.isDescendantOf ["a", "time"] = false := by
            simp [Context.enter, hout, hlink, hshown.1]
          rw [renderNode_tag hc, renderNode_tag hc]
          refine (writesBoth_renderText hl (c := c.enter name') hc hplain children hchildren
            hlow.2).bind fun s t hst => ?_
          obtain ⟨html, html', hs, ht, hrel⟩ : ∃ html html',
              renderTag name' ⟨entries⟩ s c.ancestry = .ok html ∧
                renderTag name' ⟨entries⟩ t c.ancestry = .ok html' ∧
                  Labelled emptyMentionLabel label.toList html html' :=
            hst.renderTag isLabel_emptyMentionLabel hl (hn.imp (by simp) (·.1))
              (by simp [hlink, hshown.1]) hshown.2 (fun e => ha (by simp [e]))
          rw [hs, ht]
          exact .pure hrel
    | _ => cases hname

/-- Children are written with any label as they are without, but for the labels. -/
theorem writesBoth_renderText (hl : IsLabel label.toList) {c : Context} (hc : c.mode = .html)
    (hout : c.ancestry.isDescendantOf ["a", "time"] = false) : (ds : List Child) →
    childrenAreInline true ds = true → childrenAreLowerCase ds = true →
    WritesBoth (Labelled emptyMentionLabel label.toList) (renderText c ds)
      (renderText c (childrenLabelled label c ds))
  | [], _, _ => .pure (.same (.last .nil))
  | .node n :: ds, h, hlow => by
    simp only [childrenAreInline, childrenAreLowerCase, Bool.and_eq_true] at h hlow
    simp only [childrenLabelled, renderText, renderChild]
    refine (writesBoth_renderNode hl hc hout n h.1 hlow.1).bind fun o o' ho => ?_
    exact (writesBoth_renderText hl hc hout ds h.2 hlow.2).bind fun s t hs => .pure (ho.append hs)
  | .text s :: ds, h, hlow => by
    simp only [childrenLabelled, renderText, renderChild, pure_bind]
    refine (writesBoth_renderText hl hc hout ds h hlow).bind fun t t' ht => .pure ?_
    have htext : Balanced true false (Text.escapeEntity s.toList) := .of_escapeEntity _
    simp only [leaf, hc, Output.toText]
    exact Labelled.soup_append (.of_balanced htext) ht

end

end Render

open Render

/-- The text for an empty mention never comes out, save from a code block: with any label in the
place of it, inline children are rendered alike. -/
theorem renderMrkdwn_labelled (options : FormatOptions) {content : Content} {label : String}
    (hl : IsLabel label.toList) (hinline : childrenAreInline true content.normalize = true)
    (hlower : childrenAreLowerCase content.normalize = true) :
    renderMrkdwn options (.ofChildren
        (childrenLabelled label ((Context.ofOptions options).withMode .html) content.normalize))
      = renderMrkdwn options content := by
  have hboth := writesBoth_renderText (c := (Context.ofOptions options).withMode .html) hl rfl rfl _
    hinline hlower
  simp only [renderMrkdwn_eq_map_renderFragment, renderFragment, Content.normalize_ofChildren]
  rcases hboth with ⟨text, hx, hy⟩ | ⟨s, t, hst, hx, hy⟩
  · rw [hx, hy]
  · have hsame := Mrkdwn.ofHtml_of_labelled options isLabel_emptyMentionLabel hl hst
    have hread : ∀ r : List Char, (do
        let html ← (pure r : RenderM (List Char)).checked
        return String.ofList html : Except RenderError String) = .ok (String.ofList r) :=
      fun _ => rfl
    rw [hx, hy, hread, hread, Except.map, Except.map, String.toList_ofList, String.toList_ofList,
      hsame]

/-- A mention without content, in a code block that is passed through in a list. -/
theorem renderMrkdwn_labelled_in_list :
    let tag (name : String) (children : List Child) : Child := .node ⟨.tag name, ⟨[]⟩, children, none⟩
    let list (children : List Child) : List Child :=
      [tag "ul" [tag "li" [tag "pre" [.text "to ",
        .node ⟨.tag "a", ⟨[("href", .json (.str "@here"))]⟩, children, none⟩]]]]
    childrenLabelled "x" ((Context.ofOptions {}).withMode .html) (list []) = list [.text "x"] ∧
      renderMrkdwn {} (.ofChildren (list [])) = .ok "• to <!here|here>" ∧
        renderMrkdwn {} (.ofChildren (list [.text "x"]))
          = renderMrkdwn {} (.ofChildren (list [])) := by
  intro tag list
  have hlabelled : childrenLabelled "x" ((Context.ofOptions {}).withMode .html) (list [])
      = list [.text "x"] := rfl
  have hx : IsLabel "x".toList := ⟨by decide, Text.forall_mem_of_all (by decide)⟩
  have hfragment : renderFragment {} (.ofChildren (list []))
      = .ok "<ul><li>to <a href=\"@here\">specialLink</a></li></ul>" := rfl
  have hparse : Html.parse "<ul><li>to <a href=\"@here\">specialLink</a></li></ul>".toList
      = [.element "ul" [] [.element "li" [] [.text "to ".toList,
          .element "a" [("href", "@here".toList)] [.text "specialLink".toList]]]] := by cbv
  have hlaid : Mrkdwn.layBody (Mrkdwn.delimiters {}) [.element "ul" [] [.element "li" []
      [.text "to ".toList, .element "a" [("href", "@here".toList)] [.text "specialLink".toList]]]]
        = ⟨"\n\n• to <!here|here>\n\n".toList, []⟩ := rfl
  have hmrkdwn : Mrkdwn.ofHtml {} "<ul><li>to <a href=\"@here\">specialLink</a></li></ul>".toList
      = "• to <!here|here>".toList := by
    rw [Mrkdwn.ofHtml, hparse, Mrkdwn.ofDoms, hlaid]
    cbv
  have hsame := @renderMrkdwn_labelled {} (.ofChildren (list [])) "x" hx (by decide) (by decide)
  rw [Content.normalize_ofChildren, hlabelled] at hsame
  refine ⟨hlabelled, ?_, hsame⟩
  rw [renderMrkdwn_eq_map_renderFragment, hfragment]
  exact congrArg (fun s => Except.ok (String.ofList s)) hmrkdwn

/-- A mention without content in a code block: the text for it is shown as code. -/
theorem renderMrkdwn_placeholder_shown :
    let link : Child := .node ⟨.tag "a", ⟨[("href", .json (.str "@here"))]⟩, [], none⟩
    let content : Content := .ofChild (.node ⟨.tag "pre", ⟨[]⟩, [.text "x", link], none⟩)
    childrenAreInline true content.normalize = true ∧
      childrenAreLowerCase content.normalize = true ∧
        renderMrkdwn {} content = .ok "\x60\x60\x60\nxspecialLink\n\x60\x60\x60" ∧
          Markup.emptyMentionLabel
            <:+: "\x60\x60\x60\nxspecialLink\n\x60\x60\x60".toList := by
  intro link content
  exact ⟨by decide, by decide, by cbv, by decide⟩

end MessageLayout
