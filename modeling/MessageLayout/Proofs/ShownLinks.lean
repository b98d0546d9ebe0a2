import MessageLayout.Proofs.KeptLinks
import MessageLayout.Proofs.LinkLines

/-!
# Links that are shown

A link of a fragment is an element of the document, wherever it stands and whatever is in it. The
layout leaves an element out if it is blank, with all that is in it. A link itself is never left
out, but an element around it may be blank, and then the link is lost. So a link is written as long
as no element around it is blank, and in particular if it has something to show itself.

    ShownIn link body → the layout writes the token of the link          (holdsToken_ofDoms)
    LinkIn href children content → the document keeps the link, and the mrkdwn holds its token
      if the link has something to show                                  (renderMrkdwn_keeps_link)
-/

namespace MessageLayout

namespace Mrkdwn

open Html
open Html.Dom (HasVisible)

/-! ## Elements that are shown -/

/-- A node is among others or in them, and no element around it hides it or is blank. -/
inductive ShownIn (x : Dom) : List Dom → Prop
  | here {ds : List Dom} : x ∈ ds → ShownIn x ds
  | within {name : String} {attrs : Attrs} {children ds : List Dom} :
      name ∉ hidingNames → showsBlank name = true ∨ HasVisible children → ShownIn x children →
        .element name attrs children ∈ ds → ShownIn x ds

/-- A node that shows something makes the elements around it show something. -/
theorem shownIn_of_keptIn {x : Dom} {ds : List Dom} (h : KeptIn x ds) (hx : HasVisible [x]) :
    ShownIn x ds := by
  induction h with
  | here hm => exact .here hm
  | within hn h hm ih => exact .within hn (.inr (h.hasVisible hx)) ih hm

/-! ## Tokens of links -/

/-- What a link with the given target shows: a mention, or a bracket with the target. -/
def Item.ofTarget (href : List Char) : Item :=
  match Mention.ofHref? href with
  | some m => .mention m
  | none => .link href

/-- A text holds the token of a link with the given target: the mention, or a bracket with the
encoded target and a label. -/
def HoldsToken (s href : List Char) : Prop :=
  match Mention.ofHref? href with
  | some m => m.token <:+: s
  | none => ∃ label, HoldsLink s (Text.Uri.encode href) label

theorem HoldsToken.append {s href : List Char} (h : HoldsToken s href) (p : List Char) :
    HoldsToken (p ++ s) href := by
  simp only [HoldsToken] at h ⊢
  split
  next m hm =>
    rw [hm] at h
    exact h.trans (List.suffix_append p s).isInfix
  next hm =>
    rw [hm] at h
    obtain ⟨label, h⟩ := h
    exact ⟨label, h.append p⟩

theorem mem_itemsOf {d : Dom} {ds : List Dom} {parent : String} {i : Item} (hd : d ∈ ds)
    (hi : i ∈ items parent d) : i ∈ itemsOf parent ds := by
  induction ds with
  | nil => cases hd
  | cons e ds ih =>
    rcases List.mem_cons.mp hd with rfl | hd
    · exact List.mem_append_left _ hi
    · exact List.mem_append_right _ (ih hd)

/-- A link in the document that no blank element is around is an item of the document. -/
theorem ofTarget_mem_itemsOf {attrs : Attrs} {children ds : List Dom} {href : List Char}
    (hhref : attrs.lookup "href" = some href) (hne : href ≠ [])
    (h : ShownIn (.element "a" attrs children) ds) (parent : String) :
    Item.ofTarget href ∈ itemsOf parent ds := by
  induction h generalizing parent with
  | here hm =>
    refine mem_itemsOf hm ?_
    have hshows : showsBlank "a" = true := rfl
    simp only [items, hshows, fencedCode?_of_ne (show "a" ≠ "pre" by decide), shownAs, hhref,
      Item.ofTarget]
    cases href with
    | nil => exact absurd rfl hne
    | cons c href => cases hm : Mention.ofHref? (c :: href) <;> simp [hm]
  | @within name attrs' inner ds hn hb _ hm ih =>
    simp only [hidingNames, List.mem_cons, List.not_mem_nil, or_false, not_or] at hn
    obtain ⟨ha, hpre, hbr⟩ := hn
    have hshown : (!showsBlank name && (Dom.element name attrs' inner).isBlank) = false := by
      rcases hb with hb | hb
      · simp [hb]
      · simp [Dom.isBlank_element_eq_false.mpr hb]
    refine mem_itemsOf hm ?_
    simp only [items, hshown, fencedCode?_of_ne hpre, shownAs_of_ne hbr ha]
    exact ih name

/-- A text with a link among its items holds the token of the link. -/
theorem Spells.holdsToken {F : Fences} {x : Open} {is : List Item} {s href : List Char}
    (h : Spells F .complete x is s []) (hi : Item.ofTarget href ∈ is) : HoldsToken s href := by
  generalize hz : ([] : Open) = z at h
  induction h with
  | nil => cases hi
  | @step x y z is js p t hs h ih =>
    subst hz
    rcases List.mem_append.mp hi with hi | hi
    · cases hs with
      | char _ _ _ => cases hi
      | date => cases hi
      | close => cases hi
      | link href' =>
        obtain ⟨hm, rfl⟩ : Mention.ofHref? href = none ∧ href = href' := by
          unfold Item.ofTarget at hi
          split at hi <;> simp_all
        obtain ⟨-, -, l, rest, -, rfl, hl, -, -⟩ := Spells.exists_close [] h
        simp only [HoldsToken, hm]
        exact ⟨l, fun c => Text.Uri.isPlain_of_mem_encode, closes_zero_iff.mp hl, [], rest, by simp⟩
      | @mention _ _ href' m hm' =>
        have hm : Mention.ofHref? href = some m := by
          unfold Item.ofTarget at hi
          split at hi <;> simp_all
        simp only [HoldsToken, hm]
        exact (List.prefix_append _ _).isInfix
      | mark hstage _ _ => exact absurd rfl hstage
      | code b =>
        unfold Item.ofTarget at hi
        split at hi <;> simp at hi
    · exact (ih hi rfl).append p

/-- A link in the document that no blank element is around is written. -/
theorem holdsToken_ofDoms (options : FormatOptions) {attrs : Attrs} {children body : List Dom}
    {href : List Char} (hhref : attrs.lookup "href" = some href) (hne : href ≠ [])
    (hdates : Dom.EveryOf UnbracketedDate body) (h : ShownIn (.element "a" attrs children) body) :
    HoldsToken (ofDoms (delimiters options) body) href := by
  obtain ⟨F, hs⟩ := spells_ofDoms options hdates
  exact hs.holdsToken (ofTarget_mem_itemsOf hhref hne h "body")

end Mrkdwn

open Html Mrkdwn

/-- A link of inline children is an element of the document with its target, whatever elements are
around it and whatever is in it. Where no element around it in the document is blank, the mrkdwn
holds its token, and that is so if the link has something to show. -/
theorem renderMrkdwn_keeps_link (options : FormatOptions) {content : Content} {href : String}
    {children : List Child} (h : LinkIn href children content.normalize)
    (hinline : childrenAreInline true content.normalize = true) (hne : href ≠ "")
    (hz : '\x00' ∉ href.toList) (hr : '\r' ∉ href.toList) :
    (∃ text, renderMrkdwn options content = .error (.invalidDatetime text)) ∨
      ∃ html out attrs link, renderFragment options content = .ok html ∧
        renderMrkdwn options content = .ok out ∧ attrs.lookup "href" = some href.toList ∧
        KeptIn (.element "a" attrs link) (parse html.toList) ∧
        (ShownIn (.element "a" attrs link) (parse html.toList) →
          HoldsToken out.toList href.toList) ∧
        (LinkShows href children → HoldsToken out.toList href.toList) := by
  have hwrites := (Render.writes_renderText rfl _ hinline).and
    (h.writes_linkedText (c := (Render.Context.ofOptions options).withMode .html) rfl rfl hinline)
  rcases exists_renderFragment hwrites with
    ⟨text, -, hfail⟩ | ⟨html, out, hhtml, hout, he, hbal, hlinked⟩
  · exact .inl ⟨text, hfail⟩
  · have hdates := everyOf_unbracketedDate_parse hbal
    obtain ⟨attrs, link, hhref, hvisible, hkept⟩ := keptIn_parse_link hz hr hlinked
    have htoken : ShownIn (.element "a" attrs link) (parse html.toList) →
        HoldsToken out.toList href.toList := fun hs => by
      rw [he]
      exact holdsToken_ofDoms options hhref (by simpa using hne) hdates hs
    refine .inr ⟨html, out, attrs, link, hhtml, hout, hhref, hkept, htoken, fun hs => ?_⟩
    exact htoken (shownIn_of_keptIn hkept (Dom.hasVisible_element.mpr (.inr (hvisible hs))))

/-- A link with a text, in bold in a list. -/
theorem renderMrkdwn_keeps_link_in_list :
    let tag (name : String) (children : List Child) : Child := .node ⟨.tag name, ⟨[]⟩, children, none⟩
    let link : Child := .node ⟨.tag "a", ⟨[("href", .json (.str "https://example.com"))]⟩,
      [.text "x"], none⟩
    let content : Content := .ofChild (tag "ul" [tag "li" [tag "b" [.text "see ", link]]])
    LinkIn "https://example.com" [.text "x"] content.normalize ∧
      LinkShows "https://example.com" [.text "x"] ∧
        renderMrkdwn {} content = .ok "• *see <https://example.com|x>*" ∧
          ∃ out, renderMrkdwn {} content = .ok out ∧
            HoldsToken out.toList "https://example.com".toList := by
  intro tag link content
  have hlink : LinkIn "https://example.com" [.text "x"] [.text "see ", link] :=
    @LinkIn.here _ _ [.text "see "] [] _ ⟨[], [], rfl, fun _ h => absurd h List.not_mem_nil⟩
  have hbold : LinkIn "https://example.com" [.text "x"] [tag "b" [.text "see ", link]] :=
    @LinkIn.within _ _ "b" ⟨[]⟩ [] _ [] (by decide) (fun h => absurd h (by decide)) hlink
  have hitem : LinkIn "https://example.com" [.text "x"] [tag "li" [tag "b" [.text "see ", link]]] :=
    @LinkIn.within _ _ "li" ⟨[]⟩ [] _ [] (by decide) (fun h => absurd h (by decide)) hbold
  have hlist : LinkIn "https://example.com" [.text "x"] content.normalize :=
    @LinkIn.within _ _ "ul" ⟨[]⟩ [] _ [] (by decide) (fun h => absurd h (by decide)) hitem
  have hshows : LinkShows "https://example.com" [.text "x"] := by decide
  have hok : renderMrkdwn {} content = .ok "• *see <https://example.com|x>*" := by cbv
  refine ⟨hlist, hshows, hok, ?_⟩
  rcases renderMrkdwn_keeps_link {} hlist (by decide) (by decide) (by decide) (by decide) with
    ⟨text, hfail⟩ | ⟨html, out, attrs, inner, -, hout, -, -, -, htoken⟩
  · rw [hok] at hfail
    cases hfail
  · exact ⟨out, hout, htoken hshows⟩

/-- A link without children in bold: the bold element is blank, and the link is lost with it. -/
theorem renderMrkdwn_link_lost :
    let link : Child := .node ⟨.tag "a", ⟨[("href", .json (.str "https://example.com"))]⟩, [], none⟩
    let content : Content := .ofChild (.node ⟨.tag "b", ⟨[]⟩, [link], none⟩)
    childrenAreInline true content.normalize = true ∧
      LinkIn "https://example.com" [] content.normalize ∧
        renderMrkdwn {} (.ofChild link) = .ok "<https://example.com|>" ∧
          renderMrkdwn {} content = .ok "" ∧
            ¬HoldsToken "".toList "https://example.com".toList := by
  intro link content
  have hlink : LinkIn "https://example.com" [] [link] :=
    @LinkIn.here _ _ [] [] _ ⟨[], [], rfl, fun _ h => absurd h List.not_mem_nil⟩
  have hbold : LinkIn "https://example.com" [] content.normalize :=
    @LinkIn.within _ _ "b" ⟨[]⟩ [] _ [] (by decide) (fun h => absurd h (by decide)) hlink
  have halone : renderFragment {} (.ofChild link)
      = .ok "<a href=\"https://example.com\"></a>" := rfl
  have hfragment : renderFragment {} content
      = .ok "<b><a href=\"https://example.com\"></a></b>" := rfl
  have hshown : renderMrkdwn {} (.ofChild link) = .ok "<https://example.com|>" := by
    rw [renderMrkdwn_eq_map_renderFragment, halone]
    cbv
  have hlost : renderMrkdwn {} content = .ok "" := by
    rw [renderMrkdwn_eq_map_renderFragment, hfragment]
    cbv
  refine ⟨by decide, hbold, hshown, hlost, ?_⟩
  have hm : Mention.ofHref? "https://example.com".toList = none := by decide
  simp only [HoldsToken, hm]
  rintro ⟨label, -, -, before, after, h⟩
  simp at h

end MessageLayout
