import MessageLayout.Proofs.DateFragments
import MessageLayout.Proofs.LackedLetters
import MessageLayout.Proofs.MentionLabels

/-!
# Letters that a message lacks

A message that is written without a letter stays without it: no guard, no date and no name of an
element brings in a spare letter. Only the text for an empty mention may, and outside of code blocks
any label will do in its place. So it never comes out of a message that holds no capital L, unless a
code block has a mention without content.

    Lacks x s → Lacks x (fallback i s)                                     (Lacks.fallback)
    childrenLack x ds → Lacks x (what ds are written to)        (writes_lacking_renderText)
    childrenLack x ds → x ∉ (the mrkdwn of ds)                         (renderMrkdwn_lacks)
    childrenLack 'L' ds → ¬ "specialLink" <:+: (the mrkdwn of ds)
                                                         (emptyMentionLabel_not_infix)
-/

namespace MessageLayout

open Html (Lacks)
open Markup (Inline)
open Render (Context)

/-! ## Trees -/

/-- Whether a letter is in no name and in no text of attributes. No name holds an ampersand. -/
def attrsLack (x : Char) (entries : List (String × AttrValue)) : Bool :=
  entries.all fun e =>
    e.1.toList.all (fun c => c != x && c != '&') && (e.2.attrText?.getD []).all (· != x)

mutual

/-- Whether a letter is in no text and in no attribute of a node and of all nodes below it. -/
def Node.lacks (x : Char) : Node → Bool
  | ⟨_, ⟨entries⟩, children, _⟩ => attrsLack x entries && childrenLack x children

/-- Whether a letter is in no text and in no attribute among and below the children. -/
def childrenLack (x : Char) : List Child → Bool
  | [] => true
  | .node n :: ds => n.lacks x && childrenLack x ds
  | .text s :: ds => s.toList.all (· != x) && childrenLack x ds

end

mutual

/-- Whether every mention in a node has content where its link is written, which is outside of other
links and of dates. -/
def Node.fillsMentions (c : Context) : Node → Bool
  | ⟨.tag name, attributes, children, _⟩ =>
    (name != "a" || c.ancestry.isDescendantOf Inline.link.hiddenWithin
        || !c.isEmptyMention attributes children)
      && childrenFillMentions (c.enter name) children
  | _ => true

/-- Whether every mention among and below the children has content where its link is written. -/
def childrenFillMentions (c : Context) : List Child → Bool
  | [] => true
  | .node n :: ds => n.fillsMentions c && childrenFillMentions c ds
  | .text _ :: ds => childrenFillMentions c ds

end

mutual

/-- Whether every mention in a code block within a node has content. -/
def Node.fillsCodeMentions (c : Context) : Node → Bool
  | ⟨.tag name, _, children, _⟩ =>
    if name = "pre" && c.ancestry.showsCodeBlock then childrenFillMentions (c.enter name) children
    else childrenFillCodeMentions (c.enter name) children
  | _ => true

/-- Whether every mention in a code block among and below the children has content. -/
def childrenFillCodeMentions (c : Context) : List Child → Bool
  | [] => true
  | .node n :: ds => n.fillsCodeMentions c && childrenFillCodeMentions c ds
  | .text _ :: ds => childrenFillCodeMentions c ds

end

variable {x : Char}

/-! ## Texts -/

namespace Html.Lacks

variable {s t attrs content html : List Char}

theorem of_not_mem (hs : x ∉ s) (hamp : '&' ∉ s) : Lacks x s :=
  of_forall fun _ hc => ⟨fun e => hs (e ▸ hc), fun e => hamp (e ▸ hc)⟩

theorem of_append (h : Lacks x (s ++ t)) : Lacks x t := by
  induction s with
  | nil => exact h
  | cons c s ih => exact ih h.2.2

theorem reference (hx : IsSpare x) {d : Char} (hd : d.isLower = true) (hs : x ∉ d :: s)
    (hamp : '&' ∉ d :: s) : Lacks x ('&' :: d :: s) :=
  ⟨(hx.ne (by decide)).symm, fun _ => ⟨d, s, rfl, hd⟩, .of_not_mem hs hamp⟩

theorem entity (hx : IsSpare x) {c : Char} (hc : c ≠ x) : Lacks x (Text.entity c) := by
  unfold Text.entity
  split
  · exact .reference hx (by decide) (hx.not_mem (by decide)) (by decide)
  · split
    · exact .reference hx (by decide) (hx.not_mem (by decide)) (by decide)
    · split
      · exact .reference hx (by decide) (hx.not_mem (by decide)) (by decide)
      · exact .of_not_mem (by simpa using hc.symm) (by simpa [eq_comm] using ‹c ≠ '&'›)

theorem escapeEntity (hx : IsSpare x) (hs : x ∉ s) : Lacks x (Text.escapeEntity s) := by
  induction s with
  | nil => trivial
  | cons c s ih =>
    rw [List.mem_cons, not_or] at hs
    exact (Lacks.entity hx (Ne.symm hs.1)).append (ih hs.2)

theorem escapeAttr (hx : IsSpare x) (hs : x ∉ s) : Lacks x (Text.escapeAttr s) := by
  induction s with
  | nil => trivial
  | cons c s ih =>
    rw [List.mem_cons, not_or] at hs
    have hc : Lacks x (if c = '"' then "&quot;".toList else Text.entity c) := by
      split
      · exact .reference hx (by decide) (hx.not_mem (by decide)) (by decide)
      · exact .entity hx (Ne.symm hs.1)
    exact hc.append (ih hs.2)

theorem escapeQuotes (hx : IsSpare x) (h : Lacks x s) : Lacks x (Markup.escapeQuotes s) := by
  induction s with
  | nil => trivial
  | cons c s ih =>
    obtain ⟨hc, hamp, hs⟩ := h
    have hrest := ih hs
    simp only [Markup.escapeQuotes, List.flatMap_cons] at hrest ⊢
    split
    · have hquote : Lacks x "&quot;".toList :=
        .reference hx (by decide) (hx.not_mem (by decide)) (by decide)
      exact hquote.append hrest
    · refine ⟨hc, fun e => ?_, hrest⟩
      obtain ⟨d, t, rfl, hd⟩ := hamp e
      have hne : d ≠ '"' := by
        rintro rfl
        exact absurd hd (by decide)
      exact ⟨d, Markup.escapeQuotes t, by simp [Markup.escapeQuotes, hne], hd⟩

/-- Expanded tokens bring in no spare letter. -/
theorem fallback (h : Lacks x s) (hx : IsSpare x) (i : Calendar.Instant) :
    Lacks x (Calendar.fallback i s) := by
  have hdate : Calendar.isDateChar x = false := hx.eq_false (by decide)
  have htoken : Calendar.isTokenChar x = false := hx.eq_false (by decide)
  fun_induction Calendar.fallback i s with
  | case1 => trivial
  | case2 t name rest hs _ ih =>
    have ht := Text.eq_append_of_scanName? hs
    have hname := Text.forall_of_scanName? hs
    have hrest : Lacks x rest := by
      have hbehind := h.2.2
      rw [ht] at hbehind
      exact hbehind.of_append.2.2
    refine Lacks.append ?_ (ih hrest)
    cases he : Calendar.expandToken? i (String.ofList name) with
    | none =>
      refine .of_not_mem (fun hm => ?_) fun hm => ?_
      all_goals
        simp only [Option.getD_none, List.cons_append, List.mem_cons, List.mem_append,
          List.not_mem_nil, or_false] at hm
      · rcases hm with hm | hm | hm
        · exact hx.ne (by decide) hm
        · rw [hname x hm] at htoken
          cases htoken
        · exact hx.ne (by decide) hm
      · rcases hm with hm | hm | hm
        · cases hm
        · exact absurd (hname _ hm) (by decide)
        · cases hm
    | some w =>
      have hw := List.all_eq_true.mp (Calendar.all_isDateChar_expandToken? he)
      refine .of_not_mem (fun hm => ?_) fun hm => absurd (hw _ hm) (by decide)
      rw [hw x hm] at hdate
      cases hdate
  | case3 t hs ih => exact ⟨h.1, fun e => absurd e (by decide), ih h.2.2⟩
  | case4 c t hc ih =>
    refine ⟨h.1, fun e => ?_, ih h.2.2⟩
    obtain ⟨d, t, rfl, hd⟩ := h.2.1 e
    have hne : d ≠ '{' := by
      rintro rfl
      exact absurd hd (by decide)
    exact ⟨d, _, Calendar.fallback_cons i fun e => absurd e hne, hd⟩

end Html.Lacks

/-! ## Elements -/

namespace Markup

open Html.Lacks

variable {content html : List Char}

theorem lacks_attr (hx : IsSpare x) {name value rest : List Char} (hn : x ∉ name) (hamp : '&' ∉ name)
    (hv : Lacks x value) (hr : Lacks x rest) :
    Lacks x (' ' :: name ++ '=' :: '"' :: value ++ '"' :: rest) := by
  have hname : Lacks x (' ' :: name) :=
    of_not_mem (List.not_mem_cons_of_ne_of_not_mem (hx.ne (by decide)) hn) (by simpa using hamp)
  have hequal : Lacks x ['=', '"'] := of_not_mem (hx.not_mem (by decide)) (by decide)
  have hquote : Lacks x ['"'] := of_not_mem (hx.not_mem (by decide)) (by decide)
  simpa using ((hname.append hequal).append hv).append (hquote.append hr)

theorem lacks_writeAttrs (hx : IsSpare x) {entries : List (String × AttrValue)}
    (h : attrsLack x entries = true) : Lacks x (writeAttrs ⟨entries⟩) := by
  have hequal : "=\"".toList = ['=', '"'] := rfl
  induction entries with
  | nil => trivial
  | cons e entries ih =>
    simp only [attrsLack, List.all_cons, Bool.and_eq_true, List.all_eq_true, bne_iff_ne] at h ih
    obtain ⟨⟨hname, hvalue⟩, hrest⟩ := h
    have hmore := ih hrest
    simp only [writeAttrs, List.flatMap_cons] at hmore ⊢
    cases hv : e.2.attrText? with
    | none => exact hmore
    | some text =>
      rw [hv, Option.getD_some] at hvalue
      have htext := escapeAttr hx fun hm => hvalue x hm rfl
      have hattr := lacks_attr hx (fun hm => (hname x hm).1 rfl) (fun hm => (hname _ hm).2 rfl) htext
        hmore
      simpa [hequal] using hattr

theorem lacks_enclose (hx : IsSpare x) {name : String} {attrs : List Char}
    (hn : name ∈ writtenNames) (ha : Lacks x attrs) (hc : Lacks x content) :
    Lacks x (enclose name attrs content) := by
  have hall : ∀ n ∈ writtenNames, n.toList.all (fun c => !spareLetters.contains c && c != '&') = true :=
    by decide
  have hname : Lacks x name.toList := of_forall fun c hm => by
    have hc := List.all_eq_true.mp (hall name hn) c hm
    simp only [Bool.and_eq_true, bne_iff_ne, Bool.not_eq_true', List.contains_eq_mem,
      decide_eq_false_iff_not] at hc
    exact ⟨fun e => hc.1 (e ▸ hx), hc.2⟩
  have hopen : Lacks x ['<'] := of_not_mem (hx.not_mem (by decide)) (by decide)
  have hclose : Lacks x ['>'] := of_not_mem (hx.not_mem (by decide)) (by decide)
  have hend : Lacks x "</".toList := of_not_mem (hx.not_mem (by decide)) (by decide)
  have hstart := ((hopen.append hname).append ha).append hclose
  simpa [enclose] using (hstart.append hc).append ((hend.append hname).append hclose)

theorem not_mem_attrText? {entries : List (String × AttrValue)} (h : attrsLack x entries = true)
    {name : String} {text : List Char} (ht : attrText? ⟨entries⟩ name = some text) : x ∉ text := by
  obtain ⟨v, hlookup, hv⟩ := Option.bind_eq_some_iff.mp ht
  obtain ⟨before, after, he, -⟩ := List.lookup_eq_some_iff.mp hlookup
  obtain rfl : entries = _ := he
  have hentry := List.all_eq_true.mp h (name, v) (by simp)
  simp only [hv, Option.getD_some, Bool.and_eq_true, List.all_eq_true, bne_iff_ne] at hentry
  exact fun hm => hentry.2 x hm rfl

theorem lacks_timeElement (hx : IsSpare x) {attrs : Attributes}
    (ha : ∀ text, attrText? attrs "fallback" = some text → x ∉ text) (hc : Lacks x content)
    (hr : timeElement attrs content = .ok html) : Lacks x html := by
  obtain ⟨i, rfl⟩ := timeElement_eq_ok hr
  have hformat : Lacks x (substituteBars content) := hc.alike hx (alike_substituteBars content)
  have hdate : Calendar.isDateChar x = false := hx.eq_false (by decide)
  have hstamp : Lacks x (Text.ofInt i.seconds) := by
    have hall := List.all_eq_true.mp (Calendar.all_isDateChar_ofInt i.seconds)
    refine of_not_mem (fun hm => ?_) fun hm => absurd (hall _ hm) (by decide)
    rw [hall x hm] at hdate
    cases hdate
  have hfallback : Lacks x (fallbackAttr attrs i (substituteBars content)) := by
    simp only [fallbackAttr]
    split
    next given hg =>
      refine escapeAttr hx fun hm => ?_
      obtain ⟨c, hc, he⟩ := List.mem_map.mp hm
      split at he
      · exact hx.ne (c := barSubstitute) (by decide) he.symm
      · exact ha given hg (he ▸ hc)
    · exact Html.Lacks.escapeQuotes hx (hformat.fallback hx i)
  refine lacks_enclose hx (by decide) ?_ hformat
  have hnil : Lacks x [] := trivial
  exact lacks_attr hx (hx.not_mem (by decide)) (by decide) hstamp
    (lacks_attr hx (hx.not_mem (by decide)) (by decide) hfallback hnil)

theorem lacks_write (hx : IsSpare x) {kind : Inline} {name : String}
    {entries : List (String × AttrValue)} {ancestry : Ancestry}
    (hn : Inline.ofName? name = some kind) (ha : attrsLack x entries = true)
    (hlink : kind = .link → linkContent ⟨entries⟩ content = content) (hc : Lacks x content)
    (hr : kind.write name ⟨entries⟩ content ancestry = .ok html) : Lacks x html := by
  have hnil : Lacks x [] := trivial
  have hswap : ∀ {c d : Char}, (c, d) ∈ lookalikes →
      Lacks x (Markup.guardText (substitute c d) content) := fun hm =>
    hc.alike hx (alike_guardText (alike_substitute hm) content)
  cases kind with
  | time =>
    exact lacks_timeElement hx (fun text ht => not_mem_attrText? ha ht) hc hr
  | link =>
    obtain rfl := Except.ok.inj hr
    rw [hlink rfl]
    exact lacks_enclose hx (by decide) (lacks_writeAttrs hx ha) hc
  | numberedList =>
    obtain rfl := Except.ok.inj hr
    exact lacks_enclose hx (by decide) (lacks_writeAttrs hx ha) hc
  | strong =>
    obtain rfl := Except.ok.inj hr
    exact lacks_enclose hx (by decide) hnil (hswap (by decide))
  | emphasis =>
    obtain rfl := Except.ok.inj hr
    exact lacks_enclose hx (by decide) hnil
      (hc.alike hx (alike_guardText alike_substituteUnderscores content))
  | strike =>
    obtain rfl := Except.ok.inj hr
    exact lacks_enclose hx (by decide) hnil (hswap (by decide))
  | code =>
    obtain rfl := Except.ok.inj hr
    exact lacks_enclose hx (by decide) hnil (hswap (by decide))
  | codeBlock =>
    obtain rfl := Except.ok.inj hr
    exact lacks_enclose hx (by decide) hnil (lacks_enclose hx (by decide) hnil (hswap (by decide)))
  | paragraph =>
    obtain rfl := Except.ok.inj hr
    exact lacks_enclose hx (by decide) hnil hc
  | quotation =>
    obtain rfl := Except.ok.inj hr
    exact lacks_enclose hx (by split <;> decide) hnil (hc.alike hx (alike_guardQuote content))
  | plain =>
    obtain rfl := Except.ok.inj hr
    have hall : ["small", "span", "ul", "li"] ⊆ writtenNames := by decide
    exact lacks_enclose hx (hall (Inline.mem_of_ofName?_plain hn)) hnil hc

/-- An element brings in no spare letter, unless it is a link that mentions someone and has no
content. -/
theorem lacks_renderTag (hx : IsSpare x) {name : String} {entries : List (String × AttrValue)}
    {ancestry : Ancestry} (ha : attrsLack x entries = true)
    (hlink : name = "a" → ancestry.isDescendantOf Inline.link.hiddenWithin = false →
      linkContent ⟨entries⟩ content = content)
    (hc : Lacks x content) (hr : renderTag name ⟨entries⟩ content ancestry = .ok html) :
    Lacks x html := by
  simp only [renderTag] at hr
  split at hr
  · obtain rfl := Except.ok.inj hr
    exact of_not_mem (hx.not_mem (by decide)) (by decide)
  · split at hr
    · obtain rfl := Except.ok.inj hr
      exact hc
    · split at hr
      · cases hr
      next kind hk =>
        split at hr
        · obtain rfl := Except.ok.inj hr
          exact hc
        next hshown =>
          refine lacks_write hx hk ha (fun e => ?_) hc hr
          subst e
          exact hlink (Inline.eq_of_onlyName? hk rfl) (by simpa using hshown)

end Markup

/-! ## Messages -/

namespace Render

open Markup

theorem linkContent_of_isEmptyMention {c : Context} {attributes : Attributes} {children : List Child}
    {content : List Char} (h : c.isEmptyMention attributes children = false)
    (hr : renderText (c.enter "a") children = pure content) :
    linkContent attributes content = content := by
  have hempty : c.isEmptyMention attributes children
      = (((attributes.str? "href").bind fun href => Mention.ofHref? href.toList).isSome
        && content.isEmpty) := by
    rw [Context.isEmptyMention, hr]
    rfl
  rw [hempty, Bool.and_comm] at h
  simp only [linkContent, h]
  rfl

mutual

theorem writes_lacking_renderNode (hx : IsSpare x) {c : Context} (hc : c.mode = .html) :
    (n : Node) → n.isInline true = true → n.lacks x = true → n.fillsMentions c = true →
    Writes (fun o => Balanced true c.inLink o.toText ∧ Lacks x o.toText) (renderNode c n)
  | ⟨kind, ⟨entries⟩, children, hook⟩, h, hl, hf => by
    simp only [Node.isInline, Bool.and_eq_true, Option.any_eq_true, Bool.or_eq_true,
      Bool.not_eq_true', Option.isNone_iff_eq_none] at h
    obtain ⟨⟨⟨name, hname, hn, ha⟩, rfl⟩, hchildren⟩ := h
    simp only [Node.lacks, Bool.and_eq_true] at hl
    cases kind with
    | tag name' =>
      obtain rfl := Option.some.inj hname
      simp only [Node.fillsMentions, Bool.and_eq_true] at hf
      rw [renderNode_tag hc]
      rcases writes_lacking_renderText hx (c := c.enter name') hc children hchildren hl.2 hf.2 with
        ⟨text, hr⟩ | ⟨content, ⟨hb, hlacks⟩, hr⟩
      · exact .inl ⟨text, by rw [hr, fail_bind]⟩
      · have hlink : name' = "a" → c.ancestry.isDescendantOf Inline.link.hiddenWithin = false →
            linkContent ⟨entries⟩ content = content := by
          rintro rfl hshown
          exact linkContent_of_isEmptyMention (by simpa [hshown] using hf.1) hr
        have hwritten : Written (Balanced true c.inLink)
            (renderTag name' ⟨entries⟩ content c.ancestry) :=
          written_renderTag (by simpa using hn) (fun hm => by simpa [hm] using ha) hb
        rw [hr, pure_bind]
        exact (Writes.ofExcept (hwritten.imp fun html hr hb =>
          ⟨hb, lacks_renderTag hx hl.1 hlink hlacks hr⟩)).bind fun html hb => .pure hb
    | _ => cases hname

/-- Children without a spare letter are written without it, if every mention has content. -/
theorem writes_lacking_renderText (hx : IsSpare x) {c : Context} (hc : c.mode = .html) :
    (ds : List Child) → childrenAreInline true ds = true → childrenLack x ds = true →
    childrenFillMentions c ds = true →
    Writes (fun s => Balanced true c.inLink s ∧ Lacks x s) (renderText c ds)
  | [], _, _, _ => .pure ⟨.nil, trivial⟩
  | .node n :: ds, h, hl, hf => by
    simp only [childrenAreInline, childrenLack, childrenFillMentions, Bool.and_eq_true] at h hl hf
    simp only [renderText, renderChild]
    refine (writes_lacking_renderNode hx hc n h.1 hl.1 hf.1).bind fun o ho => ?_
    exact (writes_lacking_renderText hx hc ds h.2 hl.2 hf.2).bind fun s hs =>
      .pure ⟨ho.1.append hs.1, ho.2.append hs.2⟩
  | .text s :: ds, h, hl, hf => by
    simp only [childrenLack, Bool.and_eq_true] at hl
    simp only [renderText, renderChild, pure_bind]
    refine (writes_lacking_renderText hx hc ds h hl.2 hf).bind fun t ht => .pure ?_
    have hs : x ∉ s.toList := fun hm => by simpa using List.all_eq_true.mp hl.1 x hm
    have htext : Balanced true c.inLink (Text.escapeEntity s.toList) := .of_escapeEntity _
    simp only [leaf, hc, Output.toText]
    exact ⟨htext.append ht.1, (Lacks.escapeEntity hx hs).append ht.2⟩

end

/-! ### Labels -/

theorem isEmptyMention_label {label : String} (hl : IsLabel label.toList) {c : Context}
    (hc : c.mode = .html) (attributes : Attributes) :
    c.isEmptyMention attributes [.text label] = false := by
  rw [Context.isEmptyMention, renderText_label hl hc]
  exact Bool.and_eq_false_iff.mpr (.inr (List.isEmpty_eq_false_iff.mpr hl.ne_nil))

mutual

theorem fillsMentions_of_hidden {c : Context}
    (h : c.ancestry.isDescendantOf Inline.link.hiddenWithin = true) :
    (n : Node) → n.fillsMentions c = true
  | ⟨kind, attributes, children, hook⟩ => by
    cases kind with
    | tag name =>
      have hinner : (c.enter name).ancestry.isDescendantOf Inline.link.hiddenWithin = true := by
        simp [Context.enter, h]
      simp [Node.fillsMentions, h, childrenFillMentions_of_hidden hinner children]
    | _ => rfl

/-- In a link or a date no further link is written. -/
theorem childrenFillMentions_of_hidden {c : Context}
    (h : c.ancestry.isDescendantOf Inline.link.hiddenWithin = true) :
    (ds : List Child) → childrenFillMentions c ds = true
  | [] => rfl
  | .node n :: ds => by
    simp only [childrenFillMentions, fillsMentions_of_hidden h n, childrenFillMentions_of_hidden h ds,
      Bool.and_self]
  | .text _ :: ds => childrenFillMentions_of_hidden h ds

end

variable {label : String}

mutual

theorem fillsMentions_labelled (hl : IsLabel label.toList) {c : Context} (hc : c.mode = .html) :
    (n : Node) → n.fillsCodeMentions c = true → (n.labelled label c).fillsMentions c = true
  | ⟨kind, attributes, children, hook⟩, h => by
    cases kind with
    | tag name =>
      simp only [Node.fillsCodeMentions] at h
      simp only [Node.labelled]
      split
      next hlink =>
        subst hlink
        have hinner : (c.enter "a").ancestry.isDescendantOf Inline.link.hiddenWithin = true := by
          simp [Context.enter, Inline.hiddenWithin]
        simp only [Node.fillsMentions, childrenFillMentions_of_hidden hinner, Bool.and_true]
        split
        · simp [isEmptyMention_label hl hc]
        next hm => simp [hm]
      next hlink =>
        have hother : (name != "a") = true := by simpa using hlink
        split
        next hshown =>
          simp only [Node.fillsMentions, hother, Bool.true_or, Bool.true_and]
          by_cases htime : name = "time"
          · subst htime
            exact childrenFillMentions_of_hidden (by simp [Context.enter, Inline.hiddenWithin]) children
          · simp only [htime, decide_false, Bool.false_or] at hshown
            rwa [if_pos (by simpa using hshown)] at h
        next hshown =>
          simp only [Bool.or_eq_true, not_or] at hshown
          rw [if_neg (by simpa using hshown.2)] at h
          simp only [Node.fillsMentions, hother, Bool.true_or, Bool.true_and]
          exact childrenFillMentions_labelled hl (c := c.enter name) hc children h
    | _ => rfl

/-- With labels, every mention has content, if those in code blocks have some. -/
theorem childrenFillMentions_labelled (hl : IsLabel label.toList) {c : Context} (hc : c.mode = .html) :
    (ds : List Child) → childrenFillCodeMentions c ds = true →
    childrenFillMentions c (childrenLabelled label c ds) = true
  | [], _ => rfl
  | .node n :: ds, h => by
    simp only [childrenFillCodeMentions, Bool.and_eq_true] at h
    simp only [childrenLabelled, childrenFillMentions, fillsMentions_labelled hl hc n h.1,
      childrenFillMentions_labelled hl hc ds h.2, Bool.and_self]
  | .text _ :: ds, h => childrenFillMentions_labelled hl hc ds h

end

mutual

theorem lacks_labelled (hl : x ∉ label.toList) {c : Context} :
    (n : Node) → n.lacks x = true → (n.labelled label c).lacks x = true
  | ⟨kind, ⟨entries⟩, children, hook⟩, h => by
    cases kind with
    | tag name =>
      have hattrs := h
      simp only [Node.lacks, Bool.and_eq_true] at hattrs
      have hlabel : childrenLack x [.text label] = true := by
        simp only [childrenLack, Bool.and_true, List.all_eq_true, bne_iff_ne]
        rintro c hc rfl
        exact hl hc
      simp only [Node.labelled]
      split
      · simp only [Node.lacks, hattrs.1, Bool.true_and]
        split
        · exact hlabel
        · exact hattrs.2
      · split
        · exact h
        · simp only [Node.lacks, hattrs.1, Bool.true_and]
          exact childrenLack_labelled hl children hattrs.2
    | _ => exact h

/-- Labels bring in no letter but their own. -/
theorem childrenLack_labelled (hl : x ∉ label.toList) {c : Context} :
    (ds : List Child) → childrenLack x ds = true →
    childrenLack x (childrenLabelled label c ds) = true
  | [], _ => rfl
  | .node n :: ds, h => by
    simp only [childrenLack, Bool.and_eq_true] at h
    simp only [childrenLabelled, childrenLack, lacks_labelled hl n h.1,
      childrenLack_labelled hl ds h.2, Bool.and_self]
  | .text s :: ds, h => by
    simp only [childrenLack, Bool.and_eq_true] at h
    simp only [childrenLabelled, childrenLack, h.1, childrenLack_labelled hl ds h.2, Bool.and_self]

end

mutual

theorem isInline_labelled (label : String) {c : Context} :
    (n : Node) → n.isInline true = true → (n.labelled label c).isInline true = true
  | ⟨kind, ⟨entries⟩, children, hook⟩, h => by
    cases kind with
    | tag name =>
      have hnode := h
      simp only [Node.isInline, Bool.and_eq_true] at hnode
      simp only [Node.labelled]
      split
      · split
        · simp only [Node.isInline, hnode.1, childrenAreInline, Bool.and_self]
        · exact h
      · split
        · exact h
        · simp only [Node.isInline, hnode.1, childrenAreInline_labelled label children hnode.2,
            Bool.and_self]
    | _ => exact h

/-- Labels are inline. -/
theorem childrenAreInline_labelled (label : String) {c : Context} :
    (ds : List Child) → childrenAreInline true ds = true →
    childrenAreInline true (childrenLabelled label c ds) = true
  | [], _ => rfl
  | .node n :: ds, h => by
    simp only [childrenAreInline, Bool.and_eq_true] at h
    simp only [childrenLabelled, childrenAreInline, isInline_labelled label n h.1,
      childrenAreInline_labelled label ds h.2, Bool.and_self]
  | .text _ :: ds, h => childrenAreInline_labelled label ds h

end

end Render

open Render

/-- A spare letter is in the mrkdwn of inline children only if they bring it in, or have a mention
without content in a code block. -/
theorem renderMrkdwn_lacks (hx : IsSpare x) {options : FormatOptions} {content : Content}
    (hinline : childrenAreInline true content.normalize = true)
    (hlower : childrenAreLowerCase content.normalize = true)
    (hlacks : childrenLack x content.normalize = true)
    (hfills : childrenFillCodeMentions ((Context.ofOptions options).withMode .html) content.normalize
      = true)
    {result : String} (hr : renderMrkdwn options content = .ok result) : x ∉ result.toList := by
  have hl : IsLabel "a".toList := ⟨by decide, Text.forall_mem_of_all (by decide)⟩
  have hboth := writesBoth_renderText (c := (Context.ofOptions options).withMode .html) hl rfl rfl _
    hinline hlower
  have hwrites := writes_lacking_renderText hx rfl _ (childrenAreInline_labelled "a" _ hinline)
    (childrenLack_labelled (hx.not_mem (by decide)) _ hlacks)
    (childrenFillMentions_labelled hl rfl _ hfills)
  simp only [renderMrkdwn_eq_map_renderFragment, renderFragment] at hr
  rcases hboth with ⟨text, hs, -⟩ | ⟨s, t, hst, hs, ht⟩
  · rw [hs] at hr
    cases hr
  · rcases hwrites with ⟨text, he⟩ | ⟨t', ⟨-, hlacks⟩, he⟩
    · rw [he] at ht
      cases ht
    · obtain rfl : t' = t := by
        rw [he] at ht
        exact congrArg Rendered.output (Except.ok.inj ht)
      rw [hs] at hr
      obtain rfl := Except.ok.inj hr
      rw [String.toList_ofList, String.toList_ofList,
        Mrkdwn.ofHtml_of_labelled options isLabel_emptyMentionLabel hl hst]
      exact Mrkdwn.not_mem_ofHtml hx options hlacks

/-- The text for an empty mention is not in the mrkdwn of inline children that hold no capital L, if
every mention in a code block has content. -/
theorem emptyMentionLabel_not_infix {options : FormatOptions} {content : Content}
    (hinline : childrenAreInline true content.normalize = true)
    (hlower : childrenAreLowerCase content.normalize = true)
    (hlacks : childrenLack 'L' content.normalize = true)
    (hfills : childrenFillCodeMentions ((Context.ofOptions options).withMode .html) content.normalize
      = true)
    {result : String} (hr : renderMrkdwn options content = .ok result) :
    ¬ Markup.emptyMentionLabel <:+: result.toList := fun h =>
  renderMrkdwn_lacks (by decide) hinline hlower hlacks hfills hr (h.subset (by decide))

example :
    let link (children : List Child) : Child :=
      .node ⟨.tag "a", ⟨[("href", .json (.str "@here"))]⟩, children, none⟩
    let content (children : List Child) : List Child :=
      [link [], .node ⟨.tag "pre", ⟨[]⟩, [.text "to ", link children], none⟩]
    let fills (children : List Child) : Bool :=
      childrenFillCodeMentions ((Context.ofOptions {}).withMode .html) (content children)
    childrenLack 'L' (content []) = true ∧ fills [] = false ∧ fills [.text "all"] = true := by
  decide

end MessageLayout
