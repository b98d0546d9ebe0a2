import MessageLayout.Payload
import MessageLayout.Proofs.EscapedText
import MessageLayout.Proofs.FragmentTags
import MessageLayout.Proofs.FragmentText
import MessageLayout.Proofs.RecordedChecks

/-!
# Shown elements

An element of a tree is shown where it stands or passed through. The fragment of a tree has the tags
of the elements that are shown, around those of what they hold, and no other tags. So the tags nest,
and the elements open at a start tag are those shown around its element.

    renderText c ds = .ok r → readTags? r.output = some (childTags c.ancestry ds)
                                                                       (readTags?_renderText)
    openBehind around (childTags a ds) = some around                   (openBehind_childTags)
    openings (openAt a.tags) (childTags a ds) = (placesOf a ds).flatMap Place.openings
                                                                       (openings_childTags)
-/

namespace MessageLayout

mutual

/-- Whether a node is an inline element, of any name, that holds such elements and texts, and the keys
of all attributes are of letters and hyphens. -/
def Node.isTagged : Node → Bool
  | ⟨kind, ⟨entries⟩, children, _⟩ =>
    kind.tagName?.isSome && entries.all (fun e => Markup.isKey e.1) && childrenAreTagged children

/-- Whether all children are texts or such elements. -/
def childrenAreTagged : List Child → Bool
  | [] => true
  | .node n :: ds => n.isTagged && childrenAreTagged ds
  | .text _ :: ds => childrenAreTagged ds

end

namespace Markup

/-! ## Elements -/

/-- The kind of an element that is shown where it stands. -/
def shownKind? (name : String) (a : Ancestry) : Option Inline :=
  if a.isChildOf ["pre", "code"] && name != "a" && name != "time" then none
  else (Inline.ofName? name).filter fun kind => !a.isDescendantOf kind.hiddenWithin

/-- Whether an element is shown where it stands. -/
def isShown (name : String) (a : Ancestry) : Bool :=
  (shownKind? name a).isSome

/-- The elements of the fragment that an element of a kind is shown by, outermost first. The flag tells
whether it stands in a link. -/
def Inline.levels (kind : Inline) (name : String) (inLink : Bool) : List String :=
  match kind with
  | .strong => ["b"]
  | .emphasis => ["i"]
  | .strike => ["s"]
  | .code => ["code"]
  | .paragraph => ["p"]
  | .quotation => [if inLink then "q" else "blockquote"]
  | .codeBlock => ["pre", "code"]
  | .link => ["a"]
  | .time => ["time"]
  | .numberedList => ["ol"]
  | .plain => [name]

/-- The elements of the fragment that an element is shown by where it stands, outermost first. -/
def levels (name : String) (a : Ancestry) : List String :=
  (shownKind? name a).elim [] fun kind => kind.levels name (a.isDescendantOf ["a"])

/-- Tags within elements, outermost first. -/
def enclosed (names : List String) (tags : List Tag) : List Tag :=
  names.map .opening ++ tags ++ names.reverse.map .closing

theorem shownKind?_eq_some {name : String} {a : Ancestry} {kind : Inline}
    (h : shownKind? name a = some kind) :
    Inline.ofName? name = some kind ∧ a.isDescendantOf kind.hiddenWithin = false := by
  unfold shownKind? at h
  split at h
  · cases h
  · rw [Option.filter_eq_some_iff, Bool.not_eq_true'] at h
    exact h

/-- An element other than a line break is written as its kind has it, or only its content is. -/
theorem of_renderTag {name : String} {attrs : Attributes} {content html : List Char} {a : Ancestry}
    (hbr : name ≠ "br") (h : renderTag name attrs content a = .ok html) :
    (shownKind? name a = none ∧ html = content) ∨
      ∃ kind, shownKind? name a = some kind ∧ kind.write name attrs content a = .ok html := by
  rw [renderTag, if_neg hbr] at h
  unfold shownKind?
  split at h
  next hcode =>
    rw [if_pos hcode]
    exact .inl ⟨rfl, (Except.ok.inj h).symm⟩
  next hcode =>
    rw [if_neg hcode]
    cases hk : Inline.ofName? name with
    | none =>
      rw [hk] at h
      cases h
    | some kind =>
      simp only [hk] at h
      split at h
      next hhidden => exact .inl ⟨by simp [Option.filter, hhidden], (Except.ok.inj h).symm⟩
      next hhidden => exact .inr ⟨kind, by simp [Option.filter, hhidden], h⟩

section

variable {name : String} {content html : List Char} {tags : List Tag}

theorem keyedAttrs_writeAttrs {entries : List (String × AttrValue)}
    (h : entries.all (fun e => isKey e.1) = true) : KeyedAttrs (writeAttrs ⟨entries⟩) := by
  induction entries with
  | nil => exact .nil
  | cons e entries ih =>
    obtain ⟨key, value⟩ := e
    rw [List.all_cons, Bool.and_eq_true] at h
    have hrest := ih h.2
    simp only [writeAttrs, List.flatMap_cons] at hrest ⊢
    cases value.attrText? with
    | none => exact hrest
    | some text =>
      have ha := KeyedAttrs.attr h.1 (quote_not_mem_escapeAttr text) hrest
      have he : "=\"".toList = ['=', '"'] := rfl
      simpa [he] using ha

theorem readTags?_linkContent (attrs : Attributes) (h : readTags? content = some tags) :
    readTags? (linkContent attrs content) = some tags := by
  simp only [linkContent]
  split
  next hempty =>
    rw [Bool.and_eq_true, List.isEmpty_iff] at hempty
    rw [hempty.1, readTags?_nil] at h
    rw [← h]
    exact readTags?_of_not_mem (by decide)
  · exact h

theorem readTags?_timeElement {attrs : Attributes} (h : readTags? content = some tags)
    (hw : timeElement attrs content = .ok html) :
    readTags? html = some (.opening "time" :: tags ++ [.closing "time"]) := by
  obtain ⟨i, rfl⟩ := timeElement_eq_ok hw
  have hdatetime : isKey "datetime" = true := by decide
  have hfallback : isKey "data-fallback" = true := by decide
  have hstamp : '"' ∉ Text.ofInt i.seconds := fun hm => (firm_of_mem_ofInt hm).2.1 rfl
  have hattrs := KeyedAttrs.attr hdatetime hstamp
    (.attr hfallback (quote_not_mem_fallbackAttr attrs i (substituteBars content)) .nil)
  exact readTags?_enclose (by decide) hattrs (readTags?_alike (alike_substituteBars content) h)

/-- An element is written to the tags that it is shown by, around those of its content. -/
theorem readTags?_write {kind : Inline} {entries : List (String × AttrValue)} {a : Ancestry}
    (hn : Inline.ofName? name = some kind) (hkeys : entries.all (fun e => isKey e.1) = true)
    (h : readTags? content = some tags) (hw : kind.write name ⟨entries⟩ content a = .ok html) :
    readTags? html = some (enclosed (kind.levels name (a.isDescendantOf ["a"])) tags) := by
  have hguard : ∀ {f : List Char → List Char}, (∀ s, Alike s (f s)) →
      readTags? (guardText f content) = some tags :=
    fun hf => readTags?_alike (alike_guardText hf content) h
  cases kind with
  | strong =>
    obtain rfl := Except.ok.inj hw
    exact readTags?_enclose (by decide) .nil (hguard (alike_substitute (by decide)))
  | emphasis =>
    obtain rfl := Except.ok.inj hw
    exact readTags?_enclose (by decide) .nil (hguard alike_substituteUnderscores)
  | strike =>
    obtain rfl := Except.ok.inj hw
    exact readTags?_enclose (by decide) .nil (hguard (alike_substitute (by decide)))
  | code =>
    obtain rfl := Except.ok.inj hw
    exact readTags?_enclose (by decide) .nil (hguard (alike_substitute (by decide)))
  | paragraph =>
    obtain rfl := Except.ok.inj hw
    exact readTags?_enclose (by decide) .nil h
  | quotation =>
    have hquote := readTags?_alike (alike_guardQuote content) h
    obtain rfl := Except.ok.inj hw
    simp only [Inline.levels]
    split
    · exact readTags?_enclose (by decide) .nil hquote
    · exact readTags?_enclose (by decide) .nil hquote
  | codeBlock =>
    obtain rfl := Except.ok.inj hw
    have hpre : "pre" ∈ writtenNames := by decide
    have hcode : "code" ∈ writtenNames := by decide
    have hguarded : readTags? (guardCode content) = some tags := hguard (alike_substitute (by decide))
    have hblock := readTags?_enclose hpre .nil (readTags?_enclose hcode .nil hguarded)
    simpa [enclosed, Inline.levels] using hblock
  | link =>
    obtain rfl := Except.ok.inj hw
    exact readTags?_enclose (by decide) (keyedAttrs_writeAttrs hkeys) (readTags?_linkContent _ h)
  | time => exact readTags?_timeElement h hw
  | numberedList =>
    obtain rfl := Except.ok.inj hw
    exact readTags?_enclose (by decide) (keyedAttrs_writeAttrs hkeys) h
  | plain =>
    obtain rfl := Except.ok.inj hw
    have hwritten : name ∈ writtenNames := by
      have hall : ∀ n ∈ ["small", "span", "ul", "li"], n ∈ writtenNames := by decide
      exact hall name (Inline.mem_of_ofName?_plain hn)
    exact readTags?_enclose hwritten .nil h

theorem readTags?_renderTag {entries : List (String × AttrValue)} {a : Ancestry} (hbr : name ≠ "br")
    (hkeys : entries.all (fun e => isKey e.1) = true) (h : readTags? content = some tags)
    (hw : renderTag name ⟨entries⟩ content a = .ok html) :
    readTags? html = some (enclosed (levels name a) tags) := by
  unfold levels
  rcases of_renderTag hbr hw with ⟨hnone, rfl⟩ | ⟨kind, hkind, hw⟩
  · rw [hnone, h]
    simp [enclosed]
  · rw [hkind]
    exact readTags?_write (shownKind?_eq_some hkind).1 hkeys h hw

end

/-! ## Trees -/

/-- An element of a tree with the elements around it. -/
structure Occurrence where
  /-- The name of the element. -/
  name : String
  /-- The elements around it. -/
  around : Ancestry

mutual

/-- The tags of a node within the elements of `a`. -/
def nodeTags (a : Ancestry) : Node → List Tag
  | ⟨kind, _, children, _⟩ =>
    match kind with
    | .tag name =>
      if name = "br" then [.lineBreak] else enclosed (levels name a) (childTags (a.push name) children)
    | _ => []

/-- The tags of children within the elements of `a`. -/
def childTags (a : Ancestry) : List Child → List Tag
  | [] => []
  | .node n :: ds => nodeTags a n ++ childTags a ds
  | .text _ :: ds => childTags a ds

end

mutual

/-- The elements from a node on, which stands within those of `a`. A line break holds nothing. -/
def nodeOccurrences (a : Ancestry) : Node → List Occurrence
  | ⟨kind, _, children, _⟩ =>
    match kind with
    | .tag name => ⟨name, a⟩ :: if name = "br" then [] else occurrences (a.push name) children
    | _ => []

/-- The elements among children, which stand within those of `a`, and below them. -/
def occurrences (a : Ancestry) : List Child → List Occurrence
  | [] => []
  | .node n :: ds => nodeOccurrences a n ++ occurrences a ds
  | .text _ :: ds => occurrences a ds

end

/-- The elements of the fragment that are open within elements of a tree, innermost first. -/
def openAt : List String → List String
  | [] => []
  | name :: tags => (levels name ⟨tags⟩).reverse ++ openAt tags

/-- The start tags that an element is shown by, each with the elements that are open at it. -/
def Occurrence.openings (o : Occurrence) : List (String × List String) :=
  Markup.openings (openAt o.around.tags) ((levels o.name o.around).map .opening)

section

variable {around inner : List String} {tags : List Tag}

theorem openBehind_map_opening (around names : List String) :
    openBehind around (names.map .opening) = some (names.reverse ++ around) := by
  induction names generalizing around with
  | nil => rfl
  | cons name names ih =>
    rw [List.map_cons, openBehind, ih (name :: around), List.reverse_cons, List.append_assoc,
      List.singleton_append]

theorem openBehind_map_closing (around names : List String) :
    openBehind (names ++ around) (names.map .closing) = some around := by
  induction names with
  | nil => rfl
  | cons name names ih =>
    rw [List.map_cons, List.cons_append, openBehind, if_pos rfl]
    exact ih

theorem openings_map_closing (around names : List String) :
    openings around (names.map .closing) = [] := by
  induction names generalizing around with
  | nil => rfl
  | cons name names ih => exact ih around.tail

/-- Balanced tags stay balanced within elements. -/
theorem openBehind_enclosed (names : List String)
    (h : openBehind (names.reverse ++ around) tags = some (names.reverse ++ around)) :
    openBehind around (enclosed names tags) = some around := by
  rw [enclosed, List.append_assoc, openBehind_append (openBehind_map_opening around names),
    openBehind_append h]
  exact openBehind_map_closing around names.reverse

theorem openings_enclosed (names : List String)
    (h : openBehind (names.reverse ++ around) tags = some (names.reverse ++ around)) :
    openings around (enclosed names tags)
      = openings around (names.map .opening) ++ openings (names.reverse ++ around) tags := by
  rw [enclosed, List.append_assoc, openings_append (openBehind_map_opening around names),
    openings_append h, openings_map_closing, List.append_nil]

mutual

theorem openBehind_nodeTags (around : List String) (a : Ancestry) : (n : Node) →
    openBehind around (nodeTags a n) = some around
  | ⟨kind, attributes, children, hook⟩ => by
    cases kind with
    | tag name =>
      simp only [nodeTags]
      split
      · rfl
      · exact openBehind_enclosed _ (openBehind_childTags _ _ children)
    | _ => rfl

/-- The tags of children are balanced. -/
theorem openBehind_childTags (around : List String) (a : Ancestry) : (ds : List Child) →
    openBehind around (childTags a ds) = some around
  | [] => rfl
  | .node n :: ds => by
    rw [childTags, openBehind_append (openBehind_nodeTags around a n)]
    exact openBehind_childTags around a ds
  | .text _ :: ds => openBehind_childTags around a ds

end

mutual

theorem openings_nodeTags (a : Ancestry) : (n : Node) →
    openings (openAt a.tags) (nodeTags a n) = (nodeOccurrences a n).flatMap Occurrence.openings
  | ⟨kind, attributes, children, hook⟩ => by
    cases kind with
    | tag name =>
      simp only [nodeTags, nodeOccurrences, List.flatMap_cons]
      split
      next hbr =>
        rw [hbr]
        have hnone : levels "br" a = [] := by
          unfold levels shownKind?
          split <;> rfl
        simp [openings, Occurrence.openings, hnone]
      next hbr =>
        rw [openings_enclosed _ (openBehind_childTags _ _ children)]
        exact congrArg _ (openings_childTags (a.push name) children)
    | _ => rfl

/-- The start tags of children are those of their elements, within those shown around them. -/
theorem openings_childTags (a : Ancestry) : (ds : List Child) →
    openings (openAt a.tags) (childTags a ds) = (occurrences a ds).flatMap Occurrence.openings
  | [] => rfl
  | .node n :: ds => by
    rw [childTags, openings_append (openBehind_nodeTags _ a n), occurrences, List.flatMap_append,
      openings_nodeTags a n, openings_childTags a ds]
  | .text _ :: ds => openings_childTags a ds

end

end

end Markup

/-! ## Rendering -/

namespace Render

open Markup

mutual

theorem readTags?_renderNode {c : Context} (hc : c.mode = .html) : (n : Node) →
    n.isTagged = true → {r : Rendered Output} → renderNode c n = .ok r →
      readTags? r.output.toText = some (nodeTags c.ancestry n)
  | ⟨kind, ⟨entries⟩, children, hook⟩, hn, r, h => by
    simp only [Node.isTagged, Bool.and_eq_true] at hn
    obtain ⟨⟨hname, hkeys⟩, hchildren⟩ := hn
    cases kind with
    | tag name =>
      obtain ⟨content, html, hcontent, hwritten, houtput, -⟩ := renderNode_tag_eq_ok hc h
      have hmode : ((c.scope hook).enter name).mode = .html := (c.mode_scope hook).trans hc
      have htags := readTags?_renderText hmode children hchildren hcontent
      rw [Context.enter, c.ancestry_scope] at htags
      rw [houtput]
      show readTags? html = some (nodeTags c.ancestry ⟨.tag name, ⟨entries⟩, children, hook⟩)
      simp only [nodeTags]
      split
      next hbr =>
        rw [renderTag, if_pos hbr] at hwritten
        rw [← Except.ok.inj hwritten]
        exact readTags?_lineBreak
      next hbr => exact readTags?_renderTag hbr hkeys htags hwritten
    | _ => cases hname

/-- Children that are inline elements and texts are written to the tags of their shown elements. -/
theorem readTags?_renderText {c : Context} (hc : c.mode = .html) : (ds : List Child) →
    childrenAreTagged ds = true → {r : Rendered (List Char)} → renderText c ds = .ok r →
      readTags? r.output = some (childTags c.ancestry ds)
  | [], _, r, h => by
    simp only [renderText] at h
    obtain rfl := Except.ok.inj h
    rfl
  | .node n :: ds, hds, r, h => by
    rw [childrenAreTagged, Bool.and_eq_true] at hds
    simp only [renderText, renderChild] at h
    obtain ⟨output, rest, houtput, hrest, rfl⟩ := RenderM.bind_eq_ok h
    obtain ⟨text, htext, houtput', -⟩ := map_eq_ok hrest
    rw [houtput']
    exact readTags?_append (readTags?_renderNode hc n hds.1 houtput)
      (readTags?_renderText hc ds hds.2 htext)
  | .text s :: ds, hds, r, h => by
    simp only [renderText, renderChild, pure_bind, leaf, hc] at h
    obtain ⟨text, htext, houtput, -⟩ := map_eq_ok h
    rw [houtput]
    exact readTags?_append (readTags?_of_not_mem (Text.lt_not_mem_escapeEntity _))
      (readTags?_renderText hc ds hds htext)

end

/-- A fragment of inline elements and texts has the tags of the shown elements. -/
theorem readTags?_renderFragment {options : FormatOptions} {content : Content} {html : String}
    (h : renderFragment options content = .ok html) (ht : childrenAreTagged content.normalize = true) :
    readTags? html.toList = some (childTags ∅ content.normalize) := by
  obtain ⟨text, htext, hhtml⟩ := bind_eq_ok_iff.mp h
  obtain ⟨r, hr, -, rfl⟩ := exists_of_checked htext
  rw [← Except.ok.inj hhtml, String.toList_ofList]
  exact readTags?_renderText rfl content.normalize ht hr

end Render

end MessageLayout
