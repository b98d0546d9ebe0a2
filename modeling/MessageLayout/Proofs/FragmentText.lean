import MessageLayout.Proofs.GuardedCode
import MessageLayout.Render.Traversal

/-!
# Fragments of inline elements

Children that are texts and inline elements are written to a balanced fragment, whatever is passed
through, guarded or left out on the way. Around a code block within such elements the fragment falls
into three parts: the text before it, the block, and the text behind it. Neither of the outer parts
depends on the code, and the code is altered by the guard of a quotation at most.

    childrenAreInline ds → renderText c ds = .ok r → Balanced _ r.output   (balanced_renderText)
-/

namespace MessageLayout

/-- Whether a text can be the name of an attribute. -/
def isAttrName (name : String) : Bool :=
  !name.toList.isEmpty && name.toList.all Markup.isNameChar

mutual

/-- Whether a node is an inline element that holds inline elements and texts; the flag tells whether
blocks are allowed among them. The attributes that are written have proper names. -/
def Node.isInline (blocks : Bool) : Node → Bool
  | ⟨kind, ⟨entries⟩, children, hook⟩ =>
    kind.tagName?.any (fun name =>
        (name == "br" || (Markup.Inline.ofName? name).isSome && (blocks || !Html.isBoundary name))
          && (!(["a", "ol"].contains name) || entries.all fun e => isAttrName e.1))
      && hook.isNone && childrenAreInline blocks children

/-- Whether all children are texts or inline elements. -/
def childrenAreInline (blocks : Bool) : List Child → Bool
  | [] => true
  | .node n :: ds => n.isInline blocks && childrenAreInline blocks ds
  | .text _ :: ds => childrenAreInline blocks ds

end

theorem childrenAreInline_append (blocks : Bool) (ds es : List Child) :
    childrenAreInline blocks (ds ++ es)
      = (childrenAreInline blocks ds && childrenAreInline blocks es) := by
  induction ds with
  | nil => rfl
  | cons d ds ih =>
    cases d with
    | node n => simp only [List.cons_append, childrenAreInline, ih, Bool.and_assoc]
    | text s => simp only [List.cons_append, childrenAreInline, ih]

namespace Markup

/-! ## Elements -/

theorem quote_not_mem_escapeAttr (s : List Char) : '"' ∉ Text.escapeAttr s := by
  have hc : ∀ c, '"' ∉ (if c = '"' then "&quot;".toList else Text.entity c) := by
    intro c
    split
    · decide
    next hne =>
      unfold Text.entity
      split
      · decide
      · split
        · decide
        · split
          · decide
          · simpa using Ne.symm hne
  intro hm
  obtain ⟨c, -, h⟩ := List.mem_flatMap.mp hm
  exact hc c h

theorem quote_not_mem_escapeQuotes (s : List Char) : '"' ∉ escapeQuotes s := by
  have hc : ∀ c, '"' ∉ (if c = '"' then "&quot;".toList else [c]) := by
    intro c
    split
    · decide
    next hne => simpa using Ne.symm hne
  intro hm
  obtain ⟨c, -, h⟩ := List.mem_flatMap.mp hm
  exact hc c h

theorem attrsText_attr {name : String} (hn : isAttrName name = true) {value attrs : List Char}
    (hv : '"' ∉ value) (ha : AttrsText attrs) :
    AttrsText (' ' :: name.toList ++ '=' :: '"' :: value ++ '"' :: attrs) := by
  simp only [isAttrName, Bool.and_eq_true, Bool.not_eq_true', List.isEmpty_eq_false_iff] at hn
  exact .attr hn.1 (List.all_eq_true.mp hn.2) hv ha

theorem attrsText_writeAttrs {entries : List (String × AttrValue)}
    (h : entries.all (fun e => isAttrName e.1) = true) : AttrsText (writeAttrs ⟨entries⟩) := by
  induction entries with
  | nil => exact .nil
  | cons e entries ih =>
    obtain ⟨name, value⟩ := e
    rw [List.all_cons, Bool.and_eq_true] at h
    have hrest := ih h.2
    simp only [writeAttrs, List.flatMap_cons] at hrest ⊢
    cases value.attrText? with
    | none => exact hrest
    | some text =>
      have ha := attrsText_attr h.1 (quote_not_mem_escapeAttr text) hrest
      have he : "=\"".toList = ['=', '"'] := rfl
      simpa [he] using ha

theorem firm_of_mem_ofInt {n : Int} {c : Char} (hc : c ∈ Text.ofInt n) :
    Firm c ∧ c ≠ '"' ∧ c ≠ '<' ∧ c ≠ '>' := by
  have hdigit : ∀ d : Char, d.isDigit = true → Firm d ∧ d ≠ '"' ∧ d ≠ '<' ∧ d ≠ '>' := by
    intro d hd
    refine ⟨fun hm => ?_, ?_, ?_, ?_⟩
    · have hall : ("*_~\x60|\r\n&".toList.all fun x => !x.isDigit) = true := by decide
      have := List.all_eq_true.mp hall d hm
      simp [hd] at this
    all_goals
      rintro rfl
      exact absurd hd (by decide)
  have hnat : ∀ n : Nat, ∀ d ∈ Text.ofNat n, Firm d ∧ d ≠ '"' ∧ d ≠ '<' ∧ d ≠ '>' := fun n d hd =>
    hdigit d (Nat.isDigit_of_mem_toDigits (by decide) (by decide) hd)
  cases n with
  | ofNat n => exact hnat n c hc
  | negSucc n =>
    rcases List.mem_cons.mp hc with rfl | hc
    · decide
    · exact hnat _ c hc

variable {blocks inLink : Bool} {content html : List Char}

theorem Balanced.enclosed {name : String} {attrs : List Char} (ht : TagText blocks inLink name attrs)
    (h : Balanced blocks (inLink || name == "a") content) :
    Balanced blocks inLink (Markup.enclose name attrs content) := by
  rw [← List.append_nil (Markup.enclose name attrs content)]
  exact .element ht h .nil

theorem alike_substituteBars (s : List Char) : Alike s (substituteBars s) := by
  induction s with
  | nil => exact .nil
  | cons x s ih =>
    simp only [substituteBars, List.map_cons] at ih ⊢
    split
    next hx =>
      rw [hx]
      exact .swap (by decide) ih
    · exact .char x ih

theorem quote_not_mem_fallbackAttr (attrs : Attributes) (i : Calendar.Instant)
    (format : List Char) : '"' ∉ fallbackAttr attrs i format := by
  simp only [fallbackAttr]
  split
  · exact quote_not_mem_escapeAttr _
  · exact quote_not_mem_escapeQuotes _

theorem timeElement_eq_ok {attrs : Attributes} (h : timeElement attrs content = .ok html) :
    ∃ i, html = enclose "time"
      (' ' :: "datetime".toList ++ '=' :: '"' :: Text.ofInt i.seconds ++ '"' ::
        (' ' :: "data-fallback".toList ++ '=' :: '"' :: fallbackAttr attrs i (substituteBars content)
          ++ ['"'])) (substituteBars content) := by
  simp only [timeElement, bind, Except.bind] at h
  split at h
  · cases h
  next i hi =>
    refine ⟨i, (Except.ok.inj h).symm.trans ?_⟩
    have h₁ : "<time datetime=\"".toList
        = '<' :: ("time".toList ++ ' ' :: ("datetime".toList ++ ['=', '"'])) := rfl
    have h₂ : "\" data-fallback=\"".toList
        = '"' :: ' ' :: ("data-fallback".toList ++ ['=', '"']) := rfl
    have h₃ : "\">".toList = ['"', '>'] := rfl
    have h₄ : "</time>".toList = "</".toList ++ "time".toList ++ ['>'] := rfl
    rw [h₁, h₂, h₃, h₄]
    simp only [enclose, List.append_assoc, List.cons_append, List.nil_append]

variable (blocks inLink) in
/-- A date is written as a tag with its timestamp around its format. -/
theorem exists_timeTag {attrs : Attributes} (h : timeElement attrs content = .ok html) :
    ∃ attrs', TagText blocks inLink "time" attrs' ∧
      html = enclose "time" attrs' (substituteBars content) := by
  obtain ⟨i, rfl⟩ := timeElement_eq_ok h
  have hstamp := fun c hc => firm_of_mem_ofInt (n := i.seconds) (c := c) hc
  have hfallback : isAttrName "data-fallback" = true := by decide
  have hdatetime : isAttrName "datetime" = true := by decide
  have hmore := attrsText_attr hfallback
    (quote_not_mem_fallbackAttr attrs i (substituteBars content)) .nil
  have htext := attrsText_attr hdatetime (fun hm => (hstamp _ hm).2.1 rfl) hmore
  exact ⟨_, ⟨by decide, fun hb => absurd hb (by decide), htext, fun hs => absurd hs (by decide),
    fun e => absurd e (by decide), fun _ => ⟨_, _, hstamp, hmore, rfl⟩⟩, rfl⟩

theorem Balanced.timeElement {attrs : Attributes} (h : Balanced blocks inLink content)
    (hr : Markup.timeElement attrs content = .ok html) : Balanced blocks inLink html := by
  obtain ⟨attrs', ht, rfl⟩ := exists_timeTag blocks inLink hr
  refine .enclosed ht ?_
  have hin : (inLink || "time" == "a") = inLink := by simp
  rw [hin]
  exact h.alike (alike_substituteBars content)

/-- A class of texts, for places outside and within links, that every element other than a date is
written to if its content is such a text. -/
structure Fragments (blocks : Bool) (P : Bool → List Char → Prop) : Prop where
  lineBreak : ∀ {inLink}, P inLink Markup.lineBreak
  plain : ∀ {inLink s}, (∀ c ∈ s, c ≠ '<' ∧ c ≠ '&') → P inLink s
  of_inLink : ∀ {s}, P true s → ∀ inLink, P inLink s
  alike : ∀ {inLink s t}, P inLink s → Alike s t → P inLink t
  enclosed : ∀ {inLink name attrs content}, TagText blocks inLink name attrs → name ≠ "time" →
    P (inLink || name == "a") content → P inLink (Markup.enclose name attrs content)

theorem fragments_balanced (blocks : Bool) : Fragments blocks (Balanced blocks) where
  lineBreak := by
    rw [← List.append_nil Markup.lineBreak]
    exact .lineBreak .nil
  plain := .of_plain
  of_inLink := .of_inLink
  alike := .alike
  enclosed ht _ hc := .enclosed ht hc

variable {P : Bool → List Char → Prop}

/-- Elements other than links and dates need no attributes. -/
theorem Fragments.enclose (hP : Fragments blocks P) {name : String} (hn : name ∈ writtenNames)
    (hblock : Html.isBoundary name = true → blocks = true) (ha : name ≠ "a") (hd : name ≠ "time")
    (h : P inLink content) : P inLink (Markup.enclose name [] content) := by
  have hin : (inLink || name == "a") = inLink := by simp [ha]
  refine hP.enclosed (tagText_nil hn hblock ha hd) hd ?_
  rw [hin]
  exact h

theorem Fragments.linkContent (hP : Fragments blocks P) (attrs : Attributes) (h : P inLink content) :
    P inLink (Markup.linkContent attrs content) := by
  simp only [Markup.linkContent]
  split
  · exact hP.plain (Text.forall_mem_of_all (by decide))
  · exact h

theorem Balanced.linkContent (attrs : Attributes) (h : Balanced blocks inLink content) :
    Balanced blocks inLink (Markup.linkContent attrs content) :=
  (fragments_balanced blocks).linkContent attrs h

theorem not_isDescendantOf_of_subset {ancestry : Ancestry} {tags tags' : List String}
    (hs : tags' ⊆ tags) (h : ancestry.isDescendantOf tags = false) :
    ancestry.isDescendantOf tags' = false := by
  simp only [Ancestry.isDescendantOf, List.any_eq_false] at h ⊢
  intro x hx hm
  exact h x hx (List.contains_iff_mem.mpr (hs (List.contains_iff_mem.mp hm)))

/-- Content of an element that is passed through is such a text as the element would be. -/
theorem Fragments.passedThrough (hP : Fragments blocks P) {name : String} {ancestry : Ancestry}
    (hc : P ((ancestry.push name).isDescendantOf ["a"]) content) :
    P (ancestry.isDescendantOf ["a"]) content := by
  rw [Ancestry.isDescendantOf_push] at hc
  by_cases ha : name = "a"
  · rw [ha] at hc
    exact hP.of_inLink hc _
  · simpa [ha] using hc

/-- The names of the elements that are written as they are. -/
theorem Inline.mem_of_ofName?_plain {name : String} (h : Inline.ofName? name = some .plain) :
    name ∈ ["small", "span", "ul", "li"] := by
  unfold Inline.ofName? at h
  split at h <;> first | (cases h; done) | simp

/-- The name of the element of a kind that has one only. -/
def Inline.onlyName? : Inline → Option String
  | .code => some "code"
  | .paragraph => some "p"
  | .quotation => some "blockquote"
  | .codeBlock => some "pre"
  | .link => some "a"
  | .time => some "time"
  | .numberedList => some "ol"
  | _ => none

theorem Inline.eq_of_onlyName? {name only : String} {kind : Inline}
    (h : Inline.ofName? name = some kind) (ho : kind.onlyName? = some only) : name = only := by
  unfold Inline.ofName? at h
  split at h <;> cases h <;> cases ho <;> rfl

variable (blocks inLink) in
/-- An element other than a link or a code block is written as one tag around its content, in which
look-alikes are put in at most. -/
theorem Inline.exists_enclose {kind : Inline} {name : String}
    {entries : List (String × AttrValue)} {ancestry : Ancestry} (hn : Inline.ofName? name = some kind)
    (hkind : kind ≠ .link ∧ kind ≠ .codeBlock) (hblock : Html.isBoundary name = true → blocks = true)
    (ha : name = "ol" → entries.all (fun e => isAttrName e.1) = true)
    (hr : kind.write name ⟨entries⟩ content ancestry = .ok html) :
    ∃ written attrs changed, TagText blocks inLink written attrs ∧ written ≠ "a" ∧
      written ≠ "pre" ∧ (written = "time" → kind = .time) ∧ Alike content changed ∧
        html = enclose written attrs changed := by
  have hstyle : ∀ {style : String} {changed : List Char}, style ∈ ["b", "i", "s", "code", "q"] →
      Alike content changed → html = enclose style [] changed →
        ∃ written attrs changed, TagText blocks inLink written attrs ∧ written ≠ "a" ∧
          written ≠ "pre" ∧ (written = "time" → kind = .time) ∧ Alike content changed ∧
            html = enclose written attrs changed := by
    intro style changed hs hc he
    have hall : ["b", "i", "s", "code", "q"].all (fun n => decide (n ∈ writtenNames ∧
        Html.isBoundary n = false ∧ n ≠ "a" ∧ n ≠ "time" ∧ n ≠ "pre")) = true := by decide
    obtain ⟨hw, hb, hna, hnt, hnp⟩ := of_decide_eq_true (List.all_eq_true.mp hall style hs)
    exact ⟨_, _, _, tagText_nil hw (fun h => absurd h (by simp [hb])) hna hnt, hna, hnp,
      fun e => absurd e hnt, hc, he⟩
  have hown : ∀ only, kind.onlyName? = some only → Html.isBoundary only = true → blocks = true :=
    fun only ho => Inline.eq_of_onlyName? hn ho ▸ hblock
  cases kind with
  | strong =>
    exact hstyle (by simp) (alike_guardText (alike_substitute (by decide)) _)
      (Except.ok.inj hr).symm
  | emphasis =>
    exact hstyle (by simp) (alike_guardText alike_substituteUnderscores _) (Except.ok.inj hr).symm
  | strike =>
    exact hstyle (by simp) (alike_guardText (alike_substitute (by decide)) _)
      (Except.ok.inj hr).symm
  | code =>
    exact hstyle (by simp) (alike_guardText (alike_substitute (by decide)) _)
      (Except.ok.inj hr).symm
  | paragraph =>
    have ht : TagText blocks inLink "p" [] :=
      tagText_nil (by decide) (hown "p" rfl) (by decide) (by decide)
    exact ⟨_, _, _, ht, by decide, by decide, fun e => absurd e (by decide), .refl _,
      (Except.ok.inj hr).symm⟩
  | quotation =>
    have hq := alike_guardQuote content
    simp only [Inline.write] at hr
    split at hr
    · exact hstyle (by simp) hq (Except.ok.inj hr).symm
    · have ht : TagText blocks inLink "blockquote" [] :=
        tagText_nil (by decide) (hown "blockquote" rfl) (by decide) (by decide)
      exact ⟨_, _, _, ht, by decide, by decide, fun e => absurd e (by decide), hq,
        (Except.ok.inj hr).symm⟩
  | codeBlock => exact absurd rfl hkind.2
  | link => exact absurd rfl hkind.1
  | time =>
    obtain ⟨attrs', ht, he⟩ := exists_timeTag blocks inLink hr
    exact ⟨_, _, _, ht, by decide, by decide, fun _ => rfl, alike_substituteBars content, he⟩
  | numberedList =>
    have hname : name = "ol" := Inline.eq_of_onlyName? hn rfl
    exact ⟨_, _, _, ⟨by decide, hown "ol" rfl, attrsText_writeAttrs (ha hname),
      fun hs => absurd hs (by decide), fun e => absurd e (by decide),
      fun e => absurd e (by decide)⟩, by decide, by decide, fun e => absurd e (by decide), .refl _,
      (Except.ok.inj hr).symm⟩
  | plain =>
    have hname := Inline.mem_of_ofName?_plain hn
    simp only [List.mem_cons, List.not_mem_nil, or_false] at hname
    rcases hname with rfl | rfl | rfl | rfl <;>
      exact ⟨_, _, _, tagText_nil (by decide) hblock (by decide) (by decide), by decide, by decide,
        fun e => absurd e (by decide), .refl _, (Except.ok.inj hr).symm⟩

/-- An element of each kind, save a date, is written around its content to such a text. -/
theorem Fragments.write (hP : Fragments blocks P) {kind : Inline} {name : String}
    {entries : List (String × AttrValue)} {ancestry : Ancestry}
    (hn : Inline.ofName? name = some kind) (htime : kind ≠ .time)
    (hblock : Html.isBoundary name = true → blocks = true)
    (ha : name ∈ ["a", "ol"] → entries.all (fun e => isAttrName e.1) = true)
    (hshown : ancestry.isDescendantOf kind.hiddenWithin = false)
    (hc : P ((ancestry.push name).isDescendantOf ["a"]) content)
    (hr : kind.write name ⟨entries⟩ content ancestry = .ok html) :
    P (ancestry.isDescendantOf ["a"]) html := by
  have hp := hP.passedThrough hc
  by_cases hlink : kind = .link
  · subst hlink
    obtain rfl := Except.ok.inj hr
    obtain rfl : name = "a" := Inline.eq_of_onlyName? hn rfl
    have hout : ancestry.isDescendantOf ["a"] = false :=
      not_isDescendantOf_of_subset (by simp [Inline.hiddenWithin]) hshown
    rw [Ancestry.isDescendantOf_push] at hc
    rw [hout] at hc ⊢
    exact hP.enclosed ⟨by decide, hblock, attrsText_writeAttrs (ha (by simp)),
      fun hs => absurd hs (by decide), fun _ => rfl, fun e => absurd e (by decide)⟩ (by decide)
      (hP.linkContent _ hc)
  by_cases hpre : kind = .codeBlock
  · subst hpre
    obtain rfl := Except.ok.inj hr
    obtain rfl : name = "pre" := Inline.eq_of_onlyName? hn rfl
    have hcode : Html.isBoundary "code" = false := by decide
    exact hP.enclose (by decide) hblock (by decide) (by decide)
      (hP.enclose (by decide) (fun hb => absurd hb (by simp [hcode])) (by decide) (by decide)
        (hP.alike hp (alike_guardText (alike_substitute (by decide)) _)))
  · obtain ⟨written, attrs, changed, ht, hna, -, hwritten, halike, he⟩ :=
      Inline.exists_enclose _ _ hn ⟨hlink, hpre⟩ hblock (fun e => ha (by simp [e])) hr
    rw [he]
    refine hP.enclosed ht (fun e => htime (hwritten e)) ?_
    have hin : ∀ inLink : Bool, (inLink || written == "a") = inLink := by simp [hna]
    rw [hin]
    exact hP.alike hp halike

/-- What an element of a message comes to: a text with the given property, or the refusal of a date
that cannot be read. -/
def Written (P : List Char → Prop) : Except RenderError (List Char) → Prop
  | .ok html => P html
  | .error e => ∃ text, e = .invalidDatetime text

theorem Written.imp {P Q : List Char → Prop} {x : Except RenderError (List Char)} (h : Written P x)
    (hpq : ∀ html, x = .ok html → P html → Q html) : Written Q x := by
  cases x with
  | ok html => exact hpq html rfl h
  | error e => exact h

theorem written_timeElement (attrs : Attributes) (hc : Balanced blocks inLink content) :
    Written (Balanced blocks inLink) (timeElement attrs content) := by
  cases hr : timeElement attrs content with
  | ok html => exact hc.timeElement hr
  | error e =>
    simp only [timeElement, bind, Except.bind, readInstant] at hr
    split at hr
    next e' he =>
      split at he
      · cases he
      · cases he
        exact ⟨_, (Except.error.inj hr).symm⟩
    · cases hr

/-- An element is written around its content to a text of a class, unless it is a date that cannot be
read, if a date is. -/
theorem Fragments.written_renderTag (hP : Fragments blocks P) {name : String}
    {entries : List (String × AttrValue)} {ancestry : Ancestry}
    (hn : name = "br" ∨ (Inline.ofName? name).isSome = true ∧ (blocks = true ∨ Html.isBoundary name = false))
    (ha : name ∈ ["a", "ol"] → entries.all (fun e => isAttrName e.1) = true)
    (htime : name = "time" →
      Written (P (ancestry.isDescendantOf ["a"])) (timeElement ⟨entries⟩ content))
    (hc : P ((ancestry.push name).isDescendantOf ["a"]) content) :
    Written (P (ancestry.isDescendantOf ["a"])) (renderTag name ⟨entries⟩ content ancestry) := by
  have hp := hP.passedThrough hc
  simp only [renderTag]
  split
  · exact hP.lineBreak
  next hbr =>
    split
    · exact hp
    · split
      next hk => simp [hbr, hk] at hn
      next kind hk =>
        have hblock : Html.isBoundary name = true → blocks = true := by
          rcases hn with hn | ⟨-, hn | hn⟩
          · exact absurd hn hbr
          · exact fun _ => hn
          · exact fun hb => absurd hb (by simp [hn])
        split
        · exact hp
        next hh =>
          by_cases hkind : kind = .time
          · subst hkind
            exact htime (Inline.eq_of_onlyName? hk rfl)
          · have hw : ∀ html, kind.write name ⟨entries⟩ content ancestry = .ok html →
                P (ancestry.isDescendantOf ["a"]) html := fun _ hr =>
              hP.write hk hkind hblock ha (by simpa using hh) hc hr
            cases kind with
            | time => exact absurd rfl hkind
            | _ => exact hw _ rfl

/-- An element is written around balanced content to a balanced text, unless it is a date that cannot
be read. -/
theorem written_renderTag {name : String} {entries : List (String × AttrValue)} {ancestry : Ancestry}
    (hn : name = "br" ∨ (Inline.ofName? name).isSome = true ∧ (blocks = true ∨ Html.isBoundary name = false))
    (ha : name ∈ ["a", "ol"] → entries.all (fun e => isAttrName e.1) = true)
    (hc : Balanced blocks ((ancestry.push name).isDescendantOf ["a"]) content) :
    Written (Balanced blocks (ancestry.isDescendantOf ["a"]))
      (renderTag name ⟨entries⟩ content ancestry) :=
  (fragments_balanced blocks).written_renderTag hn ha
    (fun _ => written_timeElement _ ((fragments_balanced blocks).passedThrough hc)) hc

end Markup

namespace Render

open Markup

/-- What rendering comes to: a result with the given property and no checks, or the refusal of a date
that cannot be read. -/
def Writes {α : Type} (P : α → Prop) (x : RenderM α) : Prop :=
  (∃ text, x = RenderM.fail (.invalidDatetime text)) ∨ ∃ a, P a ∧ x = pure a

theorem fail_bind {α β : Type} (e : RenderError) (f : α → RenderM β) :
    RenderM.fail e >>= f = RenderM.fail e := rfl

variable {α β : Type} {P : α → Prop} {Q : β → Prop}

theorem Writes.pure {a : α} (h : P a) : Writes P (Pure.pure a : RenderM α) :=
  .inr ⟨a, h, rfl⟩

theorem Writes.bind {x : RenderM α} {f : α → RenderM β} (hx : Writes P x)
    (hf : ∀ a, P a → Writes Q (f a)) : Writes Q (x >>= f) := by
  rcases hx with ⟨text, rfl⟩ | ⟨a, ha, rfl⟩
  · exact .inl ⟨text, fail_bind _ f⟩
  · rw [pure_bind]
    exact hf a ha

theorem Writes.imp {Q : α → Prop} {x : RenderM α} (h : Writes P x) (hpq : ∀ a, P a → Q a) :
    Writes Q x :=
  h.imp_right fun ⟨a, ha, he⟩ => ⟨a, hpq a ha, he⟩

theorem Writes.and {Q : α → Prop} {x : RenderM α} (h : Writes P x) (h' : Writes Q x) :
    Writes (fun a => P a ∧ Q a) x := by
  rcases h with h | ⟨a, ha, rfl⟩
  · exact .inl h
  · rcases h' with ⟨text, h'⟩ | ⟨b, hb, h'⟩
    · cases h'
    · cases h'
      exact .pure ⟨ha, hb⟩

theorem Writes.ofExcept {P : List Char → Prop} {x : Except RenderError (List Char)}
    (h : Written P x) : Writes P (RenderM.ofExcept x) := by
  cases x with
  | ok html => exact .pure h
  | error e =>
    obtain ⟨text, rfl⟩ := h
    exact .inl ⟨text, rfl⟩

variable {blocks : Bool} {c : Context}

theorem renderNode_tag (hc : c.mode = .html) (name : String) (attributes : Attributes)
    (children : List Child) :
    renderNode c ⟨.tag name, attributes, children, none⟩
      = (do
        let content ← renderText (c.enter name) children
        let html ← RenderM.ofExcept (renderTag name attributes content c.ancestry)
        Pure.pure (.text html)) := by
  obtain ⟨entries⟩ := attributes
  simp only [renderNode, Context.scope, hc, recordCheck, pure_bind]

theorem renderText_append (c : Context) (ds es : List Child) :
    renderText c (ds ++ es)
      = (do
        let s ← renderText c ds
        let t ← renderText c es
        Pure.pure (s ++ t)) := by
  induction ds with
  | nil => simp only [List.nil_append, renderText, pure_bind, bind_pure]
  | cons d ds ih =>
    simp only [List.cons_append, renderText, ih, bind_assoc, pure_bind, List.append_assoc]

/-- Whether a place lies in a link. -/
def Context.inLink (c : Context) : Bool :=
  c.ancestry.isDescendantOf ["a"]

mutual

theorem writes_renderNode {c : Context} (hc : c.mode = .html) : (n : Node) →
    n.isInline blocks = true →
    Writes (fun o => Balanced blocks c.inLink o.toText) (renderNode c n)
  | ⟨kind, ⟨entries⟩, children, hook⟩, h => by
    simp only [Node.isInline, Bool.and_eq_true, Option.any_eq_true, Bool.or_eq_true,
      Bool.not_eq_true', Option.isNone_iff_eq_none] at h
    obtain ⟨⟨⟨name, hname, hn, ha⟩, rfl⟩, hchildren⟩ := h
    cases kind with
    | tag name' =>
      obtain rfl := Option.some.inj hname
      rw [renderNode_tag hc]
      have hcontent := writes_renderText (c := c.enter name') hc children hchildren
      refine hcontent.bind fun content hb => ?_
      refine (Writes.ofExcept (written_renderTag ?_ ?_ hb)).bind fun html hb => .pure hb
      · simpa using hn
      · intro hm
        simpa [hm] using ha
    | _ => cases hname

/-- Children that are inline elements and texts are written to a balanced text. -/
theorem writes_renderText {c : Context} (hc : c.mode = .html) : (ds : List Child) →
    childrenAreInline blocks ds = true → Writes (Balanced blocks c.inLink) (renderText c ds)
  | [], _ => .pure .nil
  | .node n :: ds, h => by
    simp only [childrenAreInline, Bool.and_eq_true] at h
    simp only [renderText, renderChild]
    refine (writes_renderNode hc n h.1).bind fun o ho => ?_
    exact (writes_renderText hc ds h.2).bind fun s hs => .pure (ho.append hs)
  | .text s :: ds, h => by
    simp only [renderText, renderChild, pure_bind]
    refine (writes_renderText hc ds h).bind fun t ht => .pure (Balanced.append ?_ ht)
    simp only [leaf, hc, Output.toText]
    exact .of_escapeEntity _

end

end Render

end MessageLayout
