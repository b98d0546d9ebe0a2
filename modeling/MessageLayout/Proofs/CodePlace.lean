import MessageLayout.Proofs.FragmentText

/-!
# The place of a code block

Around a code block within inline elements the fragment falls into three parts: the text before it,
the block, and the text behind it. Neither of the outer parts depends on the code, and the code is
altered by the guard of a quotation at most.

    renderText c (p.children parts)
      = pure (before ++ codeBlock (escapeEntity (shielded quoted code)) ++ after)
                                                                    (CodePlace.writesAround_children)
-/

namespace MessageLayout

namespace Render

open Markup

variable {blocks : Bool} {names : List String}

/-! ## Levels -/

/-- An element around a place, with the children before and behind the place. -/
structure Level where
  /-- The name. -/
  name : String
  /-- The attributes. -/
  attributes : Attributes
  /-- The children before the place. -/
  left : List Child
  /-- The children behind the place. -/
  right : List Child

/-- The elements in which a code block is written as on its own. A link, a date, a list and code
write it in another way or not at all, and a line break leaves out what is in it. The flag tells
whether blocks are allowed before the place. -/
def Level.isPlain (blocks : Bool) (l : Level) : Bool :=
  (Inline.ofName? l.name).isSome && !(["a", "time", "ul", "ol", "pre", "code"].contains l.name)
    && childrenAreInline blocks l.left && childrenAreInline true l.right

/-- The name that an element of a kind is written with. -/
def writtenAs (kind : Inline) (name : String) : String :=
  match kind with
  | .strong => "b"
  | .emphasis => "i"
  | .strike => "s"
  | _ => name

/-- The name that the element is written with. -/
def Level.written (l : Level) : String :=
  (Inline.ofName? l.name).elim l.name (writtenAs · l.name)

/-- The element with the given child in its place. -/
def Level.around (l : Level) (d : Child) : Child :=
  .node ⟨.tag l.name, l.attributes, l.left ++ d :: l.right, none⟩

/-- The child in the place within the given elements, outermost first. -/
def nest (levels : List Level) (d : Child) : Child :=
  levels.foldr Level.around d

/-- A code block of the given texts. -/
def codeNode (attributes : Attributes) (parts : List String) : Child :=
  .node ⟨.tag "pre", attributes, parts.map .text, none⟩

/-- The code of a block of the given texts. -/
def joined (parts : List String) : List Char :=
  parts.flatMap String.toList

/-- Whether elements around a place, within others, make a quotation of it. -/
def quotes (ancestry : Ancestry) (levels : List Level) : Bool :=
  levels.any (·.name == "blockquote") && !ancestry.isDescendantOf ["blockquote"]

/-- What is written of the code in a place. -/
def shielded (quoted : Bool) (code : List Char) : List Char :=
  if quoted then shieldLater code else code

/-- Code is written as a block into a text that does not depend on it, or else a date is refused,
whatever the code is. -/
def WritesAround (blocks : Bool) (names : List String) (quoted : Bool)
    (x : List String → RenderM (List Char)) : Prop :=
  (∃ text, ∀ parts, '\x60' ∉ joined parts → x parts = RenderM.fail (.invalidDatetime text)) ∨
    ∃ before after, Opened blocks names before ∧ ∀ parts, '\x60' ∉ joined parts →
      x parts
        = pure (before ++ codeBlock (Text.escapeEntity (shielded quoted (joined parts))) ++ after)

/-- The elements around the place that an element in them would be shown differently in. -/
def plainPlace (ancestry : Ancestry) : Bool :=
  !ancestry.isDescendantOf ["a", "time", "ul", "ol", "pre", "code"]

theorem not_isDescendantOf_of_plainPlace {ancestry : Ancestry} (h : plainPlace ancestry = true)
    {tags : List String} (hs : tags ⊆ ["a", "time", "ul", "ol", "pre", "code"]) :
    ancestry.isDescendantOf tags = false :=
  not_isDescendantOf_of_subset hs (by simpa [plainPlace] using h)

theorem not_isChildOf_of_plainPlace {ancestry : Ancestry} (h : plainPlace ancestry = true) :
    ancestry.isChildOf ["pre", "code"] = false := by
  have hd : ancestry.isDescendantOf ["pre", "code"] = false :=
    not_isDescendantOf_of_plainPlace h (by simp)
  obtain ⟨tags⟩ := ancestry
  cases tags with
  | nil => rfl
  | cons t tags =>
    simp only [Ancestry.isDescendantOf, List.any_cons, Bool.or_eq_false_iff] at hd
    simpa [Ancestry.isChildOf, Ancestry.parent?] using hd.1

/-- An element around content that holds the block in its place. -/
theorem exists_enclose {name : String} (hn : name ∈ placeNames) {before : List Char}
    (hb : Opened blocks names before) (after : List Char) :
    ∃ before' after', Opened blocks (name :: names) before' ∧ ∀ block,
      enclose name [] (before ++ block ++ after) = before' ++ block ++ after' :=
  ⟨[] ++ '<' :: (name.toList ++ '>' :: before), after ++ "</".toList ++ name.toList ++ ['>'],
    .within .nil hn (tagText_of_mem_placeNames hn) hb, fun block => by simp [enclose]⟩

/-- An element of a style around content that holds a code block. -/
theorem exists_enclose_guardText {name : String} (hn : name ∈ placeNames)
    {f : List Char → List Char} (hf : ∀ s, Alike s (f s)) {before : List Char}
    (hb : Opened blocks names before) (after : List Char) :
    ∃ before' after', Opened blocks (name :: names) before' ∧ ∀ code,
      enclose name [] (guardText f (before ++ codeBlock (Text.escapeEntity code) ++ after))
        = before' ++ codeBlock (Text.escapeEntity code) ++ after' := by
  obtain ⟨after₁, h₁⟩ := guardText_codeBlock f hb.closed after
  obtain ⟨before', after', hb', h⟩ := exists_enclose hn (hb.alike (alike_guardText hf before)) after₁
  refine ⟨before', after', hb', fun code => ?_⟩
  rw [h₁ _ (Text.lt_not_mem_escapeEntity code), h]

theorem isDescendantOf_cons (ancestry : Ancestry) (tag : String) (tags : List String) :
    ancestry.isDescendantOf (tag :: tags)
      = (ancestry.isDescendantOf [tag] || ancestry.isDescendantOf tags) := by
  rw [Bool.eq_iff_iff]
  simp only [Ancestry.isDescendantOf, List.contains_cons, List.contains_nil, Bool.or_false,
    List.any_eq_true, Bool.or_eq_true]
  constructor
  · rintro ⟨x, hx, h | h⟩
    · exact .inl ⟨x, hx, h⟩
    · exact .inr ⟨x, hx, h⟩
  · rintro (⟨x, hx, h⟩ | ⟨x, hx, h⟩)
    · exact ⟨x, hx, .inl h⟩
    · exact ⟨x, hx, .inr h⟩

/-- Around a place, a quotation is left out in a quotation only. -/
theorem isDescendantOf_hiddenWithin_quotation {ancestry : Ancestry}
    (ha : plainPlace ancestry = true) :
    ancestry.isDescendantOf Inline.quotation.hiddenWithin
      = ancestry.isDescendantOf ["blockquote"] := by
  have h : ancestry.isDescendantOf ["ul", "ol", "time"] = false :=
    not_isDescendantOf_of_plainPlace ha (by simp)
  rw [Inline.hiddenWithin, isDescendantOf_cons, h, Bool.or_false]

/-- An element of a plain kind, which is no quotation, is written around a code block in its place. -/
theorem exists_write {name : String} {kind : Inline} (hn : Inline.ofName? name = some kind)
    (hname : name ∉ ["a", "time", "ul", "ol", "pre", "code", "blockquote"]) (attributes : Attributes)
    (ancestry : Ancestry) {before : List Char} (hb : Opened blocks names before)
    (after : List Char) :
    ∃ before' after', Opened blocks (writtenAs kind name :: names) before' ∧ ∀ code,
      kind.write name attributes (before ++ codeBlock (Text.escapeEntity code) ++ after) ancestry
        = .ok (before' ++ codeBlock (Text.escapeEntity code) ++ after') := by
  have hplace : ∀ style ∈ ["b", "i", "s", "p"], style ∈ placeNames := by decide
  cases kind with
  | strong =>
    have hstar : ('*', '\u2217') ∈ lookalikes := by decide
    obtain ⟨before', after', hb', h⟩ :=
      exists_enclose_guardText (hplace "b" (by simp)) (alike_substitute hstar) hb after
    exact ⟨before', after', hb', fun code => congrArg Except.ok (h code)⟩
  | emphasis =>
    obtain ⟨before', after', hb', h⟩ :=
      exists_enclose_guardText (hplace "i" (by simp)) alike_substituteUnderscores hb after
    exact ⟨before', after', hb', fun code => congrArg Except.ok (h code)⟩
  | strike =>
    have htilde : ('~', '\u223c') ∈ lookalikes := by decide
    obtain ⟨before', after', hb', h⟩ :=
      exists_enclose_guardText (hplace "s" (by simp)) (alike_substitute htilde) hb after
    exact ⟨before', after', hb', fun code => congrArg Except.ok (h code)⟩
  | paragraph =>
    obtain rfl : name = "p" := Inline.eq_of_onlyName? hn rfl
    obtain ⟨before', after', hb', h⟩ := exists_enclose (hplace "p" (by simp)) hb after
    exact ⟨before', after', hb', fun code => congrArg Except.ok (h _)⟩
  | plain =>
    have hm := Inline.mem_of_ofName?_plain hn
    have hplain : name ∈ placeNames := by
      simp only [List.mem_cons, List.not_mem_nil, or_false] at hm hname
      rcases hm with rfl | rfl | rfl | rfl
      · decide
      · decide
      · simp at hname
      · decide
    obtain ⟨before', after', hb', h⟩ := exists_enclose hplain hb after
    exact ⟨before', after', hb', fun code => congrArg Except.ok (h _)⟩
  | quotation => exact absurd (by simp [Inline.eq_of_onlyName? hn rfl]) hname
  | code => exact absurd (by simp [Inline.eq_of_onlyName? hn rfl]) hname
  | codeBlock => exact absurd (by simp [Inline.eq_of_onlyName? hn rfl]) hname
  | link => exact absurd (by simp [Inline.eq_of_onlyName? hn rfl]) hname
  | time => exact absurd (by simp [Inline.eq_of_onlyName? hn rfl]) hname
  | numberedList => exact absurd (by simp [Inline.eq_of_onlyName? hn rfl]) hname

/-- A quotation that is written shields a code block in its place. -/
theorem exists_renderTag_quotation (attributes : Attributes) {ancestry : Ancestry}
    (ha : plainPlace ancestry = true) {before : List Char} (hb : Opened blocks names before)
    (after : List Char) :
    ∃ before' after', Opened blocks ("blockquote" :: names) before' ∧ ∀ code,
      renderTag "blockquote" attributes (before ++ codeBlock (Text.escapeEntity code) ++ after)
          ancestry
        = .ok (before' ++ codeBlock (Text.escapeEntity
            (shielded (!ancestry.isDescendantOf ["blockquote"]) code)) ++ after') := by
  have hchild := not_isChildOf_of_plainPlace ha
  have hhidden := isDescendantOf_hiddenWithin_quotation ha
  have hn : Inline.ofName? "blockquote" = some .quotation := rfl
  by_cases hh : ancestry.isDescendantOf ["blockquote"] = true
  · exact ⟨before, after, .passed hb, fun code => by
      simp [renderTag, hchild, hn, hhidden, hh, shielded]⟩
  · have hlink : ancestry.isDescendantOf ["a"] = false :=
      not_isDescendantOf_of_plainPlace ha (by simp)
    have hplace : "blockquote" ∈ placeNames := by decide
    obtain ⟨before', after', hb', h⟩ :=
      exists_enclose hplace (hb.alike (alike_guardQuote before)) (guardLater after)
    refine ⟨before', after', hb', fun code => ?_⟩
    have hs : ∀ s, renderTag "blockquote" attributes s ancestry
        = .ok (enclose "blockquote" [] (guardQuote s)) := fun s => by
      simp [renderTag, hchild, hn, hhidden, hh, Inline.write, hlink]
    rw [hs, guardQuote_codeBlock, h, guardLater_escapeEntity]
    simp [shielded, hh]

/-- An element around a code block in its place writes text around it, and a quotation shields it. -/
theorem exists_renderTag {name : String} {kind : Inline} (hn : Inline.ofName? name = some kind)
    (hname : name ∉ ["a", "time", "ul", "ol", "pre", "code"]) (attributes : Attributes)
    {ancestry : Ancestry} (ha : plainPlace ancestry = true) {before : List Char}
    (hb : Opened blocks names before) (after : List Char) :
    ∃ before' after', Opened blocks (writtenAs kind name :: names) before' ∧ ∀ code,
      renderTag name attributes (before ++ codeBlock (Text.escapeEntity code) ++ after) ancestry
        = .ok (before' ++ codeBlock (Text.escapeEntity
            (shielded (name == "blockquote" && !ancestry.isDescendantOf ["blockquote"]) code))
              ++ after') := by
  have hbr : name ≠ "br" := by
    rintro rfl
    cases hn
  have hchild := not_isChildOf_of_plainPlace ha
  by_cases hq : name = "blockquote"
  · subst hq
    obtain rfl := Option.some.inj hn
    exact exists_renderTag_quotation attributes ha hb after
  · have hnq : ∀ code, shielded (name == "blockquote" && !ancestry.isDescendantOf ["blockquote"]) code
        = code := fun code => by simp [shielded, hq]
    simp only [hnq]
    by_cases hh : ancestry.isDescendantOf kind.hiddenWithin = true
    · exact ⟨before, after, .passed hb, fun code => by simp [renderTag, hbr, hchild, hn, hh]⟩
    · have hw : ∀ content, renderTag name attributes content ancestry
          = kind.write name attributes content ancestry := fun content => by
        simp [renderTag, hbr, hchild, hn, hh]
      simp only [hw]
      exact exists_write hn (by simp_all) attributes ancestry hb after

theorem renderText_singleton (c : Context) (d : Child) :
    renderText c [d] = (do
      let output ← renderChild c d
      Pure.pure output.toText) := by
  simp only [renderText, pure_bind, List.append_nil]

/-- The code block itself, with nothing around it. -/
theorem writesAround_codeNode {c : Context} (hc : c.mode = .html)
    (ha : plainPlace c.ancestry = true) (attributes : Attributes) :
    WritesAround blocks [] false fun parts => renderText c [codeNode attributes parts] := by
  refine .inr ⟨[], [], .here .nil, fun parts hp => ?_⟩
  have hchild := not_isChildOf_of_plainPlace ha
  have hhidden : c.ancestry.isDescendantOf Inline.codeBlock.hiddenWithin = false :=
    not_isDescendantOf_of_plainPlace ha (by simp [Inline.hiddenWithin])
  have hguard : guardCode (Text.escapeEntity (joined parts)) = Text.escapeEntity (joined parts) := by
    rw [guardCode, guardText_of_not_mem _ (Text.lt_not_mem_escapeEntity _)]
    exact substitute_of_not_mem _ fun hm => hp ((Text.mem_escapeEntity (by decide)).mp hm)
  have hmode : (c.enter "pre").mode = .html := hc
  have htexts : renderText (c.enter "pre") (parts.map .text)
      = pure (Text.escapeEntity (joined parts)) := renderText_texts hmode parts
  have hwrite : renderTag "pre" attributes (Text.escapeEntity (joined parts)) c.ancestry
      = .ok (codeBlock (Text.escapeEntity (joined parts))) := by
    simp [renderTag, hchild, Inline.ofName?, hhidden, Inline.write, hguard, codeBlock]
  show renderText c [codeNode attributes parts] = _
  rw [renderText_singleton, codeNode, renderChild, renderNode_tag hc, htexts]
  simp only [pure_bind, hwrite, RenderM.ofExcept, Output.toText, List.nil_append, List.append_nil]
  rfl

/-- Siblings stand before and behind the code. -/
theorem WritesAround.append {c : Context} (hc : c.mode = .html) (hlink : c.inLink = false)
    {quoted : Bool} {left right : List Child} (hl : childrenAreInline blocks left = true)
    (hr : childrenAreInline true right = true) {d : List String → Child}
    (h : WritesAround blocks names quoted fun parts => renderText c [d parts]) :
    WritesAround blocks names quoted fun parts => renderText c (left ++ d parts :: right) := by
  have hsplit : ∀ parts, renderText c (left ++ d parts :: right)
      = (do
        let s ← renderText c left
        let t ← renderText c [d parts]
        let u ← renderText c right
        Pure.pure (s ++ (t ++ u))) := by
    intro parts
    rw [renderText_append, ← List.singleton_append, renderText_append]
    simp only [bind_assoc, pure_bind]
  simp only [hsplit]
  rcases writes_renderText hc left hl with ⟨text, hleft⟩ | ⟨s, hs, hleft⟩
  · exact .inl ⟨text, fun parts _ => by simp only [hleft, fail_bind]⟩
  rcases h with ⟨text, h⟩ | ⟨before, after, hb, h⟩
  · exact .inl ⟨text, fun parts hp => by simp only [hleft, pure_bind, h parts hp, fail_bind]⟩
  rcases writes_renderText hc right hr with ⟨text, hright⟩ | ⟨u, -, hright⟩
  · exact .inl ⟨text, fun parts hp => by
      simp only [hleft, pure_bind, h parts hp, hright, fail_bind]⟩
  rw [hlink] at hs
  refine .inr ⟨s ++ before, after ++ u, .balanced_append hs hb, fun parts hp => ?_⟩
  simp only [hleft, pure_bind, h parts hp, hright, List.append_assoc]

theorem shielded_shielded (ancestry : Ancestry) (l : Level) (levels : List Level)
    (code : List Char) :
    shielded (l.name == "blockquote" && !ancestry.isDescendantOf ["blockquote"])
        (shielded (quotes (ancestry.push l.name) levels) code)
      = shielded (quotes ancestry (l :: levels)) code := by
  by_cases hn : l.name = "blockquote"
  · simp [quotes, shielded, hn]
  · simp [quotes, shielded, hn]

/-- An element stands around the code. -/
theorem WritesAround.level {c : Context} (hc : c.mode = .html) (ha : plainPlace c.ancestry = true)
    {l : Level} (hl : l.isPlain blocks = true) {levels : List Level} {d : List String → Child}
    (h : WritesAround blocks names (quotes (c.ancestry.push l.name) levels) fun parts =>
      renderText (c.enter l.name) (l.left ++ d parts :: l.right)) :
    WritesAround blocks (l.written :: names) (quotes c.ancestry (l :: levels))
      fun parts => renderText c [l.around (d parts)] := by
  simp only [Level.isPlain, Bool.and_eq_true, Option.isSome_iff_exists, Bool.not_eq_true'] at hl
  obtain ⟨⟨⟨⟨kind, hkind⟩, hname⟩, -⟩, -⟩ := hl
  have hstep : ∀ parts, renderText c [l.around (d parts)]
      = (do
        let content ← renderText (c.enter l.name) (l.left ++ d parts :: l.right)
        RenderM.ofExcept (renderTag l.name l.attributes content c.ancestry)) := by
    intro parts
    rw [renderText_singleton, Level.around, renderChild, renderNode_tag hc]
    simp only [bind_assoc, pure_bind, Output.toText, bind_pure]
  simp only [hstep]
  rcases h with ⟨text, h⟩ | ⟨before, after, hb, h⟩
  · exact .inl ⟨text, fun parts hp => by simp only [h parts hp, fail_bind]⟩
  · obtain ⟨before', after', hb', hr⟩ := exists_renderTag hkind
      (by simpa [List.contains_iff_mem] using hname) l.attributes ha hb after
    have hwritten : l.written = writtenAs kind l.name := by simp [Level.written, hkind]
    refine .inr ⟨before', after', hwritten ▸ hb', fun parts hp => ?_⟩
    simp only [h parts hp, pure_bind, hr, shielded_shielded]
    rfl

/-- Code within elements is written as a block into a text that does not depend on the code. -/
theorem writesAround_nest {c : Context} (hc : c.mode = .html) (ha : plainPlace c.ancestry = true)
    {levels : List Level} (hl : levels.all (Level.isPlain blocks) = true) (attributes : Attributes) :
    WritesAround blocks (levels.map Level.written) (quotes c.ancestry levels)
      fun parts => renderText c [nest levels (codeNode attributes parts)] := by
  induction levels generalizing c with
  | nil => exact writesAround_codeNode hc ha attributes
  | cons l levels ih =>
    rw [List.all_cons, Bool.and_eq_true] at hl
    have hplain := hl.1
    simp only [Level.isPlain, Bool.and_eq_true, Bool.not_eq_true'] at hplain
    obtain ⟨⟨⟨-, hname⟩, hleft⟩, hright⟩ := hplain
    have ha' : plainPlace (c.enter l.name).ancestry = true := by
      have ha := not_isDescendantOf_of_plainPlace ha (List.Subset.refl _)
      simp only [plainPlace, Context.enter, Ancestry.isDescendantOf_push, hname, ha, Bool.or_false,
        Bool.not_false]
    have hlink : (c.enter l.name).inLink = false :=
      not_isDescendantOf_of_plainPlace ha' (by simp)
    have hinner := (ih (c := c.enter l.name) hc ha' hl.2).append (c := c.enter l.name) hc hlink
      hleft hright
    exact hinner.level hc ha hl.1

end Render

open Render Markup

variable {blocks : Bool}

/-- The place of a code block in inline children. -/
structure CodePlace where
  /-- The children before the outermost element around the block. -/
  left : List Child
  /-- The elements around the block, outermost first. -/
  levels : List Level
  /-- The attributes of the block. -/
  attributes : Attributes
  /-- The children behind the outermost element around the block. -/
  right : List Child

namespace CodePlace

/-- Whether the place is in plain elements and among inline children only; the flag tells whether
blocks are allowed before it. -/
def isPlain (blocks : Bool) (p : CodePlace) : Bool :=
  childrenAreInline blocks p.left && p.levels.all (Level.isPlain blocks)
    && childrenAreInline true p.right

/-- Whether the place lies in a quotation. -/
def isQuoted (p : CodePlace) : Bool :=
  p.levels.any (·.name == "blockquote")

/-- The children with a block of the given texts in the place. -/
def children (p : CodePlace) (parts : List String) : List Child :=
  p.left ++ nest p.levels (codeNode p.attributes parts) :: p.right

/-- Children come to those with a block of the given texts in the place. -/
structure Holds (p : CodePlace) (content : Content) (parts : List String) : Prop where
  children : content.normalize = p.children parts
  plain : ∀ c ∈ ['\x60', '\x00', '\r'], c ∉ joined parts
  notBlank : Text.isAllBlank (joined parts) = false

end CodePlace

/-! ## The fragment -/

theorem childrenAreInline_texts (parts : List String) :
    childrenAreInline blocks (parts.map .text) = true := by
  induction parts with
  | nil => rfl
  | cons s parts ih => exact ih

theorem childrenAreInline_codeNode (attributes : Attributes) (parts : List String) :
    childrenAreInline true [codeNode attributes parts] = true := by
  obtain ⟨entries⟩ := attributes
  have hpre : (Inline.ofName? "pre").isSome = true := rfl
  simp [codeNode, childrenAreInline, Node.isInline, Kind.tagName?, hpre, childrenAreInline_texts]

theorem childrenAreInline_around {l : Level} (hl : l.isPlain true = true) {d : Child}
    (hd : childrenAreInline true [d] = true) : childrenAreInline true [l.around d] = true := by
  obtain ⟨name, ⟨entries⟩, left, right⟩ := l
  simp only [Level.isPlain, Bool.and_eq_true, Bool.not_eq_true'] at hl
  obtain ⟨⟨⟨hname, hplain⟩, hleft⟩, hright⟩ := hl
  have hchildren : childrenAreInline true (left ++ d :: right) = true := by
    rw [← List.singleton_append, childrenAreInline_append, childrenAreInline_append, hleft, hd, hright]
    rfl
  have hattrs : ¬name = "a" ∧ ¬name = "ol" := by
    constructor <;> (rintro rfl; simp at hplain)
  simp [Level.around, childrenAreInline, Node.isInline, Kind.tagName?, hname, hattrs, hchildren]

theorem childrenAreInline_nest {levels : List Level} (hl : levels.all (Level.isPlain true) = true)
    (attributes : Attributes) (parts : List String) :
    childrenAreInline true [nest levels (codeNode attributes parts)] = true := by
  induction levels with
  | nil => exact childrenAreInline_codeNode attributes parts
  | cons l levels ih =>
    rw [List.all_cons, Bool.and_eq_true] at hl
    exact childrenAreInline_around hl.1 (ih hl.2)

namespace CodePlace

variable {p : CodePlace}

theorem childrenAreInline_children (hp : p.isPlain true = true) (parts : List String) :
    childrenAreInline true (p.children parts) = true := by
  simp only [isPlain, Bool.and_eq_true] at hp
  obtain ⟨⟨hleft, hlevels⟩, hright⟩ := hp
  rw [children, ← List.singleton_append, childrenAreInline_append, childrenAreInline_append, hleft,
    hright, childrenAreInline_nest hlevels]
  rfl

theorem writesAround_children (hp : p.isPlain blocks = true) {c : Context} (hc : c.mode = .html)
    (ha : c.ancestry = ∅) :
    WritesAround blocks (p.levels.map Level.written) p.isQuoted fun parts => renderText c (p.children parts) := by
  simp only [isPlain, Bool.and_eq_true] at hp
  obtain ⟨⟨hleft, hlevels⟩, hright⟩ := hp
  have hplace : plainPlace c.ancestry = true := by
    rw [ha]
    rfl
  have hlink : c.inLink = false := by
    rw [Context.inLink, ha]
    rfl
  have hquoted : quotes c.ancestry p.levels = p.isQuoted := by
    rw [ha]
    exact Bool.and_true _
  exact hquoted ▸ (writesAround_nest hc hplace hlevels p.attributes).append hc hlink hleft hright

end CodePlace

end MessageLayout
