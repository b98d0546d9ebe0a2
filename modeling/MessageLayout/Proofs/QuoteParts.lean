import MessageLayout.Proofs.LinkElements

/-!
# Parts of quotations

What a quotation of texts, line breaks, styles and code blocks is cut into as far as its rows go:
characters that show something, characters that a row must not begin with, ends of rows, and code.
`rowAfter?` follows the parts; it has no answer where a row would begin with a mark of its own.

    areQuotable ds → ((quotePartsOf ds).any shows ↔ HasVisible ds)        (any_shows_quotePartsOf)
    areQuotable ds → (codeBlocksOf p ds).length = (quotePartsOf ds).count (.code true)
                                                                             (length_codeBlocksOf)
-/

namespace MessageLayout.Mrkdwn

open Html

/-! ## Parts -/

/-- What a piece of a quotation is for its rows. -/
inductive QuotePart where
  /-- A line feed of the text, which begins no row. -/
  | lineFeed
  /-- A space that the layout collapses, or the null character. -/
  | space
  /-- Any other blank character. -/
  | blank
  /-- A character that is written like the mark of a quotation. -/
  | mark
  /-- Any other character. -/
  | shown
  /-- A tag. -/
  | tag
  /-- A line break. -/
  | lineBreak
  /-- A code block, and whether it has anything to show. -/
  | code (shows : Bool)
deriving DecidableEq, Repr

namespace QuotePart

/-- The part that a character is. -/
def ofChar (c : Char) : QuotePart :=
  if c = '\n' then lineFeed
  else if isSpace c || c = '\u0000' then space
  else if Text.isBlank c then blank
  else if c = '>' then mark
  else shown

/-- Whether a part shows something or ends a row. -/
def shows : QuotePart → Bool
  | mark | shown | lineBreak => true
  | code shows => shows
  | _ => false

/-- Whether a part makes a difference to the row that it stands in. -/
def counts : QuotePart → Bool
  | lineFeed | space | tag => false
  | _ => true

/-- Whether a row has yet to show something behind a part, given whether it had before it. There is no
answer for a mark that a row would begin with. -/
def rowAfter? (row : Bool) : QuotePart → Option Bool
  | mark => if row then none else some false
  | blank | shown => some false
  | lineBreak | code _ => some true
  | _ => some row

theorem rowAfter?_of_not_counts {p : QuotePart} (h : p.counts = false) (row : Bool) :
    p.rowAfter? row = some row := by
  cases p <;> first | rfl | cases h

end QuotePart

/-- Whether a row has yet to show something behind some parts. -/
def rowAfter? (row : Bool) (ps : List QuotePart) : Option Bool :=
  ps.foldlM QuotePart.rowAfter? row

@[simp] theorem rowAfter?_nil (row : Bool) : rowAfter? row [] = some row := rfl

theorem rowAfter?_cons (row : Bool) (p : QuotePart) (ps : List QuotePart) :
    rowAfter? row (p :: ps) = (p.rowAfter? row).bind (rowAfter? · ps) := rfl

theorem rowAfter?_append (row : Bool) (ps qs : List QuotePart) :
    rowAfter? row (ps ++ qs) = (rowAfter? row ps).bind (rowAfter? · qs) := by
  simp only [rowAfter?, List.foldlM_append]
  rfl

/-- Only the parts that count make a difference. -/
theorem rowAfter?_filter (row : Bool) (ps : List QuotePart) :
    rowAfter? row (ps.filter QuotePart.counts) = rowAfter? row ps := by
  induction ps generalizing row with
  | nil => rfl
  | cons p ps ih =>
    cases hp : p.counts with
    | true => simp only [List.filter_cons_of_pos hp, rowAfter?_cons, ih]
    | false =>
      rw [List.filter_cons_of_neg (by simp [hp]), ih, rowAfter?_cons,
        QuotePart.rowAfter?_of_not_counts hp]
      rfl

/-! ## Parts of a document -/

/-- The parts of an element around some parts. One that shows nothing leaves a space at most. -/
def enclosedParts (ps : List QuotePart) : List QuotePart :=
  if ps.any QuotePart.shows then .tag :: ps ++ [.tag] else [.tag]

/-- The parts of a text that count. -/
def textParts (content : List Char) : List QuotePart :=
  (content.map QuotePart.ofChar).filter QuotePart.counts

/-- The elements that are laid out around their content on its rows. -/
def rowNames : List String :=
  ["b", "i", "s", "code", "span"]

mutual

/-- The parts of a node that count. -/
def quoteParts : Dom → List QuotePart
  | .text content => textParts content
  | .comment => []
  | .element name attrs children =>
    if name = "br" then [.lineBreak]
    else if (fencedCode? name children).isSome then
      [.code !(Dom.element name attrs children).isBlank]
    else if (Dom.element name attrs children).isBlank then []
    else quotePartsOf children

/-- The parts of several nodes that count. -/
def quotePartsOf : List Dom → List QuotePart
  | [] => []
  | d :: ds => quoteParts d ++ quotePartsOf ds

end

mutual

/-- Whether a node is made of text, line breaks, inline elements and code blocks. -/
def isQuotable : Dom → Bool
  | .text content => '\u0000' ∉ content
  | .comment => true
  | .element name _ children =>
    (name = "br" && children.isEmpty || rowNames.contains name || (fencedCode? name children).isSome)
      && areQuotable children

/-- Whether several nodes are made of text, line breaks, inline elements and code blocks. -/
def areQuotable : List Dom → Bool
  | [] => true
  | d :: ds => isQuotable d && areQuotable ds

end

theorem areQuotable_iff {ds : List Dom} : areQuotable ds = true ↔ ∀ d ∈ ds, isQuotable d = true := by
  induction ds with
  | nil => simp [areQuotable]
  | cons d ds ih => simp [areQuotable, ih]

theorem quotePartsOf_append (ds es : List Dom) : quotePartsOf (ds ++ es) = quotePartsOf ds ++ quotePartsOf es := by
  induction ds with
  | nil => rfl
  | cons d ds ih => simp [quotePartsOf, ih]

theorem quotePartsOf_singleton (d : Dom) : quotePartsOf [d] = quoteParts d := by
  simp [quotePartsOf]

/-- What an element of a quotation is. -/
theorem isQuotable_element {name : String} {attrs : Attrs} {children : List Dom}
    (h : isQuotable (.element name attrs children) = true) :
    (name = "br" ∧ children = [] ∨ name ∈ rowNames ∨
      ∃ code, name = "pre" ∧ fencedCode? name children = some code) ∧
      areQuotable children = true := by
  simp only [isQuotable, Bool.and_eq_true, Bool.or_eq_true, decide_eq_true_eq, List.isEmpty_iff,
    List.contains_iff_mem, Option.isSome_iff_exists] at h
  obtain ⟨(h | h) | ⟨code, h⟩, hc⟩ := h
  · exact ⟨.inl h, hc⟩
  · exact ⟨.inr (.inl h), hc⟩
  · exact ⟨.inr (.inr ⟨code, name_of_fencedCode? h, h⟩), hc⟩

theorem ne_of_mem_rowNames {name : String} (h : name ∈ rowNames) :
    name ≠ "br" ∧ name ≠ "pre" ∧ isBlockName name = false ∧ showsBlank name = false := by
  have hall : ∀ n ∈ rowNames, n ≠ "br" ∧ n ≠ "pre" ∧ isBlockName n = false ∧ showsBlank n = false := by
    decide
  exact hall name h

theorem quoteParts_of_mem_rowNames {name : String} (h : name ∈ rowNames) (attrs : Attrs)
    (children : List Dom) :
    quoteParts (.element name attrs children)
      = if (Dom.element name attrs children).isBlank then [] else quotePartsOf children := by
  obtain ⟨hbr, hpre, -⟩ := ne_of_mem_rowNames h
  simp [quoteParts, hbr, fencedCode?_of_ne hpre children]

theorem quoteParts_of_fencedCode? {children code : List Dom} (h : fencedCode? "pre" children = some code)
    (attrs : Attrs) :
    quoteParts (.element "pre" attrs children) = [.code !(Dom.element "pre" attrs children).isBlank] := by
  simp [quoteParts, h]

theorem any_shows_textParts {content : List Char} (h : '\u0000' ∉ content) :
    (textParts content).any QuotePart.shows = true ↔ Text.isAllBlank content = false := by
  have hchar : ∀ c ∈ content, ((QuotePart.ofChar c).counts = true ∧ (QuotePart.ofChar c).shows = true) ↔
      Text.isBlank c = false := by
    intro c hc
    have hz : c ≠ '\u0000' := fun e => h (e ▸ hc)
    unfold QuotePart.ofChar
    split
    next hn => simp [hn, QuotePart.counts, Text.isBlank]
    · split
      next hor =>
        have hspace : isSpace c = true := by simpa [hz] using hor
        simp [QuotePart.counts, isBlank_of_isSpace hspace]
      · split
        next hb => simp [QuotePart.shows, hb]
        next hb => split <;> simp [QuotePart.counts, QuotePart.shows, hb]
  simp only [textParts, List.any_eq_true, List.mem_filter, List.mem_map, Text.isAllBlank,
    List.all_eq_false]
  constructor
  · rintro ⟨p, ⟨⟨c, hc, rfl⟩, hcounts⟩, hshows⟩
    exact ⟨c, hc, by simp [(hchar c hc).mp ⟨hcounts, hshows⟩]⟩
  · rintro ⟨c, hc, hb⟩
    obtain ⟨hcounts, hshows⟩ := (hchar c hc).mpr (by simpa using hb)
    exact ⟨_, ⟨⟨c, hc, rfl⟩, hcounts⟩, hshows⟩

mutual

theorem any_shows_quoteParts : (d : Dom) → isQuotable d = true →
    ((quoteParts d).any QuotePart.shows = true ↔ Dom.HasVisible [d])
  | .text content, h => by
    rw [Dom.hasVisible_text]
    exact any_shows_textParts (of_decide_eq_true h)
  | .comment, _ => by
    simp [quoteParts, Dom.HasVisible, Dom.anyMentions, Dom.mentions, Text.isAllBlank]
  | .element name attrs children, h => by
    obtain ⟨hname, hc⟩ := isQuotable_element h
    have hchildren := any_shows_quotePartsOf children hc
    rw [Dom.hasVisible_element]
    rcases hname with ⟨rfl, -⟩ | hname | ⟨code, rfl, hcode⟩
    · simp [quoteParts, QuotePart.shows]
    · have hblank : (Dom.element name attrs children).isBlank = false ↔ Dom.HasVisible children :=
        Dom.isBlank_element_eq_false
      rw [quoteParts_of_mem_rowNames hname, or_iff_right (ne_of_mem_rowNames hname).1, ← hblank]
      cases hb : (Dom.element name attrs children).isBlank with
      | true => simp
      | false => simpa [hchildren] using hblank.mp hb
    · rw [quoteParts_of_fencedCode? hcode]
      simp [QuotePart.shows, Dom.isBlank_element_eq_false]

/-- The parts of nodes show something where the nodes do. -/
theorem any_shows_quotePartsOf : (ds : List Dom) → areQuotable ds = true →
    ((quotePartsOf ds).any QuotePart.shows = true ↔ Dom.HasVisible ds)
  | [], _ => by simp [quotePartsOf, Dom.HasVisible, Dom.anyMentions, Text.isAllBlank]
  | d :: ds, h => by
    simp only [areQuotable, Bool.and_eq_true] at h
    have hcons : Dom.HasVisible (d :: ds) ↔ Dom.HasVisible [d] ∨ Dom.HasVisible ds :=
      Dom.hasVisible_cons
    rw [quotePartsOf, List.any_append, Bool.or_eq_true, any_shows_quoteParts d h.1,
      any_shows_quotePartsOf ds h.2, hcons]

end

mutual

theorem length_codeBlocks (parent : String) : (d : Dom) → isQuotable d = true →
    (codeBlocks parent d).length = (quoteParts d).count (.code true)
  | .text content, _ => by
    have hnot : QuotePart.code true ∉ textParts content := by
      intro hm
      obtain ⟨c, -, hc⟩ := List.mem_map.mp (List.mem_filter.mp hm).1
      unfold QuotePart.ofChar at hc
      split at hc
      · cases hc
      · split at hc
        · cases hc
        · split at hc
          · cases hc
          · split at hc <;> cases hc
    simpa [codeBlocks, quoteParts] using (List.count_eq_zero.mpr hnot).symm
  | .comment, _ => rfl
  | .element name attrs children, h => by
    obtain ⟨hname, hc⟩ := isQuotable_element h
    rcases hname with ⟨rfl, rfl⟩ | hname | ⟨code, rfl, hcode⟩
    · rfl
    · simp only [codeBlocks, fencedCode?_of_ne (ne_of_mem_rowNames hname).2.1 children]
      rw [quoteParts_of_mem_rowNames hname]
      cases hb : (Dom.element name attrs children).isBlank with
      | true => simp [codeBlocksOf_of_isBlank hb]
      | false => simpa using length_codeBlocksOf name children hc
    · rw [quoteParts_of_fencedCode? hcode]
      simp only [codeBlocks, hcode]
      cases hb : (Dom.element "pre" attrs children).isBlank with
      | true => simp [codeBlocksOf_of_isBlank hb]
      | false => simp

/-- A quotation holds as many code blocks as it has parts that are code with something to show. -/
theorem length_codeBlocksOf (parent : String) : (ds : List Dom) → areQuotable ds = true →
    (codeBlocksOf parent ds).length = (quotePartsOf ds).count (.code true)
  | [], _ => rfl
  | d :: ds, h => by
    simp only [areQuotable, Bool.and_eq_true] at h
    rw [codeBlocksOf, quotePartsOf, List.length_append, List.count_append, length_codeBlocks parent d h.1,
      length_codeBlocksOf parent ds h.2]

end

mutual

theorem every_of_isQuotable : (d : Dom) → isQuotable d = true →
    d.Every fun name attrs children => EmptyIfHidden name attrs children ∧ name ≠ "time"
  | .text _, _ => trivial
  | .comment, _ => trivial
  | .element name attrs children, h => by
    obtain ⟨hname, hc⟩ := isQuotable_element h
    refine ⟨⟨fun hh => ?_, ?_⟩, everyOf_of_areQuotable children hc⟩
    · rcases hname with ⟨-, rfl⟩ | hname | ⟨code, rfl, -⟩
      · rfl
      · have hall : ∀ n ∈ rowNames, n ≠ "br" ∧ n ≠ "a" := by decide
        simp [hidesContent, hall name hname] at hh
      · simp [hidesContent] at hh
    · rcases hname with ⟨rfl, -⟩ | hname | ⟨code, rfl, -⟩
      · decide
      · rintro rfl
        exact absurd hname (by decide)
      · decide

/-- No element of a quotation hides what is in it, and none is a date. -/
theorem everyOf_of_areQuotable : (ds : List Dom) → areQuotable ds = true →
    Dom.EveryOf (fun name attrs children => EmptyIfHidden name attrs children ∧ name ≠ "time") ds
  | [], _ => trivial
  | d :: ds, h => by
    simp only [areQuotable, Bool.and_eq_true] at h
    exact ⟨every_of_isQuotable d h.1, everyOf_of_areQuotable ds h.2⟩

end

end MessageLayout.Mrkdwn
