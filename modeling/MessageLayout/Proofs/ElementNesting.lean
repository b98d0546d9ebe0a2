import MessageLayout.Proofs.ShownElements

/-!
# The nesting of elements

An element sees the elements around it in the tree, and by them it is shown or passed through. In the
fragment this keeps some elements out of others: `barred` lists those that an element never stands
in, directly or further down. Code keeps out only what stands in it directly, so formatting comes
into a code element below an element that is passed through or allowed there, and only so.

    renderFragment options content = .ok html → the tags of html nest, and no element stands open
    within one that is barred to it                                (renderFragment_nests)
    no formatting stands in code ↔ what is shown in shown code is a link, a date or a plain span
                                                                   (renderFragment_formats_code_iff)
-/

namespace MessageLayout.Markup

/-- The elements of a fragment that an element never stands in. -/
def barred : String → List String
  | "b" => ["b", "time"]
  | "i" => ["i", "time"]
  | "s" => ["s", "time"]
  | "code" => ["time"]
  | "a" => ["a", "time"]
  | "p" => ["p"]
  | "blockquote" | "q" => ["blockquote", "q", "ul", "ol", "time"]
  | "pre" => ["ul", "ol", "time"]
  | _ => []

/-- The elements of a tree that are shown by an element of a fragment. -/
def sources : String → List String
  | "b" => ["b", "strong"]
  | "i" => ["i", "em"]
  | "s" => ["s", "strike", "del"]
  | "code" => ["code", "pre"]
  | "q" => ["blockquote"]
  | name => [name]

/-- The elements of formatting and of blocks. -/
def formatting : List String :=
  ["b", "i", "s", "code", "pre", "p", "blockquote", "q", "ul", "ol", "li"]

/-- Whether an element of code is shown around what stands within the given elements. -/
def inCode : List String → Bool
  | [] => false
  | name :: tags => (["code", "pre"].contains name && isShown name ⟨tags⟩) || inCode tags

/-! ## The table of elements -/

/-- The names of the elements that have a kind. -/
def inlineNames : List String :=
  ["b", "strong", "i", "em", "s", "strike", "del", "code", "p", "blockquote", "pre", "a", "time", "ol",
    "small", "span", "ul", "li"]

section

variable {name level outer : String} {a : Ancestry} {kind : Inline}

theorem mem_inlineNames (h : Inline.ofName? name = some kind) : name ∈ inlineNames := by
  unfold Inline.ofName? at h
  split at h <;> first | (cases h; done) | decide

/-- What holds of every row of the table holds of an element that has a kind. -/
theorem of_forall_inlineNames {P : String → Inline → Prop}
    (hall : ∀ n ∈ inlineNames, ∀ k ∈ Inline.ofName? n, P n k) (h : Inline.ofName? name = some kind) :
    P name kind :=
  hall name (mem_inlineNames h) kind h

theorem mem_sources (hn : Inline.ofName? name = some kind) (inLink : Bool)
    (h : level ∈ kind.levels name inLink) : name ∈ sources level := by
  have hall : ∀ n ∈ inlineNames, ∀ k ∈ Inline.ofName? n, ∀ inLink, ∀ x ∈ k.levels n inLink,
      n ∈ sources x := by decide
  exact of_forall_inlineNames hall hn inLink level h

/-- An element is hidden within all elements that are shown by one barred to it. -/
theorem sources_subset_hiddenWithin (hn : Inline.ofName? name = some kind) (inLink : Bool)
    (h : level ∈ kind.levels name inLink) (ho : outer ∈ barred level) :
    sources outer ⊆ kind.hiddenWithin := by
  have hall : ∀ n ∈ inlineNames, ∀ k ∈ Inline.ofName? n, ∀ inLink, ∀ x ∈ k.levels n inLink,
      ∀ y ∈ barred x, ∀ m ∈ sources y, m ∈ k.hiddenWithin := by decide
  exact fun m hm => of_forall_inlineNames hall hn inLink level h outer ho m hm

/-- The elements that one element is shown by may stand in each other, and code is the innermost. -/
theorem pairwise_levels (hn : Inline.ofName? name = some kind) (inLink : Bool) :
    (kind.levels name inLink).Pairwise fun outer inner => outer ∉ barred inner ∧ outer ≠ "code" := by
  have hall : ∀ n ∈ inlineNames, ∀ k ∈ Inline.ofName? n, ∀ inLink,
      (k.levels n inLink).Pairwise fun outer inner => outer ∉ barred inner ∧ outer ≠ "code" := by
    decide
  exact of_forall_inlineNames hall hn inLink

theorem code_mem_levels_iff (hn : Inline.ofName? name = some kind) (inLink : Bool) :
    "code" ∈ kind.levels name inLink ↔ name ∈ ["code", "pre"] := by
  have hall : ∀ n ∈ inlineNames, ∀ k ∈ Inline.ofName? n, ∀ inLink,
      "code" ∈ k.levels n inLink ↔ n ∈ ["code", "pre"] := by decide
  exact of_forall_inlineNames hall hn inLink

/-- Links, dates and the plain spans are not formatting, and all other elements are. -/
theorem forall_levels_iff (hn : Inline.ofName? name = some kind) (inLink : Bool) :
    (∀ x ∈ kind.levels name inLink, x ∉ formatting) ↔ name ∈ ["a", "time", "small", "span"] := by
  have hall : ∀ n ∈ inlineNames, ∀ k ∈ Inline.ofName? n, ∀ inLink,
      (∀ x ∈ k.levels n inLink, x ∉ formatting) ↔ n ∈ ["a", "time", "small", "span"] := by decide
  exact of_forall_inlineNames hall hn inLink

/-! ## Barred elements -/

theorem exists_kind_of_mem_levels (h : level ∈ levels name a) :
    ∃ kind, Inline.ofName? name = some kind ∧ a.isDescendantOf kind.hiddenWithin = false ∧
      level ∈ kind.levels name (a.isDescendantOf ["a"]) := by
  unfold levels at h
  cases hk : shownKind? name a with
  | none =>
    rw [hk] at h
    cases h
  | some kind =>
    rw [hk] at h
    obtain ⟨hn, hhidden⟩ := shownKind?_eq_some hk
    exact ⟨kind, hn, hhidden, h⟩

/-- An element is open within elements of a tree only if it is shown by one of them. -/
theorem isDescendantOf_sources {tags : List String} (h : level ∈ openAt tags) :
    (⟨tags⟩ : Ancestry).isDescendantOf (sources level) = true := by
  rw [Ancestry.isDescendantOf, List.any_eq_true]
  induction tags with
  | nil => cases h
  | cons name tags ih =>
    rw [openAt, List.mem_append, List.mem_reverse] at h
    rcases h with h | h
    · obtain ⟨kind, hn, -, hlevel⟩ := exists_kind_of_mem_levels h
      exact ⟨name, List.mem_cons_self, List.contains_iff_mem.mpr (mem_sources hn _ hlevel)⟩
    · obtain ⟨m, hm, hsource⟩ := ih h
      exact ⟨m, List.mem_cons_of_mem _ hm, hsource⟩

/-- No element that is open around an element is barred to what the element is shown by. -/
theorem not_mem_barred (h : level ∈ levels name a) (ho : outer ∈ openAt a.tags) :
    outer ∉ barred level := by
  obtain ⟨kind, hn, hhidden, hlevel⟩ := exists_kind_of_mem_levels h
  intro hbarred
  have hout := not_isDescendantOf_of_subset (sources_subset_hiddenWithin hn _ hlevel hbarred) hhidden
  have hin := isDescendantOf_sources ho
  rw [hout] at hin
  cases hin

theorem pairwise_levels_around (name : String) (a : Ancestry) :
    (levels name a).Pairwise fun outer inner => outer ∉ barred inner ∧ outer ≠ "code" := by
  unfold levels
  cases hk : shownKind? name a with
  | none => exact .nil
  | some kind => exact pairwise_levels (shownKind?_eq_some hk).1 _

end

section

variable {around names : List String}

/-- What holds between each of some start tags in a row and those before it, and between each and the
elements open before the row, holds between each and the elements open at it. -/
theorem forall_openings_map {R : String → String → Prop}
    (hnames : names.Pairwise fun outer inner => R inner outer)
    (haround : ∀ x ∈ names, ∀ outer ∈ around, R x outer) :
    ∀ e ∈ openings around (names.map .opening), ∀ outer ∈ e.2, R e.1 outer := by
  induction names generalizing around with
  | nil =>
    intro e he
    cases he
  | cons x names ih =>
    rw [List.forall_mem_cons] at haround
    rw [List.pairwise_cons] at hnames
    rw [List.map_cons, openings, List.forall_mem_cons]
    refine ⟨haround.1, ih hnames.2 fun y hy => ?_⟩
    rw [List.forall_mem_cons]
    exact ⟨hnames.1 y hy, haround.2 y hy⟩

/-- No element that is open at a start tag is barred to its element. -/
theorem Occurrence.forall_openings (o : Occurrence) :
    ∀ e ∈ o.openings, ∀ outer ∈ e.2, outer ∉ barred e.1 :=
  forall_openings_map (R := fun inner outer => outer ∉ barred inner)
    ((pairwise_levels_around o.name o.around).imp And.left)
    fun _ hlevel _ ho => not_mem_barred hlevel ho

/-- A fragment of inline elements and texts nests: its tags open and close elements in order, and
wherever two elements are open at once the outer one is not barred to the inner one. -/
theorem renderFragment_nests {options : FormatOptions} {content : Content} {html : String}
    (h : renderFragment options content = .ok html)
    (ht : childrenAreTagged content.normalize = true) :
    ∃ tags, readTags? html.toList = some tags ∧ openBehind [] tags = some [] ∧
      ∀ before after, tags = before ++ after →
        ∃ around, openBehind [] before = some around ∧
          around.Pairwise fun inner outer => outer ∉ barred inner := by
  have hbalanced := openBehind_childTags [] ∅ content.normalize
  refine ⟨_, Render.readTags?_renderFragment h ht, hbalanced, fun before after hsplit => ?_⟩
  rw [hsplit] at hbalanced
  obtain ⟨around, haround⟩ := exists_openBehind_of_append hbalanced
  refine ⟨around, haround, pairwise_of_openings haround .nil fun e he => ?_⟩
  have hmem : e ∈ openings (openAt (∅ : Ancestry).tags) (childTags ∅ content.normalize) := by
    rw [hsplit]
    show e ∈ openings [] (before ++ after)
    rw [openings_append haround]
    exact List.mem_append_left _ he
  rw [openings_childTags, List.mem_flatMap] at hmem
  obtain ⟨o, -, ho⟩ := hmem
  exact o.forall_openings e ho

/-- Strong text in strong text and a quotation in a list are passed through, a quotation in a link is
no block, and a bracket in the value of an attribute is no tag. -/
theorem renderFragment_nests_passed :
    let link := ((Node.tag "a").attr "href" (.ofString "<u>")).child
      (.node ((Node.tag "blockquote").child (.text "y")))
    let inner := (Node.tag "strong").child (.text "x")
    let strong := (Node.tag "b").child (.list [.node inner, .node link])
    let item := (Node.tag "li").child (.node ((Node.tag "blockquote").child (.text "z")))
    let list := (Node.tag "ul").child (.node item)
    let content : Content := .list [.node strong, .node (Node.tag "br"), .node list]
    let html := "<b>x<a href=\"&lt;u&gt;\"><q>y</q></a></b><br /><ul><li>z</li></ul>"
    renderFragment {} content = .ok html ∧ childrenAreTagged content.normalize = true ∧
      ∃ tags, readTags? html.toList = some tags ∧ openBehind [] tags = some [] ∧
        ∀ before after, tags = before ++ after →
          ∃ around, openBehind [] before = some around ∧
            around.Pairwise fun inner outer => outer ∉ barred inner := by
  intro link inner strong item list content html
  have h : renderFragment {} content = .ok html := rfl
  have ht : childrenAreTagged content.normalize = true := rfl
  exact ⟨h, ht, renderFragment_nests h ht⟩

/-! ## Formatting in code -/

theorem code_mem_levels {name : String} {a : Ancestry} :
    "code" ∈ levels name a ↔ name ∈ ["code", "pre"] ∧ isShown name a = true := by
  unfold levels isShown
  cases hk : shownKind? name a with
  | none => simp
  | some kind =>
    rw [Option.elim_some, code_mem_levels_iff (shownKind?_eq_some hk).1]
    simp

/-- Code is open within elements of a tree if one of them is code that is shown. -/
theorem code_mem_openAt (tags : List String) : "code" ∈ openAt tags ↔ inCode tags = true := by
  induction tags with
  | nil => simp [openAt, inCode]
  | cons name tags ih =>
    rw [openAt, inCode, List.mem_append, List.mem_reverse, code_mem_levels, ih, Bool.or_eq_true,
      Bool.and_eq_true, List.contains_iff_mem]

/-- If code is the innermost of elements that open in a row, then those of them that stand in code
stand in code that was open before. -/
theorem forall_code_openings_map {P : String → Prop}
    (hnames : names.Pairwise fun outer _ => outer ≠ "code") :
    (∀ e ∈ openings around (names.map .opening), "code" ∈ e.2 → P e.1) ↔
      ("code" ∈ around → ∀ x ∈ names, P x) := by
  induction names generalizing around with
  | nil => simp [openings]
  | cons x names ih =>
    rw [List.pairwise_cons] at hnames
    rw [List.map_cons, openings, List.forall_mem_cons, ih hnames.2, List.forall_mem_cons]
    cases names with
    | nil => simp
    | cons y names =>
      have hx : "code" ≠ x := Ne.symm (hnames.1 y List.mem_cons_self)
      rw [List.mem_cons, or_iff_right hx]
      exact ⟨fun hall hcode => ⟨hall.1 hcode, hall.2 hcode⟩,
        fun hall => ⟨fun hcode => (hall hcode).1, fun hcode => (hall hcode).2⟩⟩

theorem Occurrence.forall_code_openings_iff (o : Occurrence) :
    (∀ e ∈ o.openings, "code" ∈ e.2 → e.1 ∉ formatting) ↔
      (inCode o.around.tags = true → isShown o.name o.around = true →
        o.name ∈ ["a", "time", "small", "span"]) := by
  have hlast := (pairwise_levels_around o.name o.around).imp And.right
  refine (forall_code_openings_map (P := fun x => x ∉ formatting) hlast).trans ?_
  rw [code_mem_openAt]
  refine imp_congr_right fun _ => ?_
  unfold levels isShown
  cases hk : shownKind? o.name o.around with
  | none => simp
  | some kind =>
    rw [Option.elim_some, forall_levels_iff (shownKind?_eq_some hk).1]
    simp

/-- Code in a fragment holds no formatting exactly if all elements shown in shown code, directly or
further down, are links, dates and plain spans. -/
theorem renderFragment_formats_code_iff {options : FormatOptions} {content : Content} {html : String}
    (h : renderFragment options content = .ok html)
    (ht : childrenAreTagged content.normalize = true) :
    ∃ tags, readTags? html.toList = some tags ∧ openBehind [] tags = some [] ∧
      ((∀ e ∈ openings [] tags, "code" ∈ e.2 → e.1 ∉ formatting) ↔
        ∀ o ∈ occurrences ∅ content.normalize, inCode o.around.tags = true →
          isShown o.name o.around = true → o.name ∈ ["a", "time", "small", "span"]) := by
  refine ⟨_, Render.readTags?_renderFragment h ht, openBehind_childTags [] ∅ content.normalize, ?_⟩
  have hopen : openings [] (childTags ∅ content.normalize)
      = (occurrences ∅ content.normalize).flatMap Occurrence.openings :=
    openings_childTags ∅ content.normalize
  rw [hopen]
  constructor
  · intro hall o ho
    rw [← o.forall_code_openings_iff]
    exact fun e he => hall e (List.mem_flatMap.mpr ⟨o, ho, he⟩)
  · intro hall e he
    obtain ⟨o, ho, he⟩ := List.mem_flatMap.mp he
    exact o.forall_code_openings_iff.mpr (hall o ho) e he

/-- Strong text directly in code is passed through, and a link and a span in it are not. -/
theorem renderFragment_formats_code_iff_link :
    let link := (Node.tag "a").child (.node ((Node.tag "span").child (.text "x")))
    let strong := (Node.tag "b").child (.text "y")
    let content : Content := .node ((Node.tag "code").child (.list [.node link, .node strong]))
    let html := "<code><a><span>x</span></a>y</code>"
    renderFragment {} content = .ok html ∧ childrenAreTagged content.normalize = true ∧
      ∃ tags, readTags? html.toList = some tags ∧ openBehind [] tags = some [] ∧
        ((∀ e ∈ openings [] tags, "code" ∈ e.2 → e.1 ∉ formatting) ↔
          ∀ o ∈ occurrences ∅ content.normalize, inCode o.around.tags = true →
            isShown o.name o.around = true → o.name ∈ ["a", "time", "small", "span"]) := by
  intro link strong content html
  have h : renderFragment {} content = .ok html := rfl
  have ht : childrenAreTagged content.normalize = true := rfl
  exact ⟨h, ht, renderFragment_formats_code_iff h ht⟩

/-- A span directly in code is passed through, and strong text in it is not: its start tag stands in
code. -/
theorem renderFragment_code_strong :
    let span := (Node.tag "span").child (.node ((Node.tag "b").child (.text "x")))
    let content : Content := .node ((Node.tag "code").child (.node span))
    let tags : List Tag := [.opening "code", .opening "b", .closing "b", .closing "code"]
    renderFragment {} content = .ok "<code><b>x</b></code>" ∧
      childrenAreTagged content.normalize = true ∧
      readTags? "<code><b>x</b></code>".toList = some tags ∧
      ¬∀ e ∈ openings [] tags, "code" ∈ e.2 → e.1 ∉ formatting := by
  intro span content tags
  have hcode : ("b", ["code"]) ∈ openings [] tags := by decide
  refine ⟨rfl, rfl, rfl, fun hall => ?_⟩
  exact hall ("b", ["code"]) hcode (by decide) (by decide)

end

end MessageLayout.Markup
