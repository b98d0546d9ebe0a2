import MessageLayout.Proofs.PlainPlaces

/-!
# Styles that wait to be shown again

A style whose element a block has closed waits to be shown again. At a place no style waits in two
cases: no style stands around the place, or no paragraph and no list item stands around one of the
styles and what stands before the place holds no blocks.

    the names are no styles → pendingBehind before = []                  (pendingBehind_of_unstyled)
    no block stands before, no `p` or `li` around a style → pendingBehind before = []
                                                                         (pendingBehind_of_sheltered)
-/

namespace MessageLayout.Html

open Construction (Tidy Follows held mem_held held_subset)
open Markup (Opened)

/-- The styles that wait to be shown again where a code block stands behind the given text. -/
def pendingBehind (before : List Char) : List ActiveStyle :=
  ((tokensBefore before).foldl Construction.token .start).closeParagraph.pending

variable {blocks inLink : Bool} {names : List String} {ts : List Token} {c c' : Construction}

/-! ## Places without styles -/

/-- No style is in force, and no element of a style is open. -/
def Construction.HoldsNone (c : Construction) : Prop :=
  ∀ name, roleOf name = .style → held name c = ∅

theorem Construction.HoldsNone.of_subset (h : c.HoldsNone)
    (hs : ∀ name, roleOf name = .style → held name c' ⊆ held name c) : c'.HoldsNone :=
  fun name hn => Finset.subset_empty.mp (h name hn ▸ hs name hn)

theorem Construction.Follows.holdsNone (hf : Follows c c') (h : c.HoldsNone) : c'.HoldsNone := by
  intro name hn
  have hle := hf.held name hn
  rw [h name hn, Finset.card_empty] at hle
  exact Finset.card_eq_zero.mp (Nat.le_zero.mp hle)

/-- The start tag of an element that is no style brings no style along. -/
theorem Placed.holdsNone_startTag (h : Placed c) (hc : c.HoldsNone) {name : String}
    (hn : name ∈ Markup.placeNames) (hs : roleOf name ≠ .style) {attrs : Attrs}
    (he : ElementTag true false name attrs) : (c.token (.startTag name attrs)).HoldsNone := by
  have hcases := he.startTag_cases h.phase fun _ => h.link
  have hentered := h.entered
  have hnone : c.entered.HoldsNone := (Construction.follows_entered c).holdsNone hc
  have hother : ∀ m, roleOf m = .style → m ≠ name := by
    rintro m hm rfl
    exact hs hm
  generalize c.entered = e at hcases hentered hnone
  rcases hcases with ⟨hr, hstart⟩ | ⟨ho, -⟩ | ⟨-, -, hstart⟩
  · have hb := hentered.tidy.startTag_block hr attrs
    rw [hstart]
    refine hnone.of_subset fun m hm => held_subset ?_ fun id hid => ?_
    · rw [hb.active]
      exact List.Subset.refl _
    · exact (hb.mem_tags hid).resolve_left fun he => hother m hm (congrArg Prod.snd he)
  · rcases ho.tag.role with hr | rfl
    · exact absurd hr hs
    · exact absurd hn (by decide)
  · have hresumed := hentered.tidy.follows_resumeStyles.2.holdsNone hnone
    rw [hstart]
    refine hresumed.of_subset fun m hm => held_subset (List.Subset.refl _) fun id hid => ?_
    exact (List.mem_cons.mp hid).resolve_left fun he => hother m hm (congrArg Prod.snd he)

theorem OpenedTokens.holdsNone (h : OpenedTokens blocks names ts)
    (hn : ∀ name ∈ names, roleOf name ≠ .style) (hp : Placed c) (hc : c.HoldsNone) :
    (ts.foldl Construction.token c).HoldsNone := by
  induction h generalizing c with
  | here h => exact (h.follows hp.tidy hp.phase fun _ => hp.link).2.holdsNone hc
  | passed _ ih => exact ih (fun m hm => hn m (List.mem_cons_of_mem _ hm)) hp hc
  | within h hname he _ ih =>
    obtain ⟨ht, hf⟩ := h.follows hp.tidy hp.phase fun _ => hp.link
    have hplaced := hp.follows ht hf
    have hopened := hplaced.holdsNone_startTag (hf.holdsNone hc) hname (hn _ List.mem_cons_self) he
    rw [List.foldl_append]
    exact ih (fun m hm => hn m (List.mem_cons_of_mem _ hm)) (hplaced.startTag hname he) hopened

theorem Placed.active_eq_nil (h : Placed c) (hc : c.HoldsNone) : c.active = [] := by
  refine List.eq_nil_iff_forall_not_mem.mpr fun a ha => ?_
  rcases (h.tidy.styles a ha).role with hr | hr
  · have hm : a.id ∈ held a.name c := mem_held.mpr (.inl (mem_ages.mpr ⟨a, ha, rfl, rfl⟩))
    rw [hc a.name hr] at hm
    exact Finset.notMem_empty _ hm
  · exact ages_eq_nil_iff.mp h.link a ha hr

/-- Where no style stands around a place, no style waits there to be shown again. -/
theorem pendingBehind_of_unstyled {before : List Char} (hb : Opened blocks names before)
    (hn : ∀ name ∈ names, roleOf name ≠ .style) : pendingBehind before = [] := by
  have hnone := (openedTokens_tokensBefore hb).holdsNone hn .start fun _ _ => rfl
  have hactive := (placed_tokensBefore hb).active_eq_nil hnone
  rw [pendingBehind, Construction.pending,
    (Construction.pops_closeParagraph _).active, hactive, List.takeWhile_nil]

/-! ## Tokens without blocks -/

namespace Construction

/-- The same elements are open, and styles went out of force at most. -/
structure Keeps (c c' : Construction) : Prop where
  tags : c'.spine.tags = c.spine.tags
  active : c'.active.Sublist c.active

theorem Keeps.refl (c : Construction) : Keeps c c :=
  ⟨rfl, List.Sublist.refl _⟩

theorem Keeps.mode (c : Construction) (phase : Phase) (skipsNewline : Bool) :
    Keeps c { c with phase, skipsNewline } :=
  ⟨rfl, List.Sublist.refl _⟩

theorem Keeps.trans {c'' : Construction} (h : Keeps c c') (h' : Keeps c' c'') : Keeps c c'' :=
  ⟨h'.tags.trans h.tags, h'.active.trans h.active⟩

theorem Keeps.allShown (h : Keeps c c') (hc : c.AllShown) : c'.AllShown := by
  intro a ha
  obtain ⟨p, hp, he⟩ := shows_iff.mp (hc a (h.active.subset ha))
  exact shows_iff.mpr ⟨p, h.tags ▸ hp, he⟩

theorem AllShown.pending_eq_nil (h : c.AllShown) : c.pending = [] := by
  cases ha : c.active with
  | nil => simp [pending, ha]
  | cons a styles =>
    simp [pending, ha, h a (by simp [ha])]

theorem AllShown.resumeStyles_eq (h : c.AllShown) : c.resumeStyles = c :=
  resumeStyles_of_pending h.pending_eq_nil

theorem AllShown.openStyle (h : c.AllShown) (name : String) (attrs : Attrs) :
    (c.openStyle name attrs).AllShown := by
  have hkept : (keptFor ⟨c.nextId, name, attrs⟩ c.active).Sublist c.active := by
    unfold keptFor
    split
    · exact sublist_dropOldest _ _
    · exact List.Sublist.refl _
  rw [openStyle_eq]
  exact h.openShown (a := ⟨c.nextId, name, attrs⟩) rfl hkept

theorem exists_frame {x : Nat × String} {tags : List (Nat × String)} (h : c.spine.tags = x :: tags) :
    ∃ f fs, c.spine.frames = f :: fs ∧ f.id = x.1 ∧ f.name = x.2 ∧ (c.spine.close 1).tags = tags := by
  obtain ⟨f, fs, hf, hx, -⟩ := List.map_eq_cons_iff.mp h
  refine ⟨f, fs, hf, congrArg Prod.fst hx, congrArg Prod.snd hx, ?_⟩
  rw [Spine.tags_close, h]
  rfl

/-- The end tag of a style whose element is the innermost one closes it. -/
theorem keeps_endStyle {a : ActiveStyle} {tags : List (Nat × String)} {kept : List ActiveStyle}
    (ht : c.spine.tags = (a.id, a.name) :: tags) (ha : c.active.Sublist (a :: kept))
    (hk : ∀ b ∈ kept, b.id ≠ a.id) :
    (c.endStyle a.name).spine.tags = tags ∧ (c.endStyle a.name).active.Sublist kept := by
  obtain ⟨f, fs, hf, hid, hname, hclose⟩ := exists_frame ht
  rcases List.sublist_cons_iff.mp ha with hsub | ⟨styles, hactive, hsub⟩
  · have hnone : (c.active.any fun b => b.id == f.id) = false := by
      rw [List.any_eq_false]
      intro b hb he
      exact hk b (hsub.subset hb) ((eq_of_beq he).trans hid)
    have hend : c.endStyle a.name = { c with spine := c.spine.close 1 } := by
      simp [endStyle, hf, hname, hnone]
    rw [hend]
    exact ⟨hclose, hsub⟩
  · rw [endStyle_own hf hactive hid.symm]
    exact ⟨hclose, hsub⟩

/-- The end tag of an ordinary element that is the innermost one closes it. -/
theorem tags_closeInline {x : Nat × String} {tags : List (Nat × String)}
    (h : c.spine.tags = x :: tags) : (c.closeInline x.2).spine.tags = tags := by
  have hfind : c.spine.innermost? (fun n => n == x.2 || isBoundary n) = some x.2 := by
    rw [innermost?_eq, h]
    simp
  simp only [closeInline, hfind, beq_self_eq_true, if_true]
  exact @tags_closeThrough _ x.2 [] tags x h (fun _ h => absurd h List.not_mem_nil) rfl

theorem AllShown.openElement (h : c.AllShown) (name : String) (attrs : Attrs) :
    (c.openElement name attrs).AllShown := by
  intro a ha
  obtain ⟨p, hp, he⟩ := shows_iff.mp (h a ha)
  exact shows_iff.mpr ⟨p, List.mem_cons_of_mem _ hp, he⟩

end Construction

open Construction (AllShown Keeps)

/-- An element that is no block leaves the same elements open if its content does. -/
theorem ElementTag.keeps {name : String} {attrs : Attrs} (he : ElementTag false inLink name attrs)
    {content : List Token} (hn : Nested false (inLink || name == "a") content) (hc : c.Tidy)
    (hb : c.phase ≠ .behind) (hl : inLink = false → ages "a" c.active = []) (hs : c.AllShown)
    (hcontent : ∀ {d : Construction}, d.Tidy → d.phase ≠ .behind →
      ((inLink || name == "a") = false → ages "a" d.active = []) → d.AllShown →
        Keeps d (content.foldl Construction.token d)) :
    Keeps c ((content.foldl Construction.token (c.token (.startTag name attrs))).token
      (.endTag name)) := by
  have hcases := he.startTag_cases hb hl
  have hentered : c.entered.Tidy := hc.mode .within false
  have hshown : c.entered.AllShown := hs
  have hwithin : c.entered.phase = .within := rfl
  have hlink : inLink = false → ages "a" c.entered.active = [] := hl
  have hkeeps : Keeps c c.entered := .mode c _ _
  rw [hshown.resumeStyles_eq] at hcases
  refine hkeeps.trans ?_
  generalize c.entered = e at hcases hentered hshown hwithin hlink
  -- what the tokens between the tags do behind the start tag, and that the end tag is taken next
  have hbetween : ∀ o : Construction, o.Tidy → o.phase = .within →
      ((inLink || name == "a") = false → ages "a" o.active = []) → o.AllShown →
        ∃ d, Keeps o d ∧ (content.foldl Construction.token o).token (.endTag name)
          = d.endTag name := by
    intro o ho how hoa hos
    have hob : o.phase ≠ .behind := by
      rw [how]
      decide
    have hk : Keeps o (content.foldl Construction.token o) := hcontent ho hob hoa hos
    exact ⟨_, hk.trans (.mode _ .within false),
      Construction.token_endTag ((hn.follows ho hob hoa).2.within how) name⟩
  rcases hcases with ⟨hr, -⟩ | ⟨ho, hstart⟩ | ⟨hr, hne, hstart⟩
  · exact absurd (he.block (Construction.isBoundary_of_isBlockRole hr)) (by decide)
  · obtain ⟨d, hd, hd'⟩ := hbetween (e.openStyle name attrs) (ho.tidy hentered hshown) hwithin
      (fun h => by
        rw [Bool.or_eq_false_iff, beq_eq_false_iff_ne] at h
        rw [ho.ages_link hentered h.2]
        exact hlink h.1)
      (hshown.openStyle name attrs)
    have hkept := (ho.ages_keptFor hentered e.nextId).1
    obtain ⟨htags, hactive⟩ := Construction.keeps_endStyle (a := ⟨e.nextId, name, attrs⟩) hd.tags
      hd.active fun b hb => Nat.ne_of_lt (hentered.linked.active b (hkept.subset hb))
    rw [hstart, hd', ho.tag.endTag]
    exact ⟨htags, hactive.trans hkept⟩
  · obtain ⟨d, hd, hd'⟩ := hbetween (e.openElement name attrs) (hentered.openElement hne attrs)
      hwithin (fun h => hlink (Bool.or_eq_false_iff.mp h).1) (hshown.openElement name attrs)
    rw [hstart, hd', Construction.endTag_ordinary hr]
    exact ⟨Construction.tags_closeInline (x := (e.nextId, name)) hd.tags,
      (Construction.pops_closeInline d name).active ▸ hd.active⟩

/-- Tokens without blocks leave the same elements open where every style in force is shown. -/
theorem Nested.keeps (h : Nested false inLink ts) (hc : c.Tidy) (hb : c.phase ≠ .behind)
    (hl : inLink = false → ages "a" c.active = []) (hs : c.AllShown) :
    Keeps c (ts.foldl Construction.token c) := by
  induction h generalizing c with
  | nil => exact .refl c
  | @char _ _ x _ ih =>
    obtain ⟨ht, hf⟩ := hc.follows_char hb x
    have hk : Keeps c (c.token (.char x)) := by
      rcases Construction.token_char hb x with he | he
      · rw [he]
        exact .mode c _ _
      · have hshown : c.entered.AllShown := hs
        rw [he, hshown.resumeStyles_eq]
        exact ⟨Spine.tags_appendChar _ _, List.Sublist.refl _⟩
    exact hk.trans (ih ht (hf.ne_behind hb) (fun h => hf.ages_link (hl h)) (hk.allShown hs))
  | null _ ih =>
    obtain ⟨ht, hf⟩ := hc.follows_null hb
    have hk : Keeps c (c.token .null) := by
      rcases Construction.token_null hb with he | he
      · rw [he]
        exact .mode c _ _
      · rw [he]
        exact .mode c _ _
    exact hk.trans (ih ht (hf.ne_behind hb) (fun h => hf.ages_link (hl h)) (hk.allShown hs))
  | lineBreak _ ih =>
    obtain ⟨ht, hf⟩ := hc.follows_lineBreak hb
    have hk : Keeps c (c.token (.startTag "br" [])) := by
      have hshown : c.entered.AllShown := hs
      rw [Construction.token_startTag hb (by decide)]
      show Keeps c { c.entered.resumeStyles with
        spine := c.entered.resumeStyles.spine.append [.element "br" [] []] }
      rw [hshown.resumeStyles_eq]
      exact ⟨Spine.tags_append _ _, List.Sublist.refl _⟩
    exact hk.trans (ih ht (hf.ne_behind hb) (fun h => hf.ages_link (hl h)) (hk.allShown hs))
  | element he hn _ ihc ih =>
    obtain ⟨ht, hf⟩ := he.follows hc hb hl hn.follows
    have hk := he.keeps hn hc hb hl hs ihc
    rw [List.foldl_append]
    exact hk.trans (ih ht (hf.ne_behind hb) (fun h => hf.ages_link (hl h)) (hk.allShown hs))

/-! ## Sheltered styles -/

/-- The names of the elements that the start tag of a block within them may close. -/
def closableNames : List String :=
  ["p", "li"]

namespace Construction

/-- Every style in force is shown by an element that no closable element is around. -/
def Sheltered (c : Construction) : Prop :=
  ∃ inner outer, c.spine.tags = inner ++ outer ∧ (∀ p ∈ outer, p.2 ∉ closableNames) ∧
    ∀ a ∈ c.active, ∃ p ∈ outer, p.1 = a.id

theorem sheltered_start : start.Sheltered :=
  ⟨[], [], rfl, fun _ h => absurd h List.not_mem_nil, fun _ h => absurd h List.not_mem_nil⟩

theorem Sheltered.allShown (h : c.Sheltered) : c.AllShown := by
  obtain ⟨inner, outer, htags, -, hactive⟩ := h
  intro a ha
  obtain ⟨p, hp, he⟩ := hactive a ha
  exact shows_iff.mpr ⟨p, htags ▸ List.mem_append_right _ hp, he⟩

theorem Keeps.sheltered (h : Keeps c c') (hc : c.Sheltered) : c'.Sheltered := by
  obtain ⟨inner, outer, htags, hnames, hactive⟩ := hc
  exact ⟨inner, outer, h.tags.trans htags, hnames, fun a ha => hactive a (h.active.subset ha)⟩

theorem Sheltered.openElement (h : c.Sheltered) (name : String) (attrs : Attrs) :
    (c.openElement name attrs).Sheltered := by
  obtain ⟨inner, outer, htags, hnames, hactive⟩ := h
  refine ⟨(c.nextId, name) :: inner, outer, ?_, hnames, hactive⟩
  rw [List.cons_append, ← htags]
  rfl

/-- Where no closable element is open, the styles may as well be shown by any open element. -/
theorem AllShown.sheltered (h : c.AllShown) (hn : ∀ p ∈ c.spine.tags, p.2 ∉ closableNames) :
    c.Sheltered :=
  ⟨[], c.spine.tags, rfl, hn, fun a ha => shows_iff.mp (h a ha)⟩

/-- Closing a closable element closes no element that shelters a style. -/
theorem Sheltered.closeThrough (h : c.Sheltered) {name : String} (hn : name ∈ closableNames) :
    Sheltered { c with spine := c.spine.closeThrough name } := by
  obtain ⟨inner, outer, htags, hnames, hactive⟩ := h
  cases hfind : c.spine.tags.find? (·.2 == name) with
  | none =>
    have hopen : (c.spine.frames.any (·.name == name)) = false := by
      rw [List.any_eq_false]
      intro f hf he
      exact List.find?_eq_none.mp hfind (f.id, f.name) (List.mem_map_of_mem hf) he
    simp only [Spine.closeThrough, hopen]
    exact ⟨inner, outer, htags, hnames, hactive⟩
  | some x =>
    obtain ⟨hx, first, rest, hsplit, hfirst⟩ := List.find?_eq_some_iff_append.mp hfind
    have hclosed := tags_closeThrough hsplit (fun p hp he => by simpa [he] using hfirst p hp)
      (eq_of_beq hx)
    rcases split_append (hsplit.symm.trans htags) with ⟨m, -, hrest⟩ | ⟨m, -, hout⟩
    · exact ⟨m, outer, hclosed.trans hrest, hnames, hactive⟩
    · have hm : x ∈ outer := by simp [hout]
      exact absurd ((eq_of_beq hx).symm ▸ hn) (hnames x hm)

theorem Sheltered.closeParagraph (h : c.Sheltered) : c.closeParagraph.Sheltered :=
  h.closeThrough (by decide)

theorem Sheltered.closeItem (h : c.Sheltered) : c.closeItem.Sheltered := by
  simp only [Construction.closeItem]
  split
  · exact h.closeThrough (by decide)
  · exact h

theorem Sheltered.startTag_block (h : c.Sheltered) {name : String} (hr : IsBlockRole (roleOf name))
    (attrs : Attrs) : (c.startTag name attrs).Sheltered := by
  rcases hr with hr | hr | hr
  · simp only [startTag, hr]
    exact (Keeps.mode _ _ _).sheltered (h.closeParagraph.openElement name attrs)
  · simp only [startTag, hr]
    exact h.closeParagraph.openElement name attrs
  · simp only [startTag, hr]
    exact h.closeItem.closeParagraph.openElement name attrs

end Construction

open Construction (Sheltered)

/-- No closable element is open at a place, or no style stands around the places in it. -/
def Sheltering (c : Construction) (names : List String) : Prop :=
  (∀ p ∈ c.spine.tags, p.2 ∉ closableNames) ∨ ∀ name ∈ names, roleOf name ≠ .style

/-- The start tag of a plain element keeps the styles sheltered, unless it is a style in a closable
element. -/
theorem Placed.sheltered_startTag (h : Placed c) (hc : c.Sheltered) {name : String}
    (hn : name ∈ Markup.placeNames) {attrs : Attrs} (he : ElementTag true false name attrs)
    (hs : Sheltering c (name :: names))
    (hnames : name ∈ closableNames → ∀ m ∈ names, roleOf m ≠ .style) :
    (c.token (.startTag name attrs)).Sheltered ∧
      Sheltering (c.token (.startTag name attrs)) names := by
  have hcases := he.startTag_cases h.phase fun _ => h.link
  have hentered := h.entered
  have hsheltered : c.entered.Sheltered := (Keeps.mode c _ _).sheltered hc
  have hs' : Sheltering c.entered (name :: names) := hs
  rw [hsheltered.allShown.resumeStyles_eq] at hcases
  generalize c.entered = e at hcases hentered hsheltered hs'
  -- a closable element is named at once or was open before
  have hafter : ∀ o : Construction, (∀ p ∈ o.spine.tags, p = (e.nextId, name) ∨ p ∈ e.spine.tags) →
      Sheltering o names := by
    intro o ho
    by_cases hclose : name ∈ closableNames
    · exact .inr (hnames hclose)
    · rcases hs' with hnone | hnone
      · refine .inl fun p hp => ?_
        rcases ho p hp with rfl | hp
        · exact hclose
        · exact hnone p hp
      · exact .inr fun m hm => hnone m (List.mem_cons_of_mem _ hm)
  rcases hcases with ⟨hr, hstart⟩ | ⟨ho, hstart⟩ | ⟨-, -, hstart⟩
  · have hb := hentered.tidy.startTag_block hr attrs
    rw [hstart]
    exact ⟨hsheltered.startTag_block hr attrs, hafter _ fun p hp => hb.mem_tags hp⟩
  · have hr : roleOf name = .style := ho.tag.role.resolve_right (by
      rintro rfl
      exact absurd hn (by decide))
    have hopen : ∀ p ∈ e.spine.tags, p.2 ∉ closableNames :=
      hs'.resolve_right fun hnone => hnone name List.mem_cons_self hr
    have hown : name ∉ closableNames := by
      intro hm
      simp only [closableNames, List.mem_cons, List.not_mem_nil, or_false] at hm
      rcases hm with rfl | rfl <;> cases hr
    rw [hstart]
    refine ⟨(hsheltered.allShown.openStyle name attrs).sheltered fun p hp => ?_,
      hafter _ fun p hp => List.mem_cons.mp hp⟩
    rcases List.mem_cons.mp hp with rfl | hp
    · exact hown
    · exact hopen p hp
  · rw [hstart]
    exact ⟨hsheltered.openElement name attrs, hafter _ fun p hp => List.mem_cons.mp hp⟩

theorem OpenedTokens.sheltered (h : OpenedTokens false names ts)
    (hn : names.Pairwise fun outer inner => outer ∈ closableNames → roleOf inner ≠ .style)
    (hp : Placed c) (hc : c.Sheltered) (hs : Sheltering c names) :
    (ts.foldl Construction.token c).Sheltered := by
  induction h generalizing c with
  | here h => exact (h.keeps hp.tidy hp.phase (fun _ => hp.link) hc.allShown).sheltered hc
  | passed _ ih =>
    exact ih (List.pairwise_cons.mp hn).2 hp hc
      (hs.imp_right fun h m hm => h m (List.mem_cons_of_mem _ hm))
  | within h hname he _ ih =>
    obtain ⟨hfirst, hrest⟩ := List.pairwise_cons.mp hn
    obtain ⟨ht, hf⟩ := h.follows hp.tidy hp.phase fun _ => hp.link
    have hk := h.keeps hp.tidy hp.phase (fun _ => hp.link) hc.allShown
    have hplaced := hp.follows ht hf
    obtain ⟨hc', hs'⟩ := hplaced.sheltered_startTag (hk.sheltered hc) hname he
      (hs.imp_left fun h => hk.tags ▸ h) fun hclose m hm => hfirst m hm hclose
    rw [List.foldl_append]
    exact ih hrest (hplaced.startTag hname he) hc' hs'

/-- Where no blocks stand before a place and no closable element around a style, no style waits there
to be shown again. -/
theorem pendingBehind_of_sheltered {before : List Char} (hb : Opened false names before)
    (hn : names.Pairwise fun outer inner => outer ∈ closableNames → roleOf inner ≠ .style) :
    pendingBehind before = [] :=
  ((openedTokens_tokensBefore hb).sheltered hn .start Construction.sheltered_start
    (.inl fun _ h => absurd h List.not_mem_nil)).closeParagraph.allShown.pending_eq_nil

end MessageLayout.Html
