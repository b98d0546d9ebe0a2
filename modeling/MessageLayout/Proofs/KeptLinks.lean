import MessageLayout.Proofs.CodeInPlace
import MessageLayout.Proofs.LinkElements
import MessageLayout.Proofs.LinkPlaces

/-!
# Links in the tree

Within a link the tags nest, so elements are closed and opened there and none is moved out. A block
in it may close the element of the link; then the link goes on in another element, and what is shown
in the link is shown in one of them. So a link in a fragment is an element of the tree that nothing
hides, with its target, and shows something if its content does.

    InLink attrs p c → Nested b true ts → InLink attrs p (ts.foldl token c)          (Nested.inLink)
    InLink attrs False c → Showing ts → InLink attrs True (ts.foldl token c)
                                                                         (Showing.inLink)
    LinkedText href p s → an element of the link is kept in parse s                  (keptIn_link)
-/

namespace MessageLayout.Html

open Dom (HasVisible)
open Construction (Tidy Follows AllShown)

/-! ## Open elements with their attributes -/

/-- The names and attributes of the open elements, innermost first. -/
def Spine.openings (s : Spine) : List (String × Attrs) :=
  s.frames.map fun f => (f.name, f.attrs)

namespace Spine

variable (s : Spine)

@[simp] theorem openings_withHere (done : List Dom) : (s.withHere done).openings = s.openings := by
  simp only [withHere, openings]
  split
  next h => simp [h]
  next f fs h => simp [h]

@[simp] theorem openings_append (ds : List Dom) : (s.append ds).openings = s.openings :=
  openings_withHere _ _

@[simp] theorem openings_appendChar (x : Char) : (s.appendChar x).openings = s.openings := by
  simp only [appendChar]
  split <;> exact openings_withHere _ _

theorem openings_close_subset (n : Nat) : (s.close n).openings ⊆ s.openings := by
  show (append ⟨s.frames.drop n, s.done⟩ _).openings ⊆ _
  rw [openings_append]
  exact List.map_subset _ (List.drop_subset _ _)

end Spine

namespace Construction

variable {c c' : Construction}

/-! ## Links in force -/

/-- The names and attributes of the links among styles. -/
def linkTags (styles : List ActiveStyle) : List (String × Attrs) :=
  (styles.filter (·.name == "a")).map fun a => (a.name, a.attrs)

theorem linkTags_cons_of_ne {a : ActiveStyle} (ha : a.name ≠ "a") (styles : List ActiveStyle) :
    linkTags (a :: styles) = linkTags styles := by
  simp [linkTags, ha]

theorem linkTags_eq_of_sublist {styles styles' : List ActiveStyle} (hs : styles'.Sublist styles)
    (ha : ages "a" styles' = ages "a" styles) : linkTags styles' = linkTags styles := by
  have hlength := congrArg List.length ha
  simp only [ages, List.length_map] at hlength
  rw [linkTags, (hs.filter _).eq_of_length hlength, linkTags]

/-- Showing styles again changes their numbers only. -/
theorem linkTags_resumeStyles (c : Construction) :
    linkTags c.resumeStyles.active = linkTags c.active := by
  have hfold : ∀ (styles : List ActiveStyle) (d : Construction),
      linkTags (styles.foldl reopen d).active = linkTags (styles.reverse ++ d.active) := by
    intro styles
    induction styles with
    | nil => exact fun _ => rfl
    | cons a styles ih =>
      intro d
      have hactive : (d.reopen a).active = { a with id := d.nextId } :: d.active := rfl
      rw [List.foldl_cons, ih, hactive]
      by_cases ha : a.name = "a" <;> simp [linkTags, ha]
  have h := hfold c.pending.reverse { c with active := c.active.drop c.pending.length }
  rw [List.reverse_reverse] at h
  exact h.trans (congrArg linkTags (takeWhile_append_drop _ _))

/-! ## Withdrawal -/

/-- Elements are closed and styles go out of force, and nothing is moved. -/
structure Recedes (c c' : Construction) : Prop where
  spine : c'.spine = c.spine ∨ ∃ n, c'.spine = c.spine.close n
  active : c'.active.Sublist c.active

theorem recedes_closeThrough (c : Construction) (name : String) :
    Recedes c { c with spine := c.spine.closeThrough name } := by
  refine ⟨?_, List.Sublist.refl _⟩
  simp only [Spine.closeThrough]
  split
  · exact .inr ⟨_, rfl⟩
  · exact .inl rfl

theorem Recedes.refl (c : Construction) : Recedes c c :=
  ⟨.inl rfl, List.Sublist.refl _⟩

theorem recedes_closeItem (c : Construction) : Recedes c c.closeItem := by
  simp only [closeItem]
  split
  · exact recedes_closeThrough c "li"
  · exact .refl c

theorem recedes_closeInline (c : Construction) (name : String) :
    Recedes c (c.closeInline name) := by
  simp only [closeInline]
  split
  · split
    · exact recedes_closeThrough c name
    · exact .refl c
  · exact .refl c

/-- A round of ending a style that is the last moves no block. -/
theorem recedes_endStyleOnce (c : Construction) (name : String) :
    (c.endStyleOnce name).2 = true ∨ Recedes c (c.endStyleOnce name).1 := by
  simp only [endStyleOnce]
  split
  · exact .inr (recedes_closeInline c name)
  · split
    · exact .inr ⟨.inl rfl, sublist_forget _ _⟩
    · split
      · exact .inr ⟨.inr ⟨_, rfl⟩, sublist_forget _ _⟩
      · exact .inl rfl

/-- The end tag of a style moves no block if none is open in the style. -/
theorem Tidy.recedes_endStyle (h : c.Tidy) {name : String} (hu : c.Unhindered name) :
    Recedes c (c.endStyle name) := by
  have hrounds : Recedes c (endStyleRounds 8 c name) := by
    have hlast := (h.ends_endStyleOnce hu).1
    have honce := (recedes_endStyleOnce c name).resolve_left (by simp [hlast])
    generalize hr : c.endStyleOnce name = r at hlast honce
    obtain ⟨c', due⟩ := r
    obtain rfl : due = false := hlast
    simpa [endStyleRounds, hr] using honce
  simp only [endStyle]
  split
  · split
    · exact ⟨.inr ⟨1, rfl⟩, List.Sublist.refl _⟩
    · exact hrounds
  · exact hrounds

/-! ## Within a link -/

/-- A construction within a link with the given attributes: it is in force, and an element of it is
open or finished, which shows something if so told. -/
structure InLink (attrs : Attrs) (shows : Prop) (c : Construction) : Prop where
  tidy : c.Tidy
  phase : c.phase ≠ .behind
  force : linkTags c.active = [("a", attrs)]
  opened : ∀ p ∈ c.spine.openings, p.1 = "a" → p.2 = attrs
  link : c.spine.HasLink attrs shows

namespace InLink

variable {attrs : Attrs} {shows : Prop}

theorem imp {shows' : Prop} (h : InLink attrs shows c) (hs : shows' → shows) :
    InLink attrs shows' c :=
  ⟨h.tidy, h.phase, h.force, h.opened, h.link.mono hs⟩

theorem recede (h : InLink attrs shows c) (hr : Recedes c c') (ht : c'.Tidy)
    (hp : c'.phase = c.phase) (ha : ages "a" c'.active = ages "a" c.active) :
    InLink attrs shows c' := by
  refine ⟨ht, hp ▸ h.phase, (linkTags_eq_of_sublist hr.active ha).trans h.force, ?_, ?_⟩
  · rcases hr.spine with he | ⟨n, he⟩
    · exact he ▸ h.opened
    · exact fun p hm => h.opened p (Spine.openings_close_subset _ n (he ▸ hm))
  · rcases hr.spine with he | ⟨n, he⟩
    · exact he ▸ h.link
    · exact he ▸ h.link.close n

theorem recede_of_pops (h : InLink attrs shows c) (hr : Recedes c c') (hp : Pops c c') :
    InLink attrs shows c' :=
  h.recede hr (hp.tidy h.tidy) hp.phase (by rw [hp.active])

theorem mode (h : InLink attrs shows c) {phase : Phase} (hp : phase ≠ .behind)
    (skipsNewline : Bool) : InLink attrs shows { c with phase, skipsNewline } :=
  ⟨h.tidy.mode _ _, hp, h.force, h.opened, h.link⟩

theorem entered (h : InLink attrs shows c) : InLink attrs shows c.entered :=
  h.mode (by decide) false

/-- Nodes are added. -/
theorem withSpine (h : InLink attrs shows c) {s : Spine} {shows' : Prop}
    (ht : s.tags = c.spine.tags) (ho : s.openings = c.spine.openings)
    (hl : s.HasLink attrs shows') :
    InLink attrs shows' { c with spine := s } :=
  ⟨Pops.tidy ⟨⟨0, ht⟩, rfl, rfl, rfl⟩ h.tidy, h.phase, h.force,
    fun p hp => h.opened p (ho ▸ hp), hl⟩

theorem openElement (h : InLink attrs shows c) {name : String} (hn : name ≠ "a") (attrs' : Attrs) :
    InLink attrs shows (c.openElement name attrs') := by
  refine ⟨h.tidy.openElement hn attrs', h.phase, h.force, ?_, h.link.push _⟩
  intro p hp he
  rcases List.mem_cons.mp hp with rfl | hp
  · exact absurd he hn
  · exact h.opened p hp he

theorem openStyle (h : InLink attrs shows c) (hall : c.AllShown) {name : String} {attrs' : Attrs}
    (ho : Opens c name attrs') (hn : name ≠ "a") :
    InLink attrs shows (c.openStyle name attrs') := by
  have hopened := h.openElement hn attrs'
  obtain ⟨hsub, -, hothers⟩ := ho.ages_keptFor h.tidy c.nextId
  refine ⟨ho.tidy h.tidy hall, h.phase, ?_, hopened.opened, hopened.link⟩
  rw [openStyle_eq, linkTags_cons_of_ne hn, linkTags_eq_of_sublist hsub (hothers "a" (Ne.symm hn))]
  exact h.force

/-- The link in force has the attributes. -/
theorem attrs_eq (h : InLink attrs shows c) {a : ActiveStyle} (ha : a ∈ c.active)
    (hn : a.name = "a") : a.attrs = attrs := by
  have hm : (a.name, a.attrs) ∈ linkTags c.active :=
    List.mem_map.mpr ⟨a, List.mem_filter.mpr ⟨ha, beq_iff_eq.mpr hn⟩, rfl⟩
  rw [h.force] at hm
  exact (Prod.mk.inj (List.mem_singleton.mp hm)).2

theorem resumeStyles (h : InLink attrs shows c) : InLink attrs shows c.resumeStyles := by
  obtain ⟨fs, active, nextId, hs, he⟩ := exists_resumeStyles c
  obtain ⟨ht, -, hf⟩ := h.tidy.resumeStyles
  refine ⟨ht, hf.ne_behind h.phase, (linkTags_resumeStyles c).trans h.force, ?_, ?_⟩
  · rw [he]
    intro p hp hn
    have hsplit : Spine.openings ⟨fs ++ c.spine.frames, c.spine.done⟩
        = c.pending.map (fun a => (a.name, a.attrs)) ++ c.spine.openings := by
      rw [← hs.tags, Spine.openings, List.map_append, Spine.openings]
    rcases List.mem_append.mp (hsplit ▸ hp) with hp | hp
    · obtain ⟨a, ha, rfl⟩ := List.mem_map.mp hp
      exact h.attrs_eq (List.takeWhile_subset _ ha) hn
    · exact h.opened p hp hn
  · rw [he]
    exact h.link.prepend fs

/-! ### Tags -/

theorem closeParagraph (h : InLink attrs shows c) : InLink attrs shows c.closeParagraph :=
  h.recede_of_pops (recedes_closeThrough c "p") (pops_closeParagraph c)

theorem startTag_block (h : InLink attrs shows c) {name : String}
    (hr : IsBlockRole (roleOf name)) (attrs' : Attrs) :
    InLink attrs shows (c.startTag name attrs') := by
  have hn := ne_link_of_isBlockRole hr
  rcases hr with hr | hr | hr
  · simp only [startTag, hr]
    exact (h.closeParagraph.openElement hn attrs').mode h.phase _
  · simp only [startTag, hr]
    exact h.closeParagraph.openElement hn attrs'
  · simp only [startTag, hr]
    exact (h.recede_of_pops (recedes_closeItem c) (pops_closeItem c)).closeParagraph.openElement hn
      attrs'

theorem endTag_block (h : InLink attrs shows c) {name : String} (hr : IsBlockRole (roleOf name)) :
    InLink attrs shows (c.endTag name) := by
  have hpops := pops_endTag c hr
  rcases hr with hr | hr | hr
  · simp only [endTag, hr] at hpops ⊢
    exact h.recede_of_pops (recedes_closeThrough c name) hpops
  · simp only [endTag, hr] at hpops ⊢
    split
    · exact h.closeParagraph
    · exact h.withSpine (Spine.tags_append _ _) (Spine.openings_append _ _) (h.link.append _)
  · simp only [endTag, hr] at hpops ⊢
    split
    · split
      · exact h.recede_of_pops (recedes_closeThrough c name) (pops_closeThrough c name)
      · exact h
    · exact h

end InLink

end Construction

open Construction (InLink IsBlockRole)

variable {blocks : Bool} {name : String} {attrs attrs' : Attrs} {shows : Prop}
  {content : List Token} {c : Construction}

/-- The start tag of an element in a link. -/
theorem ElementTag.inLink_startTag (he : ElementTag blocks true name attrs')
    (h : InLink attrs shows c) :
    InLink attrs shows (c.token (.startTag name attrs')) ∧
      (c.token (.startTag name attrs')).phase = .within := by
  have hcases := he.startTag_cases h.phase fun hl => absurd hl (by decide)
  have hentered := h.entered
  have hwithin : c.entered.phase = .within := rfl
  have hne : name ≠ "a" := fun ha => absurd (he.link ha) (by decide)
  generalize c.entered = e at hcases hentered hwithin
  obtain ⟨-, hshown, hf⟩ := hentered.tidy.resumeStyles
  rcases hcases with ⟨hr, hstart⟩ | ⟨ho, hstart⟩ | ⟨-, -, hstart⟩
  · rw [hstart]
    exact ⟨hentered.startTag_block hr attrs',
      (hentered.tidy.startTag_block hr attrs').phase.trans hwithin⟩
  · rw [hstart]
    exact ⟨hentered.resumeStyles.openStyle hshown (ho.resumed hentered.tidy) hne, hf.within hwithin⟩
  · rw [hstart]
    exact ⟨hentered.resumeStyles.openElement hne attrs', hf.within hwithin⟩

/-- The end tag of an element in a link, behind content that nests. -/
theorem ElementTag.inLink_endTag (he : ElementTag blocks true name attrs') {shows' : Prop}
    (h : InLink attrs shows' c) (hn : Nested blocks true content)
    (hcontent : InLink attrs shows
      (content.foldl Construction.token (c.token (.startTag name attrs')))) :
    InLink attrs shows ((content.foldl Construction.token (c.token (.startTag name attrs'))).token
      (.endTag name)) := by
  have hcases := he.startTag_cases h.phase fun hl => absurd hl (by decide)
  obtain ⟨hstart, hwithin⟩ := he.inLink_startTag h
  obtain ⟨-, hf⟩ := hn.follows hstart.tidy hstart.phase fun hl => absurd hl (by decide)
  generalize c.token (.startTag name attrs') = o at hcases hcontent hwithin hf
  generalize content.foldl Construction.token o = d at hcontent hf
  have hentered := hcontent.entered
  rw [Construction.token_endTag (hf.within hwithin)]
  rcases hcases with ⟨hr, -⟩ | ⟨ho, rfl⟩ | ⟨hr, -, -⟩
  · exact hentered.endTag_block hr
  · have hne : name ≠ "a" := fun ha => absurd (he.link ha) (by decide)
    have hresumed := h.entered.tidy.resumeStyles.1
    have hstart := (ho.resumed h.entered.tidy).startsStyle hresumed
    have hu := hstart.unhindered hresumed (hf.trans (Construction.follows_entered d))
    have hends := hentered.tidy.ends_endStyle hu
    rw [ho.tag.endTag]
    exact hentered.recede (hentered.tidy.recedes_endStyle hu) hends.tidy hends.phase
      (hends.others "a" (Ne.symm hne))
  · rw [Construction.endTag_ordinary hr]
    exact hentered.recede_of_pops (Construction.recedes_closeInline _ _)
      (Construction.pops_closeInline _ _)

/-- Tokens in a link leave it a link, with all that it shows. -/
theorem Nested.inLink {ts : List Token} (hn : Nested blocks true ts) (h : InLink attrs shows c) :
    InLink attrs shows (ts.foldl Construction.token c) := by
  generalize hx : true = inLink at hn
  induction hn generalizing c with
  | nil => exact h
  | @char _ _ x _ ih =>
    refine ih ?_ hx
    rcases Construction.token_char h.phase x with he | he
    · rw [he]
      exact h.mode h.phase false
    · rw [he]
      have hresumed := h.entered.resumeStyles
      exact hresumed.withSpine (Spine.tags_appendChar _ _) (Spine.openings_appendChar _ _)
        (hresumed.link.appendChar x)
  | null _ ih =>
    refine ih ?_ hx
    rcases Construction.token_null h.phase with he | he
    · rw [he]
      exact h.mode h.phase false
    · rw [he]
      exact h.entered
  | lineBreak _ ih =>
    refine ih ?_ hx
    rw [Construction.token_startTag h.phase (by decide)]
    have hresumed := h.entered.resumeStyles
    exact hresumed.withSpine (Spine.tags_append _ _) (Spine.openings_append _ _)
      (hresumed.link.append _)
  | element he hn _ ihc ih =>
    subst hx
    rw [List.foldl_append]
    refine ih ?_ rfl
    exact he.inLink_endTag h hn (ihc (he.inLink_startTag h).1 rfl)

/-! ## Content that shows something -/

namespace Construction

/-- No open block hides what is in it. -/
def Clear (c : Construction) : Prop :=
  ∀ p ∈ c.boundaries, p.2 ∉ hidingNames

theorem Follows.clear {c' : Construction} (hf : Follows c c') (h : c.Clear) : c'.Clear :=
  fun p hp => h p (hf.boundaries.subset hp)

theorem Clear.openElement (h : c.Clear) {name : String} (hn : isBoundary name = false)
    (attrs : Attrs) : (c.openElement name attrs).Clear := fun p hp =>
  h p (boundaries_openElement c hn attrs ▸ hp)

/-- Where all styles are shown, an element of the link is open, and nothing around it hides it. -/
theorem InLink.exists_opened (h : InLink attrs shows c) (hall : c.AllShown) (hc : c.Clear) :
    ∃ above f below, c.spine.frames = above ++ f :: below ∧ f.name = "a" ∧ f.attrs = attrs ∧
      ∀ g ∈ below, g.name ∉ hidingNames := by
  obtain ⟨a, hfilter, -⟩ := List.map_eq_singleton_iff.mp h.force
  have hmem : ∀ b, b ∈ c.active ∧ b.name = "a" ↔ b = a := fun b => by
    simpa using congrArg (b ∈ ·) hfilter
  obtain ⟨ha, hname⟩ := (hmem a).mpr rfl
  obtain ⟨p, hp, hid⟩ := shows_iff.mp (hall a ha)
  have hpa : p.2 = "a" := (h.tidy.linked.names a ha p hp hid).trans hname
  obtain ⟨f, hf, rfl⟩ := List.mem_map.mp hp
  obtain ⟨above, below, hframes⟩ := List.append_of_mem hf
  refine ⟨above, f, below, hframes, hpa, h.opened _ (List.mem_map_of_mem hf) hpa, fun g hg hh => ?_⟩
  have hsorted := h.tidy.tags
  rw [Spine.tags, hframes, List.map_append, List.pairwise_append] at hsorted
  have hlt : g.id < f.id :=
    (List.pairwise_cons.mp hsorted.2.1).1 (g.id, g.name) (List.mem_map_of_mem hg)
  have hopen : (g.id, g.name) ∈ c.spine.tags :=
    List.mem_map_of_mem (by rw [hframes]; simp [hg])
  by_cases hga : g.name = "a"
  · -- of a link only one element can be open
    obtain ⟨b, hb, hbid⟩ := h.tidy.links _ hopen hga
    obtain rfl := (hmem b).mp ⟨hb, (h.tidy.linked.names b hb _ hopen hbid.symm).symm.trans hga⟩
    exact Nat.ne_of_lt hlt (hbid.symm.trans hid.symm)
  · refine hc (g.id, g.name) (List.mem_filter.mpr ⟨hopen, ?_⟩) hh
    simp only [hidingNames, List.mem_cons, List.not_mem_nil, or_false] at hh
    show isBoundary g.name = true
    rcases hh with he | he | he
    · exact absurd he hga
    · rw [he]
      decide
    · rw [he]
      decide

end Construction

/-- No start tag of an element in a link hides what is in it, save that of a code block. -/
theorem ElementTag.clear_startTag (he : ElementTag blocks true name attrs') (hn : name ≠ "pre")
    (h : InLink attrs shows c) (hc : c.Clear) : (c.token (.startTag name attrs')).Clear := by
  have hcases := he.startTag_cases h.phase fun hl => absurd hl (by decide)
  have hentered := h.entered
  have hclear : c.entered.Clear := (Construction.follows_entered c).clear hc
  generalize c.entered = e at hcases hentered hclear
  have hresumed := hentered.tidy.follows_resumeStyles.2.clear hclear
  rcases hcases with ⟨hr, hstart⟩ | ⟨ho, hstart⟩ | ⟨hr, -, hstart⟩
  · have hb := Construction.isBoundary_of_isBlockRole hr
    obtain ⟨outer, hbounds, houter⟩ := (hentered.tidy.startTag_block hr attrs').boundaries hb
    intro p hp
    rw [hstart, hbounds] at hp
    rcases List.mem_cons.mp hp with rfl | hp
    · have hbr : name ≠ "br" := by
        rintro rfl
        rcases hr with hr | hr | hr <;> cases hr
      simp [hidingNames, hn, hbr, Construction.ne_link_of_isBlockRole hr]
    · exact hclear p (houter.subset hp)
  · rw [hstart]
    exact hresumed.openElement ho.tag.inline attrs'
  · rw [hstart]
    exact hresumed.openElement (isBoundary_of_roleOf (.inr hr)) attrs'

/-- A character that is no blank is always shown, in the styles in force. -/
theorem Construction.token_char_of_not_blank (hb : c.phase ≠ .behind) {x : Char}
    (hx : Text.isBlank x = false) :
    c.token (.char x) = { c.entered.resumeStyles with
      spine := c.entered.resumeStyles.spine.appendChar x } := by
  have hspace : isSpace x = false := by
    refine Bool.eq_false_iff.mpr fun h => ?_
    simp only [isSpace, Bool.or_eq_true, decide_eq_true_eq] at h
    have hblank : Text.isBlank x = true := by
      rcases h with (((rfl | rfl) | rfl) | h) | rfl
      · rfl
      · rfl
      · rfl
      · simp [Text.isBlank, h]
      · rfl
    rw [hx] at hblank
    cases hblank
  have hline : x ≠ '\n' := by
    rintro rfl
    cases hspace
  obtain ⟨phase, spine, active, nextId, skips⟩ := c
  cases phase with
  | before => simp [token, opensBody, hspace, bodyToken, entered]
  | within => simp [token, Token.isChar, hline, bodyToken, entered]
  | behind => exact absurd rfl hb

/-- Content that shows something shows it in an element of the link. -/
theorem Showing.inLink {ts : List Token} (hs : Showing ts) (h : InLink attrs shows c)
    (hc : c.Clear) :
    InLink attrs True (ts.foldl Construction.token c) := by
  -- what stands before it leaves a link in which nothing hides it
  have hbefore : ∀ {us : List Token} {d : Construction}, Nested true true us →
      InLink attrs shows d → d.Clear →
        InLink attrs shows (us.foldl Construction.token d) ∧
          (us.foldl Construction.token d).Clear := fun hu hd hdc =>
    ⟨hu.inLink hd, (hu.follows hd.tidy hd.phase fun hl => absurd hl (by decide)).2.clear hdc⟩
  have hresumed : ∀ {d : Construction}, InLink attrs shows d → d.Clear →
      InLink attrs shows d.entered.resumeStyles ∧ ∃ above f below,
        d.entered.resumeStyles.spine.frames = above ++ f :: below ∧ f.name = "a" ∧ f.attrs = attrs ∧
          ∀ g ∈ below, g.name ∉ hidingNames := fun hd hdc => by
    obtain ⟨-, hall, hf⟩ := hd.entered.tidy.resumeStyles
    exact ⟨hd.entered.resumeStyles, hd.entered.resumeStyles.exists_opened hall (hf.clear hdc)⟩
  induction hs generalizing c with
  | @char x ts us hx ht hu =>
    obtain ⟨hd, hdc⟩ := hbefore ht h hc
    obtain ⟨hr, above, f, below, hf, hn, ha, hb⟩ := hresumed hd hdc
    rw [List.foldl_append, List.foldl_cons, Construction.token_char_of_not_blank hd.phase hx]
    exact hu.inLink (hr.withSpine (Spine.tags_appendChar _ _) (Spine.openings_appendChar _ _)
      (.opened_appendChar hf hn ha hb hx))
  | @lineBreak ts us ht hu =>
    obtain ⟨hd, hdc⟩ := hbefore ht h hc
    obtain ⟨hr, above, f, below, hf, hn, ha, hb⟩ := hresumed hd hdc
    rw [List.foldl_append, List.foldl_cons, Construction.token_startTag hd.phase (by decide)]
    exact hu.inLink (hr.withSpine (Spine.tags_append _ _) (Spine.openings_append _ _)
      (.opened_append hf hn ha hb fun _ => .inl (Dom.hasVisible_element.mpr (.inl rfl))))
  | @element name attrs' content ts us he hn hcontent ht hu ih =>
    obtain ⟨hd, hdc⟩ := hbefore ht h hc
    rw [List.foldl_append, List.foldl_append]
    exact hu.inLink (he.inLink_endTag hd hcontent.nested
      (ih (he.inLink_startTag hd).1 (he.clear_startTag hn hd hdc)))

/-! ## The whole text -/

open Markup (LinkedText Opened)

namespace Placed

/-- At a place where all styles are shown a link may be opened. Nothing is shown in it yet. -/
theorem openLink (h : Placed c) (hall : c.AllShown) (attrs : Attrs) :
    InLink attrs False (c.openStyle "a" attrs) ∧ (c.openStyle "a" attrs).Clear := by
  have ho := h.opens_link attrs
  have hnot : ∀ f ∈ c.spine.frames, f.name ∉ hidingNames := fun f hf =>
    h.not_hiding (f.id, f.name) (List.mem_map_of_mem hf)
  have hclear : c.Clear := fun p hp => h.not_hiding p (List.mem_filter.mp hp).1
  refine ⟨⟨ho.tidy h.tidy hall, h.phase, ?_, ?_, .opened [] rfl rfl rfl hnot False.elim⟩,
    hclear.openElement ho.tag.inline attrs⟩
  · have hnone := (ho.ages_keptFor h.tidy c.nextId).2.1
    rw [h.link, List.prefix_nil, ages, List.map_eq_nil_iff] at hnone
    simp [Construction.openStyle_eq, Construction.linkTags, hnone]
  · intro p hp ha
    rcases List.mem_cons.mp hp with rfl | hp
    · rfl
    · obtain ⟨f, hf, rfl⟩ := List.mem_map.mp hp
      exact absurd ha fun ha => hnot f hf (by simp [hidingNames, show f.name = "a" from ha])

/-- A link at a place is read to an element that nothing hides and that shows its content. -/
theorem keeps_link (h : Placed c) {attrs : Attrs} (hn : Nested true true content)
    (hshows : shows → Showing content) :
    let c' := (content.foldl Construction.token (c.token (.startTag "a" attrs))).token (.endTag "a")
    Placed c' ∧ ∃ children, (shows → HasVisible children) ∧
      c'.spine.Keeps (.element "a" attrs children) := by
  have he : ElementTag true false "a" attrs :=
    ⟨by decide, fun hb => absurd hb (by decide), fun hs => absurd hs (by decide), fun _ => rfl,
      fun hd => absurd hd (by decide)⟩
  have hafter := he.follows h.tidy h.phase (fun _ => h.link) hn.follows
  have hplaced := h.follows hafter.1 hafter.2
  refine ⟨hplaced, ?_⟩
  obtain ⟨ht, hall, hresume⟩ := h.entered.tidy.resumeStyles
  have hresumed := h.entered.follows ht hresume
  have hopen : c.token (.startTag "a" attrs) = c.entered.resumeStyles.openStyle "a" attrs :=
    (Construction.token_startTag h.phase (by decide) attrs).trans
      (Construction.startTag_link h.entered.link attrs)
  obtain ⟨hopened, hclear⟩ := hresumed.openLink hall attrs
  have hwithin : (c.entered.resumeStyles.openStyle "a" attrs).phase = .within := hresume.within rfl
  rw [hopen] at hplaced ⊢
  generalize c.entered.resumeStyles = e at ht hresumed hopened hclear hwithin hplaced
  have hf := (hn.follows hopened.tidy hopened.phase fun hl => absurd hl (by decide)).2
  have hin : InLink attrs shows (content.foldl Construction.token (e.openStyle "a" attrs)) := by
    by_cases hs : shows
    · exact ((hshows hs).inLink hopened hclear).imp fun _ => trivial
    · exact (hn.inLink hopened).imp hs
  generalize content.foldl Construction.token (e.openStyle "a" attrs) = d at hplaced hin hf
  rw [Construction.token_endTag (hf.within hwithin)] at hplaced ⊢
  -- the end tag closes elements only, and the link is open no more
  have hu := ((hresumed.opens_link attrs).startsStyle ht).unhindered ht
    (hf.trans (Construction.follows_entered d))
  have hlink : (d.entered.endStyle "a").spine.HasLink attrs shows := by
    rcases (hin.entered.tidy.recedes_endStyle hu).spine with he | ⟨n, he⟩
    · exact he ▸ hin.entered.link
    · exact he ▸ hin.entered.link.close n
  cases hlink with
  | kept hv hk => exact ⟨_, hv, hk⟩
  | @opened above f below hf hn _ _ _ =>
    have hm : f ∈ (d.entered.endTag "a").spine.frames := by
      show f ∈ (d.entered.endStyle "a").spine.frames
      simp [hf]
    exact absurd (by simp [hidingNames, hn])
      (hplaced.not_hiding (f.id, f.name) (List.mem_map_of_mem hm))

end Placed

/-- Unifying the line ends leaves a link a link with the same target, if that has none to unify. -/
theorem unifyLineEnds_linkedText {href s : List Char} (hr : '\r' ∉ href)
    (h : LinkedText href shows s) : LinkedText href shows (Html.unifyLineEnds (dropMark s)) := by
  cases h with
  | @intro names before attrs content after hb hh hgt hc =>
    have hends : Html.unifyLineEnds ("/a".toList ++ '>' :: after)
        = "/a".toList ++ '>' :: Html.unifyLineEnds after :=
      unifyLineEnds_append_cons (by decide) (by decide) _ _
    have hvalue := Markup.carriageReturn_not_mem_escapeAttr hr
    rw [LinkedText.enclose_link_append, dropMark_append_tag,
      unifyLineEnds_append_cons (by decide) (by decide), List.cons_append,
      unifyLineEnds_cons (by decide), unifyLineEnds_append_cons (by decide) (by decide),
      unifyLineEnds_append_cons (by decide) (by decide), hends, ← List.cons_append,
      ← LinkedText.enclose_link_append]
    exact .intro _ ((Opened.dropMark hb).alike (alike_unifyLineEnds _))
      (Markup.changesValues_unifyLineEnds.hrefText (unifyLineEnds_of_not_mem hvalue) hh)
      (Markup.not_mem_of_alike (by decide) (alike_unifyLineEnds attrs) hgt)
      (hc.alike (alike_unifyLineEnds content))

theorem exists_runFrom_linkContent {s : List Char} (h : Markup.LinkContent shows s) :
    ∃ ts, runFrom (.reading .text) s = (.reading .text, ts) ∧ Nested true true ts ∧
      (shows → Showing ts) := by
  by_cases hs : shows
  · obtain ⟨ts, hr, hv⟩ := Visible.exists_runFrom (h.visible hs)
    exact ⟨ts, hr, hv.nested, fun _ => hv⟩
  · obtain ⟨ts, hr, hn⟩ := Balanced.exists_runFrom h.balanced
    exact ⟨ts, hr, hn, fun h => absurd h hs⟩

/-- A link is read with its target, between tokens that lead to its place and others. -/
theorem exists_tokens_linkedText {href s : List Char} (hz : '\x00' ∉ href) (hr : '\r' ∉ href)
    (h : LinkedText href shows s) :
    ∃ names attrs ts content rest, attrs.lookup "href" = some href ∧ OpenedTokens true names ts ∧
      Nested true true content ∧ (shows → Showing content) ∧
        tokens s = ts ++ (.startTag "a" attrs :: content ++ .endTag "a" :: rest) := by
  have hu := unifyLineEnds_linkedText hr h
  rw [tokens]
  generalize Html.unifyLineEnds (dropMark s) = s at hu
  cases hu with
  | @intro names before attrs content after hb hh hgt hc =>
    obtain ⟨ts, hbefore, hts⟩ := Opened.exists_runFrom hb
    obtain ⟨attrs', hhref, hstart⟩ := exists_runFrom_linkTag hh hz
    obtain ⟨cs, hcontent, hn, hv⟩ := exists_runFrom_linkContent hc
    have hend : runFrom (.reading .text) ('<' :: '/' :: "a".toList ++ ['>'])
        = (.reading .text, [.endTag "a"]) := runFrom_endTag (by decide)
    have hsplit : before ++ (Markup.enclose "a" attrs content ++ after)
        = before ++ (('<' :: "a".toList ++ attrs ++ ['>']) ++ (content
          ++ (('<' :: '/' :: "a".toList ++ ['>']) ++ after))) := by
      simp [Markup.enclose]
    refine ⟨names, attrs', ts, cs, tokensFrom (.reading .text) after, hhref, hts, hn, hv, ?_⟩
    rw [hsplit, tokensFrom_append, hbefore, tokensFrom_append, hstart, tokensFrom_append, hcontent,
      tokensFrom_append, hend]
    simp

/-- A link is an element of the tree that nothing hides, with its target and its content. -/
theorem keptIn_parse_link {href s : List Char} (hz : '\x00' ∉ href) (hr : '\r' ∉ href)
    (h : LinkedText href shows s) :
    ∃ attrs children, attrs.lookup "href" = some href ∧ (shows → HasVisible children) ∧
      KeptIn (.element "a" attrs children) (parse s) := by
  obtain ⟨names, attrs, ts, content, rest, hhref, hts, hn, hv, htokens⟩ :=
    exists_tokens_linkedText hz hr h
  obtain ⟨hplaced, children, hchildren, hkept⟩ := (hts.placed .start).keeps_link hn hv
  have hrest := (reaches_foldl rest _).preserves
    (fun _ _ hm => Construction.keeps_move hm rfl) ⟨hplaced.tidy.linked, hkept⟩
  refine ⟨attrs, children, hhref, hchildren, ?_⟩
  rw [parse, htokens, List.foldl_append, List.foldl_append]
  exact hrest.2.toDoms

end MessageLayout.Html
