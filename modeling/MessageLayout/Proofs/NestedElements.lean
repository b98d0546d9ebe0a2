import MessageLayout.Proofs.NestedTokens
import MessageLayout.Proofs.OpenElements

/-!
# Elements of nested tokens

Where the tags nest no block is ever moved out of a style, and no link goes on behind its end tag.
The numbers tell: the newest style of a name in force is never older than the element that is being
ended.

    Nested b l ts → Tidy c → Tidy (ts.foldl token c), Follows c (ts.foldl token c)
                                                                          (Nested.follows)
-/

namespace MessageLayout.Html

namespace Construction

variable {c c' c'' : Construction}

/-! ## Closing elements by name -/

theorem innermost?_eq (s : Spine) (p : String → Bool) :
    s.innermost? p = (s.tags.map (·.2)).find? p := by
  simp [Spine.innermost?, Spine.tags, Function.comp_def]

/-- An element is closed with what is open in it. -/
theorem tags_closeThrough {s : Spine} {name : String} {inner rest : List (Nat × String)}
    {x : Nat × String} (h : s.tags = inner ++ x :: rest) (hi : ∀ p ∈ inner, p.2 ≠ name)
    (hx : x.2 = name) : (s.closeThrough name).tags = rest := by
  have hdepth : s.depthOf (·.name == name) = inner.length := by
    have hmap : s.frames.takeWhile (fun f => !f.name == name)
        = s.frames.takeWhile ((fun p => !p.2 == name) ∘ fun f => (f.id, f.name)) := rfl
    have hlength : s.depthOf (·.name == name)
        = (s.tags.takeWhile fun p => !p.2 == name).length := by
      rw [Spine.depthOf, hmap, Spine.tags, List.takeWhile_map, List.length_map]
    rw [hlength, h, List.takeWhile_append_of_pos (by simpa using hi)]
    simp [hx]
  have hopen : (s.frames.any (·.name == name)) = true := by
    have hm : x ∈ s.tags := by simp [h]
    obtain ⟨f, hf, rfl⟩ := List.mem_map.mp hm
    exact List.any_eq_true.mpr ⟨f, hf, beq_iff_eq.mpr hx⟩
  rw [Spine.closeThrough, if_pos hopen, hdepth, Spine.tags_close, h, List.drop_length_add_append]
  rfl

/-! ## Ending styles -/

/-- The newest style of a name leaves the others in force when it is ended. -/
theorem forget_eq {newer older : List ActiveStyle} {a : ActiveStyle}
    (h : (newer ++ a :: older).Pairwise fun a b => b.id < a.id) :
    forget a.id (newer ++ a :: older) = newer ++ older := by
  have hne : ∀ b ∈ newer, ¬(b.id == a.id) = true := by
    intro b hb he
    have hlt := (List.pairwise_append.mp h).2.2 b hb a List.mem_cons_self
    exact absurd (eq_of_beq he) (Nat.ne_of_gt hlt)
  rw [forget, List.eraseP_append_right _ hne, List.eraseP_cons_of_pos (by simp)]

theorem exists_find? {name : String} {a : ActiveStyle} {styles : List ActiveStyle}
    (h : styles.find? (·.name == name) = some a) :
    ∃ newer older, styles = newer ++ a :: older ∧ a.name = name ∧ ages name newer = [] := by
  obtain ⟨ha, newer, older, hs, hnewer⟩ := List.find?_eq_some_iff_append.mp h
  exact ⟨newer, older, hs, eq_of_beq ha,
    ages_eq_nil_iff.mpr fun b hb he => by simpa [he] using hnewer b hb⟩

/-- What the end tag of a style does where no block is open within the newest style of its name. -/
structure Ends (name : String) (c c' : Construction) : Prop where
  tidy : c'.Tidy
  tags : ∃ n, c'.spine.tags = c.spine.tags.drop n
  nextId : c'.nextId = c.nextId
  phase : c'.phase = c.phase
  others : ∀ m, m ≠ name → ages m c'.active = ages m c.active
  ended : ages name c'.active = (ages name c.active).tail ∨
    name ≠ "a" ∧ ages name c'.active = ages name c.active
  spent : (∃ id ∈ held name c, id ∉ held name c') ∨
    ages name c'.active = [] ∧
      ∀ id, (id, name) ∈ c'.spine.tags → ∃ q ∈ c.boundaries, id < q.1

theorem Ends.tags_subset {name : String} (h : Ends name c c') : c'.spine.tags ⊆ c.spine.tags := by
  obtain ⟨n, hn⟩ := h.tags
  rw [hn]
  exact List.drop_subset _ _

theorem Ends.held_subset {name : String} (h : Ends name c c') (m : String) :
    held m c' ⊆ held m c := by
  refine Construction.held_subset ?_ fun _ hid => h.tags_subset hid
  by_cases hm : m = name
  · subst hm
    rcases h.ended with he | ⟨-, he⟩
    · rw [he]
      exact List.tail_subset _
    · rw [he]
      exact List.Subset.refl _
  · rw [h.others m hm]
    exact List.Subset.refl _

theorem Pops.ends (hp : Pops c c') (h : c.Tidy) {name : String}
    (hn : name = "a" → ages name c.active = [])
    (hs : (∃ id ∈ held name c, id ∉ held name c') ∨ ages name c'.active = [] ∧
      ∀ id, (id, name) ∈ c'.spine.tags → ∃ q ∈ c.boundaries, id < q.1) : Ends name c c' := by
  refine ⟨hp.tidy h, hp.tags, hp.nextId, hp.phase, fun m _ => by rw [hp.active], ?_, hs⟩
  rw [hp.active]
  by_cases ha : name = "a"
  · rw [hn ha]
    exact .inl rfl
  · exact .inr ⟨ha, rfl⟩

/-- Ending a style takes it out of force once the element that shows it is closed. -/
theorem ends_forget (h : c.Tidy) {newer older : List ActiveStyle} {a : ActiveStyle}
    (hs : c.active = newer ++ a :: older) (hnewer : ages a.name newer = []) (hp : Pops c c')
    (hclosed : ∀ p ∈ c'.spine.tags, p.1 ≠ a.id) :
    Ends a.name c { c' with active := forget a.id c'.active } := by
  have htidy := hp.tidy h
  have hsorted := h.active
  rw [hs] at hsorted
  have hforget : forget a.id c'.active = newer ++ older := by rw [hp.active, hs, forget_eq hsorted]
  have hages : ages a.name (forget a.id c'.active) = (ages a.name c.active).tail := by
    rw [hforget, hs, ages_append, ages_append, hnewer, ages_cons_of_eq rfl]
    rfl
  have hkept := (sublist_forget a.id c'.active).subset
  refine ⟨⟨?_, htidy.tags, ?_, ?_, ?_, fun b hb d hd => htidy.shown b (hkept hb) d (hkept hd)⟩,
    hp.tags, hp.nextId, hp.phase, fun m hm => ?_, .inl hages, .inl ⟨a.id,
      mem_held.mpr (.inl (mem_ages.mpr ⟨a, by simp [hs], rfl, rfl⟩)), fun hheld => ?_⟩⟩
  · exact htidy.linked.of_subset (List.Subset.refl _) hkept (Nat.le_refl _)
  · exact htidy.active.sublist (sublist_forget _ _)
  · exact fun b hb => htidy.styles b (hkept hb)
  · intro p hm he
    obtain ⟨b, hb, hid⟩ := htidy.links p hm he
    have hba : b ≠ a := fun e => hclosed p hm (by rw [← hid, e])
    rw [hp.active, hs] at hb
    refine ⟨b, ?_, hid⟩
    show b ∈ forget a.id c'.active
    rw [hforget]
    simpa [hba] using hb
  · show ages m (forget a.id c'.active) = _
    rw [hforget, hs, ages_append, ages_append, ages_cons_of_ne (Ne.symm hm)]
  · rcases mem_held.mp hheld with hm | hm
    · have hsub : ages a.name (forget a.id c'.active) ⊆ ages a.name older := by
        rw [hforget, ages_append, hnewer]
        exact List.Subset.refl _
      obtain ⟨b, hb, -, he⟩ := mem_ages.mp (hsub hm)
      have hlt := (List.pairwise_cons.mp (List.pairwise_append.mp hsorted).2.1).1 b hb
      exact absurd he (Nat.ne_of_lt hlt)
    · exact hclosed _ hm rfl

/-- No block is open within the newest style of a name. -/
def Unhindered (c : Construction) (name : String) : Prop :=
  ∀ id ∈ (ages name c.active).head?, ∀ p ∈ c.boundaries, p.1 < id

/-- The end tag of a style that is not in force closes an element of its name, unless a block is open
in each. -/
theorem Tidy.ends_closeInline (h : c.Tidy) {name : String} (hnone : ages name c.active = []) :
    Ends name c (c.closeInline name) := by
  refine (pops_closeInline c name).ends h (fun _ => hnone) ?_
  simp only [closeInline, innermost?_eq, List.find?_map]
  cases hfind : c.spine.tags.find? ((fun n => n == name || isBoundary n) ∘ Prod.snd) with
  | none =>
    refine .inr ⟨hnone, fun id hid => ?_⟩
    have hno := List.find?_eq_none.mp hfind _ hid
    simp at hno
  | some x =>
    obtain ⟨hx, inner, rest, htags, hinner⟩ := List.find?_eq_some_iff_append.mp hfind
    have hne : ∀ p ∈ inner, p.2 ≠ name := by
      intro p hp he
      simpa [he] using hinner p hp
    have hsorted := h.tags
    rw [htags] at hsorted
    have hlt := (List.pairwise_cons.mp (List.pairwise_append.mp hsorted).2.1).1
    simp only [Option.map_some]
    split
    next hn =>
      have hclosed := tags_closeThrough htags hne (eq_of_beq hn)
      refine .inl ⟨x.1, mem_held.mpr (.inr ?_), fun hheld => ?_⟩
      · rw [htags, ← eq_of_beq hn]
        simp
      · rcases mem_held.mp hheld with hm | hm
        · rw [show ages name c.active = [] from hnone] at hm
          cases hm
        · rw [hclosed] at hm
          exact absurd (hlt _ hm) (Nat.lt_irrefl _)
    next hn =>
      refine .inr ⟨hnone, fun id hid => ⟨x, List.mem_filter.mpr ⟨by simp [htags], ?_⟩, ?_⟩⟩
      · simpa [hn] using hx
      · rw [htags] at hid
        rcases List.mem_append.mp hid with hid | hid
        · exact absurd rfl (hne _ hid)
        · rcases List.mem_cons.mp hid with he | hid
          · exact absurd (by rw [← he]; simp) hn
          · exact hlt _ hid

/-- An element of the style at the top that shows no style in force is closed. -/
theorem Tidy.ends_close (h : c.Tidy) {f : Frame} {fs : List Frame} (hf : c.spine.frames = f :: fs)
    (hs : (c.active.any fun a => a.id == f.id) = false) :
    Ends f.name c { c with spine := c.spine.close 1 } := by
  have hforce : ∀ a ∈ c.active, a.id ≠ f.id := by
    intro a ha he
    rw [List.any_eq_false] at hs
    exact hs a ha (beq_iff_eq.mpr he)
  have htags : c.spine.tags = (f.id, f.name) :: fs.map fun g => (g.id, g.name) := by
    rw [Spine.tags, hf]
    rfl
  have hclosed : (c.spine.close 1).tags = fs.map fun g => (g.id, g.name) := by
    rw [Spine.tags_close, htags]
    rfl
  have hlt := h.tags
  rw [htags, List.pairwise_cons] at hlt
  refine (pops_close c 1).ends h (fun ha => ?_) (.inl ⟨f.id, mem_held.mpr (.inr (by simp [htags])),
    fun hheld => ?_⟩)
  · obtain ⟨b, hb, hid⟩ := h.links (f.id, f.name) (by simp [htags]) ha
    exact absurd hid (hforce b hb)
  · rcases mem_held.mp hheld with hm | hm
    · obtain ⟨a, ha, -, he⟩ := mem_ages.mp hm
      exact hforce a ha he
    · rw [show (Spine.close c.spine 1).tags = _ from hclosed] at hm
      exact absurd (hlt.1 _ hm) (Nat.lt_irrefl _)

theorem Tidy.ends_endStyleOnce (h : c.Tidy) {name : String} (hu : c.Unhindered name) :
    (c.endStyleOnce name).2 = false ∧ Ends name c (c.endStyleOnce name).1 := by
  simp only [endStyleOnce]
  split
  next hnone =>
    refine ⟨rfl, h.ends_closeInline (ages_eq_nil_iff.mpr fun b hb he => ?_)⟩
    simpa [he] using List.find?_eq_none.mp hnone b hb
  next a ha =>
    obtain ⟨newer, older, hs, rfl, hnewer⟩ := exists_find? ha
    have hhead : a.id ∈ (ages a.name c.active).head? := by
      rw [hs, ages_append, hnewer, ages_cons_of_eq rfl]
      rfl
    have hframes := takeWhile_append_drop (fun f : Frame => f.id != a.id) c.spine.frames
    split
    next hdrop =>
      refine ⟨rfl, ends_forget h hs hnewer (.refl c) fun p hp he => ?_⟩
      rw [hdrop, List.append_nil] at hframes
      obtain ⟨f, hf, rfl⟩ := List.mem_map.mp hp
      rw [← hframes] at hf
      have hne := List.mem_takeWhile_imp hf
      simp [show f.id = a.id from he] at hne
    next style outer hdrop =>
      have hid := id_of_drop_takeWhile hdrop
      rw [hdrop] at hframes
      generalize c.spine.frames.takeWhile (fun f => f.id != a.id) = within at hframes ⊢
      have htags : c.spine.tags = within.map (fun f => (f.id, f.name))
          ++ (style.id, style.name) :: outer.map fun f => (f.id, f.name) := by
        rw [Spine.tags, ← hframes, List.map_append, List.map_cons]
      have hsorted := h.tags
      rw [htags, List.pairwise_append] at hsorted
      -- what lies within the style is newer than the style, so it is no open block
      have hinline : ∀ f ∈ within.reverse, !isBoundary f.name := by
        intro f hf
        have hm : (f.id, f.name) ∈ within.map fun f => (f.id, f.name) :=
          List.mem_map_of_mem (List.mem_reverse.mp hf)
        have hlt := hsorted.2.2 _ hm _ List.mem_cons_self
        rw [Bool.not_eq_true', ← Bool.not_eq_true]
        intro hb
        have hopen : (f.id, f.name) ∈ c.boundaries :=
          List.mem_filter.mpr ⟨by rw [htags]; exact List.mem_append_left _ hm, hb⟩
        exact absurd (hu _ hhead _ hopen) (Nat.not_lt.mpr (Nat.le_of_lt (hid ▸ hlt)))
      simp only [List.takeWhile_eq_self_iff.mpr hinline, List.reverse_reverse, Nat.sub_self,
        List.take_zero, List.reverse_nil]
      refine ⟨trivial, ends_forget h hs hnewer (pops_close c (within.length + 1)) fun p hp => ?_⟩
      have hdropped : c.spine.tags.drop (within.length + 1) = outer.map fun f => (f.id, f.name) := by
        rw [htags, ← List.length_map (f := fun f : Frame => (f.id, f.name)),
          List.drop_length_add_append]
        rfl
      rw [Spine.tags_close, hdropped] at hp
      exact Nat.ne_of_lt (hid ▸ (List.pairwise_cons.mp hsorted.2.1).1 p hp)

/-- The end tag of a style closes its element and takes it out of force, or closes an element of an
older style of its name that went out of force before. -/
theorem Tidy.ends_endStyle (h : c.Tidy) {name : String} (hu : c.Unhindered name) :
    Ends name c (c.endStyle name) := by
  have hrounds : Ends name c (endStyleRounds 8 c name) := by
    obtain ⟨hflag, hends⟩ := h.ends_endStyleOnce hu
    generalize hc : c.endStyleOnce name = r at hflag hends
    obtain ⟨c', due⟩ := r
    obtain rfl : due = false := hflag
    simpa [endStyleRounds, hc] using hends
  simp only [endStyle]
  split
  next f fs hf =>
    split
    next htop =>
      rw [Bool.and_eq_true, Bool.not_eq_true'] at htop
      exact eq_of_beq htop.1 ▸ h.ends_close hf htop.2
    · exact hrounds
  · exact hrounds

/-- The end tag of the newest style closes the innermost element that shows it. -/
theorem endStyle_own {f : Frame} {fs : List Frame} {a : ActiveStyle} {styles : List ActiveStyle}
    (hf : c.spine.frames = f :: fs) (ha : c.active = a :: styles) (hid : a.id = f.id) :
    c.endStyle a.name = { c with spine := c.spine.close 1, active := styles } := by
  have hany : (c.active.any fun b => b.id == f.id) = true := by simp [ha, hid]
  have honce : c.endStyleOnce a.name
      = ({ c with spine := c.spine.close 1, active := styles }, false) := by
    simp [endStyleOnce, ha, hf, hid, forget]
  simp [endStyle, hf, hany, endStyleRounds, honce]

/-! ## Ending blocks -/

/-- The role of an element that an end tag of its name closes with all that is open in it. -/
def IsBlockRole (r : Role) : Prop :=
  r = .block ∨ r = .paragraph ∨ r = .item

theorem isBoundary_of_isBlockRole {name : String} (hr : IsBlockRole (roleOf name)) :
    isBoundary name = true := by
  rcases hr with hr | hr | hr <;> simp [isBoundary, hr]

theorem ne_link_of_isBlockRole {name : String} (hr : IsBlockRole (roleOf name)) : name ≠ "a" := by
  rintro rfl
  exact absurd (isBoundary_of_isBlockRole hr) (by decide)

theorem eq_li_of_roleOf {name : String} (hr : roleOf name = .item) : name = "li" := by
  unfold roleOf at hr
  split at hr <;> first | (cases hr; done) | rfl

theorem pops_endTag (c : Construction) {name : String} (hr : IsBlockRole (roleOf name)) :
    Pops c (c.endTag name) := by
  rcases hr with hr | hr | hr
  · simp only [endTag, hr]
    exact pops_closeThrough c name
  · simp only [endTag, hr]
    split
    · exact pops_closeParagraph c
    · exact ⟨⟨0, Spine.tags_append _ _⟩, rfl, rfl, rfl⟩
  · simp only [endTag, hr]
    split
    · split
      · exact pops_closeThrough c name
      · exact .refl c
    · exact .refl c

theorem eq_p_of_roleOf {name : String} (hr : roleOf name = .paragraph) : name = "p" := by
  unfold roleOf at hr
  split at hr <;> first | (cases hr; done) | rfl

/-- The end tag of a block closes the block of its name that no block is open in. -/
theorem tags_endTag {name : String} (hr : IsBlockRole (roleOf name))
    {inner rest : List (Nat × String)} {x : Nat × String} (h : c.spine.tags = inner ++ x :: rest)
    (hi : ∀ p ∈ inner, isBoundary p.2 = false) (hx : x.2 = name) :
    (c.endTag name).spine.tags = rest := by
  have hne : ∀ p ∈ inner, p.2 ≠ name := by
    intro p hp he
    have hb := hi p hp
    rw [he, isBoundary_of_isBlockRole hr] at hb
    cases hb
  rcases hr with hr | hr | hr
  · simp only [endTag, hr]
    exact tags_closeThrough h hne hx
  · obtain rfl := eq_p_of_roleOf hr
    have hopen : c.spine.hasOpen "p" = true := by
      have hm : x ∈ c.spine.tags := by simp [h]
      obtain ⟨f, hf, rfl⟩ := List.mem_map.mp hm
      exact List.any_eq_true.mpr ⟨f, hf, beq_iff_eq.mpr hx⟩
    simp only [endTag, hr, hopen]
    exact tags_closeThrough h hne hx
  · obtain rfl := eq_li_of_roleOf hr
    have hinner : ∀ n ∈ inner.map (·.2), ¬(n == "li" || isList n) = true := by
      intro n hn hl
      obtain ⟨p, hp, rfl⟩ := List.mem_map.mp hn
      have hb := hi p hp
      simp only [isList, Bool.or_eq_true, beq_iff_eq, decide_eq_true_eq] at hl
      rcases hl with hl | hl | hl <;> (rw [hl] at hb; cases hb)
    have hfound : c.spine.innermost? (fun n => n == "li" || isList n) = some "li" := by
      rw [innermost?_eq, h, List.map_append, List.map_cons, hx, List.find?_append,
        List.find?_eq_none.mpr hinner]
      rfl
    simp only [endTag, hr, hfound]
    exact tags_closeThrough h hne hx

/-- Behind the end tag of a block no block is open but those that were open before its start tag. -/
theorem boundaries_endTag {name : String} (hr : IsBlockRole (roleOf name))
    {x : Nat × String} {outer : List (Nat × String)} (hx : x.2 = name)
    (h : c.boundaries <:+ x :: outer) : (c.endTag name).boundaries <:+ outer := by
  rcases List.suffix_cons_iff.mp h with he | hs
  · obtain ⟨inner, rest, htags, hinner, -, hrest⟩ := List.filter_eq_cons_iff.mp he
    rw [boundaries, tags_endTag hr htags (fun p hp => by simpa using hinner p hp) hx, hrest]
  · obtain ⟨n, hn⟩ := (pops_endTag c hr).tags
    exact (boundaries_suffix_of_drop hn).trans hs

/-! ## Elements -/

/-- The construction in the body, with no line feed to skip. -/
def entered (c : Construction) : Construction :=
  { c with phase := .within, skipsNewline := false }

theorem Tidy.mode (h : c.Tidy) (phase : Phase) (skipsNewline : Bool) :
    Tidy { c with phase, skipsNewline } :=
  ⟨⟨h.linked.tags, h.linked.active, h.linked.names⟩, h.tags, h.active, h.styles, h.links, h.shown⟩

theorem follows_entered (c : Construction) : Follows c c.entered :=
  ⟨Nat.le_refl _, List.suffix_refl _, fun _ => .refl _ _, Nat.le_refl _, fun _ hp _ => hp,
    fun _ _ => Nat.le_refl _, .inr rfl⟩

/-- What the start tag of a block does: elements are closed, and one is opened. -/
structure StartsBlock (name : String) (c c' : Construction) : Prop where
  tidy : c'.Tidy
  tags : ∃ n, c'.spine.tags = (c.nextId, name) :: c.spine.tags.drop n
  active : c'.active = c.active
  nextId : c'.nextId = c.nextId + 1
  phase : c'.phase = c.phase

theorem Pops.startsBlock {d : Construction} (hp : Pops c d) (h : c.Tidy) {name : String}
    (hn : name ≠ "a") (attrs : Attrs) : StartsBlock name c (d.openElement name attrs) := by
  obtain ⟨n, htags⟩ := hp.tags
  have hopen : (d.openElement name attrs).spine.tags = (d.nextId, name) :: d.spine.tags := rfl
  refine ⟨(hp.tidy h).openElement hn attrs, ⟨n, ?_⟩, hp.active, ?_, hp.phase⟩
  · rw [hopen, hp.nextId, htags]
  · exact congrArg (· + 1) hp.nextId

theorem Tidy.startTag_block (h : c.Tidy) {name : String} (hr : IsBlockRole (roleOf name))
    (attrs : Attrs) : StartsBlock name c (c.startTag name attrs) := by
  have hn := ne_link_of_isBlockRole hr
  rcases hr with hr | hr | hr
  · have hb := (pops_closeParagraph c).startsBlock h hn attrs
    simp only [startTag, hr]
    exact ⟨hb.tidy.mode _ _, hb.tags, hb.active, hb.nextId, hb.phase⟩
  · simp only [startTag, hr]
    exact (pops_closeParagraph c).startsBlock h hn attrs
  · simp only [startTag, hr]
    exact ((pops_closeItem c).trans (pops_closeParagraph _)).startsBlock h hn attrs

theorem StartsBlock.boundaries {name : String} (h : StartsBlock name c c')
    (hb : isBoundary name = true) :
    ∃ outer, c'.boundaries = (c.nextId, name) :: outer ∧ outer <:+ c.boundaries := by
  obtain ⟨n, hn⟩ := h.tags
  refine ⟨(c.spine.tags.drop n).filter fun p => isBoundary p.2, ?_, (List.drop_suffix n _).filter _⟩
  rw [Construction.boundaries, hn, List.filter_cons_of_pos (by simpa using hb)]

theorem StartsBlock.mem_tags {name : String} (h : StartsBlock name c c') {p : Nat × String}
    (hp : p ∈ c'.spine.tags) : p = (c.nextId, name) ∨ p ∈ c.spine.tags := by
  obtain ⟨n, hn⟩ := h.tags
  rw [hn] at hp
  exact (List.mem_cons.mp hp).imp_right List.mem_of_mem_drop

/-- A block leaves no block open that was not open before it, and every style as its content did. -/
theorem Tidy.follows_block (h : c.Tidy) {name : String} (hr : IsBlockRole (roleOf name))
    {attrs : Attrs} (ht : c'.Tidy) (hf : Follows (c.startTag name attrs) c') :
    (c'.endTag name).Tidy ∧ Follows c (c'.endTag name) := by
  have hstart := h.startTag_block hr attrs
  generalize c.startTag name attrs = o at hf hstart
  obtain ⟨outer, hb, houter⟩ := hstart.boundaries (isBoundary_of_isBlockRole hr)
  have hn : c.nextId ≤ o.nextId := hstart.nextId ▸ Nat.le_succ _
  have hpops := pops_endTag c' hr
  refine ⟨hpops.tidy ht, ?_, ?_, fun m => ?_, ?_, fun p hp hlt => ?_, fun m hm => ?_, ?_⟩
  · rw [hpops.nextId]
    exact Nat.le_trans hn hf.nextId
  · exact (boundaries_endTag hr rfl (hb ▸ hf.boundaries)).trans houter
  · rw [hpops.active, ← hstart.active]
    exact (hf.newer m).mono hn
  · rw [hpops.active, ← hstart.active]
    exact hf.links
  · have hold := hf.old p (hpops.tags_subset hp) (Nat.lt_of_lt_of_le hlt hn)
    refine (hstart.mem_tags hold).resolve_left ?_
    rintro rfl
    exact Nat.lt_irrefl _ hlt
  · have hstyle : name ≠ m := by
      rintro rfl
      rw [hm] at hr
      rcases hr with hr | hr | hr <;> cases hr
    have hopened : held m o ⊆ held m c := by
      refine held_subset (by rw [hstart.active]; exact List.Subset.refl _) fun id hid => ?_
      exact (hstart.mem_tags hid).resolve_left fun he => hstyle (congrArg Prod.snd he).symm
    exact ((hpops.follows.held m hm).trans (hf.held m hm)).trans (Finset.card_le_card hopened)
  · rw [hpops.phase, ← hstart.phase]
    exact hf.phase

theorem Opens.resumed {name : String} {attrs : Attrs} (ho : Opens c name attrs) (h : c.Tidy) :
    Opens c.resumeStyles name attrs := by
  refine ⟨ho.tag, fun ha => ?_⟩
  have hle := h.follows_resumeStyles.2.links
  rw [ho.link ha] at hle
  exact List.eq_nil_of_length_eq_zero (Nat.le_zero.mp hle)

/-- What the start tag of a style does where every style in force is shown: an element is opened and
the style comes into force, in place of the oldest of its name if there are too many. -/
structure StartsStyle (name : String) (c c' : Construction) : Prop where
  tags : c'.spine.tags = (c.nextId, name) :: c.spine.tags
  nextId : c'.nextId = c.nextId + 1
  boundaries : c'.boundaries = c.boundaries
  phase : c'.phase = c.phase
  own : ∃ kept, kept <+: ages name c.active ∧ ages name c'.active = c.nextId :: kept
  others : ∀ m, m ≠ name → ages m c'.active = ages m c.active

theorem Opens.startsStyle {name : String} {attrs : Attrs} (ho : Opens c name attrs) (h : c.Tidy) :
    StartsStyle name c (c.openStyle name attrs) := by
  obtain ⟨-, hprefix, hothers⟩ := ho.ages_keptFor h c.nextId
  refine ⟨rfl, rfl, boundaries_openElement c ho.tag.inline attrs, rfl, ⟨_, hprefix, ?_⟩,
    fun m hm => ?_⟩
  · exact ages_cons_of_eq (a := ⟨c.nextId, name, attrs⟩) rfl _
  · exact (ages_cons_of_ne (Ne.symm hm) _).trans (hothers m hm)

namespace StartsStyle

variable {name : String} {o e : Construction}

theorem le_nextId (h : StartsStyle name c o) : c.nextId ≤ o.nextId :=
  h.nextId ▸ Nat.le_succ _

/-- The start tag holds the style once more. -/
theorem card_held (h : StartsStyle name c o) : (held name o).card ≤ (held name c).card + 1 := by
  obtain ⟨kept, hprefix, hages⟩ := h.own
  have hsub : held name o ⊆ insert c.nextId (held name c) := by
    intro id hid
    rw [mem_held, hages, h.tags, List.mem_cons, List.mem_cons, Prod.mk.injEq] at hid
    rw [Finset.mem_insert, mem_held]
    have hkept := hprefix.subset (a := id)
    tauto
  exact (Finset.card_le_card hsub).trans (Finset.card_insert_le _ _)

theorem held_subset (h : StartsStyle name c o) {m : String} (hm : m ≠ name) :
    held m o ⊆ held m c := by
  refine Construction.held_subset ?_ fun id hid => ?_
  · rw [h.others m hm]
    exact List.Subset.refl _
  · rw [h.tags] at hid
    exact (List.mem_cons.mp hid).resolve_left fun he => hm (congrArg Prod.snd he)

theorem newer (h : StartsStyle name c o) (hf : Follows o c') (m : String) :
    Newer c.nextId (ages m o.active) (ages m c'.active) :=
  (hf.newer m).mono h.le_nextId

theorem suffix_boundaries (h : StartsStyle name c o) (hf : Follows o c') :
    c'.boundaries <:+ c.boundaries :=
  h.boundaries ▸ hf.boundaries

theorem old (h : StartsStyle name c o) (hf : Follows o c') {p : Nat × String}
    (hp : p ∈ c'.spine.tags) (hlt : p.1 < c.nextId) : p ∈ c.spine.tags := by
  have hm := hf.old p hp (Nat.lt_of_lt_of_le hlt h.le_nextId)
  rw [h.tags] at hm
  refine (List.mem_cons.mp hm).resolve_left ?_
  rintro rfl
  exact Nat.lt_irrefl _ hlt

/-- Behind tokens that nest no block is open that was opened after the start tag. -/
theorem boundaries_lt (h : StartsStyle name c o) (hc : c.Tidy) (hf : Follows o c')
    {p : Nat × String} (hp : p ∈ c'.boundaries) : p.1 < c.nextId :=
  hc.linked.tags p (List.mem_filter.mp ((h.suffix_boundaries hf).subset hp)).1

/-- Behind tokens that nest no block is open in the newest style of the name. -/
theorem unhindered (h : StartsStyle name c o) (hc : c.Tidy) (hf : Follows o c') :
    c'.Unhindered name := by
  obtain ⟨kept, -, hages⟩ := h.own
  have hown := h.newer hf name
  rw [hages] at hown
  intro x hx p hp
  cases hleft : ages name c'.active with
  | nil =>
    rw [hleft] at hx
    cases hx
  | cons y rest =>
    rw [hleft] at hx hown
    obtain rfl : y = x := Option.some.inj hx
    exact Nat.lt_of_lt_of_le (h.boundaries_lt hc hf hp) (hown.le_head (Nat.le_refl _))

/-- Behind its end tag the style is held as often as before its start tag at most. -/
theorem card_held_le (h : StartsStyle name c o) (hc : c.Tidy) (hf : Follows o c')
    (he : Ends name c' e) (hr : roleOf name = .style) :
    (held name e).card ≤ (held name c).card := by
  rcases he.spent with ⟨id, hid, hnot⟩ | ⟨hnone, hleft⟩
  · have hlt := Finset.card_lt_card
      ((Finset.ssubset_iff_of_subset (he.held_subset name)).mpr ⟨id, hid, hnot⟩)
    have hopened := h.card_held
    have hcontent := hf.held name hr
    omega
  · refine Finset.card_le_card fun id hid => ?_
    have hin : (id, name) ∈ e.spine.tags :=
      (mem_held.mp hid).resolve_left (by rw [hnone]; exact List.not_mem_nil)
    obtain ⟨q, hq, hlt⟩ := hleft id hin
    exact mem_held.mpr (.inr
      (h.old hf (he.tags_subset hin) (Nat.lt_trans hlt (h.boundaries_lt hc hf hq))))

/-- Behind the end tag no more links are in force than before the start tag. -/
theorem links_le (h : StartsStyle name c o) (hf : Follows o c') (he : Ends name c' e)
    (hlink : name = "a" → ages "a" c.active = []) :
    (ages "a" e.active).length ≤ (ages "a" c.active).length := by
  have hlinks := hf.links
  by_cases ha : name = "a"
  · subst ha
    obtain ⟨kept, hprefix, hages⟩ := h.own
    rw [hlink rfl] at hprefix
    rw [hages, List.prefix_nil.mp hprefix] at hlinks
    rcases he.ended with htail | ⟨hne, -⟩
    · rw [htail, List.length_tail]
      exact Nat.le_trans (Nat.sub_le_of_le_add hlinks) (Nat.zero_le _)
    · exact absurd rfl hne
  · rw [he.others "a" (Ne.symm ha)]
    rwa [h.others "a" (Ne.symm ha)] at hlinks

/-- A start tag, tokens that nest, and the end tag leave what was in force and what was open. -/
theorem follows (h : StartsStyle name c o) (hc : c.Tidy)
    (hlink : name = "a" → ages "a" c.active = []) (hf : Follows o c') (he : Ends name c' e) :
    Follows c e := by
  obtain ⟨n, hn⟩ := he.tags
  refine ⟨?_, ?_, fun m => ?_, h.links_le hf he hlink, fun p hp => h.old hf (he.tags_subset hp),
    fun m hm => ?_, ?_⟩
  · rw [he.nextId]
    exact Nat.le_trans h.le_nextId hf.nextId
  · exact (boundaries_suffix_of_drop hn).trans (h.suffix_boundaries hf)
  · by_cases hm : m = name
    · subst hm
      obtain ⟨kept, hprefix, hages⟩ := h.own
      have hown := h.newer hf m
      rw [hages] at hown
      refine (Newer.of_prefix hprefix).trans (Nat.le_refl _) ?_
      rcases he.ended with htail | ⟨-, hsame⟩
      · rw [htail]
        exact hown.tail (Nat.le_refl _)
      · rw [hsame]
        exact hown.of_cons (Nat.le_refl _)
    · rw [he.others m hm, ← h.others m hm]
      exact h.newer hf m
  · by_cases hmn : m = name
    · subst hmn
      exact h.card_held_le hc hf he hm
    · exact ((Finset.card_le_card (he.held_subset m)).trans (hf.held m hm)).trans
        (Finset.card_le_card (h.held_subset hmn))
  · rw [he.phase, ← h.phase]
    exact hf.phase

end StartsStyle

/-- A style leaves no style of its name in force that was not in force before it, but for one whose
end tag closed an older element instead. -/
theorem Tidy.follows_style (h : c.Tidy) {name : String} {attrs : Attrs} (ho : Opens c name attrs)
    (ht : c'.Tidy) (hf : Follows (c.resumeStyles.openStyle name attrs) c') :
    (c'.endStyle name).Tidy ∧ Follows c (c'.endStyle name) := by
  obtain ⟨hresumed, hresume⟩ := h.follows_resumeStyles
  have hopens := ho.resumed h
  have hstart := hopens.startsStyle hresumed
  have hends := ht.ends_endStyle (hstart.unhindered hresumed hf)
  exact ⟨hends.tidy, hresume.trans (hstart.follows hresumed hopens.link hf hends)⟩

/-- Any other element leaves everything as its content did. -/
theorem Tidy.follows_ordinary (h : c.Tidy) {name : String} (hn : roleOf name = .ordinary)
    {attrs : Attrs} (hf : Follows (c.resumeStyles.openElement name attrs) c') :
    Follows c (c'.closeInline name) := by
  have hresume := h.follows_resumeStyles.2
  have htags : (c.resumeStyles.openElement name attrs).spine.tags
      = (c.resumeStyles.nextId, name) :: c.resumeStyles.spine.tags := rfl
  have hopen : Follows c.resumeStyles (c.resumeStyles.openElement name attrs) := by
    refine ⟨Nat.le_succ _, ?_, fun _ => .refl _ _, Nat.le_refl _, fun p hp hlt => ?_, fun m hm => ?_,
      .inl rfl⟩
    · rw [boundaries_openElement _ (by simp [isBoundary, hn])]
    · refine (List.mem_cons.mp hp).resolve_left ?_
      rintro rfl
      exact Nat.lt_irrefl _ hlt
    · refine Finset.card_le_card (held_subset (List.Subset.refl _) fun id hid => ?_)
      rw [htags] at hid
      refine (List.mem_cons.mp hid).resolve_left fun he => ?_
      rw [(Prod.mk.inj he).2, hn] at hm
      cases hm
  exact ((hresume.trans hopen).trans hf).trans (pops_closeInline c' name).follows

/-! ## Tokens -/

theorem token_startTag (hb : c.phase ≠ .behind) {name : String} (hn : name ≠ "html")
    (attrs : Attrs) : c.token (.startTag name attrs) = c.entered.startTag name attrs := by
  obtain ⟨phase, spine, active, nextId, skips⟩ := c
  cases phase with
  | before => simp [token, opensBody, hn, bodyToken, entered]
  | within => simp [token, Token.isChar, bodyToken, entered]
  | behind => exact absurd rfl hb

theorem token_endTag (hw : c.phase = .within) (name : String) :
    c.token (.endTag name) = c.entered.endTag name := by
  obtain ⟨phase, spine, active, nextId, skips⟩ := c
  obtain rfl : phase = .within := hw
  simp [token, Token.isChar, bodyToken, entered]

/-- A character is shown in the styles in force, unless it leaves no trace. -/
theorem token_char (hb : c.phase ≠ .behind) (x : Char) :
    c.token (.char x) = { c with skipsNewline := false } ∨
      c.token (.char x) = { c.entered.resumeStyles with
        spine := c.entered.resumeStyles.spine.appendChar x } := by
  obtain ⟨phase, spine, active, nextId, skips⟩ := c
  cases phase with
  | before =>
    simp only [token]
    split
    · exact .inr rfl
    · exact .inl rfl
  | within =>
    simp only [token]
    split
    · exact .inl rfl
    · exact .inr rfl
  | behind => exact absurd rfl hb

theorem follows_mode (c : Construction) (skipsNewline : Bool) :
    Follows c { c with skipsNewline } :=
  Pops.follows ⟨⟨0, rfl⟩, rfl, rfl, rfl⟩

theorem Tidy.follows_char (h : c.Tidy) (hb : c.phase ≠ .behind) (x : Char) :
    (c.token (.char x)).Tidy ∧ Follows c (c.token (.char x)) := by
  rcases token_char hb x with he | he
  · rw [he]
    exact ⟨h.mode _ _, follows_mode c _⟩
  · obtain ⟨ht, hf⟩ := (h.mode .within false).follows_resumeStyles
    have hpops : Pops c.entered.resumeStyles { c.entered.resumeStyles with
        spine := c.entered.resumeStyles.spine.appendChar x } :=
      ⟨⟨0, Spine.tags_appendChar _ _⟩, rfl, rfl, rfl⟩
    rw [he]
    exact ⟨hpops.tidy ht, ((follows_entered c).trans hf).trans hpops.follows⟩

theorem token_null (hb : c.phase ≠ .behind) :
    c.token .null = { c with skipsNewline := false } ∨ c.token .null = c.entered := by
  obtain ⟨phase, spine, active, nextId, skips⟩ := c
  cases phase with
  | before => exact .inr rfl
  | within => exact .inl (by simp [token, Token.isChar, bodyToken])
  | behind => exact absurd rfl hb

theorem Tidy.follows_null (h : c.Tidy) (hb : c.phase ≠ .behind) :
    (c.token .null).Tidy ∧ Follows c (c.token .null) := by
  rcases token_null hb with he | he
  · rw [he]
    exact ⟨h.mode _ _, follows_mode c _⟩
  · rw [he]
    exact ⟨h.mode _ _, follows_entered c⟩

theorem Tidy.follows_lineBreak (h : c.Tidy) (hb : c.phase ≠ .behind) :
    (c.token (.startTag "br" [])).Tidy ∧ Follows c (c.token (.startTag "br" [])) := by
  obtain ⟨ht, hf⟩ := (h.mode .within false).follows_resumeStyles
  have he : c.token (.startTag "br" []) = { c.entered.resumeStyles with
      spine := c.entered.resumeStyles.spine.append [.element "br" [] []] } :=
    token_startTag hb (by decide) []
  have hpops : Pops c.entered.resumeStyles { c.entered.resumeStyles with
      spine := c.entered.resumeStyles.spine.append [.element "br" [] []] } :=
    ⟨⟨0, Spine.tags_append _ _⟩, rfl, rfl, rfl⟩
  rw [he]
  exact ⟨hpops.tidy ht, ((follows_entered c).trans hf).trans hpops.follows⟩

theorem Follows.ne_behind (h : Follows c c') (hb : c.phase ≠ .behind) : c'.phase ≠ .behind := by
  rcases h.phase with he | he
  · rwa [he]
  · rw [he]
    decide

theorem Follows.within (h : Follows c c') (hw : c.phase = .within) : c'.phase = .within := by
  rcases h.phase with he | he
  · rwa [he]
  · exact he

end Construction

open Construction (Tidy Follows IsBlockRole)

/-- The kinds of elements by what their tags do. -/
theorem role_of_mem_writtenNames {name : String} (h : name ∈ Markup.writtenNames) :
    name ≠ "html" ∧
      (IsBlockRole (roleOf name) ∨ roleOf name = .style ∨ name = "a" ∨ roleOf name = .ordinary) := by
  simp only [Markup.writtenNames, List.mem_cons, List.not_mem_nil, or_false] at h
  unfold IsBlockRole
  rcases h with rfl | rfl | rfl | rfl | rfl | rfl | rfl | rfl | rfl | rfl | rfl | rfl | rfl | rfl | rfl
    <;> decide

theorem isBoundary_of_roleOf {name : String} (h : roleOf name = .style ∨ roleOf name = .ordinary) :
    isBoundary name = false := by
  rcases h with h | h <;> simp [isBoundary, h]

theorem Construction.Follows.ages_link {c c' : Construction} (h : Follows c c')
    (hc : ages "a" c.active = []) : ages "a" c'.active = [] := by
  have hle := h.links
  rw [hc] at hle
  exact List.eq_nil_of_length_eq_zero (Nat.le_zero.mp hle)

/-- Where no link is in force, the start tag of a link ends none. -/
theorem Construction.startTag_link {c : Construction} (h : ages "a" c.active = []) (attrs : Attrs) :
    c.startTag "a" attrs = c.resumeStyles.openStyle "a" attrs := by
  have hend : c.endLink = c := by
    have hfind : c.active.find? (·.name == "a") = none :=
      List.find?_eq_none.mpr fun a ha he => ages_eq_nil_iff.mp h a ha (eq_of_beq he)
    simp only [endLink, hfind]
  show c.endLink.resumeStyles.openStyle "a" attrs = _
  rw [hend]

theorem Construction.StyleTag.endTag {name : String} {attrs : Attrs}
    (h : Construction.StyleTag name attrs) (c : Construction) : c.endTag name = c.endStyle name := by
  rcases h.role with hr | rfl
  · simp only [Construction.endTag, hr]
  · rfl

theorem Construction.endTag_ordinary {name : String} (hr : roleOf name = .ordinary)
    (c : Construction) : c.endTag name = c.closeInline name := by
  simp only [Construction.endTag, hr]

/-- What the start tag of an element does: it starts a block, or behind the styles that are shown
again it opens a style or another element. -/
theorem ElementTag.startTag_cases {blocks inLink : Bool} {name : String} {attrs : Attrs}
    (he : ElementTag blocks inLink name attrs) {c : Construction} (hb : c.phase ≠ .behind)
    (hl : inLink = false → ages "a" c.active = []) :
    (IsBlockRole (roleOf name) ∧ c.token (.startTag name attrs) = c.entered.startTag name attrs) ∨
      (c.entered.Opens name attrs ∧
        c.token (.startTag name attrs) = c.entered.resumeStyles.openStyle name attrs) ∨
      (roleOf name = .ordinary ∧ name ≠ "a" ∧
        c.token (.startTag name attrs) = c.entered.resumeStyles.openElement name attrs) := by
  obtain ⟨hhtml, hrole⟩ := role_of_mem_writtenNames he.written
  rw [Construction.token_startTag hb hhtml]
  rcases hrole with hr | hr | rfl | hr
  · exact .inl ⟨hr, rfl⟩
  · have hne : name ≠ "a" := by
      rintro rfl
      cases hr
    refine .inr (.inl ⟨⟨⟨.inl hr, fun _ => he.style hr⟩, fun ha => absurd ha hne⟩, ?_⟩)
    simp only [Construction.startTag, hr]
  · have hnone : ages "a" c.entered.active = [] := hl (he.link rfl)
    exact .inr (.inl ⟨⟨⟨.inr rfl, fun h => absurd rfl h⟩, fun _ => hnone⟩,
      Construction.startTag_link hnone attrs⟩)
  · have hne : name ≠ "a" := by
      rintro rfl
      cases hr
    refine .inr (.inr ⟨hr, hne, ?_⟩)
    simp only [Construction.startTag, hr]

/-- The tags of an element leave the construction tidy if the tokens between them do. -/
theorem ElementTag.follows {blocks inLink : Bool} {name : String} {attrs : Attrs}
    (he : ElementTag blocks inLink name attrs) {c : Construction} (hc : c.Tidy) (hb : c.phase ≠ .behind)
    (hl : inLink = false → ages "a" c.active = []) {content : List Token}
    (hcontent : ∀ {d : Construction}, d.Tidy → d.phase ≠ .behind →
      ((inLink || name == "a") = false → ages "a" d.active = []) →
        (content.foldl Construction.token d).Tidy ∧
          Follows d (content.foldl Construction.token d)) :
    let c' := (content.foldl Construction.token (c.token (.startTag name attrs))).token (.endTag name)
    c'.Tidy ∧ Follows c c' := by
  have hcases := he.startTag_cases hb hl
  have hafter := Construction.follows_entered c
  have hentered : c.entered.Tidy := hc.mode .within false
  have hwithin : c.entered.phase = .within := rfl
  have hlink : inLink = false → ages "a" c.entered.active = [] := hl
  generalize c.entered = e at hcases hentered hwithin hlink hafter
  -- what the tokens between the tags do, from any construction that the start tag may lead to
  have hbetween : ∀ d : Construction, d.Tidy → d.phase = .within →
      ((inLink || name == "a") = false → ages "a" d.active = []) →
        ∃ d' : Construction, d'.Tidy ∧ Follows d d' ∧
          (content.foldl Construction.token d).token (.endTag name) = d'.endTag name := by
    intro d hd hdw hda
    have hdb : d.phase ≠ .behind := by
      rw [hdw]
      decide
    obtain ⟨ht, hf⟩ := hcontent hd hdb hda
    refine ⟨_, ht.mode .within false, hf.trans (Construction.follows_entered _), ?_⟩
    exact Construction.token_endTag (hf.within hdw) name
  obtain ⟨hresumed, hshown, hresume⟩ := hentered.resumeStyles
  rcases hcases with ⟨hr, hstart⟩ | ⟨ho, hstart⟩ | ⟨hr, hne, hstart⟩
  · have hblock := hentered.startTag_block hr attrs
    obtain ⟨d, hd, hf, hend⟩ := hbetween _ hblock.tidy (hblock.phase.trans hwithin) fun h => by
      rw [hblock.active]
      exact hlink (Bool.or_eq_false_iff.mp h).1
    obtain ⟨ht, hf'⟩ := hentered.follows_block hr hd hf
    rw [hstart, hend]
    exact ⟨ht, hafter.trans hf'⟩
  · have hod := ho.resumed hentered
    obtain ⟨d, hd, hf, hend⟩ := hbetween (e.resumeStyles.openStyle name attrs)
      (hod.tidy hresumed hshown) (hresume.within hwithin) fun h => by
        rw [Bool.or_eq_false_iff, beq_eq_false_iff_ne] at h
        rw [hod.ages_link hresumed h.2]
        exact hresume.ages_link (hlink h.1)
    obtain ⟨ht, hf'⟩ := hentered.follows_style ho hd hf
    rw [hstart, hend, ho.tag.endTag]
    exact ⟨ht, hafter.trans hf'⟩
  · obtain ⟨d, hd, hf, hend⟩ := hbetween (e.resumeStyles.openElement name attrs)
      (hresumed.openElement hne attrs) (hresume.within hwithin)
      fun h => hresume.ages_link (hlink (Bool.or_eq_false_iff.mp h).1)
    rw [hstart, hend, Construction.endTag_ordinary hr]
    exact ⟨(Construction.pops_closeInline d name).tidy hd,
      hafter.trans (hentered.follows_ordinary hr hf)⟩

/-- Nested tokens leave the construction tidy, and what is open as it was. -/
theorem Nested.follows {blocks inLink : Bool} {ts : List Token} (h : Nested blocks inLink ts)
    {c : Construction} (hc : c.Tidy) (hb : c.phase ≠ .behind) (hl : inLink = false → ages "a" c.active = []) :
    (ts.foldl Construction.token c).Tidy ∧ Follows c (ts.foldl Construction.token c) := by
  induction h generalizing c with
  | nil => exact ⟨hc, .refl c⟩
  | char x _ ih =>
    obtain ⟨ht, hf⟩ := hc.follows_char hb x
    obtain ⟨ht', hf'⟩ := ih ht (hf.ne_behind hb) fun h => hf.ages_link (hl h)
    exact ⟨ht', hf.trans hf'⟩
  | null _ ih =>
    obtain ⟨ht, hf⟩ := hc.follows_null hb
    obtain ⟨ht', hf'⟩ := ih ht (hf.ne_behind hb) fun h => hf.ages_link (hl h)
    exact ⟨ht', hf.trans hf'⟩
  | lineBreak _ ih =>
    obtain ⟨ht, hf⟩ := hc.follows_lineBreak hb
    obtain ⟨ht', hf'⟩ := ih ht (hf.ne_behind hb) fun h => hf.ages_link (hl h)
    exact ⟨ht', hf.trans hf'⟩
  | element he _ _ ihc ih =>
    obtain ⟨ht, hf⟩ := he.follows hc hb hl ihc
    obtain ⟨ht', hf'⟩ := ih ht (hf.ne_behind hb) fun h => hf.ages_link (hl h)
    rw [List.foldl_append]
    exact ⟨ht', hf.trans hf'⟩

end MessageLayout.Html
