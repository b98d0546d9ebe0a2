import Mathlib.Data.Finset.Card
import Mathlib.Data.List.TakeWhile
import MessageLayout.Proofs.LinkedStyles

/-!
# Open elements and styles in force

An element of a fragment is closed at its end tag or before it. Styles are the exception, since they
go on behind a block that ends within them. `Follows` says what nested tokens leave as it was: no
block is open behind them that was not open before, and of each style no more is held, in force or
by an open element. Closing elements, opening them and showing styles again is all in order.

    Tidy c → Pops c c' → Tidy c', Follows c c'                           (Pops.tidy, Pops.follows)
    Tidy c → Tidy c.resumeStyles, Follows c c.resumeStyles               (Tidy.follows_resumeStyles)
-/

namespace MessageLayout.Html

/-! ## Numbers of styles -/

/-- The second list of numbers comes from the first: numbers at its end were dropped, some were
replaced by greater ones, and numbers from `first` on were put in. -/
inductive Newer (first : Nat) : List Nat → List Nat → Prop
  | nil (old : List Nat) : Newer first old []
  | fresh {x : Nat} {old new : List Nat} :
      first ≤ x → Newer first old new → Newer first old (x :: new)
  | kept {x y : Nat} {old new : List Nat} :
      y ≤ x → Newer first old new → Newer first (y :: old) (x :: new)

namespace Newer

variable {first first' x y : Nat} {old new newest : List Nat}

theorem refl (first : Nat) : ∀ l : List Nat, Newer first l l
  | [] => nil []
  | x :: l => kept (Nat.le_refl x) (refl first l)

theorem trans (hle : first ≤ first') (h : Newer first old new) (h' : Newer first' new newest) :
    Newer first old newest := by
  induction h' generalizing old with
  | nil => exact nil old
  | fresh hx _ ih => exact fresh (Nat.le_trans hle hx) (ih h)
  | kept hyx _ ih =>
    cases h with
    | fresh hy h => exact fresh (Nat.le_trans hy hyx) (ih h)
    | kept hzy h => exact kept (Nat.le_trans hzy hyx) (ih h)

theorem mono (hle : first ≤ first') (h : Newer first' old new) : Newer first old new :=
  trans hle (refl first old) h

/-- A number from `first` on is as good as put in. -/
theorem of_cons (hy : first ≤ y) (h : Newer first (y :: old) new) : Newer first old new := by
  generalize hl : y :: old = l at h
  induction h with
  | nil => exact nil old
  | fresh hx _ ih => exact fresh hx (ih hl)
  | kept hyx h =>
    obtain ⟨rfl, rfl⟩ := List.cons.inj hl
    exact fresh (Nat.le_trans hy hyx) h

theorem tail (hy : first ≤ y) (h : Newer first (y :: old) new) : Newer first old new.tail := by
  cases h with
  | nil => exact nil old
  | fresh _ h => exact of_cons hy h
  | kept _ h => exact h

theorem le_head (hy : first ≤ y) (h : Newer first (y :: old) (x :: new)) : first ≤ x := by
  cases h with
  | fresh hx _ => exact hx
  | kept hyx _ => exact Nat.le_trans hy hyx

theorem append (l : List Nat) (h : Newer first old new) : Newer first (l ++ old) (l ++ new) := by
  induction l with
  | nil => exact h
  | cons x l ih => exact kept (Nat.le_refl x) ih

theorem of_prefix (h : new <+: old) : Newer first old new := by
  obtain ⟨rest, rfl⟩ := h
  induction new with
  | nil => exact nil rest
  | cons x new ih => exact kept (Nat.le_refl x) ih

end Newer

/-- The numbers of the styles of a name, newest first. -/
def ages (name : String) (styles : List ActiveStyle) : List Nat :=
  (styles.filter (·.name == name)).map (·.id)

theorem ages_append (name : String) (l l' : List ActiveStyle) :
    ages name (l ++ l') = ages name l ++ ages name l' := by
  simp [ages]

theorem ages_cons_of_eq {name : String} {a : ActiveStyle} (h : a.name = name)
    (l : List ActiveStyle) : ages name (a :: l) = a.id :: ages name l := by
  simp [ages, h]

theorem ages_cons_of_ne {name : String} {a : ActiveStyle} (h : a.name ≠ name)
    (l : List ActiveStyle) : ages name (a :: l) = ages name l := by
  simp [ages, h]

theorem ages_eq_nil_iff {name : String} {l : List ActiveStyle} :
    ages name l = [] ↔ ∀ a ∈ l, a.name ≠ name := by
  simp [ages]

theorem mem_ages {name : String} {l : List ActiveStyle} {id : Nat} :
    id ∈ ages name l ↔ ∃ a ∈ l, a.name = name ∧ a.id = id := by
  simp [ages, and_assoc]

namespace Construction

/-- The open elements that bound the effect of end tags, innermost first. -/
def boundaries (c : Construction) : List (Nat × String) :=
  c.spine.tags.filter fun p => isBoundary p.2

/-- The numbers of the styles of a name in force and of the open elements of the name. -/
def held (name : String) (c : Construction) : Finset Nat :=
  (ages name c.active).toFinset ∪ ((c.spine.tags.filter (·.2 == name)).map (·.1)).toFinset

theorem mem_held {name : String} {c : Construction} {id : Nat} :
    id ∈ held name c ↔ id ∈ ages name c.active ∨ (id, name) ∈ c.spine.tags := by
  simp [held]

theorem held_subset {name : String} {c c' : Construction}
    (ha : ages name c'.active ⊆ ages name c.active)
    (ht : ∀ id, (id, name) ∈ c'.spine.tags → (id, name) ∈ c.spine.tags) :
    held name c' ⊆ held name c := fun id hid =>
  mem_held.mpr ((mem_held.mp hid).imp (ha ·) (ht id))

/-- The tag of a style or a link. Styles have no attributes. -/
structure StyleTag (name : String) (attrs : Attrs) : Prop where
  role : roleOf name = .style ∨ name = "a"
  attrs : name ≠ "a" → attrs = []

theorem StyleTag.inline {name : String} {attrs : Attrs} (h : StyleTag name attrs) :
    isBoundary name = false := by
  rcases h.role with hr | rfl
  · simp [isBoundary, hr]
  · decide

/-- A construction that nested tokens lead to. -/
structure Tidy (c : Construction) : Prop where
  linked : c.Linked
  tags : c.spine.tags.Pairwise fun p q => q.1 < p.1
  active : c.active.Pairwise fun a b => b.id < a.id
  styles : ∀ a ∈ c.active, StyleTag a.name a.attrs
  links : ∀ p ∈ c.spine.tags, p.2 = "a" → ∃ a ∈ c.active, a.id = p.1
  shown : ∀ a ∈ c.active, ∀ b ∈ c.active, b.id < a.id → c.shows a = true → c.shows b = true

/-- What nested tokens between two constructions leave as it was. -/
structure Follows (c c' : Construction) : Prop where
  nextId : c.nextId ≤ c'.nextId
  boundaries : c'.boundaries <:+ c.boundaries
  newer : ∀ name, Newer c.nextId (ages name c.active) (ages name c'.active)
  links : (ages "a" c'.active).length ≤ (ages "a" c.active).length
  old : ∀ p ∈ c'.spine.tags, p.1 < c.nextId → p ∈ c.spine.tags
  held : ∀ name, roleOf name = .style → (held name c').card ≤ (held name c).card
  phase : c'.phase = c.phase ∨ c'.phase = .within

variable {c c' c'' : Construction}

/-- Every style in force is shown. -/
def AllShown (c : Construction) : Prop :=
  ∀ a ∈ c.active, c.shows a = true

theorem shows_iff {a : ActiveStyle} : c.shows a = true ↔ ∃ p ∈ c.spine.tags, p.1 = a.id := by
  simp [shows, Spine.tags]

theorem tidy_start : start.Tidy :=
  ⟨linked_start, .nil, .nil, fun _ h => absurd h List.not_mem_nil,
    fun _ h => absurd h List.not_mem_nil, fun _ h => absurd h List.not_mem_nil⟩

theorem Follows.refl (c : Construction) : Follows c c :=
  ⟨Nat.le_refl _, List.suffix_refl _, fun _ => .refl _ _, Nat.le_refl _, fun _ hp _ => hp,
    fun _ _ => Nat.le_refl _, .inl rfl⟩

theorem Follows.trans (h : Follows c c') (h' : Follows c' c'') : Follows c c'' := by
  refine ⟨Nat.le_trans h.nextId h'.nextId, h'.boundaries.trans h.boundaries,
    fun name => (h.newer name).trans h.nextId (h'.newer name), Nat.le_trans h'.links h.links,
    fun p hp hlt => h.old p (h'.old p hp (Nat.lt_of_lt_of_le hlt h.nextId)) hlt,
    fun name hn => Nat.le_trans (h'.held name hn) (h.held name hn), ?_⟩
  rcases h'.phase with he | he
  · rw [he]
    exact h.phase
  · exact .inr he

/-! ## Closing -/

/-- Elements were closed and nothing else happened to what is open. -/
structure Pops (c c' : Construction) : Prop where
  tags : ∃ n, c'.spine.tags = c.spine.tags.drop n
  active : c'.active = c.active
  nextId : c'.nextId = c.nextId
  phase : c'.phase = c.phase

theorem Pops.refl (c : Construction) : Pops c c :=
  ⟨⟨0, rfl⟩, rfl, rfl, rfl⟩

theorem Pops.trans (h : Pops c c') (h' : Pops c' c'') : Pops c c'' := by
  obtain ⟨n, hn⟩ := h.tags
  obtain ⟨m, hm⟩ := h'.tags
  refine ⟨⟨n + m, ?_⟩, h'.active.trans h.active, h'.nextId.trans h.nextId, h'.phase.trans h.phase⟩
  rw [hm, hn, List.drop_drop]

theorem Pops.tags_subset (hp : Pops c c') : c'.spine.tags ⊆ c.spine.tags := by
  obtain ⟨n, hn⟩ := hp.tags
  rw [hn]
  exact List.drop_subset _ _

theorem Pops.shows (hp : Pops c c') {a : ActiveStyle} (h : c'.shows a = true) :
    c.shows a = true := by
  obtain ⟨p, hp', he⟩ := shows_iff.mp h
  exact shows_iff.mpr ⟨p, hp.tags_subset hp', he⟩

theorem Pops.tidy (hp : Pops c c') (h : c.Tidy) : c'.Tidy := by
  obtain ⟨n, hn⟩ := hp.tags
  have hsub := hp.tags_subset
  refine ⟨h.linked.of_subset hsub ?_ (Nat.le_of_eq hp.nextId.symm), ?_, ?_, ?_, ?_, ?_⟩
  · rw [hp.active]
    exact List.Subset.refl _
  · rw [hn]
    exact h.tags.drop
  · rw [hp.active]
    exact h.active
  · rw [hp.active]
    exact h.styles
  · rw [hp.active]
    exact fun p hm => h.links p (hsub hm)
  · rw [hp.active]
    intro a ha b hb hlt hshown
    obtain ⟨p, hm, hpid⟩ := shows_iff.mp hshown
    obtain ⟨q, hq, hqid⟩ := shows_iff.mp (h.shown a ha b hb hlt (hp.shows hshown))
    -- the element that shows the older style lies around the one that shows the newer
    have hsorted := h.tags
    rw [← List.take_append_drop n c.spine.tags, ← hn] at hq hsorted
    rcases List.mem_append.mp hq with hq | hq
    · exact absurd ((List.pairwise_append.mp hsorted).2.2 q hq p hm) (by omega)
    · exact shows_iff.mpr ⟨q, hq, hqid⟩

theorem boundaries_suffix_of_drop {n : Nat} (h : c'.spine.tags = c.spine.tags.drop n) :
    c'.boundaries <:+ c.boundaries := by
  rw [boundaries, h]
  exact (List.drop_suffix n _).filter _

theorem Pops.held_subset (hp : Pops c c') (name : String) : held name c' ⊆ held name c :=
  Construction.held_subset (by rw [hp.active]; exact List.Subset.refl _) fun _ h => hp.tags_subset h

theorem Pops.follows (hp : Pops c c') : Follows c c' := by
  obtain ⟨n, hn⟩ := hp.tags
  refine ⟨Nat.le_of_eq hp.nextId.symm, boundaries_suffix_of_drop hn, fun name => ?_,
    Nat.le_of_eq (by rw [hp.active]), fun p hm _ => hp.tags_subset hm,
    fun name _ => Finset.card_le_card (hp.held_subset name), .inl hp.phase⟩
  rw [hp.active]
  exact .refl _ _

theorem pops_close (c : Construction) (n : Nat) : Pops c { c with spine := c.spine.close n } :=
  ⟨⟨n, Spine.tags_close _ _⟩, rfl, rfl, rfl⟩

theorem pops_closeThrough (c : Construction) (name : String) :
    Pops c { c with spine := c.spine.closeThrough name } := by
  simp only [Spine.closeThrough]
  split
  · exact pops_close c _
  · exact .refl c

theorem pops_closeParagraph (c : Construction) : Pops c c.closeParagraph :=
  pops_closeThrough c "p"

theorem pops_closeItem (c : Construction) : Pops c c.closeItem := by
  simp only [closeItem]
  split
  · exact pops_closeThrough c "li"
  · exact .refl c

theorem pops_closeInline (c : Construction) (name : String) : Pops c (c.closeInline name) := by
  simp only [closeInline]
  split
  · split
    · exact pops_closeThrough c name
    · exact .refl c
  · exact .refl c

/-! ## Opening -/

theorem shows_openElement {a : ActiveStyle} (ha : a.id < c.nextId) (name : String) (attrs : Attrs) :
    (c.openElement name attrs).shows a = c.shows a := by
  have hne : (c.nextId == a.id) = false := beq_eq_false_iff_ne.mpr (Nat.ne_of_gt ha)
  simp [shows, Construction.openElement, Spine.push, hne]

theorem Tidy.openElement (h : c.Tidy) {name : String} (hn : name ≠ "a") (attrs : Attrs) :
    (c.openElement name attrs).Tidy := by
  refine ⟨h.linked.openElement name attrs, List.pairwise_cons.mpr ⟨h.linked.tags, h.tags⟩, h.active,
    h.styles, ?_, ?_⟩
  · intro p hp he
    rcases List.mem_cons.mp hp with rfl | hp
    · exact absurd he hn
    · exact h.links p hp he
  · intro a ha b hb hlt
    rw [shows_openElement (h.linked.active a ha), shows_openElement (h.linked.active b hb)]
    exact h.shown a ha b hb hlt

/-- A new element that shows a new style leaves all styles shown. -/
theorem AllShown.openShown (hs : c.AllShown) {a : ActiveStyle} (hid : a.id = c.nextId)
    {kept : List ActiveStyle} (hk : kept.Sublist c.active) :
    AllShown { c.openElement a.name a.attrs with active := a :: kept } := by
  refine List.forall_mem_cons.mpr ⟨?_, fun b hb => ?_⟩
  · exact shows_iff.mpr ⟨(c.nextId, a.name), List.mem_cons_self, hid.symm⟩
  · obtain ⟨p, hp, he⟩ := shows_iff.mp (hs b (hk.subset hb))
    exact shows_iff.mpr ⟨p, List.mem_cons_of_mem _ hp, he⟩

/-- A new element shows the newest style. -/
theorem Tidy.openShown (h : c.Tidy) (hall : c.AllShown) {a : ActiveStyle} (hid : a.id = c.nextId)
    (hs : StyleTag a.name a.attrs) {kept : List ActiveStyle}
    (hk : kept.Sublist c.active) (hl : ages "a" c.active ⊆ ages "a" kept) :
    Tidy { c.openElement a.name a.attrs with active := a :: kept } := by
  have hlinked : Linked { c.openElement a.name a.attrs with active := a :: kept } :=
    h.linked.withStyle a.attrs hid rfl fun b hb => (List.mem_cons.mp hb).imp_right fun hb => hk.subset hb
  refine ⟨hlinked, List.pairwise_cons.mpr ⟨h.linked.tags, h.tags⟩, ?_, ?_, ?_,
    fun _ _ b hb _ _ => hall.openShown hid hk b hb⟩
  · refine List.pairwise_cons.mpr ⟨fun b hb => ?_, h.active.sublist hk⟩
    rw [hid]
    exact h.linked.active b (hk.subset hb)
  · exact List.forall_mem_cons.mpr ⟨hs, fun b hb => h.styles b (hk.subset hb)⟩
  · intro p hp he
    rcases List.mem_cons.mp hp with rfl | hp
    · exact ⟨a, List.mem_cons_self, hid⟩
    · obtain ⟨b, hb, hbp⟩ := h.links p hp he
      have hname := h.linked.names b hb p hp hbp.symm
      obtain ⟨b', hb', -, hid'⟩ := mem_ages.mp (hl (mem_ages.mpr ⟨b, hb, hname.symm.trans he, hbp⟩))
      exact ⟨b', List.mem_cons_of_mem _ hb', hid'⟩

theorem Tidy.reopen (h : c.Tidy) (hall : c.AllShown) {a : ActiveStyle}
    (hs : StyleTag a.name a.attrs) : (c.reopen a).Tidy :=
  h.openShown hall (a := { a with id := c.nextId }) rfl hs (List.Sublist.refl _)
    (List.Subset.refl _)

theorem AllShown.reopen (h : c.AllShown) (a : ActiveStyle) : (c.reopen a).AllShown :=
  h.openShown (a := { a with id := c.nextId }) rfl (List.Sublist.refl _)

theorem boundaries_openElement (c : Construction) {name : String} (hn : isBoundary name = false)
    (attrs : Attrs) : (c.openElement name attrs).boundaries = c.boundaries := by
  simp [boundaries, Construction.openElement, hn]

/-- Showing styles again opens no block, and every style stays in its place with a greater number. -/
theorem follows_foldl_reopen (hidden : List ActiveStyle) (h : c.Tidy) (hall : c.AllShown)
    (hs : ∀ a ∈ hidden, StyleTag a.name a.attrs)
    (hids : ∀ a ∈ hidden, a.id ≤ c.nextId) :
    let c' := hidden.foldl reopen c
    c'.Tidy ∧ c'.AllShown ∧ c.nextId ≤ c'.nextId ∧ c'.boundaries = c.boundaries ∧
      c'.phase = c.phase ∧ ∀ name,
        Newer c.nextId (ages name (hidden.reverse ++ c.active)) (ages name c'.active) ∧
        (ages name c'.active).length = (ages name (hidden.reverse ++ c.active)).length := by
  induction hidden generalizing c with
  | nil => exact ⟨h, hall, Nat.le_refl _, rfl, rfl, fun name => ⟨.refl _ _, rfl⟩⟩
  | cons a hidden ih =>
    have ha := hs a List.mem_cons_self
    obtain ⟨ht, hshown, hn, hb, hp, hnewer⟩ := ih (h.reopen hall ha) (hall.reopen a)
      (fun b hb => hs b (List.mem_cons_of_mem _ hb))
      (fun b hb => Nat.le_succ_of_le (hids b (List.mem_cons_of_mem _ hb)))
    refine ⟨ht, hshown, Nat.le_trans (Nat.le_succ _) hn, ?_, hp, fun name => ?_⟩
    · rw [List.foldl_cons, hb]
      exact boundaries_openElement c ha.inline a.attrs
    · obtain ⟨hname, hlength⟩ := hnewer name
      have hsplit : (a :: hidden).reverse ++ c.active = hidden.reverse ++ a :: c.active := by simp
      have hactive : (c.reopen a).active = { a with id := c.nextId } :: c.active := rfl
      rw [hactive] at hname hlength
      rw [List.foldl_cons, hsplit]
      by_cases he : a.name = name
      · rw [ages_append, ages_cons_of_eq (a := { a with id := c.nextId }) he] at hname hlength
        rw [ages_append, ages_cons_of_eq he]
        have hone : Newer c.nextId (a.id :: ages name c.active) (c.nextId :: ages name c.active) :=
          .kept (hids a List.mem_cons_self) (.refl _ _)
        refine ⟨(hone.append _).trans (Nat.le_succ _) hname, ?_⟩
        rw [hlength]
        simp
      · rw [ages_append, ages_cons_of_ne (a := { a with id := c.nextId }) he] at hname hlength
        rw [ages_append, ages_cons_of_ne he]
        exact ⟨hname.mono (Nat.le_succ _), hlength⟩

theorem old_foldl_reopen (hidden : List ActiveStyle) (c : Construction) :
    ∀ p ∈ (hidden.foldl reopen c).spine.tags, p.1 < c.nextId → p ∈ c.spine.tags := by
  induction hidden generalizing c with
  | nil => exact fun _ hp _ => hp
  | cons a hidden ih =>
    intro p hp hlt
    rcases List.mem_cons.mp (ih (c.reopen a) p hp (Nat.lt_succ_of_lt hlt)) with rfl | hp
    · exact absurd hlt (Nat.lt_irrefl _)
    · exact hp

/-- A style that is shown again is held once more. -/
theorem card_held_reopen (c : Construction) (a : ActiveStyle) (name : String) :
    (held name (c.reopen a)).card ≤ (held name c).card + (ages name [a]).length := by
  have hactive : (c.reopen a).active = { a with id := c.nextId } :: c.active := rfl
  have htags : (c.reopen a).spine.tags = (c.nextId, a.name) :: c.spine.tags := rfl
  by_cases hn : a.name = name
  · have hsub : held name (c.reopen a) ⊆ insert c.nextId (held name c) := by
      intro id hid
      rw [mem_held, hactive, htags, ages_cons_of_eq (a := { a with id := c.nextId }) hn, List.mem_cons,
        List.mem_cons, Prod.mk.injEq] at hid
      rw [Finset.mem_insert, mem_held]
      tauto
    rw [ages_cons_of_eq hn]
    exact (Finset.card_le_card hsub).trans (Finset.card_insert_le _ _)
  · have hsub : held name (c.reopen a) ⊆ held name c := by
      refine held_subset ?_ fun id hid => ?_
      · rw [hactive, ages_cons_of_ne (a := { a with id := c.nextId }) hn]
        exact List.Subset.refl _
      · rw [htags, List.mem_cons, Prod.mk.injEq] at hid
        exact hid.resolve_left fun h => hn h.2.symm
    exact (Finset.card_le_card hsub).trans (Nat.le_add_right _ _)

theorem card_held_foldl_reopen (hidden : List ActiveStyle) (c : Construction) (name : String) :
    (held name (hidden.foldl reopen c)).card ≤ (held name c).card + (ages name hidden).length := by
  induction hidden generalizing c with
  | nil => exact Nat.le_refl _
  | cons a hidden ih =>
    have hrest := ih (c.reopen a)
    have hone := card_held_reopen c a name
    have hsplit : (ages name (a :: hidden)).length
        = (ages name [a]).length + (ages name hidden).length := by
      rw [← List.length_append, ← ages_append]
      rfl
    rw [List.foldl_cons, hsplit]
    omega

/-- The styles that are not shown, newest first, up to the first that is. -/
def pending (c : Construction) : List ActiveStyle :=
  c.active.takeWhile fun a => !c.shows a

theorem resumeStyles_of_pending (h : c.pending = []) : c.resumeStyles = c := by
  show c.pending.reverse.foldl reopen { c with active := c.active.drop c.pending.length } = c
  rw [h]
  rfl

/-- The styles that wait to be shown again are held in addition to the others. -/
theorem Tidy.card_held_pending (h : c.Tidy) (name : String) :
    (held name { c with active := c.active.drop c.pending.length }).card
      + (ages name c.pending).length ≤ (held name c).card := by
  have hsplit : c.active = c.pending ++ c.active.drop c.pending.length :=
    (takeWhile_append_drop _ _).symm
  have hsorted := h.active
  rw [hsplit] at hsorted
  obtain ⟨hpending, -, hcross⟩ := List.pairwise_append.mp hsorted
  have hnodup : (ages name c.pending).Nodup :=
    List.pairwise_map.mpr ((hpending.filter _).imp Nat.ne_of_gt)
  have hdisjoint : Disjoint (held name { c with active := c.active.drop c.pending.length })
      (ages name c.pending).toFinset := by
    refine Finset.disjoint_right.mpr fun id hid hheld => ?_
    obtain ⟨a, ha, -, rfl⟩ := mem_ages.mp (List.mem_toFinset.mp hid)
    rcases mem_held.mp hheld with hm | hm
    · obtain ⟨b, hb, -, he⟩ := mem_ages.mp hm
      exact absurd he (Nat.ne_of_lt (hcross a ha b hb))
    · have hhidden := List.mem_takeWhile_imp ha
      have hshown : c.shows a = true := by
        obtain ⟨f, hf, he⟩ := List.mem_map.mp hm
        exact List.any_eq_true.mpr ⟨f, hf, beq_iff_eq.mpr (congrArg Prod.fst he)⟩
      rw [hshown] at hhidden
      cases hhidden
  have hsub : held name { c with active := c.active.drop c.pending.length }
      ∪ (ages name c.pending).toFinset ⊆ held name c := by
    refine Finset.union_subset (held_subset ?_ fun _ hid => hid) fun id hid => ?_
    · rw [hsplit, ages_append]
      simp
    · rw [mem_held, hsplit, ages_append]
      exact .inl (List.mem_append_left _ (List.mem_toFinset.mp hid))
  rw [← List.toFinset_card_of_nodup hnodup, ← Finset.card_union_of_disjoint hdisjoint]
  exact Finset.card_le_card hsub

/-- The first style behind those that wait to be shown again is shown, and so are all behind it. -/
theorem Tidy.withoutPending (h : c.Tidy) :
    Tidy { c with active := c.active.drop c.pending.length } ∧
      AllShown { c with active := c.active.drop c.pending.length } := by
  have hsplit : c.active = c.pending ++ c.active.drop c.pending.length :=
    (takeWhile_append_drop _ _).symm
  have hdrop : c.active.drop c.pending.length = c.active.dropWhile fun a => !c.shows a :=
    List.append_cancel_left (hsplit.symm.trans List.takeWhile_append_dropWhile.symm)
  have hshown : ∀ a ∈ c.active.drop c.pending.length, c.shows a = true := by
    have hhead := List.head?_dropWhile_not (fun a => !c.shows a) c.active
    have hsorted := h.active.drop (i := c.pending.length)
    have hsub := List.drop_subset c.pending.length c.active
    rw [← hdrop] at hhead
    cases hrest : c.active.drop c.pending.length with
    | nil => exact fun _ ha => absurd ha List.not_mem_nil
    | cons x rest =>
      rw [hrest] at hhead hsorted hsub
      have hx : c.shows x = true := by simpa using hhead
      refine List.forall_mem_cons.mpr ⟨hx, fun b hb => ?_⟩
      exact h.shown x (hsub List.mem_cons_self) b (hsub (List.mem_cons_of_mem _ hb))
        ((List.pairwise_cons.mp hsorted).1 b hb) hx
  refine ⟨⟨h.linked.of_subset (List.Subset.refl _) (List.drop_subset _ _) (Nat.le_refl _), h.tags,
    h.active.drop, fun a ha => h.styles a (List.mem_of_mem_drop ha), fun p hp he => ?_,
    fun _ _ b hb _ _ => hshown b hb⟩, hshown⟩
  obtain ⟨a, ha, hid⟩ := h.links p hp he
  rw [hsplit] at ha
  rcases List.mem_append.mp ha with ha | ha
  · have hhidden := List.mem_takeWhile_imp ha
    have hs : c.shows a = true := shows_iff.mpr ⟨p, hp, hid.symm⟩
    rw [hs] at hhidden
    cases hhidden
  · exact ⟨a, ha, hid⟩

/-- Showing styles again leaves none that is not shown, and all else in order. -/
theorem Tidy.resumeStyles (h : c.Tidy) :
    c.resumeStyles.Tidy ∧ c.resumeStyles.AllShown ∧ Follows c c.resumeStyles := by
  have hsplit : c.active = c.pending ++ c.active.drop c.pending.length :=
    (takeWhile_append_drop _ _).symm
  have hmem : ∀ a ∈ c.pending, a ∈ c.active := fun a ha => List.takeWhile_subset _ ha
  obtain ⟨htidy, hall⟩ := h.withoutPending
  obtain ⟨ht, hshown, hn, hb, hp, hnewer⟩ := follows_foldl_reopen c.pending.reverse htidy hall
    (fun a ha => h.styles a (hmem a (List.mem_reverse.mp ha)))
    (fun a ha => Nat.le_of_lt (h.linked.active a (hmem a (List.mem_reverse.mp ha))))
  simp only [List.reverse_reverse, ← hsplit] at hnewer
  refine ⟨ht, hshown, hn, ?_, fun name => (hnewer name).1, Nat.le_of_eq (hnewer "a").2,
    old_foldl_reopen _ _, fun name _ => ?_, .inl hp⟩
  · rw [Construction.resumeStyles]
    exact hb ▸ List.suffix_refl _
  · have hshow := card_held_foldl_reopen c.pending.reverse
      { c with active := c.active.drop c.pending.length } name
    have hlength : (ages name c.pending.reverse).length = (ages name c.pending).length := by
      simp [ages]
    rw [hlength] at hshow
    exact hshow.trans (h.card_held_pending name)

theorem Tidy.follows_resumeStyles (h : c.Tidy) :
    c.resumeStyles.Tidy ∧ Follows c c.resumeStyles :=
  ⟨h.resumeStyles.1, h.resumeStyles.2.2⟩

theorem dropOldest_cases (p : ActiveStyle → Bool) (styles : List ActiveStyle) :
    dropOldest p styles = styles ∨ ∃ a newer older, p a = true ∧ (∀ b ∈ older, ¬p b = true) ∧
      styles = newer ++ a :: older ∧ dropOldest p styles = newer ++ older := by
  unfold dropOldest
  rcases List.exists_or_eq_self_of_eraseP p styles.reverse with he | ⟨a, l₁, l₂, hl₁, ha, hl, he⟩
  · left
    rw [he, List.reverse_reverse]
  · refine .inr ⟨a, l₂.reverse, l₁.reverse, ha, fun b hb => hl₁ b (List.mem_reverse.mp hb), ?_, ?_⟩
    · rw [← List.reverse_reverse styles, hl]
      simp
    · rw [he]
      simp

/-- The styles that stay in force when another one of the given tag is opened. -/
def keptFor (a : ActiveStyle) (styles : List ActiveStyle) : List ActiveStyle :=
  if 3 ≤ styles.countP a.sameTag then dropOldest a.sameTag styles else styles

theorem openStyle_eq (c : Construction) (name : String) (attrs : Attrs) :
    c.openStyle name attrs = { c.openElement name attrs with
      active := ⟨c.nextId, name, attrs⟩ :: keptFor ⟨c.nextId, name, attrs⟩ c.active } := rfl

theorem keptFor_cases (a : ActiveStyle) (styles : List ActiveStyle) :
    keptFor a styles = styles ∨ ∃ b newer older, a.sameTag b = true ∧
      (∀ d ∈ older, ¬a.sameTag d = true) ∧ styles = newer ++ b :: older ∧
        keptFor a styles = newer ++ older := by
  unfold keptFor
  split
  · exact dropOldest_cases _ _
  · exact .inl rfl

theorem name_of_sameTag {a b : ActiveStyle} (h : a.sameTag b = true) : b.name = a.name := by
  simp only [ActiveStyle.sameTag, Bool.and_eq_true, beq_iff_eq] at h
  exact h.1.1.symm

/-- A style that nothing stands in the way of: no link is opened in a link, and the styles in force
differ in their names only. -/
structure Opens (c : Construction) (name : String) (attrs : Attrs) : Prop where
  tag : StyleTag name attrs
  link : name = "a" → ages "a" c.active = []

/-- Of the styles of its name a new style puts the oldest out of force at most, and no other. -/
theorem Opens.ages_keptFor {name : String} {attrs : Attrs} (ho : Opens c name attrs) (h : c.Tidy)
    (id : Nat) :
    (keptFor ⟨id, name, attrs⟩ c.active).Sublist c.active ∧
      ages name (keptFor ⟨id, name, attrs⟩ c.active) <+: ages name c.active ∧
      ∀ m, m ≠ name → ages m (keptFor ⟨id, name, attrs⟩ c.active) = ages m c.active := by
  rcases keptFor_cases ⟨id, name, attrs⟩ c.active with he | ⟨b, newer, older, hb, hold, hsplit, he⟩
  · rw [he]
    exact ⟨List.Sublist.refl _, List.prefix_refl _, fun _ _ => rfl⟩
  · have hname : b.name = name := name_of_sameTag hb
    have hmem : b ∈ c.active := by simp [hsplit]
    have hne : name ≠ "a" := fun e => ages_eq_nil_iff.mp (ho.link e) b hmem (hname.trans e)
    have hlast : ages name older = [] := by
      refine ages_eq_nil_iff.mpr fun d hd hdn => hold d hd ?_
      have hattrs := (h.styles d (by simp [hsplit, hd])).attrs (by rw [hdn]; exact hne)
      simp [ActiveStyle.sameTag, hdn, hattrs, ho.tag.attrs hne]
    rw [he, hsplit]
    refine ⟨by simp, ?_, fun m hm => ?_⟩
    · rw [ages_append, ages_append, ages_cons_of_eq hname, hlast, List.append_nil]
      exact List.prefix_append _ _
    · rw [ages_append, ages_append, ages_cons_of_ne (by rw [hname]; exact Ne.symm hm)]

theorem Opens.tidy {name : String} {attrs : Attrs} (ho : Opens c name attrs) (h : c.Tidy)
    (hall : c.AllShown) : (c.openStyle name attrs).Tidy := by
  obtain ⟨hsub, -, hothers⟩ := ho.ages_keptFor h c.nextId
  rw [openStyle_eq]
  refine h.openShown hall (a := ⟨c.nextId, name, attrs⟩) rfl ho.tag hsub ?_
  by_cases hn : name = "a"
  · rw [ho.link hn]
    exact List.nil_subset _
  · rw [hothers "a" (Ne.symm hn)]
    exact List.Subset.refl _

theorem Opens.ages_link {name : String} {attrs : Attrs} (ho : Opens c name attrs) (h : c.Tidy)
    (hn : name ≠ "a") : ages "a" (c.openStyle name attrs).active = ages "a" c.active := by
  rw [openStyle_eq]
  exact (ages_cons_of_ne hn _).trans ((ho.ages_keptFor h c.nextId).2.2 "a" (Ne.symm hn))

end Construction

end MessageLayout.Html
