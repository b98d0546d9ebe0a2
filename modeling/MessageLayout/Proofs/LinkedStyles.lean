import MessageLayout.Proofs.LineBreaks

/-!
# Styles and the elements that show them

A style in force names the element that shows it by a number. Numbers are given out once, so an
element with the number of a style has its name, at every point of the construction and whatever
the tags are.

    Linked c → Move P c c' → Linked c'                                   (Linked.move)
-/

namespace MessageLayout.Html

/-- The numbers and names of the open elements, innermost first. -/
def Spine.tags (s : Spine) : List (Nat × String) :=
  s.frames.map fun f => (f.id, f.name)

namespace Spine

variable (s : Spine)

@[simp] theorem tags_withHere (done : List Dom) : (s.withHere done).tags = s.tags := by
  simp only [withHere, tags]
  split
  next h => simp [h]
  next f fs h => simp [h]

@[simp] theorem tags_append (ds : List Dom) : (s.append ds).tags = s.tags :=
  tags_withHere _ _

@[simp] theorem tags_appendChar (c : Char) : (s.appendChar c).tags = s.tags := by
  simp only [appendChar]
  split <;> exact tags_withHere _ _

@[simp] theorem tags_push (f : Frame) : (s.push f).tags = (f.id, f.name) :: s.tags := rfl

@[simp] theorem tags_close (n : Nat) : (s.close n).tags = s.tags.drop n := by
  show (append ⟨s.frames.drop n, s.done⟩ _).tags = _
  rw [tags_append]
  exact List.map_drop

end Spine

namespace Construction

/-- The numbers in use are spent, and an element with the number of a style has its name. -/
structure Linked (c : Construction) : Prop where
  tags : ∀ p ∈ c.spine.tags, p.1 < c.nextId
  active : ∀ a ∈ c.active, a.id < c.nextId
  names : ∀ a ∈ c.active, ∀ p ∈ c.spine.tags, p.1 = a.id → p.2 = a.name

variable {P : String → Attrs → Prop} {c c' : Construction}

theorem linked_start : start.Linked :=
  ⟨fun _ h => absurd h List.not_mem_nil, fun _ h => absurd h List.not_mem_nil,
    fun _ h => absurd h List.not_mem_nil⟩

/-- Closing elements and dropping styles breaks no link. -/
theorem Linked.of_subset (h : c.Linked) (ht : c'.spine.tags ⊆ c.spine.tags)
    (ha : c'.active ⊆ c.active) (hn : c.nextId ≤ c'.nextId) : c'.Linked :=
  ⟨fun p hp => Nat.lt_of_lt_of_le (h.tags p (ht hp)) hn,
    fun a hm => Nat.lt_of_lt_of_le (h.active a (ha hm)) hn,
    fun a hm p hp => h.names a (ha hm) p (ht hp)⟩

theorem Linked.openElement (h : c.Linked) (name : String) (attrs : Attrs) :
    (c.openElement name attrs).Linked := by
  refine ⟨?_, fun a ha => Nat.lt_succ_of_lt (h.active a ha), ?_⟩
  · intro p hp
    rcases List.mem_cons.mp hp with rfl | hp
    · exact Nat.lt_succ_self _
    · exact Nat.lt_succ_of_lt (h.tags p hp)
  · intro a ha p hp he
    rcases List.mem_cons.mp hp with rfl | hp
    · exact absurd he (Nat.ne_of_gt (h.active a ha))
    · exact h.names a ha p hp he

/-- A new element may show a style of its name. -/
theorem Linked.withStyle (h : c.Linked) {name : String} (attrs : Attrs) {a : ActiveStyle}
    (hid : a.id = c.nextId) (hname : a.name = name) {active : List ActiveStyle}
    (hactive : ∀ b ∈ active, b = a ∨ b ∈ c.active) :
    Linked { c.openElement name attrs with active } := by
  have ho := h.openElement name attrs
  refine ⟨ho.tags, fun b hb => ?_, fun b hb p hp he => ?_⟩
  · rcases hactive b hb with rfl | hb
    · exact hid ▸ Nat.lt_succ_self _
    · exact ho.active b hb
  · rcases hactive b hb with rfl | hb
    · rcases List.mem_cons.mp hp with rfl | hp
      · exact hname.symm
      · exact absurd (he.trans hid) (Nat.ne_of_lt (h.tags p hp))
    · exact ho.names b hb p hp he

/-! ## Copies -/

/-- Copies with spent numbers: each has the name of the styles with its number, and so have the
elements with the given tags, whose numbers were spent before. -/
structure Copies.Linked (tags : List (Nat × String)) (first : Nat) (k : Copies) : Prop where
  first : first ≤ k.nextId
  frames : ∀ f ∈ k.frames, f.id < k.nextId
  active : ∀ a ∈ k.active, a.id < k.nextId
  copied : ∀ a ∈ k.active, ∀ f ∈ k.frames, f.id = a.id → f.name = a.name
  names : ∀ a ∈ k.active, ∀ p ∈ tags, p.1 = a.id → p.2 = a.name

theorem Copies.Linked.drop {tags : List (Nat × String)} {first : Nat} {k : Copies}
    (hk : k.Linked tags first) {active : List ActiveStyle} (hsub : active.Sublist k.active) :
    Copies.Linked tags first { k with active } :=
  ⟨hk.first, hk.frames, fun a ha => hk.active a (hsub.subset ha),
    fun a ha => hk.copied a (hsub.subset ha), fun a ha => hk.names a (hsub.subset ha)⟩

theorem Copies.Linked.copyBetween {tags : List (Nat × String)} {first : Nat}
    (htags : ∀ p ∈ tags, p.1 < first) {fs : List Frame} (hfs : ∀ f ∈ fs, (f.id, f.name) ∈ tags)
    (passed : Nat) {k : Copies} (hk : k.Linked tags first) :
    (Construction.copyBetween passed fs k).Linked tags first := by
  refine copyBetween_preserves (fun k active hsub hk => hk.drop hsub)
    (fun f hf k hk => ⟨Nat.le_succ_of_le hk.first, ?_, ?_, ?_, ?_⟩) passed hk
  · intro g hg
    rcases List.mem_append.mp hg with hg | hg
    · exact Nat.lt_succ_of_lt (hk.frames g hg)
    · rw [List.mem_singleton.mp hg]
      exact Nat.lt_succ_self _
  · intro a ha
    obtain ⟨b, hb, rfl⟩ := List.mem_map.mp ha
    split
    · exact Nat.lt_succ_self _
    · exact Nat.lt_succ_of_lt (hk.active b hb)
  · intro a ha g hg he
    obtain ⟨b, hb, rfl⟩ := List.mem_map.mp ha
    rcases List.mem_append.mp hg with hg | hg
    · split at he
      · exact absurd he (Nat.ne_of_lt (hk.frames g hg))
      next hne =>
        rw [if_neg hne]
        exact hk.copied b hb g hg he
    · rw [List.mem_singleton.mp hg] at he ⊢
      split at he
      next hid =>
        rw [if_pos hid]
        exact hk.names b hb _ (hfs f hf) (eq_of_beq hid).symm
      next hne => exact absurd he (Nat.ne_of_gt (hk.active b hb))
  · intro a ha p hp he
    obtain ⟨b, hb, rfl⟩ := List.mem_map.mp ha
    split at he
    · exact absurd he (Nat.ne_of_lt (Nat.lt_of_lt_of_le (htags p hp) hk.first))
    next hne =>
      rw [if_neg hne]
      exact hk.names b hb p hp he

theorem Linked.moveOut (h : c.Linked) {a : ActiveStyle} {deeper between outer : List Frame}
    {block style : Frame} (hf : c.spine.frames = deeper ++ block :: between ++ style :: outer) :
    (c.moveOut a deeper block between style outer).Linked := by
  have htags : ∀ f ∈ deeper ++ block :: between ++ style :: outer, (f.id, f.name) ∈ c.spine.tags := by
    intro f hm
    rw [← hf] at hm
    exact List.mem_map_of_mem hm
  have hk : (copyBetween 0 between ⟨[], c.active, c.nextId, none⟩).Linked c.spine.tags c.nextId :=
    Copies.Linked.copyBetween h.tags (fun f hm => htags f (by simp [hm])) 0
      ⟨Nat.le_refl _, fun _ hm => absurd hm List.not_mem_nil, h.active,
        fun _ _ _ hm => absurd hm List.not_mem_nil, h.names⟩
  generalize hcopies : Construction.copyBetween 0 between ⟨[], c.active, c.nextId, none⟩ = k at hk
  have hactive : ∀ b ∈ (c.moveOut a deeper block between style outer).active,
      b = { a with id := k.nextId } ∨ b ∈ k.active := fun b hb => hcopies ▸ mem_active_moveOut hb
  have hframes : ∀ p ∈ (c.moveOut a deeper block between style outer).spine.tags,
      p ∈ c.spine.tags ∨ p = (k.nextId, a.name) ∨ ∃ f ∈ k.frames, p = (f.id, f.name) := by
    intro p hp
    have hbase := Spine.tags_append ⟨outer, c.spine.done⟩ (closeAround [] (between ++ [style]))
    simp only [Spine.tags] at hbase
    simp only [Spine.tags, Construction.moveOut, hcopies, List.map_append, List.map_cons, hbase,
      List.mem_append, List.mem_cons] at hp
    rcases hp with (hp | hp | hp | hp) | hp
    · obtain ⟨f, hm, rfl⟩ := List.mem_map.mp hp
      exact .inl (htags f (by simp [hm]))
    · exact .inr (.inl hp)
    · exact .inl (hp ▸ htags block (by simp))
    · obtain ⟨f, hm, rfl⟩ := List.mem_map.mp hp
      exact .inr (.inr ⟨f, hm, rfl⟩)
    · obtain ⟨f, hm, rfl⟩ := List.mem_map.mp hp
      exact .inl (htags f (by simp [hm]))
  have hnext : (c.moveOut a deeper block between style outer).nextId = k.nextId + 1 := by
    simp only [Construction.moveOut, hcopies]
  have hspent : ∀ p ∈ c.spine.tags, p.1 < k.nextId := fun p hp =>
    Nat.lt_of_lt_of_le (h.tags p hp) hk.first
  refine ⟨fun p hp => ?_, fun b hb => ?_, fun b hb p hp he => ?_⟩
  · rw [hnext]
    rcases hframes p hp with hp | rfl | ⟨f, hm, rfl⟩
    · exact Nat.lt_succ_of_lt (hspent p hp)
    · exact Nat.lt_succ_self _
    · exact Nat.lt_succ_of_lt (hk.frames f hm)
  · rw [hnext]
    rcases hactive b hb with rfl | hb
    · exact Nat.lt_succ_self _
    · exact Nat.lt_succ_of_lt (hk.active b hb)
  · rcases hactive b hb with rfl | hb
    · rcases hframes p hp with hp | rfl | ⟨f, hm, rfl⟩
      · exact absurd he (Nat.ne_of_lt (hspent p hp))
      · rfl
      · exact absurd he (Nat.ne_of_lt (hk.frames f hm))
    · rcases hframes p hp with hp | rfl | ⟨f, hm, rfl⟩
      · exact hk.names b hb p hp he
      · exact absurd he (Nat.ne_of_gt (hk.active b hb))
      · exact hk.copied b hb f hm he

/-- No move breaks a link. -/
theorem Linked.move (hm : Move P c c') (h : c.Linked) : c'.Linked := by
  cases hm with
  | close n =>
    refine h.of_subset ?_ (List.Subset.refl _) (Nat.le_refl _)
    rw [Spine.tags_close]
    exact List.drop_subset _ _
  | comment => exact h.of_subset (by simp) (List.Subset.refl _) (Nat.le_refl _)
  | leaf _ => exact h.of_subset (by simp) (List.Subset.refl _) (Nat.le_refl _)
  | char x => exact h.of_subset (by simp) (List.Subset.refl _) (Nat.le_refl _)
  | element _ _ => exact h.openElement _ _
  | @style name attrs _ _ =>
    exact h.withStyle attrs (a := ⟨c.nextId, name, attrs⟩) rfl rfl fun b hb => List.mem_cons.mp hb
  | @resume newer older a ha =>
    refine h.withStyle a.attrs (a := { a with id := c.nextId }) rfl rfl fun b hb => ?_
    rw [ha]
    rcases List.mem_append.mp hb with hb | hb
    · exact .inr (List.mem_append_left _ hb)
    · exact (List.mem_cons.mp hb).imp_right fun hb => by simp [hb]
  | drop hs => exact h.of_subset (List.Subset.refl _) hs.subset (Nat.le_refl _)
  | moveOut _ hf _ => exact h.moveOut hf
  | mode _ _ => exact ⟨h.tags, h.active, h.names⟩

end Construction

end MessageLayout.Html
