import MessageLayout.Proofs.KeptBlock

/-!
# Links under construction

A link in the tree under construction is an open element, or a finished one that stays as it is.
While it is open, more elements may be opened and closed within it; when it is closed it comes to
stay. What shows something in it is never taken out.

    HasLink attrs p s → HasLink attrs p (s.push f), … (s.append ds), … (s.close n)
-/

namespace MessageLayout.Html

open Mrkdwn (isAllBlank_append)

/-! ## Nodes that show something -/

/-- Whether nodes show something: they hold a line break, or a text that is not blank. -/
def Dom.HasVisible (ds : List Dom) : Prop :=
  anyMentions "br" ds = true ∨ Text.isAllBlank (textOf ds) = false

namespace Dom

variable {name : String} {attrs : Attrs} {d : Dom} {ds es : List Dom}

theorem isBlank_element_eq_false : (element name attrs ds).isBlank = false ↔ HasVisible ds := by
  simp only [isBlank, HasVisible, Bool.and_eq_false_iff, Bool.not_eq_false']

theorem hasVisible_cons : HasVisible (d :: ds) ↔ HasVisible [d] ∨ HasVisible ds := by
  simp only [HasVisible, anyMentions, textOf_cons, textOf_nil, isAllBlank_append, Bool.or_eq_true,
    Bool.and_eq_false_iff, Bool.or_false, List.append_nil]
  tauto

theorem hasVisible_iff : HasVisible ds ↔ ∃ d ∈ ds, HasVisible [d] := by
  induction ds with
  | nil => simp [HasVisible, anyMentions, Text.isAllBlank]
  | cons d ds ih => rw [hasVisible_cons, ih, List.exists_mem_cons_iff]

theorem HasVisible.of_subset (h : HasVisible ds) (hs : ds ⊆ es) : HasVisible es := by
  obtain ⟨d, hd, hv⟩ := hasVisible_iff.mp h
  exact hasVisible_iff.mpr ⟨d, hs hd, hv⟩

theorem hasVisible_element : HasVisible [element name attrs ds] ↔ name = "br" ∨ HasVisible ds := by
  simp only [HasVisible, anyMentions, mentions, textOf_cons, textOf_nil, textContent_element,
    List.append_nil, Bool.or_false, Bool.or_eq_true, beq_iff_eq]
  tauto

theorem hasVisible_text {s : List Char} : HasVisible [text s] ↔ Text.isAllBlank s = false := by
  simp [HasVisible, anyMentions, mentions]

end Dom

open Dom (HasVisible)

theorem KeptIn.hasVisible {x : Dom} {ds : List Dom} (h : KeptIn x ds) (hx : HasVisible [x]) :
    HasVisible ds := by
  induction h with
  | here hm => exact hx.of_subset (by simpa using hm)
  | within _ _ hm ih => exact (Dom.hasVisible_element.mpr (.inr ih)).of_subset (by simpa using hm)

theorem hasVisible_close {f : Frame} {last : List Dom} (h : HasVisible f.done ∨ HasVisible last) :
    HasVisible [f.close last] := by
  refine Dom.hasVisible_element.mpr (.inr ?_)
  rcases h with h | h
  · exact h.of_subset fun d hd => List.mem_append_left _ (List.mem_reverse.mpr hd)
  · exact h.of_subset (List.subset_append_right _ _)

/-- What shows something in an open element shows it when the element is closed. -/
theorem hasVisible_closeAround {fs : List Frame} {inner : List Dom}
    (h : HasVisible inner ∨ ∃ f ∈ fs, HasVisible f.done) : HasVisible (closeAround inner fs) := by
  induction fs generalizing inner with
  | nil => exact h.resolve_right (by simp)
  | cons f fs ih =>
    refine ih ?_
    rcases h with h | ⟨g, hg, h⟩
    · exact .inl (hasVisible_close (.inr h))
    · rcases List.mem_cons.mp hg with rfl | hg
      · exact .inl (hasVisible_close (.inl h))
      · exact .inr ⟨g, hg, h⟩

/-! ## Links -/

/-- A link with the given attributes is open or finished, and shows something if so told. No element
that would hide it is around it. -/
inductive Spine.HasLink (attrs : Attrs) (shows : Prop) : Spine → Prop
  | opened {s : Spine} (above : List Frame) {f : Frame} {below : List Frame} :
      s.frames = above ++ f :: below → f.name = "a" → f.attrs = attrs →
        (∀ g ∈ below, g.name ∉ hidingNames) → (shows → ∃ g ∈ above ++ [f], HasVisible g.done) →
          HasLink attrs shows s
  | kept {s : Spine} {children : List Dom} :
      (shows → HasVisible children) → s.Keeps (.element "a" attrs children) → HasLink attrs shows s

namespace Spine.HasLink

variable {attrs : Attrs} {shows : Prop} {s : Spine}

theorem mono {shows' : Prop} (hs : shows' → shows) (h : s.HasLink attrs shows) :
    s.HasLink attrs shows' := by
  cases h with
  | opened above hf hn ha hb hv => exact .opened above hf hn ha hb fun h => hv (hs h)
  | kept hv hk => exact .kept (fun h => hv (hs h)) hk

theorem push (h : s.HasLink attrs shows) (f : Frame) : (s.push f).HasLink attrs shows := by
  cases h with
  | opened above hf hn ha hb hv =>
    refine .opened (f :: above) (congrArg (f :: ·) hf) hn ha hb fun h => ?_
    obtain ⟨g, hg, hd⟩ := hv h
    exact ⟨g, List.mem_cons_of_mem _ hg, hd⟩
  | kept hv hk => exact .kept hv (hk.push f)

theorem prepend (h : s.HasLink attrs shows) (fs : List Frame) :
    HasLink attrs shows ⟨fs ++ s.frames, s.done⟩ := by
  induction fs with
  | nil => exact h
  | cons f fs ih => exact ih.push f

/-- Within an open link other finished nodes come to the place where the next node goes. -/
theorem opened_withHere {above below : List Frame} {f : Frame} (hf : s.frames = above ++ f :: below)
    (hn : f.name = "a") (ha : f.attrs = attrs) (hb : ∀ g ∈ below, g.name ∉ hidingNames)
    {done : List Dom} (hv : shows → HasVisible done ∨
      (∃ g ∈ above ++ [f], HasVisible g.done) ∧ (HasVisible s.here → HasVisible done)) :
    (s.withHere done).HasLink attrs shows := by
  obtain ⟨frames, root⟩ := s
  obtain rfl : frames = above ++ f :: below := hf
  cases above with
  | nil =>
    refine .opened [] (f := { f with done }) rfl hn ha hb fun h => ⟨_, List.mem_cons_self, ?_⟩
    rcases hv h with hd | ⟨⟨g, hg, hd⟩, hhere⟩
    · exact hd
    · rw [List.mem_singleton.mp hg] at hd
      exact hhere hd
  | cons k above =>
    refine .opened ({ k with done } :: above) rfl hn ha hb fun h => ?_
    rcases hv h with hd | ⟨⟨g, hg, hd⟩, hhere⟩
    · exact ⟨_, List.mem_cons_self, hd⟩
    · rcases List.mem_cons.mp hg with rfl | hg
      · exact ⟨_, List.mem_cons_self, hhere hd⟩
      · exact ⟨g, List.mem_cons_of_mem _ hg, hd⟩

theorem withHere (h : s.HasLink attrs shows) {done : List Dom}
    (hd : ∀ d ∈ s.here, d.isElement = true → d ∈ done) (hv : HasVisible s.here → HasVisible done) :
    (s.withHere done).HasLink attrs shows := by
  cases h with
  | opened above hf hn ha hb hs => exact opened_withHere hf hn ha hb fun h => .inr ⟨hs h, hv⟩
  | kept hs hk => exact .kept hs (hk.withHere rfl hd)

theorem append (h : s.HasLink attrs shows) (ds : List Dom) : (s.append ds).HasLink attrs shows :=
  h.withHere (fun _ hd _ => List.mem_append_right _ hd) fun hv =>
    hv.of_subset (List.subset_append_right _ _)

theorem appendChar (h : s.HasLink attrs shows) (x : Char) :
    (s.appendChar x).HasLink attrs shows := by
  simp only [Spine.appendChar]
  split
  next t ds ht =>
    refine h.withHere (fun d hd he => ?_) fun hv => ?_
    · rw [ht] at hd
      rcases List.mem_cons.mp hd with rfl | hd
      · cases he
      · exact List.mem_cons_of_mem _ hd
    · rw [ht, Dom.hasVisible_cons, Dom.hasVisible_text] at hv
      rw [Dom.hasVisible_cons, Dom.hasVisible_text, isAllBlank_append, Bool.and_eq_false_iff]
      exact hv.imp_left .inl
  · exact h.withHere (fun _ hd _ => List.mem_cons_of_mem _ hd) fun hv =>
      hv.of_subset (List.subset_cons_self _ _)

/-- A character that is no blank is shown in a link that is open around it. -/
theorem opened_appendChar {above below : List Frame} {f : Frame}
    (hf : s.frames = above ++ f :: below) (hn : f.name = "a") (ha : f.attrs = attrs)
    (hb : ∀ g ∈ below, g.name ∉ hidingNames) {x : Char} (hx : Text.isBlank x = false) :
    (s.appendChar x).HasLink attrs shows := by
  have hblank : ∀ t : List Char, Text.isAllBlank (t ++ [x]) = false := fun t => by
    simp [Text.isAllBlank, hx]
  simp only [Spine.appendChar]
  split
  next t ds _ =>
    refine opened_withHere hf hn ha hb fun _ => .inl ?_
    exact Dom.hasVisible_cons.mpr (.inl (Dom.hasVisible_text.mpr (hblank t)))
  · refine opened_withHere hf hn ha hb fun _ => .inl ?_
    exact Dom.hasVisible_cons.mpr (.inl (Dom.hasVisible_text.mpr (hblank [])))

/-- Nodes are shown in a link that is open around them. -/
theorem opened_append {above below : List Frame} {f : Frame} (hf : s.frames = above ++ f :: below)
    (hn : f.name = "a") (ha : f.attrs = attrs) (hb : ∀ g ∈ below, g.name ∉ hidingNames)
    {ds : List Dom} (hv : shows → HasVisible ds ∨ ∃ g ∈ above ++ [f], HasVisible g.done) :
    (s.append ds).HasLink attrs shows := by
  refine opened_withHere hf hn ha hb fun h => ?_
  rcases hv h with hd | hg
  · exact .inl (hd.of_subset fun d hd => List.mem_append_left _ (List.mem_reverse.mpr hd))
  · exact .inr ⟨hg, fun hd => hd.of_subset (List.subset_append_right _ _)⟩

theorem close (h : s.HasLink attrs shows) (n : Nat) : (s.close n).HasLink attrs shows := by
  cases h with
  | kept hv hk => exact .kept hv (hk.close rfl n)
  | @opened above f below hf hn ha hb hv =>
    obtain ⟨frames, root⟩ := s
    obtain rfl : frames = above ++ f :: below := hf
    rcases Nat.lt_or_ge above.length n with hlt | hle
    · -- the link is closed, and with it what is open in it
      obtain ⟨m, rfl⟩ := Nat.exists_eq_add_of_lt hlt
      have hlink : f.close (closeAround [] above)
          = .element "a" attrs (f.done.reverse ++ closeAround [] above) := by
        rw [Frame.close, hn, ha]
      have hkept : KeptIn (f.close (closeAround [] above))
          (closeAround [] (above ++ f :: below.take m)) := by
        rw [closeAround_append]
        exact .closeAround (fun g hg => hb g (List.mem_of_mem_take hg))
          (.here (List.mem_singleton_self _))
      rw [hlink] at hkept
      rw [close_through]
      refine .kept (fun h => ?_)
        (.of_append hkept fun g hg => hb g (List.mem_of_mem_drop hg))
      obtain ⟨g, hg, hd⟩ := hv h
      rcases List.mem_append.mp hg with hg | hg
      · exact (hasVisible_closeAround (.inr ⟨g, hg, hd⟩)).of_subset (List.subset_append_right _ _)
      · rw [List.mem_singleton.mp hg] at hd
        exact hd.of_subset fun d hd => List.mem_append_left _ (List.mem_reverse.mpr hd)
    · -- elements in the link are closed
      rw [close_within hle]
      refine opened_append (s := ⟨above.drop n ++ f :: below, root⟩) rfl hn ha hb fun h => ?_
      obtain ⟨g, hg, hd⟩ := hv h
      rcases List.mem_append.mp hg with hg | hg
      · rw [← List.take_append_drop n above] at hg
        rcases List.mem_append.mp hg with hg | hg
        · exact .inl (hasVisible_closeAround (.inr ⟨g, hg, hd⟩))
        · exact .inr ⟨g, List.mem_append_left _ hg, hd⟩
      · exact .inr ⟨g, List.mem_append_right _ hg, hd⟩

end Spine.HasLink

end MessageLayout.Html
