import MessageLayout.Proofs.TreeMoves

/-!
# Nodes of document trees

Every element of a tree that is built from a text was brought along by a tag of the text, every
character by one of its characters, and no line break holds anything. So a property of nodes holds
of the whole tree if what the construction builds of tags, characters and finished nodes has it
(`Covers`). The layout shows a line break as a line feed, whatever it holds; nothing is lost by that.

    Covers P R D → Sound P D c → MoveOf P R c c' → Sound P D c'          (Sound.move)
    Covers P R D → D holds of the nodes of parse html                    (forall_mem_parse)
    Dom.EveryOf (Built P) (parse html)                                   (everyOf_built_parse)
-/

namespace MessageLayout.Html

mutual

/-- Whether `P` holds of the name, the attributes and the children of every element of a node. -/
def Dom.Every (P : String → Attrs → List Dom → Prop) : Dom → Prop
  | .element name attrs children => P name attrs children ∧ Dom.EveryOf P children
  | _ => True

/-- Whether `P` holds of every element of several nodes. -/
def Dom.EveryOf (P : String → Attrs → List Dom → Prop) : List Dom → Prop
  | [] => True
  | d :: ds => d.Every P ∧ Dom.EveryOf P ds

end

theorem Dom.everyOf_iff {P : String → Attrs → List Dom → Prop} {ds : List Dom} :
    Dom.EveryOf P ds ↔ ∀ d ∈ ds, d.Every P := by
  induction ds with
  | nil => simp [Dom.EveryOf]
  | cons d ds ih => simp [Dom.EveryOf, ih]

mutual

theorem Dom.Every.mono {P Q R : String → Attrs → List Dom → Prop}
    (h : ∀ name attrs children, P name attrs children → Q name attrs children →
      R name attrs children) : (d : Dom) → d.Every P → d.Every Q → d.Every R
  | .text _, _, _ => trivial
  | .comment, _, _ => trivial
  | .element name attrs children, hp, hq =>
    ⟨h name attrs children hp.1 hq.1, Dom.EveryOf.mono h children hp.2 hq.2⟩

/-- What follows from two properties of elements holds where both hold everywhere. -/
theorem Dom.EveryOf.mono {P Q R : String → Attrs → List Dom → Prop}
    (h : ∀ name attrs children, P name attrs children → Q name attrs children →
      R name attrs children) : (ds : List Dom) → EveryOf P ds → EveryOf Q ds → EveryOf R ds
  | [], _, _ => trivial
  | d :: ds, hp, hq => ⟨Dom.Every.mono h d hp.1 hq.1, Dom.EveryOf.mono h ds hp.2 hq.2⟩

end

/-- An element with the given property of its tag; a line break holds nothing. -/
def Built (P : String → Attrs → Prop) (name : String) (attrs : Attrs) (children : List Dom) : Prop :=
  P name attrs ∧ (name = "br" → children = [])

/-- A line break holds nothing. -/
def EmptyBreak (name : String) (_ : Attrs) (children : List Dom) : Prop :=
  name = "br" → children = []

variable {P : String → Attrs → Prop} {Q : String → Attrs → List Dom → Prop} {R : Char → Prop}
  {D : Dom → Prop}

/-- What is built of tags with the property `P`, characters with the property `R` and nodes with the
property `D` has the property `D`. A line break holds nothing. -/
structure Covers (P : String → Attrs → Prop) (R : Char → Prop) (D : Dom → Prop) : Prop where
  comment : D .comment
  char : ∀ {x}, R x → D (.text [x])
  concat : ∀ {t x}, D (.text t) → R x → D (.text (t ++ [x]))
  element : ∀ {name attrs children}, name ≠ "br" → P name attrs → (∀ d ∈ children, D d) →
    D (.element name attrs children)
  leaf : ∀ {name attrs}, P name attrs → D (.element name attrs [])

/-- A property of elements that does not depend on their children, save for line breaks. -/
theorem covers_every (element : ∀ {name attrs}, name ≠ "br" → P name attrs →
      ∀ children, Q name attrs children)
    (leaf : ∀ {name attrs}, P name attrs → Q name attrs []) :
    Covers P (fun _ => True) (Dom.Every Q) where
  comment := trivial
  char _ := trivial
  concat _ _ := trivial
  element hn hp hc := ⟨element hn hp _, Dom.everyOf_iff.mpr hc⟩
  leaf hp := ⟨leaf hp, trivial⟩

theorem covers_built (P : String → Attrs → Prop) :
    Covers P (fun _ => True) (Dom.Every (Built P)) :=
  covers_every (fun hn hp _ => ⟨hp, fun e => absurd e hn⟩) fun hp => ⟨hp, fun _ => rfl⟩

/-! ## The spine -/

/-- An open element that is no line break, with its children so far. -/
structure Frame.Sound (P : String → Attrs → Prop) (D : Dom → Prop) (f : Frame) : Prop where
  name : f.name ≠ "br"
  tag : P f.name f.attrs
  done : ∀ d ∈ f.done, D d

/-- A spine of sound frames. -/
structure Spine.Sound (P : String → Attrs → Prop) (D : Dom → Prop) (s : Spine) : Prop where
  frames : ∀ f ∈ s.frames, f.Sound P D
  done : ∀ d ∈ s.done, D d

theorem Frame.Sound.close (hD : Covers P R D) {f : Frame} (h : f.Sound P D) {last : List Dom}
    (hl : ∀ d ∈ last, D d) : D (f.close last) := by
  refine hD.element h.name h.tag fun d hd => ?_
  rcases List.mem_append.mp hd with hd | hd
  · exact h.done d (List.mem_reverse.mp hd)
  · exact hl d hd

theorem sound_closeAround (hD : Covers P R D) {fs : List Frame} (hfs : ∀ f ∈ fs, f.Sound P D)
    {inner : List Dom} (hi : ∀ d ∈ inner, D d) : ∀ d ∈ closeAround inner fs, D d := by
  induction fs generalizing inner with
  | nil => exact hi
  | cons f fs ih =>
    refine ih (fun g hg => hfs g (List.mem_cons_of_mem _ hg)) fun d hd => ?_
    rw [List.mem_singleton.mp hd]
    exact (hfs f List.mem_cons_self).close hD hi

namespace Spine.Sound

variable {s : Spine}

theorem here (h : s.Sound P D) : ∀ d ∈ s.here, D d := by
  simp only [Spine.here]
  split
  · exact h.done
  next f fs hf => exact (h.frames f (by simp [hf])).done

theorem withHere (h : s.Sound P D) {done : List Dom} (hd : ∀ d ∈ done, D d) :
    (s.withHere done).Sound P D := by
  simp only [Spine.withHere]
  split
  · exact ⟨fun f hf => absurd hf List.not_mem_nil, hd⟩
  next f fs hf =>
    refine ⟨fun g hg => ?_, h.done⟩
    have hsound := h.frames f (by simp [hf])
    rcases List.mem_cons.mp hg with rfl | hg
    · exact ⟨hsound.name, hsound.tag, hd⟩
    · exact h.frames g (by simp [hf, hg])

theorem append (h : s.Sound P D) {ds : List Dom} (hd : ∀ d ∈ ds, D d) :
    (s.append ds).Sound P D := by
  refine h.withHere fun d hm => ?_
  rcases List.mem_append.mp hm with hm | hm
  · exact hd d (List.mem_reverse.mp hm)
  · exact h.here d hm

theorem appendChar (hD : Covers P R D) (h : s.Sound P D) {c : Char} (hc : R c) :
    (s.appendChar c).Sound P D := by
  have hh := h.here
  simp only [Spine.appendChar]
  split
  next t ds ht =>
    obtain ⟨hlast, hds⟩ := List.forall_mem_cons.mp (ht ▸ hh)
    exact h.withHere (List.forall_mem_cons.mpr ⟨hD.concat hlast hc, hds⟩)
  · exact h.withHere (List.forall_mem_cons.mpr ⟨hD.char hc, hh⟩)

theorem push (h : s.Sound P D) {f : Frame} (hf : f.Sound P D) : (s.push f).Sound P D :=
  ⟨List.forall_mem_cons.mpr ⟨hf, h.frames⟩, h.done⟩

theorem close (hD : Covers P R D) (h : s.Sound P D) (n : Nat) : (s.close n).Sound P D := by
  have ht : ∀ f ∈ s.frames.take n, f.Sound P D := fun f hf => h.frames f (List.mem_of_mem_take hf)
  have hd : (⟨s.frames.drop n, s.done⟩ : Spine).Sound P D :=
    ⟨fun f hf => h.frames f (List.mem_of_mem_drop hf), h.done⟩
  exact hd.append (sound_closeAround hD ht fun d hm => absurd hm List.not_mem_nil)

theorem toDoms (hD : Covers P R D) (h : s.Sound P D) : ∀ d ∈ s.toDoms, D d := by
  intro d hd
  rcases List.mem_append.mp hd with hd | hd
  · exact h.done d (List.mem_reverse.mp hd)
  · exact sound_closeAround hD h.frames (fun d hm => absurd hm List.not_mem_nil) d hd

end Spine.Sound

/-! ## Moves -/

namespace Construction

/-- A construction in which no line break is open or in force. -/
structure Sound (P : String → Attrs → Prop) (D : Dom → Prop) (c : Construction) : Prop where
  spine : c.spine.Sound P D
  active : ∀ a ∈ c.active, a.name ≠ "br" ∧ P a.name a.attrs

/-- Copies of elements that are no line breaks. -/
structure Copies.Sound (P : String → Attrs → Prop) (D : Dom → Prop) (k : Copies) : Prop where
  frames : ∀ f ∈ k.frames, f.Sound P D
  active : ∀ a ∈ k.active, a.name ≠ "br" ∧ P a.name a.attrs

theorem sound_start : Sound P D start :=
  ⟨⟨fun _ h => absurd h List.not_mem_nil, fun _ h => absurd h List.not_mem_nil⟩,
    fun _ h => absurd h List.not_mem_nil⟩

theorem Sound.copyBetween {fs : List Frame} (hfs : ∀ f ∈ fs, f.Sound P D) (passed : Nat) {k : Copies}
    (hk : k.Sound P D) : (Construction.copyBetween passed fs k).Sound P D := by
  refine copyBetween_preserves
    (fun k active hsub hk => ⟨hk.frames, fun a ha => hk.active a (hsub.subset ha)⟩)
    (fun f hf k hk => ⟨?_, ?_⟩) passed hk
  · intro g hg
    have hf := hfs f hf
    rcases List.mem_append.mp hg with hg | hg
    · exact hk.frames g hg
    · rw [List.mem_singleton.mp hg]
      exact ⟨hf.name, hf.tag, fun _ hd => absurd hd List.not_mem_nil⟩
  · intro a ha
    obtain ⟨b, hb, rfl⟩ := List.mem_map.mp ha
    have := hk.active b hb
    split <;> exact this

theorem mem_insertNewer {id : Nat} {a b : ActiveStyle} {styles : List ActiveStyle}
    (hb : b ∈ insertNewer id a styles) : b = a ∨ b ∈ styles := by
  induction styles with
  | nil => exact .inr hb
  | cons x styles ih =>
    simp only [insertNewer] at hb
    split at hb
    · simpa using hb
    · rcases List.mem_cons.mp hb with rfl | hb
      · exact .inr List.mem_cons_self
      · exact (ih hb).imp_right (List.mem_cons_of_mem _)

theorem mem_active_moveOut {c : Construction} {a b : ActiveStyle} {deeper between outer : List Frame}
    {block style : Frame} (hb : b ∈ (c.moveOut a deeper block between style outer).active) :
    b = { a with id := (copyBetween 0 between ⟨[], c.active, c.nextId, none⟩).nextId } ∨
      b ∈ (copyBetween 0 between ⟨[], c.active, c.nextId, none⟩).active := by
  simp only [moveOut] at hb
  split at hb
  · exact mem_insertNewer ((sublist_forget _ _).subset hb)
  · obtain ⟨b', hb', rfl⟩ := List.mem_map.mp hb
    split
    · exact .inl rfl
    · exact .inr hb'

theorem Sound.moveOut (hD : Covers P R D) {c : Construction} (h : c.Sound P D) {a : ActiveStyle}
    (ha : a ∈ c.active) {deeper between outer : List Frame} {block style : Frame}
    (hf : c.spine.frames = deeper ++ block :: between ++ style :: outer) :
    (c.moveOut a deeper block between style outer).Sound P D := by
  have hname := h.active a ha
  have hframes : ∀ f ∈ deeper ++ block :: between ++ style :: outer, f.Sound P D := hf ▸ h.spine.frames
  have hblock := hframes block (by simp)
  have hk : (Construction.copyBetween 0 between ⟨[], c.active, c.nextId, none⟩).Sound P D :=
    Sound.copyBetween (fun f hm => hframes f (by simp [hm])) 0
      ⟨fun _ hf => absurd hf List.not_mem_nil, h.active⟩
  have hleft : ∀ d ∈ closeAround [] (between ++ [style]), D d := by
    refine sound_closeAround hD (fun f hm => hframes f ?_) fun d hm => absurd hm List.not_mem_nil
    rcases List.mem_append.mp hm with hm | hm
    · simp [hm]
    · simp [List.mem_singleton.mp hm]
  have houter : Spine.Sound P D ⟨outer, c.spine.done⟩ :=
    ⟨fun f hm => hframes f (by simp [hm]), h.spine.done⟩
  have hbase := houter.append hleft
  refine ⟨⟨fun f hm => ?_, hbase.done⟩, fun b hm => ?_⟩
  · simp only [Construction.moveOut, List.mem_append, List.mem_cons] at hm
    rcases hm with (hm | rfl | rfl | hm) | hm
    · exact hframes f (by simp [hm])
    · exact ⟨hname.1, hname.2, hblock.done⟩
    · exact ⟨hblock.name, hblock.tag, fun _ hm => absurd hm List.not_mem_nil⟩
    · exact hk.frames f hm
    · exact hbase.frames f hm
  · rcases mem_active_moveOut hm with rfl | hm
    · exact hname
    · exact hk.active b hm

/-- No move puts anything into a line break, or a tag or a character that the text does not hold
into the tree. -/
theorem Sound.move (hD : Covers P R D) {c c' : Construction} (hm : MoveOf P R c c')
    (h : c.Sound P D) : c'.Sound P D := by
  have hopen : ∀ {name : String} {attrs : Attrs}, name ≠ "br" → P name attrs →
      (c.openElement name attrs).spine.Sound P D := fun hn hp =>
    h.spine.push ⟨hn, hp, fun _ hd => absurd hd List.not_mem_nil⟩
  cases hm with
  | close n => exact ⟨h.spine.close hD n, h.active⟩
  | comment => exact ⟨h.spine.append (List.forall_mem_singleton.mpr hD.comment), h.active⟩
  | leaf hp => exact ⟨h.spine.append (List.forall_mem_singleton.mpr (hD.leaf hp)), h.active⟩
  | char x hx => exact ⟨h.spine.appendChar hD hx, h.active⟩
  | element hn hp => exact ⟨hopen hn hp, h.active⟩
  | style hn hp => exact ⟨hopen hn hp, List.forall_mem_cons.mpr ⟨⟨hn, hp⟩, h.active⟩⟩
  | @resume newer older a ha =>
    have hactive : ∀ b ∈ newer ++ a :: older, b.name ≠ "br" ∧ P b.name b.attrs := ha ▸ h.active
    have hname := hactive a (by simp)
    refine ⟨hopen hname.1 hname.2, fun b hb => ?_⟩
    rcases List.mem_append.mp hb with hb | hb
    · exact hactive b (List.mem_append_left _ hb)
    · rcases List.mem_cons.mp hb with rfl | hb
      · exact hname
      · exact hactive b (by simp [hb])
  | drop hs => exact ⟨h.spine, fun a ha => h.active a (hs.subset ha)⟩
  | moveOut ha hf _ => exact h.moveOut hD ha hf
  | mode _ _ => exact ⟨h.spine, h.active⟩

end Construction

open Construction (Brings BringsOf)

/-- What holds of all that the construction builds of the tokens of a text holds of its tree. -/
theorem forall_mem_parse (hD : Covers P R D) {html : List Char}
    (h : ∀ t ∈ tokens html, BringsOf P R t) : ∀ d ∈ parse html, D d := by
  have hreach := Construction.reachesOf_foldl_token h .start
  have hsound := hreach.preserves (fun _ _ => Construction.Sound.move hD) Construction.sound_start
  exact hsound.spine.toDoms hD

/-- Every element of the tree of a text was brought along by a tag of the text. -/
theorem everyOf_built_parse {html : List Char} (h : ∀ t ∈ tokens html, Brings P t) :
    Dom.EveryOf (Built P) (parse html) :=
  Dom.everyOf_iff.mpr (forall_mem_parse (covers_built P) fun t ht => (h t ht).of)

/-- No line break in the tree of a text holds anything. -/
theorem everyOf_emptyBreak_parse (html : List Char) : Dom.EveryOf EmptyBreak (parse html) := by
  have h : ∀ t ∈ tokens html, Brings (fun _ _ => True) t := fun t _ => by cases t <;> trivial
  have hbuilt := everyOf_built_parse h
  exact Dom.EveryOf.mono (fun _ _ _ hb _ => hb.2) _ hbuilt hbuilt

end MessageLayout.Html
