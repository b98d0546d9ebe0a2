import Mathlib.Data.List.Induction
import Mathlib.Logic.Relation
import MessageLayout.Html.Construction

/-!
# Moves of the tree construction

A token makes a few kinds of moves on the tree under construction: it closes elements, opens one,
adds a leaf or a character, shows a style again, lets styles go out of force, or moves a block out
of a style. `MoveOf` lists them once, with all that a move can do. What each move keeps holds of
every tree.

    Reaches P c (c.token t)                                              (reaches_token)
    Inv c → Inv c' for each move → Inv holds of every construction       (Reaches.preserves)
-/

namespace MessageLayout.Html

namespace Construction

/-- A move from one construction to the next. The first predicate holds of the name and the
attributes of every element that a token brings along, the second of every character. -/
inductive MoveOf (P : String → Attrs → Prop) (Q : Char → Prop) : Construction → Construction → Prop
  | close (c : Construction) (n : Nat) : MoveOf P Q c { c with spine := c.spine.close n }
  | comment (c : Construction) : MoveOf P Q c { c with spine := c.spine.append [.comment] }
  | leaf (c : Construction) {name : String} {attrs : Attrs} :
      P name attrs → MoveOf P Q c { c with spine := c.spine.append [.element name attrs []] }
  | char (c : Construction) (x : Char) :
      Q x → MoveOf P Q c { c with spine := c.spine.appendChar x }
  | element (c : Construction) {name : String} {attrs : Attrs} :
      name ≠ "br" → P name attrs → MoveOf P Q c (c.openElement name attrs)
  | style (c : Construction) {name : String} {attrs : Attrs} :
      name ≠ "br" → P name attrs → MoveOf P Q c
        { c.openElement name attrs with active := ⟨c.nextId, name, attrs⟩ :: c.active }
  | resume (c : Construction) {newer older : List ActiveStyle} {a : ActiveStyle} :
      c.active = newer ++ a :: older →
        MoveOf P Q c { c.openElement a.name a.attrs with
          active := newer ++ { a with id := c.nextId } :: older }
  | drop (c : Construction) {active : List ActiveStyle} :
      active.Sublist c.active → MoveOf P Q c { c with active }
  | moveOut (c : Construction) {a : ActiveStyle} {deeper between outer : List Frame}
      {block style : Frame} :
      a ∈ c.active → c.spine.frames = deeper ++ block :: between ++ style :: outer →
        style.id = a.id → MoveOf P Q c (c.moveOut a deeper block between style outer)
  | mode (c : Construction) (phase : Phase) (skipsNewline : Bool) :
      MoveOf P Q c { c with phase, skipsNewline }

/-- A move with any characters. -/
abbrev Move (P : String → Attrs → Prop) : Construction → Construction → Prop :=
  MoveOf P fun _ => True

/-- Any number of moves lead from one construction to the other. -/
abbrev ReachesOf (P : String → Attrs → Prop) (Q : Char → Prop) :
    Construction → Construction → Prop :=
  Relation.ReflTransGen (MoveOf P Q)

/-- Any number of moves with any characters lead from one construction to the other. -/
abbrev Reaches (P : String → Attrs → Prop) : Construction → Construction → Prop :=
  ReachesOf P fun _ => True

variable {P : String → Attrs → Prop} {Q : Char → Prop} {c c' : Construction}

/-- What every move keeps holds at the end if it holds at the start. -/
theorem ReachesOf.preserves (h : ReachesOf P Q c c') {Inv : Construction → Prop}
    (hmove : ∀ d d', MoveOf P Q d d' → Inv d → Inv d') (hc : Inv c) : Inv c' := by
  induction h with
  | refl => exact hc
  | tail _ hm ih => exact hmove _ _ hm ih

theorem Reaches.preserves (h : Reaches P c c') {Inv : Construction → Prop}
    (hmove : ∀ d d', Move P d d' → Inv d → Inv d') (hc : Inv c) : Inv c' :=
  ReachesOf.preserves h hmove hc

theorem MoveOf.reaches (h : MoveOf P Q c c') : ReachesOf P Q c c' :=
  .single h

theorem reaches_closeThrough (c : Construction) (name : String) :
    ReachesOf P Q c { c with spine := c.spine.closeThrough name } := by
  simp only [Spine.closeThrough]
  split
  · exact (MoveOf.close c _).reaches
  · exact .refl

theorem reaches_closeParagraph (c : Construction) : ReachesOf P Q c c.closeParagraph :=
  reaches_closeThrough c "p"

/-- Styles are shown again one by one, the oldest first. -/
theorem reaches_foldl_reopen (hidden : List ActiveStyle) {c : Construction}
    {shown : List ActiveStyle} (h : c.active = hidden ++ shown) :
    ReachesOf P Q c (hidden.reverse.foldl reopen { c with active := shown }) := by
  induction hidden using List.reverseRecOn generalizing c shown with
  | nil =>
    obtain rfl : c.active = shown := h
    exact .refl
  | append_singleton hidden a ih =>
    rw [List.append_assoc, List.singleton_append] at h
    rw [List.reverse_concat, List.foldl_cons]
    exact (MoveOf.resume c h).reaches.trans (ih rfl)

theorem takeWhile_append_drop {α : Type} (p : α → Bool) (l : List α) :
    l.takeWhile p ++ l.drop (l.takeWhile p).length = l := by
  have h := List.take_append_drop (l.takeWhile p).length l
  rwa [← List.prefix_iff_eq_take.mp (List.takeWhile_prefix p)] at h

theorem reaches_resumeStyles (c : Construction) : ReachesOf P Q c c.resumeStyles :=
  reaches_foldl_reopen _ (takeWhile_append_drop _ _).symm

theorem sublist_dropOldest (p : ActiveStyle → Bool) (styles : List ActiveStyle) :
    (dropOldest p styles).Sublist styles := by
  have h : (styles.reverse.eraseP p).Sublist styles.reverse := List.eraseP_sublist
  simpa [dropOldest] using h.reverse

theorem reaches_openStyle (c : Construction) {name : String} (hn : name ≠ "br") {attrs : Attrs}
    (hp : P name attrs) : ReachesOf P Q c (c.openStyle name attrs) := by
  have hkept : (if 3 ≤ c.active.countP (ActiveStyle.sameTag ⟨c.nextId, name, attrs⟩)
      then dropOldest (ActiveStyle.sameTag ⟨c.nextId, name, attrs⟩) c.active
      else c.active).Sublist c.active := by
    split
    · exact sublist_dropOldest _ _
    · exact List.Sublist.refl _
  exact (MoveOf.drop c hkept).reaches.tail (MoveOf.style _ hn hp)

/-! ## Overlapping tags -/

theorem sublist_forget (id : Nat) (styles : List ActiveStyle) : (forget id styles).Sublist styles :=
  List.eraseP_sublist

/-- What holds before elements are copied holds of their copies, if it stays true when styles go out of
force and when one more element is copied. -/
theorem copyBetween_preserves {motive : Copies → Prop} {fs : List Frame}
    (hdrop : ∀ k active, active.Sublist k.active → motive k → motive { k with active })
    (hcopy : ∀ f ∈ fs, ∀ k : Copies, motive k → motive
      { frames := k.frames ++ [⟨k.nextId, f.name, f.attrs, []⟩]
        active := k.active.map fun a => if a.id == f.id then { a with id := k.nextId } else a
        nextId := k.nextId + 1
        innermost? := k.innermost?.or (some k.nextId) })
    (passed : Nat) {k : Copies} (hk : motive k) : motive (copyBetween passed fs k) := by
  induction fs generalizing passed k with
  | nil => exact hk
  | cons f fs ih =>
    have hrest : ∀ {k}, motive k → motive (copyBetween (passed + 1) fs k) :=
      ih (fun g hg => hcopy g (List.mem_cons_of_mem _ hg)) (passed + 1)
    simp only [copyBetween]
    split
    · exact hrest (hdrop k _ (sublist_forget f.id k.active) hk)
    · split
      · exact hrest (hcopy f List.mem_cons_self k hk)
      · exact hrest hk

theorem reaches_closeInline (c : Construction) (name : String) :
    ReachesOf P Q c (c.closeInline name) := by
  simp only [closeInline]
  split
  · split
    · exact reaches_closeThrough c name
    · exact .refl
  · exact .refl

theorem id_of_drop_takeWhile {frames outer : List Frame} {style : Frame} {id : Nat}
    (h : frames.drop (frames.takeWhile (·.id != id)).length = style :: outer) : style.id = id := by
  induction frames with
  | nil => simp at h
  | cons f frames ih =>
    by_cases hf : f.id = id
    · have hhead : f :: frames = style :: outer := by simpa [hf] using h
      rw [← (List.cons.inj hhead).1, hf]
    · exact ih (by simpa [List.takeWhile_cons, hf] using h)

/-- The open elements within a style are cut behind the innermost of them that bounds it. -/
theorem within_eq {within deeper : List Frame} {block : Frame} {between : List Frame}
    (hbetween : between = (within.reverse.takeWhile fun f => !isBoundary f.name).reverse)
    (h : (within.take (within.length - between.length)).reverse = block :: deeper) :
    within = deeper.reverse ++ block :: between := by
  have hprefix := List.takeWhile_prefix (fun f : Frame => !isBoundary f.name) (l := within.reverse)
  have hsuffix : between <:+ within := by
    rw [hbetween]
    simpa using List.reverse_suffix.mpr hprefix
  have hsplit := List.take_append_drop (within.length - between.length) within
  rw [← List.suffix_iff_eq_drop.mp hsuffix, ← List.reverse_reverse (List.take _ _), h] at hsplit
  rw [← hsplit]
  simp

theorem reaches_endStyleOnce (c : Construction) (name : String) :
    ReachesOf P Q c (c.endStyleOnce name).1 := by
  simp only [endStyleOnce]
  split
  · exact reaches_closeInline c name
  next a ha =>
    split
    · exact (MoveOf.drop c (sublist_forget _ _)).reaches
    next style outer hdrop =>
      split
      · exact (MoveOf.close c _).reaches.tail (MoveOf.drop _ (sublist_forget _ _))
      next block deeper hblock =>
        have hframes := takeWhile_append_drop (fun f : Frame => f.id != a.id) c.spine.frames
        rw [hdrop] at hframes
        refine (MoveOf.moveOut c (List.mem_of_find?_eq_some ha) ?_ ?_).reaches
        · exact (congrArg (· ++ style :: outer) (within_eq rfl hblock)).symm.trans hframes |>.symm
        · exact id_of_drop_takeWhile hdrop

theorem reaches_endStyleRounds (n : Nat) (c : Construction) (name : String) :
    ReachesOf P Q c (endStyleRounds n c name) := by
  induction n generalizing c with
  | zero => exact .refl
  | succ n ih =>
    have ho : ReachesOf P Q c (c.endStyleOnce name).1 := reaches_endStyleOnce c name
    simp only [endStyleRounds]
    split
    next c' hc =>
      rw [hc] at ho
      exact ho.trans (ih c')
    next c' hc =>
      rw [hc] at ho
      exact ho

theorem reaches_endStyle (c : Construction) (name : String) : ReachesOf P Q c (c.endStyle name) := by
  simp only [endStyle]
  split
  · split
    · exact (MoveOf.close c 1).reaches
    · exact reaches_endStyleRounds 8 c name
  · exact reaches_endStyleRounds 8 c name

theorem reaches_endLink (c : Construction) : ReachesOf P Q c c.endLink := by
  simp only [endLink]
  split
  · exact .refl
  · exact (reaches_endStyle c "a").tail (MoveOf.drop _ (sublist_forget _ _))

/-! ## Tags -/

theorem reaches_closeItem (c : Construction) : ReachesOf P Q c c.closeItem := by
  simp only [closeItem]
  split
  · exact reaches_closeThrough c "li"
  · exact .refl

theorem roleOf_br : roleOf "br" = .lineBreak := by decide

theorem reaches_startTag (c : Construction) {name : String} {attrs : Attrs} (hp : P name attrs) :
    ReachesOf P Q c (c.startTag name attrs) := by
  have hn : roleOf name ≠ .lineBreak → name ≠ "br" := by
    rintro hr rfl
    exact hr roleOf_br
  simp only [startTag]
  split
  next hr => exact .refl
  next hr =>
    have ho : ReachesOf P Q c (c.closeParagraph.openElement name attrs) :=
      (reaches_closeParagraph c).tail (MoveOf.element _ (hn (by simp [hr])) hp)
    exact ho.tail (MoveOf.mode _ _ _)
  next hr => exact (reaches_closeParagraph c).tail (MoveOf.element _ (hn (by simp [hr])) hp)
  next hr =>
    exact ((reaches_closeItem c).trans (reaches_closeParagraph _)).tail
      (MoveOf.element _ (hn (by simp [hr])) hp)
  next hr => exact (reaches_resumeStyles c).tail (MoveOf.leaf _ hp)
  next hr =>
    exact ((reaches_endLink c).trans (reaches_resumeStyles _)).trans
      (reaches_openStyle _ (hn (by simp [hr])) hp)
  next hr => exact (reaches_resumeStyles c).trans (reaches_openStyle _ (hn (by simp [hr])) hp)
  next hr => exact (reaches_resumeStyles c).tail (MoveOf.element _ (hn (by simp [hr])) hp)

theorem reaches_endTag (c : Construction) {name : String} (hp : P name []) :
    ReachesOf P Q c (c.endTag name) := by
  simp only [endTag]
  split
  · exact (MoveOf.mode c _ _).reaches
  · exact reaches_closeThrough c name
  · split
    · exact reaches_closeParagraph c
    · exact (MoveOf.leaf c hp).reaches
  · split
    · split
      · exact reaches_closeThrough c name
      · exact .refl
    · exact .refl
  · exact reaches_startTag c hp
  · exact reaches_endStyle c name
  · exact reaches_endStyle c name
  · exact reaches_closeInline c name

/-- Whether what a token brings along has the properties of elements and of characters; elements
without attributes are brought along by end tags too. -/
def BringsOf (P : String → Attrs → Prop) (Q : Char → Prop) : Token → Prop
  | .startTag name attrs => P name attrs
  | .endTag name => P name []
  | .char x => Q x
  | _ => True

/-- Whether what a token brings along has a property that elements without attributes have. -/
def Brings (P : String → Attrs → Prop) : Token → Prop
  | .startTag name attrs => P name attrs
  | .endTag name => P name []
  | _ => True

theorem Brings.of {t : Token} (h : Brings P t) : BringsOf P (fun _ => True) t := by
  cases t with
  | startTag _ _ => exact h
  | endTag _ => exact h
  | _ => trivial

theorem reachesOf_bodyToken (c : Construction) {t : Token} (ht : BringsOf P Q t) :
    ReachesOf P Q c (c.bodyToken t) := by
  cases t with
  | char x => exact (reaches_resumeStyles c).tail (MoveOf.char _ x ht)
  | null => exact .refl
  | unseen => exact .refl
  | startTag name attrs => exact reaches_startTag c ht
  | endTag name => exact reaches_endTag c ht
  | comment => exact (MoveOf.comment c).reaches

/-- A token makes moves only. -/
theorem reachesOf_token (c : Construction) {t : Token} (ht : BringsOf P Q t) :
    ReachesOf P Q c (c.token t) := by
  have hrest : ReachesOf P Q c { c with skipsNewline := false } := (MoveOf.mode c _ _).reaches
  have hbody : ReachesOf P Q c { c with skipsNewline := false, phase := .within } :=
    (MoveOf.mode c _ _).reaches
  simp only [token]
  split
  · split
    · exact hbody.trans (reachesOf_bodyToken _ ht)
    · exact hrest
  · split
    · exact hrest
    · exact hrest.trans (reachesOf_bodyToken _ ht)
  · split
    · exact hbody.trans (reachesOf_bodyToken _ ht)
    · split
      · exact hrest.trans (reachesOf_bodyToken _ ht)
      · exact hrest

theorem reaches_token (c : Construction) {t : Token} (ht : Brings P t) : Reaches P c (c.token t) :=
  reachesOf_token c ht.of

theorem reachesOf_foldl_token {ts : List Token} (ht : ∀ t ∈ ts, BringsOf P Q t)
    (c : Construction) : ReachesOf P Q c (ts.foldl token c) := by
  induction ts generalizing c with
  | nil => exact .refl
  | cons t ts ih =>
    exact (reachesOf_token c (ht t List.mem_cons_self)).trans
      (ih (fun u hu => ht u (List.mem_cons_of_mem _ hu)) _)

theorem reaches_foldl_token {ts : List Token} (ht : ∀ t ∈ ts, Brings P t) (c : Construction) :
    Reaches P c (ts.foldl token c) :=
  reachesOf_foldl_token (fun t hm => (ht t hm).of) c

end Construction

end MessageLayout.Html
