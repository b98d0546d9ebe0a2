import MessageLayout.Proofs.PendingStyles

/-!
# Elements that are read as they are written

Where the tags of a text nest and no start tag ends an open element, the reader builds just the
elements that the tags say. `Builds` relates such tokens to the nodes that they add. What carries the
induction is that every style in force is shown and, if there are blocks, that no paragraph is open.

    c.Settled b → Builds b ts c.spine.here done →
      ts.foldl token c is c with done in the place of c.spine.here       (Builds.foldl_token)
    Builds true (tokens html) [] done → parse html = done.reverse         (Builds.parse_eq)
-/

namespace MessageLayout.Html

open Construction (AllShown token_startTag token_endTag)

/-- The finished nodes of a place, newest first, with a further character of text. -/
def addChar (done : List Dom) (x : Char) : List Dom :=
  match done with
  | .text t :: ds => .text (t ++ [x]) :: ds
  | ds => .text [x] :: ds

/-- Whether the start tag of an element ends no element, or a paragraph if the element is a block. -/
def OpensPlainly (blocks : Bool) (name : String) : Prop :=
  roleOf name = .style ∨ roleOf name = .ordinary ∨ blocks = true ∧ roleOf name = .block

/-- Nested tokens, with the finished nodes of their place before and behind them, newest first. The
flag tells whether blocks are among them. -/
inductive Builds (blocks : Bool) : List Token → List Dom → List Dom → Prop
  | nil (done : List Dom) : Builds blocks [] done done
  | char {x : Char} {ts : List Token} {done done' : List Dom} :
      Builds blocks ts (addChar done x) done' → Builds blocks (.char x :: ts) done done'
  | null {ts : List Token} {done done' : List Dom} :
      Builds blocks ts done done' → Builds blocks (.null :: ts) done done'
  | lineBreak {ts : List Token} {done done' : List Dom} :
      Builds blocks ts (.element "br" [] [] :: done) done' →
        Builds blocks (.startTag "br" [] :: ts) done done'
  /-- A line feed right behind the start tag of a `pre` element would be lost. -/
  | element {name : String} {attrs : Attrs} {content ts : List Token}
      {inner done done' : List Dom} :
      OpensPlainly blocks name → (name = "pre" → ∀ x us, content ≠ .char x :: us) →
        Builds blocks content [] inner →
          Builds blocks ts (.element name attrs inner.reverse :: done) done' →
            Builds blocks (.startTag name attrs :: content ++ .endTag name :: ts) done done'

namespace Spine

variable (s : Spine)

@[simp] theorem here_withHere (done : List Dom) : (s.withHere done).here = done := by
  simp only [withHere]
  split <;> rfl

@[simp] theorem withHere_withHere (done done' : List Dom) :
    (s.withHere done).withHere done' = s.withHere done' := by
  obtain ⟨frames, root⟩ := s
  cases frames <;> rfl

@[simp] theorem withHere_here : s.withHere s.here = s := by
  obtain ⟨frames, root⟩ := s
  cases frames <;> rfl

theorem appendChar_eq (x : Char) : s.appendChar x = s.withHere (addChar s.here x) := by
  unfold appendChar addChar
  cases s.here with
  | nil => rfl
  | cons d ds => cases d <;> rfl

/-- An element that was opened is closed around what was read since. -/
theorem close_push (id : Nat) (name : String) (attrs : Attrs) (inner : List Dom) :
    ((s.push ⟨id, name, attrs, []⟩).withHere inner).close 1
      = s.withHere (.element name attrs inner.reverse :: s.here) := by
  simp [push, withHere, close, append, closeAround, Frame.close, here]

theorem hasOpen_push {name : String} {f : Frame} (hf : f.name ≠ name) :
    (s.push f).hasOpen name = s.hasOpen name := by
  simp [push, hasOpen, hf]

theorem hasOpen_withHere (name : String) (done : List Dom) :
    (s.withHere done).hasOpen name = s.hasOpen name := by
  obtain ⟨frames, root⟩ := s
  cases frames <;> rfl

end Spine

namespace Construction

variable {c : Construction} {blocks : Bool}

/-- Text is being read, every style in force is shown, and no paragraph is open where blocks may
follow. -/
structure Settled (blocks : Bool) (c : Construction) : Prop where
  phase : c.phase = .within
  skips : c.skipsNewline = false
  shown : c.AllShown
  old : ∀ a ∈ c.active, a.id < c.nextId
  paragraph : blocks = true → c.spine.hasOpen "p" = false

/-- The construction with other finished nodes where the next node goes, and other styles. -/
def grown (c : Construction) (done : List Dom) (active : List ActiveStyle) (nextId : Nat) :
    Construction :=
  { c with spine := c.spine.withHere done, active, nextId }

theorem Settled.entered_eq (h : c.Settled blocks) : c.entered = c := by
  obtain ⟨phase, spine, active, nextId, skips⟩ := c
  obtain rfl : phase = .within := h.phase
  obtain rfl : skips = false := h.skips
  rfl

theorem Settled.not_behind (h : c.Settled blocks) : c.phase ≠ .behind := by
  rw [h.phase]
  decide

theorem Settled.closeParagraph_eq (h : c.Settled true) : c.closeParagraph = c := by
  have hp : (c.spine.frames.any (·.name == "p")) = false := h.paragraph rfl
  simp [closeParagraph, Spine.closeThrough, hp]

theorem Settled.grown (h : c.Settled blocks) (done : List Dom) {active : List ActiveStyle} {nextId : Nat}
    (ha : active.Sublist c.active) (hn : c.nextId ≤ nextId) :
    (c.grown done active nextId).Settled blocks where
  phase := h.phase
  skips := h.skips
  shown a hm := by
    obtain ⟨p, hp, he⟩ := shows_iff.mp (h.shown a (ha.subset hm))
    refine shows_iff.mpr ⟨p, ?_, he⟩
    show p ∈ (c.spine.withHere done).tags
    rwa [Spine.tags_withHere]
  old a hm := Nat.lt_of_lt_of_le (h.old a (ha.subset hm)) hn
  paragraph hb := (Spine.hasOpen_withHere _ _ _).trans (h.paragraph hb)

theorem Settled.openElement (h : c.Settled blocks) {name : String} (hn : name ≠ "p") (attrs : Attrs) :
    (c.openElement name attrs).Settled blocks where
  phase := h.phase
  skips := h.skips
  shown := h.shown.openElement name attrs
  old a hm := Nat.lt_succ_of_lt (h.old a hm)
  paragraph hb := (Spine.hasOpen_push _ hn).trans (h.paragraph hb)

theorem keptFor_sublist (a : ActiveStyle) (styles : List ActiveStyle) :
    (keptFor a styles).Sublist styles := by
  unfold keptFor
  split
  · exact sublist_dropOldest _ _
  · exact List.Sublist.refl _

theorem Settled.openStyle (h : c.Settled blocks) {name : String} (hn : name ≠ "p") (attrs : Attrs) :
    (c.openStyle name attrs).Settled blocks where
  phase := h.phase
  skips := h.skips
  shown := h.shown.openStyle name attrs
  old a hm := by
    rw [openStyle_eq] at hm
    rcases List.mem_cons.mp hm with rfl | hm
    · exact Nat.lt_succ_self _
    · exact Nat.lt_succ_of_lt (h.old a ((keptFor_sublist _ _).subset hm))
  paragraph hb := (Spine.hasOpen_push _ hn).trans (h.paragraph hb)

/-- The end tag of a style closes its element if that is the innermost one, also if the style went
out of force. -/
theorem exists_endStyle {f : Frame} {fs : List Frame} {a : ActiveStyle} {kept : List ActiveStyle}
    (hf : c.spine.frames = f :: fs) (hid : a.id = f.id) (hname : f.name = a.name)
    (ha : c.active.Sublist (a :: kept)) (hk : ∀ b ∈ kept, b.id ≠ a.id) :
    ∃ active, active.Sublist kept ∧
      c.endStyle a.name = { c with spine := c.spine.close 1, active } := by
  rcases List.sublist_cons_iff.mp ha with hsub | ⟨styles, hactive, hsub⟩
  · have hnone : (c.active.any fun b => b.id == f.id) = false := by
      rw [List.any_eq_false]
      intro b hb he
      exact hk b (hsub.subset hb) ((eq_of_beq he).trans hid.symm)
    exact ⟨c.active, hsub, by simp [endStyle, hf, hname, hnone]⟩
  · exact ⟨styles, hsub, endStyle_own hf hactive hid⟩

theorem closeThrough_top {s : Spine} {f : Frame} {fs : List Frame} {name : String}
    (hf : s.frames = f :: fs) (hn : f.name = name) : s.closeThrough name = s.close 1 := by
  simp [Spine.closeThrough, Spine.depthOf, hf, hn]

theorem closeInline_top {f : Frame} {fs : List Frame} {name : String}
    (hf : c.spine.frames = f :: fs) (hn : f.name = name) :
    c.closeInline name = { c with spine := c.spine.close 1 } := by
  have hfind : c.spine.innermost? (fun n => n == name || isBoundary n) = some name := by
    simp [Spine.innermost?, hf, hn]
  simp [closeInline, hfind, closeThrough_top hf hn]

theorem roleOf_p : roleOf "p" = .paragraph := by decide

/-- The line feed that a `pre` tag ends with can only be the next token. -/
theorem foldl_entered {content : List Token} (hw : c.phase = .within)
    (hc : ∀ x us, content ≠ .char x :: us) (name : String) :
    (content.foldl token c).token (.endTag name)
      = (content.foldl token c.entered).token (.endTag name) := by
  cases content with
  | nil => exact (token_endTag hw name).trans (token_endTag (c := c.entered) rfl name).symm
  | cons t us =>
    have ht : c.token t = c.entered.token t := by
      obtain ⟨phase, spine, active, nextId, skips⟩ := c
      obtain rfl : phase = .within := hw
      cases t with
      | char x => exact absurd rfl (hc x us)
      | _ => simp [token, entered, Token.isChar]
    rw [List.foldl_cons, List.foldl_cons, ht]

end Construction

open Construction (Settled)

/-- The construction `d` is `c` but for the finished nodes where the next node goes, for styles that
went out of force, and for the numbers that were used. -/
def Construction.GrowsTo (c : Construction) (done : List Dom) (d : Construction) : Prop :=
  ∃ active n, active.Sublist c.active ∧ c.nextId ≤ n ∧ d = c.grown done active n

namespace Construction.GrowsTo

variable {c d e : Construction} {done done' : List Dom}

theorem of_grown (c : Construction) (done : List Dom) :
    c.GrowsTo done (c.grown done c.active c.nextId) :=
  ⟨c.active, c.nextId, List.Sublist.refl _, Nat.le_refl _, rfl⟩

theorem settled (h : c.GrowsTo done d) {blocks : Bool} (hc : c.Settled blocks) : d.Settled blocks := by
  obtain ⟨active, n, ha, hn, rfl⟩ := h
  exact hc.grown done ha hn

theorem here_eq (h : c.GrowsTo done d) : d.spine.here = done := by
  obtain ⟨active, n, -, -, rfl⟩ := h
  exact Spine.here_withHere _ _

theorem trans (h : c.GrowsTo done d) (h' : d.GrowsTo done' e) : c.GrowsTo done' e := by
  obtain ⟨active, n, ha, hn, rfl⟩ := h
  obtain ⟨active', n', ha', hn', rfl⟩ := h'
  exact ⟨active', n', ha'.trans ha, Nat.le_trans hn hn', by simp [grown]⟩

end Construction.GrowsTo

section Element

variable {c : Construction} {blocks : Bool} {name : String} {attrs : Attrs} {content : List Token}
  {inner : List Dom}

/-- What opens and ends as a style is built around what its content builds. It may go out of force
within itself. -/
theorem Construction.Settled.around (h : c.Settled blocks) (hp : name ≠ "p")
    (hopen : c.startTag name attrs = c.openStyle name attrs)
    (hclose : ∀ d : Construction, d.endTag name = d.endStyle name)
    (hgrows : (c.openStyle name attrs).GrowsTo inner
      (content.foldl Construction.token (c.openStyle name attrs))) :
    c.GrowsTo (.element name attrs inner.reverse :: c.spine.here)
      ((content.foldl Construction.token (c.startTag name attrs)).token (.endTag name)) := by
  have hkept := Construction.keptFor_sublist ⟨c.nextId, name, attrs⟩ c.active
  have hsettled := hgrows.settled (h.openStyle hp attrs)
  obtain ⟨active, n, hactive, hle, hfold⟩ := hgrows
  rw [hfold] at hsettled
  have hframes : ((c.openStyle name attrs).grown inner active n).spine.frames
      = ⟨c.nextId, name, attrs, inner⟩ :: c.spine.frames := rfl
  obtain ⟨active', hsub, hend⟩ := Construction.exists_endStyle (a := ⟨c.nextId, name, attrs⟩)
    hframes rfl rfl hactive fun b hb => Nat.ne_of_lt (h.old b (hkept.subset hb))
  refine ⟨active', n, hsub.trans hkept, Nat.le_of_succ_le hle, ?_⟩
  rw [hopen, hfold, token_endTag hsettled.phase, hsettled.entered_eq, hclose, hend]
  exact congrArg (fun s => { c with spine := s, active := active', nextId := n })
    (Spine.close_push c.spine c.nextId name attrs inner)

theorem Construction.Settled.style (h : c.Settled blocks) (hr : roleOf name = .style)
    (hgrows : (c.openStyle name attrs).GrowsTo inner
      (content.foldl Construction.token (c.openStyle name attrs))) :
    c.GrowsTo (.element name attrs inner.reverse :: c.spine.here)
      ((content.foldl Construction.token (c.startTag name attrs)).token (.endTag name)) := by
  have hp : name ≠ "p" := by
    rintro rfl
    cases Construction.roleOf_p.symm.trans hr
  have hopen : c.startTag name attrs = c.openStyle name attrs := by
    simp only [Construction.startTag, hr, h.shown.resumeStyles_eq]
  have hclose : ∀ d : Construction, d.endTag name = d.endStyle name := by
    intro d
    simp only [Construction.endTag, hr]
  exact h.around hp hopen hclose hgrows

/-- A link is built around its content where no other link is in force. -/
theorem Construction.Settled.link (h : c.Settled blocks) (hlinks : ∀ a ∈ c.active, a.name ≠ "a")
    (hgrows : (c.openStyle "a" attrs).GrowsTo inner
      (content.foldl Construction.token (c.openStyle "a" attrs))) :
    c.GrowsTo (.element "a" attrs inner.reverse :: c.spine.here)
      ((content.foldl Construction.token (c.startTag "a" attrs)).token (.endTag "a")) := by
  have hr : roleOf "a" = .link := by decide
  have hnone : c.active.find? (·.name == "a") = none := by
    rw [List.find?_eq_none]
    intro a ha heq
    exact hlinks a ha (eq_of_beq heq)
  have hopen : c.startTag "a" attrs = c.openStyle "a" attrs := by
    simp only [Construction.startTag, hr, Construction.endLink, hnone, h.shown.resumeStyles_eq]
  have hclose : ∀ d : Construction, d.endTag "a" = d.endStyle "a" := by
    intro d
    simp only [Construction.endTag, hr]
  exact h.around (by decide) hopen hclose hgrows

theorem Construction.Settled.ordinary (h : c.Settled blocks) (hr : roleOf name = .ordinary)
    (hgrows : (c.openElement name attrs).GrowsTo inner
      (content.foldl Construction.token (c.openElement name attrs))) :
    c.GrowsTo (.element name attrs inner.reverse :: c.spine.here)
      ((content.foldl Construction.token (c.startTag name attrs)).token (.endTag name)) := by
  have hp : name ≠ "p" := by
    rintro rfl
    cases Construction.roleOf_p.symm.trans hr
  have hopen : c.startTag name attrs = c.openElement name attrs := by
    simp only [Construction.startTag, hr, h.shown.resumeStyles_eq]
  have hsettled := hgrows.settled (h.openElement hp attrs)
  obtain ⟨active, n, hactive, hle, hfold⟩ := hgrows
  rw [hfold] at hsettled
  refine ⟨active, n, hactive, Nat.le_of_succ_le hle, ?_⟩
  rw [hopen, hfold, token_endTag hsettled.phase, hsettled.entered_eq,
    Construction.endTag_ordinary hr,
    Construction.closeInline_top (f := ⟨c.nextId, name, attrs, inner⟩) rfl rfl]
  exact congrArg (fun s => { c with spine := s, active, nextId := n })
    (Spine.close_push c.spine c.nextId name attrs inner)

theorem Construction.Settled.block (h : c.Settled true) (hr : roleOf name = .block)
    (hpre : name = "pre" → ∀ x us, content ≠ .char x :: us)
    (hgrows : (c.openElement name attrs).GrowsTo inner
      (content.foldl Construction.token (c.openElement name attrs))) :
    c.GrowsTo (.element name attrs inner.reverse :: c.spine.here)
      ((content.foldl Construction.token (c.startTag name attrs)).token (.endTag name)) := by
  have hp : name ≠ "p" := by
    rintro rfl
    cases Construction.roleOf_p.symm.trans hr
  have hopened := h.openElement hp attrs
  have hskip : (content.foldl Construction.token (c.startTag name attrs)).token (.endTag name)
      = (content.foldl Construction.token (c.openElement name attrs)).token (.endTag name) := by
    have hopen : c.startTag name attrs
        = { c.openElement name attrs with skipsNewline := name == "pre" } := by
      simp only [Construction.startTag, hr, h.closeParagraph_eq]
    rw [hopen]
    by_cases hname : name = "pre"
    · have hw : Construction.phase { c.openElement name attrs with skipsNewline := name == "pre" }
          = .within := h.phase
      refine (Construction.foldl_entered hw (hpre hname) name).trans ?_
      exact congrArg (fun d => (content.foldl Construction.token d).token (.endTag name))
        hopened.entered_eq
    · have hb : (name == "pre") = (c.openElement name attrs).skipsNewline :=
        (beq_eq_false_iff_ne.mpr hname).trans h.skips.symm
      rw [hb]
  have hsettled := hgrows.settled hopened
  obtain ⟨active, n, hactive, hle, hfold⟩ := hgrows
  rw [hfold] at hsettled
  refine ⟨active, n, hactive, Nat.le_of_succ_le hle, ?_⟩
  rw [hskip, hfold, token_endTag hsettled.phase, hsettled.entered_eq]
  simp only [Construction.endTag, hr]
  rw [Construction.closeThrough_top (f := ⟨c.nextId, name, attrs, inner⟩) rfl rfl]
  exact congrArg (fun s => { c with spine := s, active, nextId := n })
    (Spine.close_push c.spine c.nextId name attrs inner)

variable (attrs) in
/-- An element is built around what its content builds. -/
theorem Construction.Settled.element (h : c.Settled blocks) (hn : OpensPlainly blocks name)
    (hpre : name = "pre" → ∀ x us, content ≠ .char x :: us)
    (hcontent : ∀ d : Construction, d.Settled blocks → d.spine.here = [] →
      d.GrowsTo inner (content.foldl Construction.token d)) :
    c.GrowsTo (.element name attrs inner.reverse :: c.spine.here)
      ((content.foldl Construction.token (c.token (.startTag name attrs))).token
        (.endTag name)) := by
  have hother : name ≠ "p" ∧ name ≠ "html" := by
    have hroles : ∀ name ∈ ["p", "html"], roleOf name ≠ .style ∧ roleOf name ≠ .ordinary ∧
        roleOf name ≠ .block := by decide
    have hnot : name ∉ ["p", "html"] := fun hm => by
      obtain ⟨hs, ho, hb⟩ := hroles name hm
      exact hn.elim hs fun h => h.elim ho fun h => hb h.2
    simpa using hnot
  have hstart := token_startTag h.not_behind hother.2 attrs
  rw [h.entered_eq] at hstart
  rw [hstart]
  rcases hn with hr | hr | ⟨rfl, hr⟩
  · exact h.style hr (hcontent _ (h.openStyle hother.1 attrs) rfl)
  · exact h.ordinary hr (hcontent _ (h.openElement hother.1 attrs) rfl)
  · exact h.block hr hpre (hcontent _ (h.openElement hother.1 attrs) rfl)

end Element

/-- What nested tokens build behind the finished nodes of a place. -/
theorem Builds.foldl_token {blocks : Bool} {ts : List Token} {done done' : List Dom}
    (h : Builds blocks ts done done') {c : Construction} (hc : c.Settled blocks) (hd : c.spine.here = done) :
    c.GrowsTo done' (ts.foldl Construction.token c) := by
  induction h generalizing c with
  | nil done =>
    refine ⟨c.active, c.nextId, List.Sublist.refl _, Nat.le_refl _, ?_⟩
    simp [Construction.grown, ← hd]
  | @char x us done done' _ ih =>
    have ht : c.token (.char x) = c.grown (addChar done x) c.active c.nextId := by
      have hbody : c.token (.char x) = c.entered.bodyToken (.char x) := by
        obtain ⟨phase, spine, active, nextId, skips⟩ := c
        obtain rfl : phase = .within := hc.phase
        obtain rfl : skips = false := hc.skips
        rfl
      rw [hbody, hc.entered_eq]
      simp only [Construction.bodyToken, hc.shown.resumeStyles_eq, Spine.appendChar_eq, hd]
      rfl
    have hgrows := Construction.GrowsTo.of_grown c (addChar done x)
    rw [List.foldl_cons, ht]
    exact hgrows.trans (ih (hgrows.settled hc) hgrows.here_eq)
  | null _ ih =>
    have ht : c.token .null = c := by
      rcases Construction.token_null hc.not_behind with he | he
      · exact he.trans (by rw [← hc.skips])
      · exact he.trans hc.entered_eq
    rw [List.foldl_cons, ht]
    exact ih hc hd
  | @lineBreak us done done' _ ih =>
    have ht : c.token (.startTag "br" [])
        = c.grown (.element "br" [] [] :: done) c.active c.nextId := by
      rw [token_startTag hc.not_behind (by decide), hc.entered_eq]
      simp only [Construction.startTag, Construction.roleOf_br, hc.shown.resumeStyles_eq,
        Spine.append, hd]
      rfl
    have hgrows := Construction.GrowsTo.of_grown c (.element "br" [] [] :: done)
    rw [List.foldl_cons, ht]
    exact hgrows.trans (ih (hgrows.settled hc) hgrows.here_eq)
  | @element name attrs content us inner done done' hn hpre _ _ ihc ih =>
    have hgrows := hc.element attrs hn hpre fun d hd he => ihc hd he
    rw [hd] at hgrows
    rw [List.cons_append, List.foldl_cons, List.foldl_append, List.foldl_cons]
    exact hgrows.trans (ih (hgrows.settled hc) hgrows.here_eq)

theorem Construction.settled_start : Construction.start.entered.Settled true :=
  ⟨rfl, rfl, fun _ h => absurd h List.not_mem_nil, fun _ h => absurd h List.not_mem_nil,
    fun _ => rfl⟩

/-- A text that starts with the tag of an element opens the body with it. -/
theorem parse_eq_of_growsTo {html : List Char} {name : String} {attrs : Attrs} {ts : List Token}
    {done : List Dom} (hn : name ≠ "html") (ht : tokens html = .startTag name attrs :: ts)
    (h : Construction.start.entered.GrowsTo done
      ((Token.startTag name attrs :: ts).foldl Construction.token Construction.start.entered)) :
    parse html = done.reverse := by
  have hstart : Construction.start.token (.startTag name attrs)
      = Construction.start.entered.token (.startTag name attrs) :=
    (token_startTag (c := .start) (fun h => nomatch h) hn attrs).trans
      (token_startTag (c := Construction.start.entered) (fun h => nomatch h) hn attrs).symm
  obtain ⟨active, n, -, -, hfold⟩ := h
  rw [List.foldl_cons] at hfold
  rw [parse, ht, List.foldl_cons, hstart, hfold]
  simp [Construction.grown, Construction.entered, Construction.start, Spine.empty, Spine.withHere,
    Spine.toDoms, closeAround]

/-- A text that starts with the tag of an element is read as its tokens say. -/
theorem Builds.parse_eq {html : List Char} {done : List Dom}
    (h : Builds true (tokens html) [] done)
    (hs : ∃ name attrs ts, name ≠ "html" ∧ tokens html = .startTag name attrs :: ts) :
    parse html = done.reverse := by
  obtain ⟨name, attrs, ts, hn, ht⟩ := hs
  rw [ht] at h
  exact parse_eq_of_growsTo hn ht (h.foldl_token Construction.settled_start rfl)

end MessageLayout.Html
