import MessageLayout.Proofs.BuiltElements
import MessageLayout.Proofs.CodeInPlace

/-!
# Trees with holes

A hole is a character that stands for a word of a text. No text of a fragment holds it, since the
reader of a text keeps it apart. How a tree is built depends on the tags and on where text stands
next to text, and not on the words: filling the holes of a tree commutes with every step.

    (c.fill w).token t = (c.token t).fill w, if `t` is no hole           (fill_token)
    (w.map .char).foldl token (c.fill w) = (c.token (.char hole)).fill w (foldl_token_word)
    (fillTokens w ts).foldl token start = (ts.foldl token start).fill w  (foldl_token_fillTokens)
-/

namespace MessageLayout.Html

/-! ## Filling -/

/-- The character that stands for a word. -/
def hole : Char := '\x00'

/-- The text with its holes filled. -/
def fillText (w s : List Char) : List Char :=
  s.flatMap fun c => if c = hole then w else [c]

mutual

/-- The node with the holes of its texts filled. -/
def Dom.fill (w : List Char) : Dom → Dom
  | .text content => .text (fillText w content)
  | .element name attrs children => .element name attrs (Dom.fillAll w children)
  | .comment => .comment

/-- The nodes with the holes of their texts filled. -/
def Dom.fillAll (w : List Char) : List Dom → List Dom
  | [] => []
  | d :: ds => d.fill w :: Dom.fillAll w ds

end

variable (w : List Char)

theorem fillText_of_not_mem {s : List Char} (h : hole ∉ s) : fillText w s = s := by
  induction s with
  | nil => rfl
  | cons c s ih =>
    simp only [List.mem_cons, not_or] at h
    simp only [fillText] at ih
    simp [fillText, Ne.symm h.1, ih h.2]

theorem fillText_concat_hole (s : List Char) : fillText w (s ++ [hole]) = fillText w s ++ w := by
  simp [fillText]

namespace Dom

theorem fillAll_eq_map (ds : List Dom) : fillAll w ds = ds.map (fill w) := by
  induction ds with
  | nil => rfl
  | cons d ds ih => simp [fillAll, ih]

@[simp] theorem fill_text (s : List Char) : (text s).fill w = text (fillText w s) := rfl

@[simp] theorem fill_comment : comment.fill w = comment := rfl

@[simp] theorem fill_element (name : String) (attrs : Attrs) (ds : List Dom) :
    (element name attrs ds).fill w = element name attrs (ds.map (fill w)) := by
  simp [fill, fillAll_eq_map]

end Dom

/-- The open element with the holes of its children filled. -/
def Frame.fill (f : Frame) : Frame :=
  { f with done := f.done.map (Dom.fill w) }

@[simp] theorem Frame.id_fill (f : Frame) : (f.fill w).id = f.id := rfl

@[simp] theorem Frame.name_fill (f : Frame) : (f.fill w).name = f.name := rfl

@[simp] theorem Frame.attrs_fill (f : Frame) : (f.fill w).attrs = f.attrs := rfl

@[simp] theorem Frame.done_fill (f : Frame) : (f.fill w).done = f.done.map (Dom.fill w) := rfl

theorem closeAround_fill (inner : List Dom) (fs : List Frame) :
    closeAround (inner.map (Dom.fill w)) (fs.map (Frame.fill w))
      = (closeAround inner fs).map (Dom.fill w) := by
  induction fs generalizing inner with
  | nil => rfl
  | cons f fs ih =>
    rw [closeAround, ← ih]
    simp [closeAround, Frame.close]

/-! ## The spine -/

/-- The spine with the holes of its texts filled. -/
def Spine.fill (s : Spine) : Spine :=
  ⟨s.frames.map (Frame.fill w), s.done.map (Dom.fill w)⟩

namespace Spine

variable (s : Spine)

@[simp] theorem frames_fill : (s.fill w).frames = s.frames.map (Frame.fill w) := rfl

@[simp] theorem done_fill : (s.fill w).done = s.done.map (Dom.fill w) := rfl

theorem toDoms_fill : (s.fill w).toDoms = s.toDoms.map (Dom.fill w) := by
  have h := closeAround_fill w [] s.frames
  rw [List.map_nil] at h
  simp [toDoms, h]

theorem here_fill : (s.fill w).here = s.here.map (Dom.fill w) := by
  obtain ⟨frames, done⟩ := s
  cases frames <;> rfl

theorem withHere_fill (done : List Dom) :
    (s.fill w).withHere (done.map (Dom.fill w)) = (s.withHere done).fill w := by
  obtain ⟨frames, root⟩ := s
  cases frames <;> rfl

theorem append_fill (ds : List Dom) :
    (s.fill w).append (ds.map (Dom.fill w)) = (s.append ds).fill w := by
  rw [append, append, here_fill, ← withHere_fill]
  simp

theorem append_fill_leaf (name : String) (attrs : Attrs) :
    (s.fill w).append [.element name attrs []] = (s.append [.element name attrs []]).fill w :=
  append_fill w s [.element name attrs []]

theorem append_fill_comment :
    (s.fill w).append [.comment] = (s.append [.comment]).fill w :=
  append_fill w s [.comment]

/-- A character is added to the text before it, filled or not. -/
theorem appendChar_fill {c : Char} (hc : c ≠ hole) :
    (s.fill w).appendChar c = (s.appendChar c).fill w := by
  have hone : Dom.fill w (.text [c]) = .text [c] := by simp [fillText, hc]
  simp only [appendChar, here_fill]
  cases s.here with
  | nil => simp only [List.map_nil, ← withHere_fill, List.map_cons, hone]
  | cons d ds =>
    cases d <;> simp [← withHere_fill, fillText, hc]

theorem close_fill (n : Nat) : (s.fill w).close n = (s.close n).fill w := by
  have hclosed := closeAround_fill w [] (s.frames.take n)
  rw [List.map_nil, List.map_take] at hclosed
  have hrest := append_fill w ⟨s.frames.drop n, s.done⟩ (closeAround [] (s.frames.take n))
  rw [close, close, ← hrest, frames_fill, hclosed]
  simp [fill]

theorem closeThrough_fill (name : String) :
    (s.fill w).closeThrough name = (s.closeThrough name).fill w := by
  have hdepth : (s.fill w).depthOf (·.name == name) = s.depthOf (·.name == name) := by
    simp [depthOf, List.takeWhile_map, Function.comp_def]
  simp only [closeThrough, hdepth, close_fill, frames_fill, List.any_map, Function.comp_def,
    Frame.name_fill]
  split <;> rfl

@[simp] theorem hasOpen_fill (name : String) : (s.fill w).hasOpen name = s.hasOpen name := by
  simp [hasOpen, Function.comp_def]

@[simp] theorem innermost?_fill (p : String → Bool) :
    (s.fill w).innermost? p = s.innermost? p := by
  simp [innermost?, Function.comp_def]

end Spine

/-! ## The construction -/

namespace Construction

/-- The construction with the holes of its texts filled. -/
def fill (c : Construction) : Construction :=
  { c with spine := c.spine.fill w }

variable (c : Construction)

@[simp] theorem phase_fill : (c.fill w).phase = c.phase := rfl

@[simp] theorem spine_fill : (c.fill w).spine = c.spine.fill w := rfl

@[simp] theorem active_fill : (c.fill w).active = c.active := rfl

@[simp] theorem nextId_fill : (c.fill w).nextId = c.nextId := rfl

@[simp] theorem skipsNewline_fill : (c.fill w).skipsNewline = c.skipsNewline := rfl

theorem openElement_fill (name : String) (attrs : Attrs) :
    (c.fill w).openElement name attrs = (c.openElement name attrs).fill w := rfl

theorem closeThrough_fill (name : String) :
    { c.fill w with spine := (c.fill w).spine.closeThrough name }
      = ({ c with spine := c.spine.closeThrough name } : Construction).fill w := by
  simp only [fill, Spine.closeThrough_fill]

theorem closeParagraph_fill : (c.fill w).closeParagraph = c.closeParagraph.fill w :=
  closeThrough_fill w c "p"

theorem shows_fill (a : ActiveStyle) : (c.fill w).shows a = c.shows a := by
  simp [shows, Function.comp_def]

theorem foldl_reopen_fill (styles : List ActiveStyle) :
    styles.foldl reopen (c.fill w) = (styles.foldl reopen c).fill w := by
  induction styles generalizing c with
  | nil => rfl
  | cons a styles ih => exact ih (c.reopen a)

theorem resumeStyles_fill : (c.fill w).resumeStyles = c.resumeStyles.fill w := by
  simp only [resumeStyles, shows_fill, active_fill]
  exact foldl_reopen_fill w
    { c with active := c.active.drop (c.active.takeWhile fun a => !c.shows a).length } _

theorem openStyle_fill (name : String) (attrs : Attrs) :
    (c.fill w).openStyle name attrs = (c.openStyle name attrs).fill w := rfl

theorem closeInline_fill (name : String) :
    (c.fill w).closeInline name = (c.closeInline name).fill w := by
  simp only [closeInline, spine_fill, Spine.innermost?_fill]
  split
  · split
    · exact closeThrough_fill w c name
    · rfl
  · rfl

/-- Copies are made of the tags of the elements and hold nothing. -/
theorem copyBetween_fill (fs : List Frame) (passed : Nat) (k : Copies) :
    copyBetween passed (fs.map (Frame.fill w)) k = copyBetween passed fs k := by
  induction fs generalizing passed k with
  | nil => rfl
  | cons f fs ih =>
    simp only [List.map_cons, copyBetween, Frame.id_fill, Frame.name_fill, Frame.attrs_fill, ih]
    rfl

theorem map_fill_copyBetween (fs : List Frame) (passed : Nat) {k : Copies}
    (hk : k.frames.map (Frame.fill w) = k.frames) :
    (copyBetween passed fs k).frames.map (Frame.fill w) = (copyBetween passed fs k).frames :=
  copyBetween_preserves (motive := fun k => k.frames.map (Frame.fill w) = k.frames)
    (fun _ _ _ h => h) (fun _ _ _ h => by simp [h, Frame.fill]) passed hk

theorem moveOut_fill (a : ActiveStyle) (deeper : List Frame) (block : Frame) (between : List Frame)
    (style : Frame) (outer : List Frame) :
    (c.fill w).moveOut a (deeper.map (Frame.fill w)) (block.fill w) (between.map (Frame.fill w))
        (style.fill w) (outer.map (Frame.fill w))
      = (c.moveOut a deeper block between style outer).fill w := by
  have hclosed := closeAround_fill w [] (between ++ [style])
  rw [List.map_nil, List.map_append, List.map_singleton] at hclosed
  have hbase := Spine.append_fill w ⟨outer, c.spine.done⟩ (closeAround [] (between ++ [style]))
  simp only [Spine.fill] at hbase
  have hcopies := map_fill_copyBetween w between 0 (k := ⟨[], c.active, c.nextId, none⟩) rfl
  simp only [moveOut, fill, Spine.fill, copyBetween_fill, hclosed, hbase, List.map_append,
    List.map_cons, hcopies]
  rfl

theorem endStyleOnce_fill (name : String) :
    (c.fill w).endStyleOnce name
      = ((c.endStyleOnce name).1.fill w, (c.endStyleOnce name).2) := by
  simp only [endStyleOnce, active_fill, closeInline_fill]
  cases c.active.find? (·.name == name) with
  | none => rfl
  | some a =>
    simp only [spine_fill, Spine.frames_fill, List.takeWhile_map, Function.comp_def, Frame.id_fill,
      List.length_map, ← List.map_drop, Spine.close_fill]
    cases c.spine.frames.drop (c.spine.frames.takeWhile (·.id != a.id)).length with
    | nil => rfl
    | cons style outer =>
      simp only [List.map_cons, ← List.map_reverse, List.takeWhile_map, Function.comp_def,
        Frame.name_fill, List.length_map, ← List.map_take]
      cases ((c.spine.frames.takeWhile (·.id != a.id)).take _).reverse with
      | nil => rfl
      | cons block deeper =>
        simp only [List.map_cons, ← List.map_reverse, moveOut_fill]

theorem endStyleRounds_fill (n : Nat) (name : String) :
    endStyleRounds n (c.fill w) name = (endStyleRounds n c name).fill w := by
  induction n generalizing c with
  | zero => rfl
  | succ n ih =>
    simp only [endStyleRounds, endStyleOnce_fill]
    obtain ⟨c', due⟩ := c.endStyleOnce name
    cases due with
    | true => exact ih c'
    | false => rfl

theorem endStyle_fill (name : String) : (c.fill w).endStyle name = (c.endStyle name).fill w := by
  simp only [endStyle, spine_fill, Spine.frames_fill, endStyleRounds_fill, active_fill,
    Spine.close_fill]
  cases c.spine.frames with
  | nil => rfl
  | cons f fs =>
    simp only [List.map_cons, Frame.name_fill, Frame.id_fill]
    rw [apply_ite (fill w)]
    rfl

theorem endLink_fill : (c.fill w).endLink = c.endLink.fill w := by
  simp only [endLink, active_fill, endStyle_fill]
  split <;> rfl

theorem closeItem_fill : (c.fill w).closeItem = c.closeItem.fill w := by
  simp only [closeItem, spine_fill, Spine.innermost?_fill]
  split
  · exact closeThrough_fill w c "li"
  · rfl

/-! ## Tokens -/

theorem startTag_fill (name : String) (attrs : Attrs) :
    (c.fill w).startTag name attrs = (c.startTag name attrs).fill w := by
  simp only [startTag]
  split
  · rfl
  · rw [closeParagraph_fill]
    rfl
  · rw [closeParagraph_fill]
    rfl
  · rw [closeItem_fill, closeParagraph_fill]
    rfl
  · simp only [resumeStyles_fill, spine_fill, Spine.append_fill_leaf]
    rfl
  · rw [endLink_fill, resumeStyles_fill, openStyle_fill]
  · rw [resumeStyles_fill, openStyle_fill]
  · rw [resumeStyles_fill, openElement_fill]

theorem endTag_fill (name : String) : (c.fill w).endTag name = (c.endTag name).fill w := by
  simp only [endTag, spine_fill, Spine.hasOpen_fill, Spine.innermost?_fill]
  split
  · rfl
  · exact closeThrough_fill w c name
  · split
    · exact closeParagraph_fill w c
    · rw [Spine.append_fill_leaf]
      rfl
  · split
    · split
      · exact closeThrough_fill w c name
      · rfl
    · rfl
  · exact startTag_fill w c name []
  · exact endStyle_fill w c name
  · exact endStyle_fill w c name
  · exact closeInline_fill w c name

theorem bodyToken_fill {t : Token} (ht : t.isChar hole = false) :
    (c.fill w).bodyToken t = (c.bodyToken t).fill w := by
  cases t with
  | char x =>
    have hx : x ≠ hole := by simpa [Token.isChar] using ht
    simp only [bodyToken, resumeStyles_fill, spine_fill, Spine.appendChar_fill w _ hx]
    rfl
  | null => rfl
  | unseen => rfl
  | startTag name attrs => exact startTag_fill w c name attrs
  | endTag name => exact endTag_fill w c name
  | comment =>
    simp only [bodyToken, spine_fill, Spine.append_fill_comment]
    rfl

/-- A token other than a hole does the same to a tree, filled or not. -/
theorem fill_token {t : Token} (ht : t.isChar hole = false) :
    (c.fill w).token t = (c.token t).fill w := by
  have hbody := fun c' : Construction => bodyToken_fill w c' ht
  have hrest := hbody { c with skipsNewline := false }
  have hentered := hbody { c with skipsNewline := false, phase := .within }
  simp only [token, phase_fill, skipsNewline_fill]
  split
  · split
    · exact hentered
    · rfl
  · rw [apply_ite (fill w), ← hrest]
    rfl
  · split
    · exact hentered
    · split
      · exact hrest
      · rfl

/-! ## Words -/

/-- Behind styles that are shown again no style waits. -/
theorem pending_resumeStyles : c.resumeStyles.pending = [] := by
  show (c.pending.reverse.foldl reopen
    { c with active := c.active.drop c.pending.length }).pending = []
  obtain hnone | ⟨styles, a, hlast⟩ := List.eq_nil_or_concat c.pending.reverse
  · have hpending : c.pending = [] := List.reverse_eq_nil_iff.mp hnone
    rw [hpending]
    exact hpending
  · rw [hlast, List.concat_eq_append, List.foldl_append]
    -- the last style was shown by an element of its own
    simp [pending, reopen, openElement, shows, Spine.push]

theorem entered_resumeStyles : c.entered.resumeStyles.entered = c.entered.resumeStyles := by
  obtain ⟨fs, active, nextId, -, he⟩ := exists_resumeStyles c.entered
  rw [he]
  rfl

theorem token_of_opensBody {t : Token} (ho : opensBody t = true) (hr : reentersBody t = true)
    (hn : t.isChar '\n' = false) : c.token t = c.entered.bodyToken t := by
  obtain ⟨phase, spine, active, nextId, skips⟩ := c
  cases phase <;> simp [token, entered, ho, hr, hn]

theorem token_char_eq {x : Char} (hx : isSpace x = false) :
    c.token (.char x) = c.entered.bodyToken (.char x) := by
  have hn : x ≠ '\n' := by
    rintro rfl
    exact absurd hx (by decide)
  exact token_of_opensBody c (by simp [opensBody, hx]) (by simp [reentersBody, hx])
    (by simp [Token.isChar, hn])

variable {w c} in
/-- A character that is no space is added to the text where no style waits. -/
theorem token_char_of_pending (hc : c.entered = c) (hp : c.pending = []) {x : Char}
    (hx : isSpace x = false) : c.token (.char x) = { c with spine := c.spine.appendChar x } := by
  rw [token_char_eq c hx, hc]
  simp only [bodyToken, resumeStyles_of_pending hp]

variable {w c} in
theorem foldl_token_chars (hc : c.entered = c) (hp : c.pending = [])
    (hw : ∀ x ∈ w, isSpace x = false) :
    (w.map .char).foldl token c = { c with spine := w.foldl Spine.appendChar c.spine } := by
  induction w generalizing c with
  | nil => rfl
  | cons x w ih =>
    obtain ⟨hx, hw⟩ := List.forall_mem_cons.mp hw
    have hsame : ({ c with spine := c.spine.appendChar x } : Construction).pending = [] := by
      have hshows : ∀ a, ({ c with spine := c.spine.appendChar x } : Construction).shows a
          = c.shows a := fun a => by rw [Bool.eq_iff_iff, shows_iff, shows_iff, Spine.tags_appendChar]
      rw [← hp, pending, pending]
      simp only [hshows]
    rw [List.map_cons, List.foldl_cons, token_char_of_pending hc hp hx, ih ?_ hsame hw]
    · rfl
    · exact congrArg (fun d : Construction => { d with spine := c.spine.appendChar x }) hc

end Construction

namespace Spine

variable {w} (s : Spine)

theorem foldl_appendChar {t : List Char} {ds : List Dom} (h : s.here = .text t :: ds) :
    w.foldl appendChar s = s.withHere (.text (t ++ w) :: ds) := by
  induction w generalizing s t with
  | nil => rw [List.append_nil, ← h, withHere_here, List.foldl_nil]
  | cons x w ih =>
    rw [List.foldl_cons, appendChar_eq, h, addChar, ih (t := t ++ [x]) _ (here_withHere _ _),
      withHere_withHere, List.append_assoc, List.singleton_append]

/-- A word is added where a hole would be. -/
theorem foldl_appendChar_fill (hne : w ≠ []) :
    w.foldl appendChar (s.fill w) = (s.appendChar hole).fill w := by
  have htext : ∀ {t ds}, s.here = .text t :: ds →
      w.foldl appendChar (s.fill w) = (s.appendChar hole).fill w := by
    intro t ds h
    have hfilled : (s.fill w).here = .text (fillText w t) :: ds.map (Dom.fill w) := by
      rw [here_fill, h]
      rfl
    rw [foldl_appendChar _ hfilled, appendChar_eq, h, addChar, ← withHere_fill]
    simp [fillText_concat_hole]
  have hother : addChar s.here hole = .text [hole] :: s.here →
      (∀ x, addChar (s.fill w).here x = .text [x] :: (s.fill w).here) →
        w.foldl appendChar (s.fill w) = (s.appendChar hole).fill w := by
    intro h hfilled
    obtain ⟨x, w', rfl⟩ := List.exists_cons_of_ne_nil hne
    rw [List.foldl_cons, appendChar_eq (s.fill _), hfilled, foldl_appendChar _ (here_withHere _ _),
      withHere_withHere, appendChar_eq, h, ← withHere_fill, List.map_cons, ← here_fill]
    simp [fillText]
  cases hs : s.here with
  | nil => exact hother (by rw [hs]; rfl) fun x => by rw [here_fill, hs]; rfl
  | cons d ds =>
    cases d with
    | text t => exact htext hs
    | element name attrs children =>
      exact hother (by rw [hs]; rfl) fun x => by rw [here_fill, hs]; simp [addChar]
    | comment => exact hother (by rw [hs]; rfl) fun x => by rw [here_fill, hs]; rfl

end Spine

namespace Construction

variable {w} (c : Construction)

/-- A character that is no space is read where the styles are shown that wait. -/
theorem token_char_resumed {x : Char} (hx : isSpace x = false) :
    c.token (.char x) = c.entered.resumeStyles.token (.char x) := by
  rw [token_char_of_pending (entered_resumeStyles c) (pending_resumeStyles _) hx,
    token_char_eq c hx]
  rfl

/-- A word is read as a hole is. -/
theorem foldl_token_word (hne : w ≠ []) (hw : ∀ x ∈ w, isSpace x = false) :
    (w.map .char).foldl token (c.fill w) = (c.token (.char hole)).fill w := by
  have hresumed : (c.fill w).entered.resumeStyles = c.entered.resumeStyles.fill w :=
    resumeStyles_fill w c.entered
  have hsplit : (w.map .char).foldl token (c.fill w)
      = (w.map .char).foldl token (c.entered.resumeStyles.fill w) := by
    obtain ⟨x, w', hw'⟩ := List.exists_cons_of_ne_nil hne
    rw [← hresumed, hw', List.map_cons, List.foldl_cons, List.foldl_cons,
      token_char_resumed _ (hw x (by simp [hw']))]
  have hentered := entered_resumeStyles (c.fill w)
  have hpending := pending_resumeStyles (c.fill w).entered
  rw [hresumed] at hentered hpending
  rw [hsplit, foldl_token_chars hentered hpending hw,
    token_char_resumed c (by decide), token_char_of_pending (entered_resumeStyles c)
      (pending_resumeStyles _) (by decide), spine_fill, Spine.foldl_appendChar_fill _ hne]
  rfl

end Construction

/-- The tokens with the holes filled. -/
def fillTokens (w : List Char) (ts : List Token) : List Token :=
  ts.flatMap fun t => if t.isChar hole then w.map .char else [t]

/-- Filling the holes of a text fills those of the tree. -/
theorem foldl_token_fillTokens {w : List Char} (hne : w ≠ []) (hw : ∀ x ∈ w, isSpace x = false)
    (ts : List Token) (c : Construction) :
    (fillTokens w ts).foldl Construction.token (c.fill w)
      = (ts.foldl Construction.token c).fill w := by
  induction ts generalizing c with
  | nil => rfl
  | cons t ts ih =>
    have hcut : fillTokens w (t :: ts)
        = (if t.isChar hole then w.map .char else [t]) ++ fillTokens w ts := rfl
    rw [hcut, List.foldl_append, List.foldl_cons, ← ih]
    congr 1
    cases hh : t.isChar hole with
    | true =>
      obtain rfl : t = .char hole := by
        cases t <;> simp_all [Token.isChar]
      exact Construction.foldl_token_word c hne hw
    | false => exact Construction.fill_token w c hh

end MessageLayout.Html
