import MessageLayout.Proofs.PendingStyles
import MessageLayout.Proofs.PlainText

/-!
# Code blocks within other elements

A code block within plain elements comes through both stages. It is written into the fragment by
itself, read into an element by itself, and laid out as a fence, with two exceptions that the
elements around it bring along. A quotation puts soft hyphens before the quote marks that start
lines of the code behind the first. And a style that a block ended while it was in force is shown
again in the next text: where that text is the code, the style comes to stand between the elements
`pre` and `code`, and what is in them is no code block.
-/

namespace MessageLayout

namespace Html

open Construction (Tidy Follows Pops Linked pending)
open Markup (Opened codeBlock)

/-! ## The block -/

/-- Nodes within elements of the given styles, the first style innermost. -/
def enclosedIn : List ActiveStyle → List Dom → List Dom
  | [], ds => ds
  | a :: styles, ds => enclosedIn styles [.element a.name a.attrs ds]

namespace Construction

variable {c : Construction}

/-- The open elements that styles are shown again in. -/
structure Shows (styles : List ActiveStyle) (fs : List Frame) : Prop where
  tags : fs.map (fun f => (f.name, f.attrs)) = styles.map fun a => (a.name, a.attrs)
  done : ∀ f ∈ fs, f.done = []

theorem Shows.closeAround {styles : List ActiveStyle} {fs : List Frame} (h : Shows styles fs)
    (inner : List Dom) : closeAround inner fs = enclosedIn styles inner := by
  induction styles generalizing fs inner with
  | nil =>
    obtain rfl : fs = [] := List.map_eq_nil_iff.mp h.tags
    rfl
  | cons a styles ih =>
    cases fs with
    | nil => cases h.tags
    | cons f fs =>
      obtain ⟨htag, htags⟩ := List.cons.inj h.tags
      obtain ⟨hname, hattrs⟩ := Prod.mk.inj htag
      have hdone := h.done f List.mem_cons_self
      have hrest : Shows styles fs := ⟨htags, fun g hg => h.done g (List.mem_cons_of_mem _ hg)⟩
      simp only [Html.closeAround, enclosedIn, Frame.close, hname, hattrs, hdone, List.reverse_nil,
        List.nil_append]
      exact ih hrest _

/-- Styles that are shown again are open in each other, the newest innermost. -/
theorem exists_resumeStyles (c : Construction) :
    ∃ fs active nextId, Shows c.pending fs ∧ c.resumeStyles
      = { c with spine := ⟨fs ++ c.spine.frames, c.spine.done⟩, active, nextId } := by
  have hfold : ∀ (styles : List ActiveStyle) (d : Construction),
      ∃ fs active nextId, Shows styles.reverse fs ∧ styles.foldl reopen d
        = { d with spine := ⟨fs ++ d.spine.frames, d.spine.done⟩, active, nextId } := by
    intro styles
    induction styles with
    | nil => exact fun d => ⟨[], d.active, d.nextId, ⟨rfl, fun _ h => absurd h List.not_mem_nil⟩, rfl⟩
    | cons a styles ih =>
      intro d
      obtain ⟨fs, active, nextId, hs, he⟩ := ih (d.reopen a)
      refine ⟨fs ++ [⟨d.nextId, a.name, a.attrs, []⟩], active, nextId, ⟨?_, ?_⟩, ?_⟩
      · rw [List.map_append, hs.tags, List.reverse_cons, List.map_append]
        rfl
      · intro f hf
        rcases List.mem_append.mp hf with hf | hf
        · exact hs.done f hf
        · rw [List.mem_singleton.mp hf]
      · rw [List.foldl_cons, he, List.append_assoc]
        rfl
  obtain ⟨fs, active, nextId, hs, he⟩ := hfold c.pending.reverse
    { c with active := c.active.drop c.pending.length }
  rw [List.reverse_reverse] at hs
  exact ⟨fs, active, nextId, hs, he⟩

/-- Where the innermost element shows the newest style, characters are put into it. -/
theorem foldl_char {f : Frame} {fs : List Frame} {done : List Dom} {a : ActiveStyle}
    {styles : List ActiveStyle} (hid : a.id = f.id) (nextId : Nat) (s t : List Char) :
    (s.map Token.char).foldl token
        ⟨.within, ⟨{ f with done := textNodes t } :: fs, done⟩, a :: styles, nextId, false⟩
      = ⟨.within, ⟨{ f with done := textNodes (t ++ s) } :: fs, done⟩, a :: styles, nextId, false⟩ := by
  induction s generalizing t with
  | nil => simp
  | cons x s ih =>
    have hstep : token ⟨.within, ⟨{ f with done := textNodes t } :: fs, done⟩, a :: styles, nextId,
          false⟩ (.char x)
        = ⟨.within, ⟨{ f with done := textNodes (t ++ [x]) } :: fs, done⟩, a :: styles, nextId,
          false⟩ := by
      have hshown := resumeStyles_of_pending (c := ⟨.within, ⟨{ f with done := textNodes t } :: fs,
        done⟩, a :: styles, nextId, false⟩) (by simp [pending, shows, hid])
      simp only [token, Bool.false_and, Bool.false_eq_true, if_false, bodyToken, hshown]
      cases t with
      | nil => rfl
      | cons y t => rfl
    rw [List.map_cons, List.foldl_cons, hstep, ih]
    simp

/-- Code is put into an element of its own, which is closed at its end tag. -/
theorem foldl_code {frames : List Frame} {root : List Dom} {active : List ActiveStyle}
    {nextId : Nat} {code : List Char} (hcode : code ≠ []) :
    (code.map Token.char ++ [Token.endTag "code"]).foldl token
        ⟨.within, ⟨⟨nextId, "code", [], []⟩ :: frames, root⟩, ⟨nextId, "code", []⟩ :: active,
          nextId + 1, false⟩
      = ⟨.within, Spine.append ⟨frames, root⟩ [.element "code" [] [.text code]], active, nextId + 1,
          false⟩ := by
  have hchars := @foldl_char ⟨nextId, "code", [], []⟩ frames root ⟨nextId, "code", []⟩ active rfl
    (nextId + 1) code []
  have hnodes : textNodes ([] ++ code) = [.text code] := by
    cases code with
    | nil => exact absurd rfl hcode
    | cons x code => rfl
  have hempty : textNodes [] = [] := rfl
  rw [hnodes, hempty] at hchars
  rw [List.foldl_append, hchars, List.foldl_cons, List.foldl_nil, token_endTag rfl]
  have hown := endStyle_own (c := ⟨.within, ⟨⟨nextId, "code", [], [.text code]⟩ :: frames, root⟩,
    ⟨nextId, "code", []⟩ :: active, nextId + 1, false⟩) rfl rfl rfl
  exact hown

theorem closeThrough_own {f : Frame} {inner frames : List Frame} {root : List Dom} {name : String}
    (hi : ∀ g ∈ inner, g.name ≠ name) (hf : f.name = name) :
    Spine.closeThrough ⟨inner ++ f :: frames, root⟩ name
      = Spine.append ⟨frames, root⟩ (closeAround [] (inner ++ [f])) := by
  have hopen : ((inner ++ f :: frames).any (·.name == name)) = true := by simp [hf]
  have hdepth : Spine.depthOf ⟨inner ++ f :: frames, root⟩ (·.name == name) = inner.length := by
    rw [Spine.depthOf, List.takeWhile_append_of_pos (by simpa using hi)]
    simp [hf]
  rw [Spine.closeThrough, if_pos hopen, hdepth, Spine.close]
  simp only [List.take_length_add_append, List.drop_length_add_append]
  rfl

/-- Closing a block in whose innermost element a node was put adds the block around the node. -/
theorem closeThrough_pre {styles : List ActiveStyle} {fs : List Frame} (hs : Shows styles fs)
    (hn : ∀ a ∈ styles, a.name ≠ "pre") (id : Nat) (frames : List Frame) (root : List Dom)
    (d : Dom) :
    (Spine.append ⟨fs ++ ⟨id, "pre", [], []⟩ :: frames, root⟩ [d]).closeThrough "pre"
      = Spine.append ⟨frames, root⟩ [.element "pre" [] (enclosedIn styles [d])] := by
  have hnames : ∀ g ∈ fs, g.name ≠ "pre" := by
    intro g hg
    have hm : (g.name, g.attrs) ∈ styles.map fun a => (a.name, a.attrs) := by
      rw [← hs.tags]
      exact List.mem_map_of_mem hg
    obtain ⟨a, ha, he⟩ := List.mem_map.mp hm
    exact (Prod.mk.inj he).1 ▸ hn a ha
  have hinner := hs.closeAround [d]
  cases fs with
  | nil =>
    have hown := @closeThrough_own ⟨id, "pre", [], [d]⟩ [] frames root "pre"
      (fun _ h => absurd h List.not_mem_nil) rfl
    rw [← hinner]
    exact hown
  | cons f fs =>
    obtain ⟨fid, name, attrs, done⟩ := f
    obtain rfl : done = [] := hs.done _ List.mem_cons_self
    have hown := @closeThrough_own ⟨id, "pre", [], []⟩ (⟨fid, name, attrs, [d]⟩ :: fs) frames root
      "pre" (List.forall_mem_cons.mpr (List.forall_mem_cons.mp hnames)) rfl
    have hclose : closeAround [] (⟨fid, name, attrs, [d]⟩ :: fs)
        = closeAround [d] (⟨fid, name, attrs, []⟩ :: fs) := rfl
    rw [Spine.closeAround_append, hclose, hinner] at hown
    exact hown

end Construction

theorem takeWhile_congr {α : Type} {p q : α → Bool} {l : List α} (h : ∀ a ∈ l, p a = q a) :
    l.takeWhile p = l.takeWhile q := by
  induction l with
  | nil => rfl
  | cons a l ih =>
    rw [List.takeWhile_cons, List.takeWhile_cons, h a List.mem_cons_self,
      ih fun b hb => h b (List.mem_cons_of_mem _ hb)]

/-- The element that is read of a code block where the given styles wait to be shown again. -/
def blockElement (styles : List ActiveStyle) (code : List Char) : Dom :=
  .element "pre" [] (enclosedIn styles [.element "code" [] [.text code]])

/-- A code block is put into the tree where the tokens before it lead to. Styles that wait to be
shown again are shown around its code. -/
theorem Placed.spine_codeTokens {c : Construction} (h : Placed c) {code : List Char}
    (hcode : code ≠ []) :
    ((codeTokens code).foldl Construction.token c).spine
      = c.closeParagraph.spine.append [blockElement c.closeParagraph.pending code] := by
  have hpre : c.token (.startTag "pre" [])
      = ⟨.within, ⟨⟨c.nextId, "pre", [], []⟩ :: c.closeParagraph.spine.frames,
          c.closeParagraph.spine.done⟩, c.active, c.nextId + 1, true⟩ :=
    Construction.token_startTag h.phase (by decide) []
  -- within the block the same styles wait to be shown again as at its place
  have hpending : pending ⟨.within, ⟨⟨c.nextId, "pre", [], []⟩ :: c.closeParagraph.spine.frames,
        c.closeParagraph.spine.done⟩, c.active, c.nextId + 1, false⟩ = c.closeParagraph.pending := by
    refine takeWhile_congr fun a ha => ?_
    have hid : (c.nextId == a.id) = false :=
      beq_eq_false_iff_ne.mpr (Nat.ne_of_gt (h.tidy.linked.active a ha))
    simp [Construction.shows, hid]
  obtain ⟨fs, active, nextId, hs, hresume⟩ := Construction.exists_resumeStyles
    ⟨.within, ⟨⟨c.nextId, "pre", [], []⟩ :: c.closeParagraph.spine.frames,
      c.closeParagraph.spine.done⟩, c.active, c.nextId + 1, false⟩
  rw [hpending] at hs
  have hne : ∀ a ∈ c.closeParagraph.pending, a.name ≠ "pre" := by
    intro a ha he
    have hb := (h.tidy.styles a (List.takeWhile_subset _ ha)).inline
    rw [he] at hb
    cases hb
  have hcodeTag : (c.token (.startTag "pre" [])).token (.startTag "code" [])
      = ⟨.within, ⟨⟨nextId, "code", [], []⟩ :: (fs ++ ⟨c.nextId, "pre", [], []⟩
          :: c.closeParagraph.spine.frames), c.closeParagraph.spine.done⟩,
          ⟨nextId, "code", []⟩ :: Construction.keptFor ⟨nextId, "code", []⟩ active, nextId + 1,
          false⟩ := by
    rw [hpre, Construction.token_startTag (fun hb => by cases hb) (by decide)]
    show (Construction.resumeStyles ⟨.within, ⟨⟨c.nextId, "pre", [], []⟩
      :: c.closeParagraph.spine.frames, c.closeParagraph.spine.done⟩, c.active, c.nextId + 1,
        false⟩).openStyle "code" [] = _
    rw [hresume, Construction.openStyle_eq]
    rfl
  have hsplit : codeTokens code = .startTag "pre" [] :: .startTag "code" []
      :: ((code.map Token.char ++ [.endTag "code"]) ++ [.endTag "pre"]) := by
    simp [codeTokens]
  rw [hsplit, List.foldl_cons, List.foldl_cons, hcodeTag, List.foldl_append,
    Construction.foldl_code hcode, List.foldl_cons, List.foldl_nil,
    Construction.token_endTag rfl]
  exact Construction.closeThrough_pre hs hne c.nextId c.closeParagraph.spine.frames
    c.closeParagraph.spine.done _

variable {blocks : Bool} {names : List String}

/-- A code block is put where nothing around hides it. -/
theorem Placed.keeps_codeTokens {c : Construction} (h : Placed c) {code : List Char}
    (hcode : code ≠ []) :
    ((codeTokens code).foldl Construction.token c).spine.Keeps
      (blockElement c.closeParagraph.pending code) := by
  rw [h.spine_codeTokens hcode]
  refine .of_append (.here (List.mem_singleton_self _)) fun f hf => ?_
  have hopen := (Construction.pops_closeParagraph c).tags_subset (List.mem_map_of_mem hf)
  exact h.not_hiding (f.id, f.name) hopen

theorem reaches_foldl (ts : List Token) (c : Construction) :
    Construction.Reaches (fun _ _ => True) c (ts.foldl Construction.token c) :=
  Construction.reaches_foldl_token (fun t _ => by cases t <;> trivial) c

/-- A code block in its place is an element of the tree, whatever stands behind it. -/
theorem keptIn_parse {before : List Char} (hb : Opened blocks names before) {code : List Char}
    (hcode : code ≠ []) (hnull : ∀ c ∈ code, c.toNat ≠ 0) (hcr : '\r' ∉ code)
    (after : List Char) :
    KeptIn (blockElement (pendingBehind before) code)
      (parse (before ++ codeBlock (Text.escapeEntity code) ++ after)) := by
  obtain ⟨rest, htokens⟩ := exists_tokens hb hnull hcr after
  have hkept := (placed_tokensBefore hb).keeps_codeTokens hcode
  have hlinked := (reaches_foldl (tokensBefore before ++ codeTokens code) .start).preserves
    (fun _ _ => Linked.move) Construction.linked_start
  rw [List.foldl_append] at hlinked
  have hrest := (reaches_foldl rest _).preserves
    (fun _ _ hm => Construction.keeps_move hm rfl) ⟨hlinked, hkept⟩
  rw [parse, htokens, List.foldl_append, List.foldl_append]
  exact hrest.2.toDoms

end Html

namespace Mrkdwn

open Html
open Markup (Opened)

variable {blocks : Bool} {names : List String}

/-! ## The fence -/

theorem enclosedIn_concat (styles : List ActiveStyle) (a : ActiveStyle) (ds : List Dom) :
    enclosedIn (styles ++ [a]) ds = [.element a.name a.attrs (enclosedIn styles ds)] := by
  induction styles generalizing ds with
  | nil => rfl
  | cons b styles ih => exact ih _

theorem textOf_enclosedIn (styles : List ActiveStyle) (ds : List Dom) :
    Dom.textOf (enclosedIn styles ds) = Dom.textOf ds := by
  induction styles generalizing ds with
  | nil => rfl
  | cons a styles ih => simp [enclosedIn, ih]

theorem anyMentions_enclosedIn {name : String} {styles : List ActiveStyle}
    (h : ∀ a ∈ styles, a.name ≠ name) (ds : List Dom) :
    Dom.anyMentions name (enclosedIn styles ds) = Dom.anyMentions name ds := by
  induction styles generalizing ds with
  | nil => rfl
  | cons a styles ih =>
    have ha : (a.name == name) = false := beq_eq_false_iff_ne.mpr (h a List.mem_cons_self)
    simp [enclosedIn, ih fun b hb => h b (List.mem_cons_of_mem _ hb), Dom.anyMentions, Dom.mentions,
      ha]

theorem codeOf_enclosedIn {styles : List ActiveStyle} (h : ∀ a ∈ styles, a.name ≠ "br")
    (ds : List Dom) : codeOf (enclosedIn styles ds) = codeOf ds := by
  induction styles generalizing ds with
  | nil => rfl
  | cons a styles ih =>
    have ha : (a.name == "br") = false := beq_eq_false_iff_ne.mpr (h a List.mem_cons_self)
    simp [enclosedIn, ih fun b hb => h b (List.mem_cons_of_mem _ hb), codeOf, codeText, ha]

theorem exists_enclosedIn (styles : List ActiveStyle) (d : Dom) :
    ∃ e, enclosedIn styles [d] = [e] := by
  induction styles generalizing d with
  | nil => exact ⟨d, rfl⟩
  | cons a styles ih => exact ih _

/-- Where code is all that a code block holds, its text is the text of the block. -/
theorem codeOf_of_fencedCode? {name : String} {d : Dom} {inner : List Dom}
    (h : fencedCode? name [d] = some inner) : codeOf inner = codeOf [d] := by
  obtain ⟨-, attrs, rest, hd⟩ := exists_of_fencedCode? h
  obtain ⟨rfl, -⟩ := List.cons.inj hd
  simp [codeOf, codeText]

/-- Whether code in elements of the given styles comes first in an element `code`: no style stands
around it, or the outermost is such an element. -/
def startsWithCode (styles : List ActiveStyle) : Bool :=
  styles.getLast?.all (·.name == "code")

/-- Styles that are shown again within a block make it no code block. -/
theorem fencedCode?_enclosedIn (styles : List ActiveStyle) (ds : List Dom) :
    (fencedCode? "pre" (enclosedIn styles [.element "code" [] ds])).isSome
      = startsWithCode styles := by
  rcases List.eq_nil_or_concat styles with rfl | ⟨styles, a, rfl⟩
  · rfl
  · rw [List.concat_eq_append, enclosedIn_concat]
    simp only [startsWithCode, List.getLast?_concat, Option.all_some, fencedCode?, beq_self_eq_true,
      Bool.true_and]
    split <;> simp_all

/-- A code block behind a text is read as a code block with its code unless a style is shown again
in it. -/
theorem isCodeBlock_blockElement {before : List Char} (hb : Opened blocks names before)
    {code shown : List Char} (hblank : Text.isAllBlank shown = false) :
    IsCodeBlock code (blockElement (pendingBehind before) shown)
      ↔ startsWithCode (pendingBehind before) = true ∧ shown = code := by
  have hbr : ∀ a ∈ pendingBehind before, a.name ≠ "br" := by
    intro a ha he
    have h := ((placed_tokensBefore hb).tidy.styles a (List.takeWhile_subset _ ha)).inline
    rw [he] at h
    exact absurd h (by decide)
  have hcode := fencedCode?_enclosedIn (pendingBehind before) [.text shown]
  have hof : ∀ inner,
      fencedCode? "pre" (enclosedIn (pendingBehind before) [.element "code" [] [.text shown]])
        = some inner → codeOf inner = shown := by
    intro inner hinner
    have hof := codeOf_enclosedIn hbr [.element "code" [] [.text shown]]
    obtain ⟨e, he⟩ := exists_enclosedIn (pendingBehind before) (.element "code" [] [.text shown])
    rw [he] at hinner hof
    rw [codeOf_of_fencedCode? hinner, hof]
    simp [codeOf, codeText]
  rw [← hcode, Option.isSome_iff_exists]
  simp only [blockElement, IsCodeBlock, Dom.isBlank, anyMentions_enclosedIn hbr, textOf_enclosedIn]
  constructor
  · rintro ⟨-, inner, hinner, rfl⟩
    exact ⟨⟨inner, hinner⟩, (hof inner hinner).symm⟩
  · rintro ⟨⟨inner, hinner⟩, rfl⟩
    exact ⟨by simp [Dom.anyMentions, Dom.mentions, hblank], inner, hinner, hof inner hinner⟩

end Mrkdwn

end MessageLayout
