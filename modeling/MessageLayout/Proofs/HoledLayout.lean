import MessageLayout.Proofs.HoledTrees
import MessageLayout.Proofs.ListLayout
import MessageLayout.Proofs.LiteralText

/-!
# The layout of links with holes

A link that mentions someone is laid out as its mention, and nothing of its content is left. What is
around it looks no further than whether it shows something. So a tree with holes in such links, and
in no code block, is laid out alike with every word that they are filled with.

    Dom.Holed b ds → layNodes … (ds.map (fill w)) = layNodes … ds        (layNodes_fill)
-/

namespace MessageLayout

open Html (hole fillText MentionTag)

theorem Text.takeWhile_of_forall {p : Char → Bool} {s : List Char} (hs : ∀ c ∈ s, p c = false) :
    s.takeWhile p = [] := by
  cases s with
  | nil => rfl
  | cons c s => rw [List.takeWhile_cons, hs c List.mem_cons_self, if_neg Bool.false_ne_true]

/-- A text of characters that are no blanks and that are not written as entities. -/
structure PlainWord (w : List Char) : Prop where
  ne_nil : w ≠ []
  blank : ∀ c ∈ w, Text.isBlank c = false
  plain : ∀ c ∈ w, c ∉ Text.reserved

theorem plainWord_hole : PlainWord [hole] :=
  ⟨by decide, Text.forall_mem_of_all (by decide), Text.forall_mem_of_all (by decide)⟩

namespace PlainWord

variable {w : List Char}

theorem itemText (h : PlainWord w) : Mrkdwn.ItemText w := by
  have hspace : ∀ c ∈ w, c ≠ ' ' := by
    rintro c hc rfl
    exact absurd (h.blank _ hc) (by decide)
  refine ⟨h.ne_nil, fun c hc hb => absurd hb (by simp [h.blank c hc]), fun hs => ?_, fun hs => ?_,
    fun hs => ?_⟩
  · exact hspace _ (List.mem_of_mem_head? hs) rfl
  · exact hspace _ (List.mem_of_mem_getLast? hs) rfl
  · exact hspace _ (hs.subset List.mem_cons_self) rfl

theorem layText (h : PlainWord w) (trims : Bool) : Mrkdwn.layText trims w = w := by
  rw [h.itemText.layText, Text.escapeEntity_eq_self_iff.mpr h.plain]

theorem space_not_mem (h : PlainWord w) : ∀ c ∈ w, decide (c = ' ') = false := by
  intro c hc
  rw [decide_eq_false_iff_not]
  rintro rfl
  exact absurd (h.blank _ hc) (by decide)

end PlainWord

/-! ## What is looked at -/

namespace Html

variable {w : List Char} {inCode : Bool} {ds : List Dom}

theorem fillText_append (w s t : List Char) : fillText w (s ++ t) = fillText w s ++ fillText w t :=
  List.flatMap_append

/-- A text shows something with a word in its place as with the hole. -/
theorem isAllBlank_fillText (h : PlainWord w) (s : List Char) :
    Text.isAllBlank (fillText w s) = Text.isAllBlank s := by
  have hword : Text.isAllBlank w = false := by
    obtain ⟨c, w', rfl⟩ := List.exists_cons_of_ne_nil h.ne_nil
    simp [Text.isAllBlank, h.blank c List.mem_cons_self]
  have hhole : Text.isBlank hole = false := by decide
  induction s with
  | nil => rfl
  | cons c s ih =>
    have hcons : fillText w (c :: s) = (if c = hole then w else [c]) ++ fillText w s := rfl
    rw [hcons, Mrkdwn.isAllBlank_append, ih]
    by_cases hc : c = hole
    · rw [if_pos hc, hword, hc]
      simp [Text.isAllBlank, hhole]
    · rw [if_neg hc]
      simp [Text.isAllBlank]

theorem isEmpty_fillText (h : w ≠ []) (s : List Char) : (fillText w s).isEmpty = s.isEmpty := by
  cases s with
  | nil => rfl
  | cons c s =>
    by_cases hc : c = hole <;> simp [fillText, hc, h]

namespace Dom

theorem isElement_fill (w : List Char) (d : Dom) : (d.fill w).isElement = d.isElement := by
  cases d <;> simp [isElement, name?]

theorem map_fill_of_inCode (w : List Char) (h : Holed true ds) : ds.map (fill w) = ds := by
  generalize hx : true = x at h
  induction h with
  | nil => rfl
  | text hs _ ih => simp [fillText_of_not_mem w hs, ih hx]
  | comment _ ih => simp [ih hx]
  | element _ _ ihc ih => simp [ihc (by simp [← hx]), ih hx]
  | label _ _ _ => cases hx

theorem textOf_fill (w : List Char) (h : Holed inCode ds) :
    textOf (ds.map (fill w)) = fillText w (textOf ds) := by
  induction h with
  | nil => rfl
  | text _ _ ih => simp [ih, fillText_append]
  | comment _ ih => simp [ih]
  | element _ _ ihc ih => simp [ihc, ih, fillText_append]
  | @label attrs ds _ _ ih =>
    rw [List.map_cons, textOf_cons, textOf_cons, ih, fillText_append]
    simp

theorem anyMentions_fill (w : List Char) (name : String) (h : Holed inCode ds) :
    anyMentions name (ds.map (fill w)) = anyMentions name ds := by
  induction h with
  | nil => rfl
  | text _ _ ih => simp [anyMentions, mentions, ih]
  | comment _ ih => simp [anyMentions, mentions, ih]
  | element _ _ ihc ih => simp [anyMentions, mentions, ihc, ih]
  | label _ _ ih => simp [anyMentions, mentions, ih]

end Dom

end Html

namespace Mrkdwn

open Html

variable {w : List Char} {d : Delimiters} {inCode : Bool} {ds : List Dom}

/-! ## Layout -/

/-- A link that mentions someone is laid out as the mention, whatever word it holds. -/
theorem layNode_mention (hw : PlainWord w) {attrs : Attrs} {href : List Char} {m : Mention}
    (hhref : attrs.lookup "href" = some href) (hm : Mention.ofHref? href = some m)
    (d : Delimiters) (trims : Bool) (place : Place) (F : Fences) :
    layNode d trims place F (.element "a" attrs [.text w]) = ⟨trimStartIf trims m.token, F⟩ := by
  have hne : href.isEmpty = false := by
    cases href with
    | nil => cases hm
    | cons c s => rfl
  have hnewline : '\n' ∉ w := fun hc => absurd (hw.blank _ hc) (by decide)
  have hinner : layNodes d "a" attrs false 0 ⟨[], F⟩ [.text w] = ⟨w, F⟩ :=
    layNodes_singleton "a" attrs false F (.text w) hnewline (by rw [layNode, hw.layText])
  have hstart : w.takeWhile (· = ' ') = [] := Text.takeWhile_of_forall hw.space_not_mem
  have hend : Text.takeEndWhile (· = ' ') w = [] := by
    rw [Text.takeEndWhile, Text.takeWhile_of_forall fun c hc =>
      hw.space_not_mem c (List.mem_reverse.mp hc), List.reverse_nil]
  have hlink : layInline d "a" attrs (Text.trimWhile (· = ' ') w) = m.token := by
    simp only [layInline, hhref, hne, Bool.false_eq_true, if_false, link, hm]
  have hblock : isBlockName "a" = false := rfl
  have hbr : ("a" == "br") = false := rfl
  have hshows : showsBlank "a" = true := rfl
  simp only [layNode, hshows, fencedCode?_of_ne (show "a" ≠ "pre" by decide), hblock, hbr, hinner,
    layAround, hstart, hend, hlink, Bool.not_true, Bool.false_and, Bool.false_eq_true, if_false,
    List.nil_append, List.append_nil]

theorem layNodes_fill_cons {n : Dom}
    (hn : ∀ trims place F, layNode d trims place F (n.fill w) = layNode d trims place F n)
    (hds : ∀ parent attrs isBlock count laid, layNodes d parent attrs isBlock count laid
        (ds.map (Dom.fill w)) = layNodes d parent attrs isBlock count laid ds)
    (parent : String) (attrs : Attrs) (isBlock : Bool) (count : Nat) (laid : Laid) :
    layNodes d parent attrs isBlock count laid ((n :: ds).map (Dom.fill w))
      = layNodes d parent attrs isBlock count laid (n :: ds) := by
  simp only [List.map_cons, layNodes, hn, Dom.isElement_fill, List.any_map, Function.comp_def,
    List.isEmpty_map, hds]

/-- Nodes with holes in links that mention someone, and not in code blocks, are laid out alike with
every word. -/
theorem layNodes_fill (hw : PlainWord w) (h : Dom.Holed inCode ds) (parent : String) (attrs : Attrs)
    (isBlock : Bool) (count : Nat) (laid : Laid) :
    layNodes d parent attrs isBlock count laid (ds.map (Dom.fill w))
      = layNodes d parent attrs isBlock count laid ds := by
  induction h generalizing parent attrs isBlock count laid with
  | nil => rfl
  | text hs _ ih =>
    refine layNodes_fill_cons (fun _ _ _ => ?_) ih parent attrs isBlock count laid
    rw [Dom.fill_text, fillText_of_not_mem w hs]
  | comment _ ih => exact layNodes_fill_cons (fun _ _ _ => rfl) ih parent attrs isBlock count laid
  | label hm _ ih =>
    refine layNodes_fill_cons (fun trims place F => ?_) ih parent attrs isBlock count laid
    obtain ⟨href, hhref, hsome⟩ := hm
    obtain ⟨m, hm⟩ := Option.isSome_iff_exists.mp hsome
    rw [layNode_mention plainWord_hole hhref hm]
    exact (congrArg (layNode d trims place F) (by simp [fillText])).trans
      (layNode_mention hw hhref hm d trims place F)
  | @element code name attrs' children ds hc _ ihc ih =>
    refine layNodes_fill_cons (fun trims place F => ?_) ih parent attrs isBlock count laid
    rw [Dom.fill_element]
    by_cases hpre : name = "pre"
    · have hcode : Dom.Holed true children := by simpa [hpre] using hc
      rw [Dom.map_fill_of_inCode w hcode]
    · have hblank : (Dom.element name attrs' (children.map (Dom.fill w))).isBlank
          = (Dom.element name attrs' children).isBlank := by
        simp only [Dom.isBlank, Dom.anyMentions_fill w _ hc, Dom.textOf_fill w hc,
          isAllBlank_fillText hw]
      have hlaid : layBlank name (children.map (Dom.fill w)) = layBlank name children := by
        simp only [layBlank, Dom.textOf_fill w hc, isEmpty_fillText hw.ne_nil]
      simp only [layNode, hblank, hlaid, fencedCode?_of_ne hpre, ihc]

theorem layBody_fill (hw : PlainWord w) (h : Dom.Holed false ds) :
    layBody d (ds.map (Dom.fill w)) = layBody d ds :=
  layNodes_fill hw h "body" [] true 0 ⟨[], []⟩

end Mrkdwn

end MessageLayout
