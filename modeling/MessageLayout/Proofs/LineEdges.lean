import Mathlib.Data.List.Chain
import MessageLayout.Proofs.DelimitedText
import MessageLayout.Proofs.TextEnds

/-!
# Edges of styled lines

In a document of styles and line breaks, spaces stand alone: none follows a space, a line feed or a
break mark, and no line feed follows a space. Since the spaces at the ends of an element are moved
outside, the text of a line that a style wraps starts with no space, and the only space that it can
end with stands before the mark of a line break: ends are trimmed once for the element, and the mark
is still there.

    EveryOf StyleOrBreak ns → Spaced (layNodes … ns).text                     (spaced_layNodes)
    EveryOf StyleOrBreak ns → EveryOf (HugsLines d) ns                   (everyOf_hugsLines)
-/

namespace MessageLayout

open Text (escapeEntity squeezeFrom)

namespace Mrkdwn

open Html

/-! ## Spaces that stand alone -/

/-- Two characters that may follow each other: no space behind a space, a line feed or the end of a
break mark, no line feed behind a space, and no break mark right behind another. -/
def Apart (a b : Char) : Prop :=
  (b = ' ' → a ∉ [' ', '\n', '>']) ∧ (b = '\n' → a ≠ ' ') ∧ (b = '<' → a ≠ '>')

instance (a b : Char) : Decidable (Apart a b) :=
  inferInstanceAs (Decidable (_ ∧ _))

/-- A text whose spaces stand alone, which starts with no line feed and ends with no break mark. -/
structure Spaced (s : List Char) : Prop where
  apart : s.IsChain Apart
  first : s.head? ≠ some '\n'
  last : s.getLast? ≠ some '>'

variable {d : Delimiters} {s t u : List Char} {c : Char}

theorem apart_of_not_mem {a b : Char} (hb : b ∉ [' ', '\n', '<']) : Apart a b := by
  simp only [List.mem_cons, List.not_mem_nil, or_false, not_or] at hb
  exact ⟨fun e => absurd e hb.1, fun e => absurd e hb.2.1, fun e => absurd e hb.2.2⟩

theorem apart_of_not_mem_left {a b : Char} (ha : a ∉ [' ', '\n', '>']) : Apart a b := by
  have hne := ha
  simp only [List.mem_cons, List.not_mem_nil, or_false, not_or] at hne
  exact ⟨fun _ => ha, fun _ => hne.1, fun _ => hne.2.2⟩

theorem isChain_of_not_mem (h : ∀ c ∈ s, c ∉ [' ', '\n', '<']) : s.IsChain Apart := by
  induction s with
  | nil => exact .nil
  | cons c s ih =>
    obtain ⟨-, hs⟩ := List.forall_mem_cons.mp h
    exact List.isChain_cons.mpr ⟨fun y hy => apart_of_not_mem (hs y (List.mem_of_mem_head? hy)), ih hs⟩

namespace Spaced

theorem nil : Spaced [] := ⟨.nil, nofun, nofun⟩

/-- Spaces at the start are taken away up to a character that is no line feed. -/
theorem dropSpaces (h : Spaced s) : Spaced (s.dropWhile (· = ' ')) := by
  have hcut := List.takeWhile_append_dropWhile (p := (· = ' ')) (l := s)
  have happend : (s.takeWhile (· = ' ') ++ s.dropWhile (· = ' ')).IsChain Apart := hcut.symm ▸ h.apart
  refine ⟨happend.right_of_append, fun hhead => ?_, fun hlast => ?_⟩
  · by_cases hnil : s.takeWhile (· = ' ') = []
    · rw [hnil, List.nil_append] at hcut
      exact h.first (hcut ▸ hhead)
    · have hspace : (s.takeWhile (· = ' ')).getLast? = some ' ' := by
        rw [List.getLast?_eq_some_getLast hnil, Text.eq_of_mem_takeWhile (List.getLast_mem hnil)]
      exact ((List.isChain_append.mp happend).2.2 ' ' hspace '\n' hhead).2.1 rfl rfl
  · refine h.last ?_
    rw [← hcut, List.getLast?_append, hlast]
    rfl

theorem trimStartIf (trims : Bool) (h : Spaced s) : Spaced (Mrkdwn.trimStartIf trims s) := by
  cases trims with
  | false => exact h
  | true => exact h.dropSpaces

/-- Line feeds are not added, and none is taken away that stands by itself, where two texts meet. -/
theorem exists_join (s : List Char) (ht : t.head? ≠ some '\n') :
    ∃ u, u <+: s ∧ u.getLast? = s.getLast? ∧ Mrkdwn.join s t = u ++ t := by
  have hleading := leadingNewlines_eq_zero.mpr ht
  have hs := trimEndWhile_append_trailingNewlines s
  refine ⟨Text.trimEndWhile (· = '\n') s ++ List.replicate (min 2 (trailingNewlines s)) '\n', ?_, ?_, ?_⟩
  · obtain ⟨n, hn⟩ := Nat.exists_eq_add_of_le (Nat.min_le_right 2 (trailingNewlines s))
    refine ⟨List.replicate n '\n', ?_⟩
    rw [List.append_assoc, List.replicate_append_replicate, ← hn, hs]
  · conv_rhs => rw [← hs]
    cases trailingNewlines s with
    | zero => rfl
    | succ n =>
      obtain ⟨m, hm⟩ : ∃ m, min 2 (n + 1) = m + 1 := ⟨min 1 n, by omega⟩
      rw [hm, List.replicate_succ', List.replicate_succ', ← List.append_assoc, ← List.append_assoc,
        List.getLast?_concat, List.getLast?_concat]
  · rw [Mrkdwn.join, hleading, Nat.max_zero, dropWhile_of_head?_ne ht]

theorem join (hs : Spaced s) (ht : Spaced t)
    (hspace : t.head? = some ' ' → s.getLast? ≠ some ' ' ∧ s.getLast? ≠ some '\n') :
    Spaced (Mrkdwn.join s t) := by
  obtain ⟨u, ⟨v, rfl⟩, hlast, hjoin⟩ := exists_join s ht.first
  rw [hjoin]
  refine ⟨List.isChain_append.mpr ⟨hs.apart.left_of_append, ht.apart, fun x hx y hy => ?_⟩, ?_, ?_⟩
  · rw [hlast, Option.mem_def] at hx
    rw [Option.mem_def] at hy
    have hbracket : x ≠ '>' := fun e => hs.last (e ▸ hx)
    refine ⟨fun e => ?_, fun e => absurd (e ▸ hy) ht.first, fun _ => hbracket⟩
    obtain ⟨hsp, hnl⟩ := hspace (e ▸ hy)
    simp only [List.mem_cons, List.not_mem_nil, or_false, not_or]
    exact ⟨fun e => hsp (e ▸ hx), fun e => hnl (e ▸ hx), hbracket⟩
  · cases u with
    | nil => exact ht.first
    | cons c u => exact hs.first
  · rw [List.getLast?_append, hlast]
    intro h
    rcases Option.or_eq_some_iff.mp h with h | ⟨-, h⟩
    · exact ht.last h
    · exact hs.last h

end Spaced

/-! ## Spaces under delimiters -/

theorem apart_of_mem_delimiterChars (hc : c ∈ zeroWidthSpace :: delimiterChars) (a : Char) :
    Apart a c ∧ Apart c a := by
  have hne := not_mem_of_mem_delimiterChars hc
  simp only [List.mem_cons, List.not_mem_nil, or_false, not_or] at hne
  exact ⟨apart_of_not_mem (by simp [hne]), apart_of_not_mem_left (by simp [hne])⟩

namespace WithDelimiters

/-- Delimiters do not bring spaces together. -/
theorem apart (h : WithDelimiters s t) (hs : s.IsChain Apart) : t.IsChain Apart :=
  h.isChain (fun _ hc => apart_of_mem_delimiterChars hc) hs

theorem spaced (h : WithDelimiters s t) (hs : Spaced s) : Spaced t :=
  ⟨h.apart hs.apart, fun ht => hs.first (h.head? (by decide) ht),
    fun ht => hs.last (h.getLast? (by decide) ht)⟩

end WithDelimiters

/-! ## Styles and line breaks -/

/-- A style, or a line break. -/
def StyleOrBreak (name : String) (_ : Attrs) (_ : List Dom) : Prop :=
  name = "br" ∨ name ∈ styleNames

/-! ## What is shown -/

mutual

theorem blank_of_firstShownIn : (n : Dom) → firstShownIn n = .nothing →
    n.mentions "br" = false ∧ Text.isAllBlank n.textContent = true
  | .text content, h => by
    simp only [firstShownIn] at h
    split at h
    next hall =>
      refine ⟨by simp [Dom.mentions], List.all_eq_true.mpr fun c hc => ?_⟩
      exact isBlank_of_isSpace (List.all_eq_true.mp hall c hc)
    · cases h
  | .comment, _ => ⟨by simp [Dom.mentions], rfl⟩
  | .element name attrs children, h => by
    simp only [firstShownIn] at h
    split at h
    · cases h
    next hbr =>
      suffices hbelow : Dom.anyMentions "br" children = false
          ∧ Text.isAllBlank (Dom.textOf children) = true by
        simpa [Dom.mentions, hbr] using hbelow
      split at h
      next hblank =>
        simp only [Bool.and_eq_true, Dom.isBlank, Bool.not_eq_true'] at hblank
        exact hblank.2
      · split at h
        · cases h
        · refine blank_of_firstShown children ?_
          unfold shownAround at h
          split at h
          · cases h
          · exact h

/-- Nodes that show nothing are blank. -/
theorem blank_of_firstShown : (ns : List Dom) → firstShown ns = .nothing →
    Dom.anyMentions "br" ns = false ∧ Text.isAllBlank (Dom.textOf ns) = true
  | [], _ => ⟨by simp [Dom.anyMentions], rfl⟩
  | n :: ns, h => by
    have hparts : firstShownIn n = .nothing ∧ firstShown ns = .nothing := by
      simp only [firstShown] at h
      revert h
      cases firstShownIn n with
      | nothing => exact fun h => ⟨rfl, h⟩
      | lineBreak => exact fun h => nomatch h
      | other => exact fun h => nomatch h
    obtain ⟨hn, htext⟩ := blank_of_firstShownIn n hparts.1
    obtain ⟨hns, htexts⟩ := blank_of_firstShown ns hparts.2
    rw [Dom.anyMentions, hn, hns, Dom.textOf_cons, Text.isAllBlank, List.all_append]
    exact ⟨rfl, Bool.and_eq_true_iff.mpr ⟨htext, htexts⟩⟩

end

/-- What an element that is not blank holds is laid out with a character that is no space. -/
theorem exists_mem_layNodes (hd : Delimiting d) {name : String} (attrs : Attrs) {children : List Dom}
    (hblank : (Dom.element name attrs children).isBlank = false) (F : Fences) :
    ∃ c ∈ (layNodes d name attrs (isBlockName name) 0 ⟨[], F⟩ children).text, c ≠ ' ' := by
  obtain ⟨j, ⟨n, core, hcore, htext⟩, -⟩ := starts_layNodes hd name attrs (isBlockName name) 0 ⟨[], F⟩
    (Starts.spaces 0) (fun _ => rfl) children
  have hshown : firstShown children ≠ .nothing := by
    intro h
    obtain ⟨hmentions, hall⟩ := blank_of_firstShown children h
    simp [Dom.isBlank, hmentions, hall] at hblank
  suffices hmem : ∃ c ∈ core, c ≠ ' ' by
    obtain ⟨c, hc, hne⟩ := hmem
    exact ⟨c, by rw [htext]; simp [hc], hne⟩
  simp only [FirstShown.orElse] at hcore
  cases hf : firstShown children with
  | nothing => exact absurd hf hshown
  | lineBreak =>
    rw [hf] at hcore
    obtain ⟨t, rfl⟩ := hcore
    exact ⟨'<', by simp [breakMark], by decide⟩
  | other =>
    rw [hf] at hcore
    obtain ⟨p, t, hp, rfl⟩ := hcore
    obtain ⟨c, v, rfl, hc⟩ := hp.exists_cons
    exact ⟨c, by simp, ne_of_isSpace hc rfl⟩

/-! ## Layouts -/

/-- Squeezed text holds no space behind a space, and no line feed. -/
theorem isChain_squeezeFrom (inRun : Bool) (content : List Char) :
    let s := escapeEntity (squeezeFrom isSpace ' ' inRun content)
    s.IsChain Apart ∧ (∀ c ∈ s, c ∉ ['\n', '<', '>']) ∧ (inRun = true → s.head? ≠ some ' ') := by
  induction content generalizing inRun with
  | nil => exact ⟨.nil, fun _ h => absurd h List.not_mem_nil, fun _ h => (by cases h)⟩
  | cons c content ih =>
    simp only [squeezeFrom]
    split
    · obtain ⟨hchain, hchars, hhead⟩ := ih true
      cases inRun with
      | true => exact ⟨hchain, hchars, hhead⟩
      | false =>
        refine ⟨List.isChain_cons.mpr ⟨fun y hy => apart_of_not_mem ?_, hchain⟩,
          List.forall_mem_cons.mpr ⟨by decide, hchars⟩,
          fun h => absurd h Bool.false_ne_true⟩
        have hy' := hchars y (List.mem_of_mem_head? hy)
        have hspace : y ≠ ' ' := fun e => hhead rfl (e ▸ hy)
        simp only [List.mem_cons, List.not_mem_nil, or_false, not_or] at hy' ⊢
        exact ⟨hspace, hy'.1, hy'.2.1⟩
    next hc =>
      obtain ⟨hchain, hchars, -⟩ := ih false
      have hentity : ∀ x ∈ Text.entity c, x ∉ [' ', '\n', '<', '>'] := by
        intro x hx
        have hspace : ∀ {b}, isSpace b = true → b ∉ "&ampltg;<>".toList → x ≠ b := by
          rintro b hb hplain rfl
          exact hc (((Text.mem_entity hplain).mp hx) ▸ hb)
        simp only [List.mem_cons, List.not_mem_nil, or_false, not_or]
        exact ⟨hspace rfl (by decide), hspace rfl (by decide),
          fun e => (Text.bracket_not_mem_entity c).1 (e ▸ hx),
          fun e => (Text.bracket_not_mem_entity c).2 (e ▸ hx)⟩
      have hleft : [' ', '\n', '>'] ⊆ [' ', '\n', '<', '>'] := by decide
      have hright : [' ', '\n', '<'] ⊆ [' ', '\n', '<', '>'] := by decide
      rw [Text.escapeEntity_cons]
      refine ⟨List.isChain_append.mpr ⟨isChain_of_not_mem fun x hx hm => ?_, hchain, fun x hx y _ =>
        apart_of_not_mem_left fun hm => ?_⟩, List.forall_mem_append.mpr ⟨fun x hx hm => ?_, hchars⟩,
        fun _ hhead => ?_⟩
      · exact hentity x hx (hright hm)
      · exact hentity x (List.mem_of_mem_getLast? hx) (hleft hm)
      · exact hentity x hx (List.mem_cons_of_mem _ hm)
      · rw [List.head?_append_of_ne_nil _ (Text.entity_ne_nil c)] at hhead
        exact hentity ' ' (List.mem_of_mem_head? hhead) (by simp)

theorem spaced_layText (trims : Bool) (content : List Char) :
    Spaced (layText trims content) ∧ (trims = true → (layText trims content).head? ≠ some ' ') := by
  rw [layText, trimStartIf_squeeze]
  obtain ⟨hchain, hchars, hhead⟩ := isChain_squeezeFrom trims content
  refine ⟨⟨hchain, fun h => ?_, fun h => ?_⟩, hhead⟩
  · exact hchars _ (List.mem_of_mem_head? h) (by simp)
  · exact hchars _ (List.mem_of_mem_getLast? h) (by simp)

mutual

theorem spaced_layNode (hd : Delimiting d) (trims : Bool) (place : Mrkdwn.Place) (F : Fences) :
    (n : Dom) → n.Every StyleOrBreak →
      Spaced (layNode d trims place F n).text ∧
        (trims = true → (layNode d trims place F n).text.head? ≠ some ' ')
  | .text content, _ => by
    simp only [layNode]
    exact spaced_layText trims content
  | .comment, _ => by
    simp only [layNode]
    exact ⟨.nil, nofun⟩
  | .element name attrs children, h => by
    have htrim : ∀ {s}, Spaced s → Spaced (trimStartIf trims s) ∧
        (trims = true → (trimStartIf trims s).head? ≠ some ' ') := fun hs =>
      ⟨hs.trimStartIf trims, by rintro rfl; exact head?_dropWhile_ne ' ' _⟩
    obtain ⟨hname, hchildren⟩ := h
    simp only [layNode]
    rcases hname with rfl | hn
    · have hcode : fencedCode? "br" children = none := fencedCode?_of_ne (by decide) children
      simp only [hcode]
      exact htrim (s := breakMark ++ ['\n']) ⟨by decide, by decide, by decide⟩
    · obtain ⟨hblock, hbr, hpre, -⟩ := isInline_of_mem_styleNames hn
      split
      · refine htrim ?_
        rw [layBlank, hblock]
        simp only [Bool.false_eq_true, if_false]
        split
        · exact .nil
        · exact ⟨.singleton _, by decide, by decide⟩
      next hshown =>
        have hblank : (Dom.element name attrs children).isBlank = false := by
          have hnames : ∀ n ∈ styleNames, showsBlank n = false := by decide
          rwa [hnames name hn, Bool.not_false, Bool.true_and, Bool.not_eq_true] at hshown
        obtain ⟨c, hc, hne⟩ := exists_mem_layNodes hd attrs hblank F
        have hinner := spaced_layNodes hd name attrs (isBlockName name) 0 ⟨[], F⟩ .nil children hchildren
        rw [fencedCode?_of_ne hpre]
        exact htrim ((withDelimiters_layAround hd hn attrs place
          (Text.takeWhile_append_trimWhile_append_takeEndWhile hc (decide_eq_false hne))).spaced hinner)

/-- In a layout of styles and line breaks, spaces stand alone. -/
theorem spaced_layNodes (hd : Delimiting d) (parent : String) (parentAttrs : Attrs) (isBlock : Bool)
    (elementsBefore : Nat) (laid : Laid) (hl : Spaced laid.text) :
    (ns : List Dom) → Dom.EveryOf StyleOrBreak ns →
      Spaced (layNodes d parent parentAttrs isBlock elementsBefore laid ns).text
  | [], _ => by
    simpa only [layNodes] using hl
  | n :: ns, h => by
    simp only [layNodes]
    obtain ⟨hnode, hhead⟩ := spaced_layNode hd (afterSpace laid.text isBlock)
      ⟨parent, parentAttrs, elementsBefore, !ns.isEmpty, ns.any Dom.isElement⟩ laid.fences n h.1
    refine spaced_layNodes hd parent parentAttrs isBlock _ ⟨_, _⟩ (hl.join hnode fun hspace => ?_) ns h.2
    have hafter : afterSpace laid.text isBlock = false :=
      Bool.eq_false_iff.mpr fun ha => hhead ha hspace
    simp only [afterSpace, Bool.or_eq_false_iff, beq_eq_false_iff_ne] at hafter
    exact ⟨hafter.2, hafter.1.2⟩

end

/-! ## Lines -/

/-- Lines of a text whose spaces stand alone start and end with none, if the text does. -/
theorem forall_mem_lines (hs : s.IsChain Apart) (hfirst : s.head? ≠ some ' ')
    (hlast : s.getLast? ≠ some ' ') : ∀ l ∈ Text.lines s,
      l.IsChain Apart ∧ l.head? ≠ some ' ' ∧ l.getLast? ≠ some ' ' := by
  induction hn : s.length using Nat.strong_induction_on generalizing s with
  | _ n ih =>
    by_cases hline : '\n' ∈ s
    · obtain ⟨l, t, rfl, hl⟩ := List.eq_append_cons_of_mem hline
      obtain ⟨hchain, hbehind, hends⟩ := List.isChain_append.mp hs
      obtain ⟨hstart, htail⟩ := List.isChain_cons.mp hbehind
      rw [Text.lines_append, Text.lines_of_not_mem hl]
      refine List.forall_mem_append.mpr ⟨List.forall_mem_singleton.mpr ⟨hchain, fun h => ?_, fun h => ?_⟩, ?_⟩
      · exact hfirst (by rw [List.head?_append, h]; rfl)
      · exact (hends ' ' h '\n' rfl).2.1 rfl rfl
      · refine ih t.length (by simp [← hn]; omega) htail (fun h => ?_) (fun h => hlast ?_) rfl
        · exact absurd ((hstart ' ' h).1 rfl) (by decide)
        · rw [List.getLast?_append, List.getLast?_cons, h]
          rfl
    · rw [Text.lines_of_not_mem hline]
      exact List.forall_mem_singleton.mpr ⟨hs, hfirst, hlast⟩

/-- Behind a quote mark there is no space, since the mark takes one along. -/
theorem head?_splitQuoteMark (hs : s.IsChain Apart) (hfirst : s.head? ≠ some ' ') :
    (splitQuoteMark s).2.head? ≠ some ' ' := by
  fun_cases splitQuoteMark s with
  | case1 s =>
    intro h
    have hcut : '&' :: 'g' :: 't' :: ';' :: ' ' :: s = "&gt;".toList ++ ' ' :: s := rfl
    rw [hcut, List.isChain_append, List.isChain_cons] at hs
    exact absurd ((hs.2.1.1 ' ' h).1 rfl) (by decide)
  | case2 s hne =>
    intro h
    obtain ⟨t, rfl⟩ := List.head?_eq_some_iff.mp h
    exact hne t rfl
  | case3 => exact hfirst

/-- Without its break marks, a line starts with no space. -/
theorem head?_dropBreakMarks_ne (hs : s.IsChain Apart) (hfirst : s.head? ≠ some ' ') :
    (dropBreakMarks s).head? ≠ some ' ' := by
  fun_cases dropBreakMarks s with
  | case1 => exact nofun
  | case2 s =>
    have hcut : '<' :: 'b' :: 'r' :: ' ' :: '/' :: '>' :: s = "<br /".toList ++ '>' :: s := rfl
    rw [hcut, List.isChain_append, List.isChain_cons] at hs
    have hbehind := hs.2.1.1
    cases s with
    | nil => exact nofun
    | cons c s =>
      have hc := hbehind c rfl
      rw [dropBreakMarks_cons fun e => hc.2.2 e rfl]
      intro h
      exact absurd (hc.1 (Option.some.inj h)) (by decide)
  | case3 c s hne =>
    exact hfirst

/-- Without its break marks, a line ends with a space exactly if the space stands before a mark at
its end. -/
theorem getLast?_dropBreakMarks_eq (hs : s.IsChain Apart) (hlast : s.getLast? ≠ some ' ') :
    (dropBreakMarks s).getLast? = some ' ' ↔ ∃ u, s = u ++ ' ' :: breakMark := by
  by_cases hmark : breakMark <:+ s
  · obtain ⟨u, rfl⟩ := hmark
    have hone : ¬breakMark <:+ u := by
      rintro ⟨v, rfl⟩
      rw [List.isChain_append] at hs
      have hends := hs.2.2 '>' (by rw [List.getLast?_append]; rfl) '<' rfl
      exact hends.2.2 rfl rfl
    rw [dropBreakMarks_append_breakMark, getLast?_dropBreakMarks hone, List.getLast?_eq_some_iff]
    refine exists_congr fun v => ⟨?_, fun h => ?_⟩
    · rintro rfl
      simp
    · rw [← List.singleton_append (l := breakMark), ← List.append_assoc] at h
      exact List.append_cancel_right h
  · rw [getLast?_dropBreakMarks hmark]
    refine iff_of_false hlast ?_
    rintro ⟨u, rfl⟩
    exact hmark ⟨u ++ [' '], by simp⟩

/-! ## Styled elements -/

/-- The text that a style is put around: what the element holds, without the spaces at its ends. -/
def styledText (d : Delimiters) (name : String) (attrs : Attrs) (F : Fences) (children : List Dom) :
    List Char :=
  Text.trimWhile (· = ' ') (layNodes d name attrs (isBlockName name) 0 ⟨[], F⟩ children).text

/-- Delimiters that hug what they wrap. On every line that a style wraps, the text that it wraps
starts with no space when break marks are taken away, and ends with one only if the line has a break
mark behind a space. -/
def HugsLines (d : Delimiters) (name : String) (attrs : Attrs) (children : List Dom) : Prop :=
  ∀ F delimiter wrapsFences, styleDelimiter? d name = some (delimiter, wrapsFences) →
    ∀ line ∈ Text.lines (styledText d name attrs F children), ∀ rest,
      wrappedText? wrapsFences line = some rest →
        (dropBreakMarks rest).head? ≠ some ' ' ∧
          ((dropBreakMarks rest).getLast? = some ' ' ↔ ∃ u, rest = u ++ ' ' :: breakMark)

theorem hugsLines (hd : Delimiting d) (name : String) (attrs : Attrs) {children : List Dom}
    (h : Dom.EveryOf StyleOrBreak children) : HugsLines d name attrs children := by
  intro F delimiter wrapsFences _ line hline rest hrest
  have hcontent := spaced_layNodes hd name attrs (isBlockName name) 0 ⟨[], F⟩ .nil children h
  have hinner : (styledText d name attrs F children).IsChain Apart := by
    have hspaced := hcontent.dropSpaces.apart
    rw [← Text.trimEndWhile_append_takeEndWhile (· = ' ') (List.dropWhile _ _)] at hspaced
    exact hspaced.left_of_append
  obtain ⟨hstart, hend⟩ := ends_trimSpaces
    (layNodes d name attrs (isBlockName name) 0 ⟨[], F⟩ children).text
  obtain ⟨hchain, hfirst, hlast⟩ := forall_mem_lines hinner hstart hend line hline
  obtain rfl := wrappedText?_eq_some hrest
  have hbehind : (splitQuoteMark line).2.IsChain Apart := by
    rw [← splitQuoteMark_append line] at hchain
    exact hchain.right_of_append
  refine ⟨head?_dropBreakMarks_ne hbehind (head?_splitQuoteMark hchain hfirst),
    getLast?_dropBreakMarks_eq hbehind fun h => hlast ?_⟩
  rw [← splitQuoteMark_append line, List.getLast?_append, h]
  rfl

mutual

theorem every_hugsLines (hd : Delimiting d) : (n : Dom) → n.Every StyleOrBreak → n.Every (HugsLines d)
  | .text _, _ => trivial
  | .comment, _ => trivial
  | .element name attrs children, h =>
    ⟨hugsLines hd name attrs h.2, everyOf_hugsLines hd children h.2⟩

/-- Every delimiter of a document of styles and line breaks hugs the lines that it wraps, except for
spaces before break marks. -/
theorem everyOf_hugsLines (hd : Delimiting d) :
    (ns : List Dom) → Dom.EveryOf StyleOrBreak ns → Dom.EveryOf (HugsLines d) ns
  | [], _ => trivial
  | n :: ns, h => ⟨every_hugsLines hd n h.1, everyOf_hugsLines hd ns h.2⟩

end

end Mrkdwn

end MessageLayout
