import MessageLayout.Proofs.LinkLines
import MessageLayout.Proofs.QuotedLayout

/-!
# Blank lines

Blocks bring line feeds of their own along, whatever their content ends in, so texts of many line
feeds do arise. They stay at the ends: where two texts are joined, the line feeds between them are
cut to two, and no other rule puts anything behind line feeds that it did not count.

`feeds? n s` follows a text behind `n` line feeds, unless a character of it stands behind more than
two.

    Capped s → CappedWithin t → Capped (join s t)                             (Capped.join)
    feeds? n (wrapLines d w s) = feeds? n s                                   (feeds?_wrapLines)
    Capped (layNodes d … ns).text                                             (capped_layNodes)
    (layBody … body).text = u ++ x :: (replicate n '\n' ++ y :: v) → n ≤ 2
                                                                     (layBody_newlines_le_two)
-/

namespace MessageLayout.Mrkdwn

open Html

/-! ## Line feeds before a character -/

/-- The line feeds at the end with one more character, unless it stands behind more than two. -/
def feed? (n : Nat) (c : Char) : Option Nat :=
  if c = '\n' then some (n + 1) else if n ≤ 2 then some 0 else none

/-- The line feeds at the end of a text behind `n` line feeds, unless a character of it stands behind
more than two. -/
def feeds? (n : Nat) (s : List Char) : Option Nat :=
  s.foldlM feed? n

variable {m n : Nat} {s t : List Char}

@[simp] theorem feeds?_nil (n : Nat) : feeds? n [] = some n := rfl

theorem feeds?_cons (n : Nat) (c : Char) (s : List Char) :
    feeds? n (c :: s) = (feed? n c).bind (feeds? · s) := rfl

theorem feeds?_append (n : Nat) (s t : List Char) :
    feeds? n (s ++ t) = (feeds? n s).bind (feeds? · t) := by
  simp only [feeds?, List.foldlM_append]
  rfl

theorem exists_feeds?_append (h : feeds? n (s ++ t) = some m) :
    ∃ k, feeds? n s = some k ∧ feeds? k t = some m := by
  rw [feeds?_append] at h
  exact Option.bind_eq_some_iff.mp h

theorem feeds?_replicate (n k : Nat) : feeds? n (List.replicate k '\n') = some (n + k) := by
  induction k generalizing n with
  | zero => rfl
  | succ k ih => exact (ih (n + 1)).trans (by rw [Nat.add_right_comm, Nat.add_assoc])

/-- A text takes fewer line feeds before it as well, and then ends in no more. -/
theorem feeds?_mono {k : Nat} (hk : k ≤ n) (h : feeds? n s = some m) :
    ∃ j ≤ m, feeds? k s = some j := by
  induction s generalizing k n with
  | nil =>
    obtain rfl := Option.some.inj h
    exact ⟨k, hk, rfl⟩
  | cons c s ih =>
    rw [feeds?_cons] at h ⊢
    unfold feed? at h ⊢
    split at h
    next hc =>
      rw [if_pos hc]
      exact ih (Nat.succ_le_succ hk) h
    next hc =>
      split at h
      next hn =>
        rw [if_neg hc, if_pos (hk.trans hn)]
        exact ⟨m, Nat.le_refl m, h⟩
      · cases h

theorem feeds?_of_not_mem (hs : '\n' ∉ s) (hn : n ≤ 2) :
    feeds? n s = some (if s = [] then n else 0) := by
  induction s generalizing n with
  | nil => rfl
  | cons c s ih =>
    simp only [List.mem_cons, not_or] at hs
    have hc : feed? n c = some 0 := by simp [feed?, Ne.symm hs.1, hn]
    rw [feeds?_cons, hc]
    refine (ih hs.2 (Nat.zero_le 2)).trans ?_
    simp

/-- A line behind line feeds takes as many as any other that is empty exactly if it is. -/
theorem feeds?_congr (hs : '\n' ∉ s) (ht : '\n' ∉ t) (he : s = [] ↔ t = []) (n : Nat) :
    feeds? n s = feeds? n t := by
  by_cases hn : n ≤ 2
  · rw [feeds?_of_not_mem hs hn, feeds?_of_not_mem ht hn]
    simp [he]
  · have hnone : ∀ {u : List Char}, u ≠ [] → '\n' ∉ u → feeds? n u = none := by
      intro u hu hline
      obtain ⟨c, u, rfl⟩ := List.exists_cons_of_ne_nil hu
      simp only [List.mem_cons, not_or] at hline
      simp [feeds?_cons, feed?, Ne.symm hline.1, hn]
    by_cases hnil : s = []
    · rw [hnil, he.mp hnil]
    · rw [hnone hnil hs, hnone (fun e => hnil (he.mpr e)) ht]

theorem feeds?_of_getLast? (h : feeds? n s = some m) (hne : s ≠ []) (hlast : s.getLast? ≠ some '\n') :
    m = 0 := by
  obtain ⟨u, c, rfl⟩ := (List.eq_nil_or_concat s).resolve_left hne
  rw [List.concat_eq_append] at h hlast
  obtain ⟨k, -, hc⟩ := exists_feeds?_append h
  have hcn : c ≠ '\n' := fun e => hlast (by rw [e, List.getLast?_concat])
  unfold feeds? feed? at hc
  simp only [List.foldlM_cons, List.foldlM_nil, hcn, if_false] at hc
  split at hc
  · exact (Option.some.inj hc).symm
  · cases hc

/-! ## Capped texts -/

/-- No character of a text stands behind more than two line feeds, not even at its start. -/
def Capped (s : List Char) : Prop :=
  ∃ m, feeds? 0 s = some m

/-- No character of a text stands behind more than two line feeds, but for those it starts with. -/
def CappedWithin (s : List Char) : Prop :=
  Capped (s.dropWhile (· = '\n'))

theorem suffix_dropWhile {p : Char → Bool} (h : s <:+ t) : s.dropWhile p <:+ t.dropWhile p := by
  obtain ⟨u, rfl⟩ := h
  rw [List.dropWhile_append]
  split
  · exact List.suffix_rfl
  · exact (List.dropWhile_suffix p).trans (List.suffix_append _ _)

namespace Capped

theorem of_infix (h : Capped t) (hs : s <:+: t) : Capped s := by
  obtain ⟨u, v, rfl⟩ := hs
  obtain ⟨m, hm⟩ := h
  obtain ⟨k, hk, -⟩ := exists_feeds?_append hm
  obtain ⟨j, -, hs⟩ := exists_feeds?_append hk
  obtain ⟨i, -, hi⟩ := feeds?_mono (Nat.zero_le j) hs
  exact ⟨i, hi⟩

theorem of_not_mem (hs : '\n' ∉ s) : Capped s :=
  ⟨_, feeds?_of_not_mem hs (Nat.zero_le 2)⟩

theorem within (h : Capped s) : CappedWithin s :=
  h.of_infix (List.dropWhile_suffix _).isInfix

theorem trimWhile (h : Capped s) (p : Char → Bool) : Capped (Text.trimWhile p s) :=
  have hcut : Text.trimWhile p s <+: s.dropWhile p :=
    ⟨_, Text.trimEndWhile_append_takeEndWhile p (s.dropWhile p)⟩
  h.of_infix (hcut.isInfix.trans (List.dropWhile_suffix p).isInfix)

theorem append_newlines (h : Capped s) (n : Nat) : Capped (s ++ List.replicate n '\n') := by
  obtain ⟨m, hm⟩ := h
  exact ⟨m + n, by rw [feeds?_append, hm]; exact feeds?_replicate m n⟩

/-- Where two texts are joined, at most two line feeds stand between them. -/
theorem join (h : Capped s) (h' : CappedWithin t) : Capped (Mrkdwn.join s t) := by
  obtain ⟨m, hm⟩ := h
  obtain ⟨k, hk⟩ := h'
  rw [← trimEndWhile_append_trailingNewlines s] at hm
  obtain ⟨j, hj, -⟩ := exists_feeds?_append hm
  have hj0 : j = 0 := by
    by_cases hnil : Text.trimEndWhile (· = '\n') s = []
    · rw [hnil] at hj
      exact (Option.some.inj hj).symm
    · exact feeds?_of_getLast? hj hnil (getLast?_trimEndWhile '\n' s)
  subst hj0
  have hseam : ∀ i ≤ 2, ∃ m, feeds? i (t.dropWhile (· = '\n')) = some m := by
    intro i hi
    cases hd : t.dropWhile (· = '\n') with
    | nil => exact ⟨i, rfl⟩
    | cons c u =>
      have hc : c ≠ '\n' := fun e => head?_dropWhile_ne '\n' t (by rw [hd, e]; rfl)
      have hfeed : ∀ j ≤ 2, feed? j c = some 0 := fun j hj => by simp [feed?, hc, hj]
      rw [hd, feeds?_cons, hfeed 0 (Nat.zero_le 2)] at hk
      rw [feeds?_cons, hfeed i hi]
      exact ⟨k, hk⟩
  obtain ⟨m, hm⟩ := hseam _ (Nat.min_le_left 2 (max (trailingNewlines s) (leadingNewlines t)))
  refine ⟨m, ?_⟩
  rw [Mrkdwn.join, List.append_assoc, feeds?_append, hj, Option.bind_some, feeds?_append,
    feeds?_replicate, Nat.zero_add]
  exact hm

/-- What a text shows on its lines ends in no line feed if no line is empty. -/
theorem feeds?_unlines {ls : List (List Char)} (hne : ls ≠ []) (hls : ∀ l ∈ ls, '\n' ∉ l ∧ l ≠ [])
    (hn : n ≤ 2) : feeds? n (Text.unlines ls) = some 0 := by
  induction ls generalizing n with
  | nil => exact absurd rfl hne
  | cons l ls ih =>
    obtain ⟨⟨hline, hl⟩, hls⟩ := List.forall_mem_cons.mp hls
    have hfirst : ∀ {n}, n ≤ 2 → feeds? n l = some 0 := fun hn => by
      rw [feeds?_of_not_mem hline hn, if_neg hl]
    cases ls with
    | nil => rw [Text.unlines_singleton, hfirst hn]
    | cons k ls =>
      rw [Text.unlines_cons _ (by simp), feeds?_append, hfirst hn]
      exact ih (by simp) hls (by decide : 1 ≤ 2)

/-- Lines with an indent between them end in no line feed. -/
theorem feeds?_intercalate {indent : List Char} (hne : indent ≠ []) (hindent : '\n' ∉ indent)
    {ls : List (List Char)} (hls : ∀ l ∈ ls, '\n' ∉ l) :
    feeds? 0 ((['\n'] ++ indent).intercalate ls) = some 0 := by
  have hline : ∀ {l : List Char}, '\n' ∉ l → feeds? 0 l = some 0 := fun hl => by
    rw [feeds?_of_not_mem hl (Nat.zero_le 2), ite_self]
  have hbetween : feeds? 0 (['\n'] ++ indent) = some 0 := by
    have h := feeds?_of_not_mem hindent (by decide : 1 ≤ 2)
    rw [if_neg hne] at h
    exact h
  induction ls with
  | nil => rfl
  | cons l ls ih =>
    obtain ⟨hl, hls⟩ := List.forall_mem_cons.mp hls
    cases ls with
    | nil => simpa [List.intercalate] using hline hl
    | cons k ls =>
      have hcut : (['\n'] ++ indent).intercalate (l :: k :: ls)
          = l ++ (['\n'] ++ indent) ++ (['\n'] ++ indent).intercalate (k :: ls) := by
        simp [List.intercalate, List.intersperse]
      rw [hcut, feeds?_append, feeds?_append, hline hl, Option.bind_some, hbetween]
      exact ih hls

end Capped

namespace CappedWithin

theorem of_suffix (h : CappedWithin t) (hs : s <:+ t) : CappedWithin s :=
  h.of_infix (suffix_dropWhile hs).isInfix

theorem newlines_append (h : CappedWithin s) (n : Nat) : CappedWithin (List.replicate n '\n' ++ s) := by
  unfold CappedWithin
  rwa [List.dropWhile_append_of_pos (by simp)]

theorem append_newlines (h : CappedWithin s) (n : Nat) : CappedWithin (s ++ List.replicate n '\n') := by
  have hall := Capped.append_newlines h n
  refine hall.of_infix ?_
  rw [List.dropWhile_append]
  split
  next hnil =>
    exact ((List.dropWhile_suffix _).trans (List.suffix_append _ _)).isInfix
  · exact List.infix_rfl

theorem paragraph (h : CappedWithin s) : CappedWithin (Mrkdwn.paragraph s) :=
  (h.newlines_append 2).append_newlines 2

theorem list (nestedLast : Bool) (h : CappedWithin s) : CappedWithin (Mrkdwn.list s nestedLast) := by
  unfold Mrkdwn.list
  split
  · exact h.newlines_append 1
  · exact h.paragraph

theorem blockquote (s : List Char) : CappedWithin (Mrkdwn.blockquote s) := by
  refine paragraph (Capped.within ⟨0, Capped.feeds?_unlines ?_ (fun l hl => ?_) (Nat.zero_le 2)⟩)
  · simpa using Text.lines_ne_nil _
  · obtain ⟨k, hk, rfl⟩ := List.mem_map.mp hl
    refine ⟨?_, by simp [quoteMark]⟩
    rw [List.mem_append, not_or]
    exact ⟨by decide, newline_not_mem_of_mem_lines hk⟩

theorem newline_not_mem_marker (m : Marker) : '\n' ∉ m.text ∧ '\n' ∉ m.indent ∧ m.indent ≠ [] := by
  obtain ⟨htext, hindent⟩ := isMargin_marker m
  refine ⟨fun hm => (htext _ hm).2 rfl, fun hm => (hindent _ hm).2 rfl, ?_⟩
  cases m <;> simp [Marker.indent]

theorem listItem (s : List Char) (p : ItemPosition) : CappedWithin (Mrkdwn.listItem s p) := by
  obtain ⟨htext, hindent, hne⟩ := newline_not_mem_marker p.marker
  have hbody : Capped (p.marker.text ++ (['\n'] ++ p.marker.indent).intercalate
      (Text.lines (Text.trimWhile (· = '\n') s))) := by
    refine ⟨0, ?_⟩
    rw [feeds?_append, feeds?_of_not_mem htext (Nat.zero_le 2), ite_self]
    exact Capped.feeds?_intercalate hne hindent fun _ => newline_not_mem_of_mem_lines
  unfold Mrkdwn.listItem
  simp only
  split
  · exact (hbody.append_newlines 1).within
  · rw [List.append_nil]
    exact hbody.within

end CappedWithin

/-! ## Inline elements -/

variable {delimiter : List Char}

theorem wrapLine_eq_nil_iff (hne : delimiter ≠ []) (wrapsFences : Bool) (l : List Char) :
    wrapLine delimiter wrapsFences l = [] ↔ l = [] := by
  simp only [wrapLine]
  split
  · exact Iff.rfl
  next hshown =>
    have hl : l ≠ [] := by
      rintro rfl
      exact hshown (by cases wrapsFences <;> simp [splitQuoteMark, showsNothing, dropBreakMarks,
        dropPlaceholders, Text.isAllBlank])
    simp [hne, hl]

theorem newline_not_mem_wrapLine (hd : '\n' ∉ delimiter) (wrapsFences : Bool) {l : List Char}
    (hl : '\n' ∉ l) : '\n' ∉ wrapLine delimiter wrapsFences l := by
  rw [← splitQuoteMark_append l, List.mem_append, not_or] at hl
  simp only [wrapLine]
  split
  · rw [← splitQuoteMark_append l, List.mem_append, not_or]
    exact hl
  · simp [hl, hd]

/-- A style takes as many line feeds before each line as the line itself. -/
theorem feeds?_wrapLines (hne : delimiter ≠ []) (hd : '\n' ∉ delimiter) (wrapsFences : Bool)
    (s : List Char) (n : Nat) : feeds? n (wrapLines delimiter wrapsFences s) = feeds? n s := by
  have hmap : ∀ {ls : List (List Char)}, (∀ l ∈ ls, '\n' ∉ l) → ∀ n,
      feeds? n (Text.unlines (ls.map (wrapLine delimiter wrapsFences)))
        = feeds? n (Text.unlines ls) := by
    intro ls hls
    induction ls with
    | nil => exact fun _ => rfl
    | cons l ls ih =>
      intro n
      obtain ⟨hl, hls⟩ := List.forall_mem_cons.mp hls
      have hline := feeds?_congr (newline_not_mem_wrapLine hd wrapsFences hl) hl
        (wrapLine_eq_nil_iff hne wrapsFences l) n
      cases ls with
      | nil => simpa using hline
      | cons k ls =>
        rw [List.map_cons, Text.unlines_cons _ (by simp), Text.unlines_cons _ (by simp),
          feeds?_append, feeds?_append, hline]
        have hrest : ∀ j, feeds? j ('\n' :: Text.unlines ((k :: ls).map (wrapLine delimiter wrapsFences)))
            = feeds? j ('\n' :: Text.unlines (k :: ls)) := fun j => ih hls (j + 1)
        simp only [hrest]
  rw [wrapLines, hmap fun _ => newline_not_mem_of_mem_lines, Text.unlines_lines]

theorem newline_not_mem_of_delimiting (h : ∀ c ∈ s, c ∈ zeroWidthSpace :: delimiterChars) :
    '\n' ∉ s :=
  fun hm => absurd (h _ hm) (by decide)

theorem newline_not_mem_link (content href : List Char) : '\n' ∉ link content href := by
  have hchar : ∀ c ∈ ['<', '|', '>'], '\n' ≠ c := Text.forall_mem_of_all (by decide)
  unfold link
  split
  next m hm =>
    obtain ⟨w, hw, -, hline⟩ := exists_token_eq_enclose hm
    simp [hw, hline]
  · have hencode : '\n' ∉ Text.Uri.encode href := fun hm =>
      absurd (isBlank_of_mem_encode hm) (by decide)
    simp [hencode, newline_not_mem_label]

variable {d : Delimiters}

/-- What an inline element makes of its content ends in no more line feeds than the content. -/
theorem exists_feeds?_layInline (hd : Delimiting d) {name : String} (hname : name ≠ "time")
    (attrs : Attrs) {k : Nat} (h : feeds? 0 s = some k) :
    ∃ j ≤ k, feeds? 0 (layInline d name attrs s) = some j := by
  have hwrap : ∀ {delimiter : List Char}, delimiter ≠ [] ∧
      (∀ c ∈ delimiter, c ∈ zeroWidthSpace :: delimiterChars) → ∀ wrapsFences,
        ∃ j ≤ k, feeds? 0 (wrapLines delimiter wrapsFences s) = some j := by
    intro delimiter hdelimiter wrapsFences
    rw [feeds?_wrapLines hdelimiter.1 (newline_not_mem_of_delimiting hdelimiter.2)]
    exact ⟨k, Nat.le_refl k, h⟩
  unfold layInline
  split
  · exact hwrap hd.strong true
  · exact hwrap hd.strong true
  · exact hwrap hd.emphasis true
  · exact hwrap hd.emphasis true
  · exact hwrap hd.strike false
  · exact hwrap hd.strike false
  · exact hwrap hd.strike false
  · exact hwrap hd.code true
  · rw [quote, feeds?_append, show feeds? 0 quoteMark = some 0 from rfl]
    exact ⟨k, Nat.le_refl k, h⟩
  · split
    next href _ =>
      split
      · exact ⟨k, Nat.le_refl k, h⟩
      · refine ⟨0, Nat.zero_le k, ?_⟩
        rw [feeds?_of_not_mem (newline_not_mem_link s href) (Nat.zero_le 2), ite_self]
    · exact ⟨k, Nat.le_refl k, h⟩
  · exact absurd rfl hname
  · exact ⟨k, Nat.le_refl k, h⟩

/-- Line feeds and the spaces behind them: an inline element leaves the spaces where they are. -/
theorem capped_inline (hd : Delimiting d) {name : String} (hname : name ≠ "time") (attrs : Attrs)
    (h : Capped s) :
    Capped (s.takeWhile (· = ' ') ++ layInline d name attrs (Text.trimWhile (· = ' ') s)
      ++ Text.takeEndWhile (· = ' ') s) := by
  have hspaces : ∀ {t : List Char}, (∀ c ∈ t, c = ' ') → '\n' ∉ t := fun ht hm =>
    absurd (ht _ hm) (by decide)
  have hfirst : feeds? 0 (s.takeWhile (· = ' ')) = some 0 := by
    rw [feeds?_of_not_mem (hspaces fun _ => Text.eq_of_mem_takeWhile) (Nat.zero_le 2), ite_self]
  have hlast : '\n' ∉ Text.takeEndWhile (· = ' ') s :=
    hspaces fun _ => Text.eq_of_mem_takeEndWhile
  suffices hinner : ∃ k, feeds? 0 (Text.trimWhile (· = ' ') s) = some k ∧
      ∃ m, feeds? k (Text.takeEndWhile (· = ' ') s) = some m by
    obtain ⟨k, hk, m, hm⟩ := hinner
    obtain ⟨j, hj, hinline⟩ := exists_feeds?_layInline hd hname attrs hk
    obtain ⟨i, -, hi⟩ := feeds?_mono hj hm
    refine ⟨i, ?_⟩
    rw [feeds?_append, feeds?_append, hfirst, Option.bind_some, hinline, Option.bind_some, hi]
  rcases Text.trimWhile_cases (· = ' ') s with ⟨-, htrim⟩ | hcut
  · exact ⟨0, by rw [htrim]; rfl, _, feeds?_of_not_mem hlast (Nat.zero_le 2)⟩
  · obtain ⟨m, hm⟩ := h
    rw [← hcut, List.append_assoc, feeds?_append, hfirst, Option.bind_some] at hm
    obtain ⟨k, hk, hk'⟩ := exists_feeds?_append hm
    exact ⟨k, hk, m, hk'⟩

/-! ## Layout -/

theorem cappedWithin_layBlock (name : String) (place : Mrkdwn.Place) (h : CappedWithin s) :
    CappedWithin (layBlock name place s) := by
  unfold layBlock
  split
  · exact .blockquote s
  · exact h.list _
  · exact h.list _
  · exact .listItem s _
  · exact h.paragraph

theorem cappedWithin_layAround (hd : Delimiting d) {name : String} (hname : name ≠ "time")
    (attrs : Attrs) (place : Mrkdwn.Place) (h : Capped s) :
    CappedWithin (layAround d name attrs place s) := by
  simp only [layAround]
  split
  · exact cappedWithin_layBlock name place (h.trimWhile _).within
  · split
    · exact Capped.within ⟨1, by decide⟩
    · exact (capped_inline hd hname attrs h).within

theorem cappedWithin_layBlank (name : String) (children : List Dom) :
    CappedWithin (layBlank name children) := by
  unfold layBlank
  split
  · exact Capped.within ⟨2, rfl⟩
  · split <;> exact Capped.within ⟨0, rfl⟩

theorem cappedWithin_placeholder (n : Nat) (singleLine : Bool) :
    CappedWithin (placeholder n singleLine) := by
  have htext : Capped (⟨Text.ofNat n, singleLine⟩ : Placeholder).text :=
    .of_not_mem (newline_not_mem_placeholder (Mark.wellFormed (n, singleLine)))
  exact ((htext.within.newlines_append 1).append_newlines 1)

theorem CappedWithin.trimStartIf (trims : Bool) (h : CappedWithin s) :
    CappedWithin (Mrkdwn.trimStartIf trims s) := by
  cases trims with
  | false => exact h
  | true => exact h.of_suffix (List.dropWhile_suffix _)

mutual

theorem cappedWithin_layNode (hd : Delimiting d) (trims : Bool) (place : Mrkdwn.Place) (F : Fences) :
    (n : Dom) → n.mentions "time" = false → CappedWithin (layNode d trims place F n).text
  | .text content, _ => by
    simp only [layNode]
    exact (Capped.of_not_mem (newline_not_mem_layText trims content)).within
  | .comment, _ => ⟨0, rfl⟩
  | .element name attrs children, h => by
    simp only [Dom.mentions, Bool.or_eq_false_iff, beq_eq_false_iff_ne] at h
    simp only [layNode]
    split
    · exact (cappedWithin_layBlank name children).trimStartIf trims
    · split
      · exact cappedWithin_placeholder _ _
      · have hinner := capped_layNodes hd name attrs (isBlockName name) 0 ⟨[], F⟩
          ⟨0, rfl⟩ children h.2
        exact (cappedWithin_layAround hd h.1 attrs place hinner).trimStartIf trims

theorem capped_layNodes (hd : Delimiting d) (parent : String) (parentAttrs : Attrs) (isBlock : Bool)
    (elementsBefore : Nat) (laid : Laid) (hl : Capped laid.text) : (ns : List Dom) →
      Dom.anyMentions "time" ns = false →
        Capped (layNodes d parent parentAttrs isBlock elementsBefore laid ns).text
  | [], _ => hl
  | n :: ns, h => by
    simp only [Dom.anyMentions, Bool.or_eq_false_iff] at h
    simp only [layNodes]
    exact capped_layNodes hd parent parentAttrs isBlock _ _
      (hl.join (cappedWithin_layNode hd _ _ laid.fences n h.1)) ns h.2

end

/-! ## Blank lines of a document -/

/-- A capped text has at most two line feeds between two characters that are none. -/
theorem Capped.le_two {u v : List Char} {x y : Char} (hx : x ≠ '\n') (hy : y ≠ '\n')
    (h : Capped (u ++ x :: (List.replicate n '\n' ++ y :: v))) : n ≤ 2 := by
  obtain ⟨m, hm⟩ := h.of_infix (s := x :: (List.replicate n '\n' ++ [y])) ⟨u, v, by simp⟩
  have hfirst : feeds? 0 [x] = some 0 := by simp [feeds?_cons, feed?, hx]
  rw [← List.singleton_append, feeds?_append, hfirst, Option.bind_some, feeds?_append,
    feeds?_replicate, Nat.zero_add, Option.bind_some, feeds?_cons, feed?, if_neg hy] at hm
  by_contra hn
  rw [if_neg hn] at hm
  cases hm

/-- In the layout of a document without dates, before the ends are trimmed, the break marks taken
away and the code put back, at most two line feeds stand between two other characters. -/
theorem layBody_newlines_le_two (options : FormatOptions) {body : List Dom}
    (hdates : Dom.anyMentions "time" body = false) {u v : List Char} {x y : Char} (hx : x ≠ '\n')
    (hy : y ≠ '\n')
    (h : (layBody (delimiters options) body).text = u ++ x :: (List.replicate n '\n' ++ y :: v)) :
    n ≤ 2 := by
  have hcapped : Capped (layBody (delimiters options) body).text :=
    capped_layNodes (delimiting_delimiters options) "body" [] true 0 ⟨[], []⟩ ⟨0, rfl⟩ body hdates
  rw [h] at hcapped
  exact hcapped.le_two hx hy

theorem layBody_newlines_le_two_paragraphs :
    (layBody (delimiters {}) [.element "p" [] [.text ['a']], .element "p" [] [.text ['b']]]).text
        = ['\n', '\n'] ++ 'a' :: (List.replicate 2 '\n' ++ 'b' :: ['\n', '\n']) ∧
      2 ≤ 2 := by
  have hlaid : (layBody (delimiters {}) [.element "p" [] [.text ['a']],
      .element "p" [] [.text ['b']]]).text
        = ['\n', '\n'] ++ 'a' :: (List.replicate 2 '\n' ++ 'b' :: ['\n', '\n']) := by decide
  exact ⟨hlaid, layBody_newlines_le_two {} (by decide) (by decide) (by decide) hlaid⟩

end MessageLayout.Mrkdwn
