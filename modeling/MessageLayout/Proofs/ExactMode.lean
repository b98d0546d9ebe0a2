import Mathlib.Data.List.Forall2
import MessageLayout.Proofs.OptionsIndependence

/-!
# Exact mode

In exact mode the delimiters stand between zero-width spaces. Those spaces become part of texts that
later rules trim, cut into lines, search and join, and no rule may notice them. `Guarded s t` says
that `t` is `s` with zero-width spaces around some of its delimiters; every rule of the layout takes
guarded texts to guarded texts and collects the same code.

    Guarded s t → Guarded (wrapLines d w s) (wrapLines d' w t)           (Guarded.wrapLines)
    … → Guarded (layNodes d …).text (layNodes d' …).text                  (guarded_layNodes)
    Guarded (ofDoms d body) (ofDoms d' body), of every tree                (guarded_ofDoms)
    withoutGuards (ofHtml exact html) = withoutGuards (ofHtml {} html)   (withoutGuards_ofHtml)
-/

namespace MessageLayout.Mrkdwn

open Html

/-- A text without its zero-width spaces. -/
def withoutGuards (s : List Char) : List Char :=
  s.filter (· ≠ zeroWidthSpace)

/-- The characters that delimit a style. -/
def delimiterChars : List Char := ['*', '_', '~', '\x60']

/-- The second text is the first with zero-width spaces around some of its delimiters. -/
inductive Guarded : List Char → List Char → Prop
  | nil : Guarded [] []
  | char (c : Char) {s t : List Char} : Guarded s t → Guarded (c :: s) (c :: t)
  | delimiter {c : Char} {s t : List Char} :
      c ∈ delimiterChars → Guarded s t →
        Guarded (c :: s) (zeroWidthSpace :: c :: zeroWidthSpace :: t)

/-- A class of characters that guards do not touch. -/
def Unguarded (p : Char → Bool) : Prop :=
  ∀ c ∈ zeroWidthSpace :: delimiterChars, p c = false

theorem Unguarded.zeroWidthSpace {p : Char → Bool} (hp : Unguarded p) :
    p zeroWidthSpace = false :=
  hp _ List.mem_cons_self

theorem Unguarded.delimiter {p : Char → Bool} (hp : Unguarded p) {c : Char}
    (hc : c ∈ delimiterChars) : p c = false :=
  hp c (List.mem_cons_of_mem _ hc)

theorem unguarded_isBlank : Unguarded Text.isBlank := by
  unfold Unguarded
  exact Text.forall_mem_of_all (by decide)

theorem unguarded_eq {c : Char} (h : c ∉ zeroWidthSpace :: delimiterChars) :
    Unguarded (fun x => decide (x = c)) := by
  intro x hx
  simp only [decide_eq_false_iff_not]
  rintro rfl
  exact h hx

namespace Guarded

variable {s t s' t' : List Char}

theorem refl : ∀ s : List Char, Guarded s s
  | [] => nil
  | c :: s => char c (refl s)

theorem append (h : Guarded s t) (h' : Guarded s' t') : Guarded (s ++ s') (t ++ t') := by
  induction h with
  | nil => exact h'
  | char c _ ih => exact char c ih
  | delimiter hc _ ih => exact delimiter hc ih

/-- The guards are all that the second text has beyond the first. -/
theorem withoutGuards_eq (h : Guarded s t) : withoutGuards s = withoutGuards t := by
  induction h with
  | nil => rfl
  | char c _ ih =>
    simp only [withoutGuards, List.filter_cons] at ih ⊢
    rw [ih]
  | @delimiter c s t _ _ ih =>
    simp only [withoutGuards, List.filter_cons] at ih ⊢
    rw [ih]
    simp

/-! ### Trimming -/

theorem reverse (h : Guarded s t) : Guarded s.reverse t.reverse := by
  induction h with
  | nil => exact nil
  | char c _ ih =>
    simp only [List.reverse_cons]
    exact ih.append (refl [c])
  | @delimiter c _ _ hc _ ih =>
    simp only [List.reverse_cons, List.append_assoc]
    exact ih.append (delimiter hc nil)

theorem dropWhile {p : Char → Bool} (hp : Unguarded p) (h : Guarded s t) :
    Guarded (s.dropWhile p) (t.dropWhile p) := by
  induction h with
  | nil => exact nil
  | char c h ih =>
    simp only [List.dropWhile_cons]
    split
    · exact ih
    · exact char c h
  | delimiter hc h _ =>
    simp only [List.dropWhile_cons, hp.zeroWidthSpace, hp.delimiter hc]
    exact delimiter hc h

theorem takeWhile_eq {p : Char → Bool} (hp : Unguarded p) (h : Guarded s t) :
    s.takeWhile p = t.takeWhile p := by
  induction h with
  | nil => rfl
  | char c _ ih => simp only [List.takeWhile_cons, ih]
  | delimiter hc _ _ => simp [hp.zeroWidthSpace, hp.delimiter hc]

theorem trimEndWhile {p : Char → Bool} (hp : Unguarded p) (h : Guarded s t) :
    Guarded (Text.trimEndWhile p s) (Text.trimEndWhile p t) :=
  (h.reverse.dropWhile hp).reverse

theorem trimWhile {p : Char → Bool} (hp : Unguarded p) (h : Guarded s t) :
    Guarded (Text.trimWhile p s) (Text.trimWhile p t) :=
  (h.dropWhile hp).trimEndWhile hp

theorem takeEndWhile_eq {p : Char → Bool} (hp : Unguarded p) (h : Guarded s t) :
    Text.takeEndWhile p s = Text.takeEndWhile p t := by
  simp only [Text.takeEndWhile, h.reverse.takeWhile_eq hp]

theorem isEmpty_eq (h : Guarded s t) : s.isEmpty = t.isEmpty := by
  cases h <;> rfl

theorem isAllBlank_eq (h : Guarded s t) : Text.isAllBlank s = Text.isAllBlank t := by
  simp only [Text.isAllBlank]
  induction h with
  | nil => rfl
  | char c _ ih => simp [ih]
  | delimiter hc _ _ => simp [unguarded_isBlank.zeroWidthSpace, unguarded_isBlank.delimiter hc]

theorem head?_beq {c : Char} (hc : c ∉ zeroWidthSpace :: delimiterChars) (h : Guarded s t) :
    (s.head? == some c) = (t.head? == some c) := by
  cases h with
  | nil => rfl
  | char d _ => rfl
  | @delimiter d _ _ hd _ =>
    have h₁ : d ≠ c := fun e => hc (e ▸ List.mem_cons_of_mem _ hd)
    have h₂ : zeroWidthSpace ≠ c := fun e => hc (e ▸ List.mem_cons_self)
    simp [h₁, h₂]

theorem getLast?_beq {c : Char} (hc : c ∉ zeroWidthSpace :: delimiterChars) (h : Guarded s t) :
    (s.getLast? == some c) = (t.getLast? == some c) := by
  simp only [List.getLast?_eq_head?_reverse]
  exact h.reverse.head?_beq hc

/-! ### Lines -/

theorem lines (h : Guarded s t) : List.Forall₂ Guarded (Text.lines s) (Text.lines t) := by
  induction h with
  | nil => exact .cons nil .nil
  | @char c s t _ ih =>
    by_cases hc : c = '\n'
    · subst hc
      exact .cons nil ih
    · obtain ⟨l, ls, hl⟩ := List.exists_cons_of_ne_nil (Text.lines_ne_nil s)
      obtain ⟨m, ms, hm⟩ := List.exists_cons_of_ne_nil (Text.lines_ne_nil t)
      rw [hl, hm, List.forall₂_cons] at ih
      rw [Text.lines_cons hc hl, Text.lines_cons hc hm]
      exact .cons (char c ih.1) ih.2
  | @delimiter c s t hc _ ih =>
    have hn : ∀ x ∈ zeroWidthSpace :: delimiterChars, x ≠ '\n' :=
      Text.forall_mem_of_all (by decide)
    have hz := hn _ List.mem_cons_self
    have hd := hn c (List.mem_cons_of_mem _ hc)
    obtain ⟨l, ls, hl⟩ := List.exists_cons_of_ne_nil (Text.lines_ne_nil s)
    obtain ⟨m, ms, hm⟩ := List.exists_cons_of_ne_nil (Text.lines_ne_nil t)
    rw [hl, hm, List.forall₂_cons] at ih
    rw [Text.lines_cons hd hl, Text.lines_cons hz (Text.lines_cons hd (Text.lines_cons hz hm))]
    exact .cons (delimiter hc ih.1) ih.2

theorem intercalate (sep : List Char) {ls ms : List (List Char)}
    (h : List.Forall₂ Guarded ls ms) : Guarded (sep.intercalate ls) (sep.intercalate ms) := by
  induction h with
  | nil => exact nil
  | cons h hs ih =>
    cases hs with
    | nil => simpa [List.intercalate] using h
    | cons h' hs =>
      simp only [List.intercalate, List.intersperse, List.flatten_cons] at ih ⊢
      exact h.append ((refl sep).append ih)

/-! ### Patterns -/

/-- A pattern without delimiters at the start of the first text starts the second one, too. -/
theorem exists_right {w : List Char} (hw : ∀ c ∈ w, c ∉ delimiterChars)
    (h : Guarded (w ++ s) t) : ∃ t', t = w ++ t' ∧ Guarded s t' := by
  induction w generalizing t with
  | nil => exact ⟨t, rfl, h⟩
  | cons c w ih =>
    cases h with
    | char _ h =>
      obtain ⟨t', rfl, h'⟩ := ih (fun d hd => hw d (List.mem_cons_of_mem _ hd)) h
      exact ⟨t', rfl, h'⟩
    | delimiter hc _ => exact absurd hc (hw c List.mem_cons_self)

/-- A pattern without zero-width spaces at the start of the second text starts the first one. -/
theorem exists_left {w : List Char} (hw : zeroWidthSpace ∉ w) (h : Guarded s (w ++ t)) :
    ∃ s', s = w ++ s' ∧ Guarded s' t := by
  induction w generalizing s with
  | nil => exact ⟨s, rfl, h⟩
  | cons c w ih =>
    have hw' : zeroWidthSpace ∉ w := fun hm => hw (List.mem_cons_of_mem _ hm)
    generalize hx : c :: w ++ t = x at h
    cases h with
    | nil => cases hx
    | char d h =>
      obtain ⟨rfl, rfl⟩ := List.cons.inj hx
      obtain ⟨s', rfl, h'⟩ := ih hw' h
      exact ⟨s', rfl, h'⟩
    | delimiter _ _ =>
      obtain ⟨rfl, -⟩ := List.cons.inj hx
      exact absurd List.mem_cons_self hw

theorem ne_of_mem_delimiterChars {c : Char} (hc : c ∈ delimiterChars) : c ≠ '<' ∧ c ≠ '\n' := by
  constructor <;> (rintro rfl; exact absurd hc (by decide))

theorem dropBreakMarks (h : Guarded s t) :
    Guarded (Mrkdwn.dropBreakMarks s) (Mrkdwn.dropBreakMarks t) := by
  fun_induction Mrkdwn.dropBreakMarks s generalizing t with
  | case1 => cases h; exact nil
  | case2 s ih =>
    obtain ⟨t', rfl, h'⟩ := exists_right (w := breakMark) (Text.forall_mem_of_all (by decide)) h
    rw [dropBreakMarks_breakMark_append]
    exact ih h'
  | case3 c s hs ih =>
    cases h with
    | @char _ _ t h =>
      rw [Mrkdwn.dropBreakMarks.eq_3 c t]
      · exact char c (ih h)
      · rintro t' rfl rfl
        obtain ⟨s', rfl, -⟩ := exists_left (w := "br />".toList) (by decide) h
        exact hs s' rfl rfl
    | delimiter hc h =>
      have hz : zeroWidthSpace ≠ '<' := by decide
      rw [dropBreakMarks_cons hz, dropBreakMarks_cons (ne_of_mem_delimiterChars hc).1,
        dropBreakMarks_cons hz]
      exact delimiter hc (ih h)

theorem joinLinesFrom (inRun : Bool) (h : Guarded s t) :
    Guarded (Mrkdwn.joinLinesFrom inRun s) (Mrkdwn.joinLinesFrom inRun t) := by
  fun_induction Mrkdwn.joinLinesFrom inRun s generalizing t with
  | case1 => cases h; exact nil
  | case2 inRun s ih =>
    obtain ⟨t', rfl, h'⟩ := exists_right (w := ['\n']) (Text.forall_mem_of_all (by decide)) h
    rw [List.singleton_append, joinLinesFrom_newline]
    exact (refl _).append (ih h')
  | case3 inRun s ih =>
    obtain ⟨t', rfl, h'⟩ :=
      exists_right (w := breakMark ++ ['\n']) (Text.forall_mem_of_all (by decide)) h
    rw [List.append_assoc, List.singleton_append, joinLinesFrom_breakMark]
    exact (refl _).append (ih h')
  | case4 inRun c s hn hs ih =>
    cases h with
    | @char _ _ t h =>
      rw [Mrkdwn.joinLinesFrom.eq_4 inRun c t hn]
      · exact char c (ih h)
      · rintro t' rfl rfl
        obtain ⟨s', rfl, -⟩ := exists_left (w := "br />\n".toList) (by decide) h
        exact hs s' rfl rfl
    | delimiter hc h =>
      have hz : zeroWidthSpace ≠ '<' ∧ zeroWidthSpace ≠ '\n' := by decide
      have hd := ne_of_mem_delimiterChars hc
      rw [joinLinesFrom_cons _ hz.2 hz.1, joinLinesFrom_cons _ hd.2 hd.1,
        joinLinesFrom_cons _ hz.2 hz.1]
      exact delimiter hc (ih h)

theorem splitQuoteMark (h : Guarded s t) :
    (Mrkdwn.splitQuoteMark s).1 = (Mrkdwn.splitQuoteMark t).1 ∧
      Guarded (Mrkdwn.splitQuoteMark s).2 (Mrkdwn.splitQuoteMark t).2 := by
  fun_cases Mrkdwn.splitQuoteMark s with
  | case1 s =>
    obtain ⟨t', rfl, h'⟩ :=
      exists_right (w := "&gt; ".toList) (Text.forall_mem_of_all (by decide)) h
    exact ⟨rfl, h'⟩
  | case2 s hs =>
    obtain ⟨t', rfl, h'⟩ :=
      exists_right (w := "&gt;".toList) (Text.forall_mem_of_all (by decide)) h
    have ht : Mrkdwn.splitQuoteMark ("&gt;".toList ++ t') = ("&gt;".toList, t') := by
      refine Mrkdwn.splitQuoteMark.eq_2 t' ?_
      rintro u rfl
      obtain ⟨s', rfl, -⟩ := exists_left (w := [' ']) (by decide) h'
      exact hs s' rfl
    rw [ht]
    exact ⟨rfl, h'⟩
  | case3 s h₁ h₂ =>
    have ht : Mrkdwn.splitQuoteMark t = ([], t) := by
      refine Mrkdwn.splitQuoteMark.eq_3 t ?_ ?_
      · rintro u rfl
        obtain ⟨s', rfl, -⟩ := exists_left (w := "&gt; ".toList) (by decide) h
        exact h₁ s' rfl
      · rintro u rfl
        obtain ⟨s', rfl, -⟩ := exists_left (w := "&gt;".toList) (by decide) h
        exact h₂ s' rfl
    rw [ht]
    exact ⟨rfl, h⟩

theorem not_mem_delimiterChars_of_wellFormed {p : Placeholder} (hp : p.WellFormed) :
    ∀ c ∈ p.text, c ∉ zeroWidthSpace :: delimiterChars := by
  intro c hc hm
  have hd : ∀ x ∈ zeroWidthSpace :: delimiterChars, Text.isDecimalDigit x = false :=
    Text.forall_mem_of_all (by decide)
  have hopen : ∀ x ∈ Placeholder.opening, x ∉ zeroWidthSpace :: delimiterChars :=
    Text.forall_mem_of_all (by decide)
  have hclose : ∀ x ∈ ['>', '>'], x ∉ zeroWidthSpace :: delimiterChars :=
    Text.forall_mem_of_all (by decide)
  simp only [Placeholder.text, List.append_assoc, List.mem_append] at hc
  rcases hc with hc | hc | hc | hc
  · exact hopen c hc hm
  · exact absurd (hp.2 c hc) (by simp [hd c hm])
  · cases hs : p.singleLine <;> simp [hs] at hc
    subst hc
    exact absurd hm (by decide)
  · exact hclose c hc hm

/-- Placeholders stay where they are, whatever is written for each of them. -/
theorem flatMap_pieces {f : Piece → List Char} (hf : ∀ c, f (.char c) = [c]) (h : Guarded s t) :
    Guarded ((pieces s).flatMap f) ((pieces t).flatMap f) := by
  fun_induction pieces s generalizing t with
  | case1 => cases h; simpa using nil
  | case2 c s p rest hr _ ih =>
    have hp := not_mem_delimiterChars_of_wellFormed (Placeholder.wellFormed_of_read? hr)
    rw [Placeholder.eq_append_of_read? hr] at h
    obtain ⟨t', rfl, h'⟩ :=
      exists_right (fun x hx hm => hp x hx (List.mem_cons_of_mem _ hm)) h
    rw [pieces_of_read? (Placeholder.read?_text_append (Placeholder.wellFormed_of_read? hr) t')]
    simp only [List.flatMap_cons]
    exact (refl _).append (ih h')
  | case3 c s hr ih =>
    -- what starts no placeholder on the left starts none on the right
    have hchar : ∀ {d : Char} {u : List Char}, Guarded (c :: s) (d :: u) →
        Placeholder.read? (d :: u) = none := by
      intro d u hu
      by_contra hn
      obtain ⟨⟨p, rest⟩, hp⟩ := Option.ne_none_iff_exists'.mp hn
      have hw := Placeholder.wellFormed_of_read? hp
      rw [Placeholder.eq_append_of_read? hp] at hu
      obtain ⟨s', hs, -⟩ := exists_left
        (fun hm => not_mem_delimiterChars_of_wellFormed hw _ hm List.mem_cons_self) hu
      rw [hs, Placeholder.read?_text_append hw] at hr
      cases hr
    cases h with
    | char _ h =>
      rw [pieces_cons (hchar (char c h))]
      simp only [List.flatMap_cons, hf]
      exact char c (ih h)
    | delimiter hc h =>
      have hz : zeroWidthSpace ≠ '<' := by decide
      rw [pieces_cons (read?_cons_of_ne hz _),
        pieces_cons (read?_cons_of_ne (ne_of_mem_delimiterChars hc).1 _),
        pieces_cons (read?_cons_of_ne hz _)]
      simp only [List.flatMap_cons, hf]
      exact delimiter hc (ih h)

theorem restore (fences : Fences) (h : Guarded s t) :
    Guarded (Mrkdwn.restore fences s) (Mrkdwn.restore fences t) :=
  flatMap_pieces (fun _ => rfl) h

theorem showsNothing_eq (ignoresFences : Bool) (h : Guarded s t) :
    showsNothing ignoresFences s = showsNothing ignoresFences t := by
  simp only [showsNothing]
  split
  · exact (flatMap_pieces (fun _ => rfl) h.dropBreakMarks).isAllBlank_eq
  · exact h.dropBreakMarks.isAllBlank_eq

/-! ### Rules -/

theorem wrapLine (h : Guarded s t) {d d' : List Char} (hd : Guarded d d') (wrapsFences : Bool) :
    Guarded (Mrkdwn.wrapLine d wrapsFences s) (Mrkdwn.wrapLine d' wrapsFences t) := by
  obtain ⟨hq, hr⟩ := h.splitQuoteMark
  simp only [Mrkdwn.wrapLine, hr.showsNothing_eq, hq]
  split
  · exact h
  · exact (((refl _).append hd).append hr).append hd

theorem wrapLines (h : Guarded s t) {d d' : List Char} (hd : Guarded d d') (wrapsFences : Bool) :
    Guarded (Mrkdwn.wrapLines d wrapsFences s) (Mrkdwn.wrapLines d' wrapsFences t) := by
  apply intercalate
  rw [List.forall₂_map_left_iff, List.forall₂_map_right_iff]
  exact h.lines.imp fun _ _ h => h.wrapLine hd wrapsFences

theorem unguarded_newline : Unguarded fun c => decide (c = '\n') := unguarded_eq (by decide)

theorem unguarded_space : Unguarded fun c => decide (c = ' ') := unguarded_eq (by decide)

theorem join (h : Guarded s t) (h' : Guarded s' t') :
    Guarded (Mrkdwn.join s s') (Mrkdwn.join t t') := by
  simp only [Mrkdwn.join, leadingNewlines, trailingNewlines,
    h.takeEndWhile_eq unguarded_newline, h'.takeWhile_eq unguarded_newline]
  exact ((h.trimEndWhile unguarded_newline).append (refl _)).append (h'.dropWhile unguarded_newline)

theorem paragraph (h : Guarded s t) : Guarded (Mrkdwn.paragraph s) (Mrkdwn.paragraph t) :=
  (char _ (char _ h)).append (refl _)

theorem blockquote (h : Guarded s t) : Guarded (Mrkdwn.blockquote s) (Mrkdwn.blockquote t) := by
  apply paragraph
  apply intercalate
  rw [List.forall₂_map_left_iff, List.forall₂_map_right_iff]
  exact (h.trimWhile unguarded_newline).lines.imp fun _ _ h => (refl quoteMark).append h

theorem listItem (p : ItemPosition) (h : Guarded s t) :
    Guarded (Mrkdwn.listItem s p) (Mrkdwn.listItem t p) := by
  have hb := intercalate (['\n'] ++ p.marker.indent) (h.trimWhile unguarded_newline).lines
  simp only [Mrkdwn.listItem, h.getLast?_beq (c := '\n') (by decide)]
  exact ((refl _).append hb).append (refl _)

theorem list (nestedLast : Bool) (h : Guarded s t) :
    Guarded (Mrkdwn.list s nestedLast) (Mrkdwn.list t nestedLast) := by
  simp only [Mrkdwn.list]
  split
  · exact char _ h
  · exact h.paragraph

theorem link (href : List Char) (h : Guarded s t) :
    Guarded (Mrkdwn.link s href) (Mrkdwn.link t href) := by
  simp only [Mrkdwn.link]
  split
  · exact refl _
  · have hl := (h.joinLinesFrom false).trimWhile unguarded_isBlank
    exact (char _ ((refl _).append (char _ hl))).append (refl _)

theorem dateToken (timestamp fallback : List Char) (h : Guarded s t) :
    Guarded (Mrkdwn.dateToken s timestamp fallback) (Mrkdwn.dateToken t timestamp fallback) := by
  have hc : Guarded ('^' :: s) ('^' :: t) := char _ h
  unfold Mrkdwn.dateToken
  generalize "<!date^".toList = opening
  exact (((refl (opening ++ timestamp)).append hc).append (refl _)).append (refl _)

theorem trimStartIf (trims : Bool) (h : Guarded s t) :
    Guarded (Mrkdwn.trimStartIf trims s) (Mrkdwn.trimStartIf trims t) := by
  simp only [Mrkdwn.trimStartIf]
  split
  · exact h.dropWhile unguarded_space
  · exact h

theorem trimEnds (h : Guarded s t) : Guarded (Mrkdwn.trimEnds s) (Mrkdwn.trimEnds t) := by
  have hp : Unguarded fun c => c = '\t' || c = '\r' || c = '\n' := by
    unfold Unguarded
    exact Text.forall_mem_of_all (by decide)
  exact (h.dropWhile hp).trimEndWhile unguarded_isBlank

theorem afterSpace_eq (isBlock : Bool) (h : Guarded s t) :
    afterSpace s isBlock = afterSpace t isBlock := by
  simp only [afterSpace, h.isEmpty_eq, h.getLast?_beq (c := '\n') (by decide),
    h.getLast?_beq (c := ' ') (by decide)]

end Guarded

/-! ## Documents -/

/-- The delimiters of the second kind are those of the first with guards. -/
structure GuardedDelimiters (d d' : Delimiters) : Prop where
  strong : Guarded d.strong d'.strong
  emphasis : Guarded d.emphasis d'.emphasis
  strike : Guarded d.strike d'.strike
  code : Guarded d.code d'.code

theorem guardedDelimiters_exactMode :
    GuardedDelimiters (delimiters {}) (delimiters { exactMode := true }) where
  strong := .delimiter (by decide) .nil
  emphasis := .delimiter (by decide) .nil
  strike := .delimiter (by decide) .nil
  code := .delimiter (by decide) .nil

section Layout

variable {d d' : Delimiters}

theorem guarded_layInline (hd : GuardedDelimiters d d') (name : String) (attrs : Attrs)
    {s t : List Char} (h : Guarded s t) :
    Guarded (layInline d name attrs s) (layInline d' name attrs t) := by
  simp only [layInline]
  split
  any_goals exact h.wrapLines hd.strong true
  any_goals exact h.wrapLines hd.emphasis true
  any_goals exact h.wrapLines hd.strike false
  any_goals exact h.wrapLines hd.code true
  · exact (Guarded.refl quoteMark).append h
  · split
    · split
      · exact h
      · exact h.link _
    · exact h
  · split
    · exact h.dateToken _ _
    · exact h
  · exact h

theorem guarded_layBlock (name : String) (place : Mrkdwn.Place) {s t : List Char}
    (h : Guarded s t) : Guarded (layBlock name place s) (layBlock name place t) := by
  simp only [layBlock]
  split
  · exact h.blockquote
  · exact h.list _
  · exact h.list _
  · exact h.listItem _
  · exact h.paragraph

theorem guarded_layAround (hd : GuardedDelimiters d d') (name : String) (attrs : Attrs)
    (place : Mrkdwn.Place) {s t : List Char} (h : Guarded s t) :
    Guarded (layAround d name attrs place s) (layAround d' name attrs place t) := by
  have hi := h.trimWhile Guarded.unguarded_space
  simp only [layAround, h.takeWhile_eq Guarded.unguarded_space,
    h.takeEndWhile_eq Guarded.unguarded_space]
  split
  · exact guarded_layBlock name place hi
  · split
    · exact Guarded.refl _
    · exact ((Guarded.refl _).append (guarded_layInline hd name attrs hi)).append (Guarded.refl _)

mutual

/-- A node is laid out to guarded texts, and the same code is put aside. -/
theorem guarded_layNode (hd : GuardedDelimiters d d') (trims : Bool) (place : Mrkdwn.Place)
    (fences : Fences) : (n : Dom) →
    Guarded (layNode d trims place fences n).text (layNode d' trims place fences n).text ∧
      (layNode d trims place fences n).fences = (layNode d' trims place fences n).fences
  | .text content => by
    simp only [layNode]
    exact ⟨Guarded.refl _, trivial⟩
  | .comment => by
    simp only [layNode]
    exact ⟨Guarded.nil, trivial⟩
  | .element name attrs children => by
    simp only [layNode]
    split
    · exact ⟨Guarded.refl _, rfl⟩
    · split
      · exact ⟨Guarded.refl _, rfl⟩
      · obtain ⟨ht, hf⟩ := guarded_layNodes hd name attrs (isBlockName name) 0 ⟨[], fences⟩
          ⟨[], fences⟩ .nil rfl children
        exact ⟨(guarded_layAround hd name attrs place ht).trimStartIf trims, hf⟩

/-- Nodes are laid out to guarded texts behind guarded texts, and the same code is put aside. -/
theorem guarded_layNodes (hd : GuardedDelimiters d d') (parent : String) (parentAttrs : Attrs)
    (isBlock : Bool) (elementsBefore : Nat) (laid laid' : Laid) (ht : Guarded laid.text laid'.text)
    (hf : laid.fences = laid'.fences) : (ns : List Dom) →
    Guarded (layNodes d parent parentAttrs isBlock elementsBefore laid ns).text
        (layNodes d' parent parentAttrs isBlock elementsBefore laid' ns).text ∧
      (layNodes d parent parentAttrs isBlock elementsBefore laid ns).fences
        = (layNodes d' parent parentAttrs isBlock elementsBefore laid' ns).fences
  | [] => by
    simp only [layNodes]
    exact ⟨ht, hf⟩
  | n :: ns => by
    simp only [layNodes, ht.afterSpace_eq, hf]
    obtain ⟨hnt, hnf⟩ := guarded_layNode hd (afterSpace laid'.text isBlock)
      ⟨parent, parentAttrs, elementsBefore, !ns.isEmpty, ns.any Dom.isElement⟩ laid'.fences n
    exact guarded_layNodes hd parent parentAttrs isBlock _ ⟨_, _⟩ ⟨_, _⟩ (ht.join hnt) hnf ns

end

theorem guarded_ofDoms (hd : GuardedDelimiters d d') (body : List Dom) :
    Guarded (ofDoms d body) (ofDoms d' body) := by
  obtain ⟨ht, hf⟩ := guarded_layNodes hd "body" [] true 0 ⟨[], []⟩ ⟨[], []⟩ .nil rfl body
  simp only [ofDoms, layBody, hf]
  exact ht.trimEnds.dropBreakMarks.restore _

end Layout

/-- Exact mode adds nothing but zero-width spaces to the mrkdwn of a fragment. -/
theorem withoutGuards_ofHtml (html : List Char) :
    withoutGuards (ofHtml { exactMode := true } html) = withoutGuards (ofHtml {} html) :=
  (guarded_ofDoms guardedDelimiters_exactMode (parse html)).withoutGuards_eq.symm

/-- Exact mode only adds zero-width spaces: to the mrkdwn of every fragment, and hence to that of
inline children in which nothing is converted to mrkdwn already. Then both renderings succeed and
differ in zero-width spaces, or both fail with the same error. -/
theorem exactMode_only_adds_zeroWidthSpaces :
    (∀ html, withoutGuards (ofHtml { exactMode := true } html) = withoutGuards (ofHtml {} html)) ∧
      ∀ content : Content, childrenHoldMarkup content.normalize = false →
        (∃ exact plain, renderMrkdwn { exactMode := true } content = .ok exact ∧
            renderMrkdwn {} content = .ok plain ∧
            withoutGuards exact.toList = withoutGuards plain.toList) ∨
          ∃ e, renderMrkdwn { exactMode := true } content = .error e ∧
            renderMrkdwn {} content = .error e := by
  refine ⟨withoutGuards_ofHtml, fun content h => ?_⟩
  have hf : renderFragment { exactMode := true } content = renderFragment {} content :=
    congrArg (fun x => (fun html => String.ofList html) <$> Render.RenderM.checked x)
      (Render.renderText_withOptions { exactMode := true }
        ((Render.Context.ofOptions {}).withMode .html) content.normalize h)
  simp only [renderMrkdwn_eq_map_renderFragment, hf]
  cases renderFragment {} content with
  | error e => exact .inr ⟨e, rfl, rfl⟩
  | ok html =>
    refine .inl ⟨_, _, rfl, rfl, ?_⟩
    simpa using withoutGuards_ofHtml html.toList

/-- Strong text within a word: the guards keep the asterisks from the letters around them. -/
theorem exactMode_only_adds_zeroWidthSpaces_within_word :
    let content : Content := .list [.text "a", .node ((Node.tag "b").child (.text "b*")), .text "c"]
    let exact := "a\u200b*\u200bb\u2217\u200b*\u200bc"
    let plain := "a*b\u2217*c"
    childrenHoldMarkup content.normalize = false ∧
      renderMrkdwn { exactMode := true } content = .ok exact ∧ renderMrkdwn {} content = .ok plain ∧
        withoutGuards exact.toList = withoutGuards plain.toList := by
  intro content exact plain
  have hmarkup : childrenHoldMarkup content.normalize = false := by decide
  have hfragment : ∀ options, renderFragment options content = .ok "a<b>b\u2217</b>c" := fun _ => rfl
  have hparse : parse "a<b>b\u2217</b>c".toList
      = [.text "a".toList, .element "b" [] [.text "b\u2217".toList], .text "c".toList] := rfl
  have hlaid : ∀ {options : FormatOptions} {s : List Char}, '<' ∉ s → trimEnds s = s →
      layBody (delimiters options)
        [.text "a".toList, .element "b" [] [.text "b\u2217".toList], .text "c".toList] = ⟨s, []⟩ →
        renderMrkdwn options content = .ok (String.ofList s) := by
    intro options s hlt htrim hlaid
    rw [renderMrkdwn_eq_map_renderFragment, hfragment, Except.map, ofHtml, hparse, ofDoms, hlaid]
    simp only [htrim, dropBreakMarks_of_not_mem hlt, restore_of_not_mem hlt]
  have hexact : renderMrkdwn { exactMode := true } content = .ok exact :=
    hlaid (s := "a\u200b*\u200bb\u2217\u200b*\u200bc".toList) (by decide) rfl rfl
  have hplain : renderMrkdwn {} content = .ok plain :=
    hlaid (s := "a*b\u2217*c".toList) (by decide) rfl rfl
  rcases exactMode_only_adds_zeroWidthSpaces.2 content hmarkup with ⟨e, p, he, hp, h⟩ | ⟨e, he, -⟩
  · obtain rfl := Except.ok.inj (hexact.symm.trans he)
    obtain rfl := Except.ok.inj (hplain.symm.trans hp)
    exact ⟨hmarkup, hexact, hplain, h⟩
  · rw [hexact] at he
    cases he

end MessageLayout.Mrkdwn
