import MessageLayout.Proofs.SearchedText
import MessageLayout.Proofs.TextEnds

/-!
# Styled lines

A style is put around whole lines, found by a search from the left: a whole line stands between line
feeds or the ends of the text, and may be empty. The search finds each line of the text once, so the
style can be told line by line. A line keeps its quote mark outside of the delimiters, and stays as
it is if it has nothing to show: no more than blanks once break marks and, where the style does not
go around code blocks, placeholders are removed.

    FindsLines [] false s parts ↔ parts = lineParts (lines s)              (findsLines_iff)
    wrapLines d w s replaces the lines that the search finds               (partsText_lineParts)
    showsNothing (!w) s = true ↔ IsBare w s                                (showsNothing_iff)
    '\n' ∉ d → a style goes around each line of its own                    (wrapLines_lineByLine)
-/

namespace MessageLayout

namespace Markup

/-! ## Matches removed or replaced -/

namespace Part

/-- The part of a text with a match replaced. -/
def mapHit (f : List Char → List Char) : Part → Part
  | gap s => gap s
  | hit m => hit (f m)

/-- What is left of a part when matches are removed. -/
def left : Part → List Char
  | gap s => s
  | hit _ => []

/-- The match that a part is. -/
def hit? : Part → Option (List Char)
  | gap _ => none
  | hit m => some m

end Part

/-- The second text is the first without the matches of a pattern that a search finds in it. -/
def Without (p : List Char → Prop) (s t : List Char) : Prop :=
  ∃ parts, Searched p s parts ∧ t = parts.flatMap Part.left

section Removal

variable {p : List Char → Prop} {remove : List Char → List Char}

/-- Characters with which no match begins stay. -/
theorem remove_append (hkeep : ∀ c s, (∀ m, m <+: c :: s → ¬p m) → remove (c :: s) = c :: remove s)
    {a s : List Char} (h : ∀ b, b ≠ [] → b <:+ a → ∀ m, m <+: b ++ s → ¬p m) :
    remove (a ++ s) = a ++ remove s := by
  induction a with
  | nil => rfl
  | cons c a ih =>
    rw [List.cons_append, hkeep c (a ++ s) (h (c :: a) (by simp) List.suffix_rfl),
      ih fun b hb hsuffix => h b hb (hsuffix.trans (List.suffix_cons c a)), List.cons_append]

/-- A function that keeps characters with which no match begins and passes over matches removes what
a search finds. -/
theorem Searched.remove_eq (hnil : remove [] = [])
    (hkeep : ∀ c s, (∀ m, m <+: c :: s → ¬p m) → remove (c :: s) = c :: remove s)
    (hmatch : ∀ m s, p m → remove (m ++ s) = remove s) {s : List Char} {parts : List Part}
    (h : Searched p s parts) : remove s = parts.flatMap Part.left := by
  induction h with
  | @rest s hnone =>
    have hgap := remove_append hkeep (a := s) (s := []) fun b _ hsuffix m hbegins => by
      rw [List.append_nil] at hbegins
      exact hnone m (hbegins.isInfix.trans hsuffix.isInfix)
    rw [List.append_nil, hnil] at hgap
    exact hgap
  | found hfirst hm _ ih =>
    rw [remove_append hkeep hfirst, hmatch _ _ hm, ih]
    rfl

theorem without_iff (hp : ¬p []) (hnil : remove [] = [])
    (hkeep : ∀ c s, (∀ m, m <+: c :: s → ¬p m) → remove (c :: s) = c :: remove s)
    (hmatch : ∀ m s, p m → remove (m ++ s) = remove s) {s t : List Char} :
    Without p s t ↔ t = remove s := by
  constructor
  · rintro ⟨parts, hparts, rfl⟩
    exact (hparts.remove_eq hnil hkeep hmatch).symm
  · rintro rfl
    obtain ⟨parts, hparts⟩ := exists_searched hp s
    exact ⟨parts, hparts, hparts.remove_eq hnil hkeep hmatch⟩

end Removal

end Markup

namespace Mrkdwn

open Markup (partsText Without without_iff)

/-! ## Marks within a line -/

/-- A placeholder: digits of a number, with or without the sign for a single line. -/
def IsPlaceholder (m : List Char) : Prop :=
  ∃ p : Placeholder, p.WellFormed ∧ m = p.text

theorem without_breakMark_iff {s t : List Char} :
    Without (· = breakMark) s t ↔ t = dropBreakMarks s := by
  refine without_iff (by decide) rfl (fun c s h => ?_) ?_
  · exact dropBreakMarks_cons_of_not_started fun hbegins => h breakMark hbegins rfl
  · rintro _ s rfl
    exact dropBreakMarks_breakMark_append s

theorem without_placeholder_iff {s t : List Char} :
    Without IsPlaceholder s t ↔ t = dropPlaceholders s := by
  refine without_iff ?_ (by rw [dropPlaceholders, pieces_nil]; rfl) (fun c s h => ?_) ?_
  · rintro ⟨p, -, hp⟩
    cases hp
  · have hread : Placeholder.read? (c :: s) = none := by
      rw [Option.eq_none_iff_forall_ne_some]
      rintro ⟨p, rest⟩ hread
      exact h p.text ⟨rest, (Placeholder.eq_append_of_read? hread).symm⟩
        ⟨p, Placeholder.wellFormed_of_read? hread, rfl⟩
    rw [dropPlaceholders, pieces_cons hread]
    rfl
  · rintro _ s ⟨p, hp, rfl⟩
    rw [dropPlaceholders, pieces_of_read? (Placeholder.read?_text_append hp s)]
    rfl

/-- A text has nothing to show: it is blank without its break marks and, unless the style goes around
code blocks, without its placeholders. -/
def IsBare (wrapsFences : Bool) (s : List Char) : Prop :=
  ∃ t u, Without (· = breakMark) s t ∧ (if wrapsFences then u = t else Without IsPlaceholder t u) ∧
    ∀ c ∈ u, Text.isBlank c = true

theorem showsNothing_iff {wrapsFences : Bool} {s : List Char} :
    showsNothing (!wrapsFences) s = true ↔ IsBare wrapsFences s := by
  unfold IsBare showsNothing Text.isAllBlank
  simp only [without_breakMark_iff, without_placeholder_iff]
  cases wrapsFences <;> simp

/-- The quote mark that a line begins with, which takes a space behind it, and the rest. -/
inductive Quotes : List Char → List Char → List Char → Prop
  | none {l : List Char} : ¬"&gt;".toList <+: l → Quotes l [] l
  | mark {rest : List Char} : rest.head? ≠ some ' ' →
      Quotes ("&gt;".toList ++ rest) "&gt;".toList rest
  | spaced (rest : List Char) : Quotes ("&gt; ".toList ++ rest) "&gt; ".toList rest

theorem quotes_splitQuoteMark (l : List Char) :
    Quotes l (splitQuoteMark l).1 (splitQuoteMark l).2 := by
  fun_cases splitQuoteMark l with
  | case1 s => exact .spaced s
  | case2 s hspace =>
    refine .mark fun hhead => ?_
    obtain ⟨t, rfl⟩ := List.head?_eq_some_iff.mp hhead
    exact hspace t rfl
  | case3 _ _ hmark =>
    refine .none ?_
    rintro ⟨t, rfl⟩
    exact hmark t rfl

/-- What a style makes of a line: it stays as it is if it has nothing to show behind its quote mark,
and else what is behind the mark stands in delimiters. -/
def Styles (delimiter : List Char) (wrapsFences : Bool) (l l' : List Char) : Prop :=
  ∃ mark rest, Quotes l mark rest ∧
    (IsBare wrapsFences rest ∧ l' = l ∨
      ¬IsBare wrapsFences rest ∧ l' = mark ++ delimiter ++ rest ++ delimiter)

theorem styles_wrapLine (delimiter : List Char) (wrapsFences : Bool) (l : List Char) :
    Styles delimiter wrapsFences l (wrapLine delimiter wrapsFences l) := by
  refine ⟨_, _, quotes_splitQuoteMark l, ?_⟩
  rw [← showsNothing_iff]
  simp only [wrapLine]
  split
  · next h => exact .inl ⟨h, rfl⟩
  · next h => exact .inr ⟨h, rfl⟩

/-! ## Searching for lines -/

/-- A whole line, between what stands before it and behind it. -/
structure IsWholeLine (before m after : List Char) : Prop where
  starts : before = [] ∨ before.getLast? = some '\n'
  newline_not_mem : '\n' ∉ m
  ends : after = [] ∨ after.head? = some '\n'

/-- An empty match where the last one ended, which a search passes over. -/
def Passed (ended : Bool) (a m : List Char) : Prop :=
  ended = true ∧ a = [] ∧ m = []

/-- What a search for whole lines finds in `s` behind `before`, where `ended` says whether the last
match ended there. Before a match that it finds none begins. -/
inductive FindsLines : List Char → Bool → List Char → List Markup.Part → Prop
  | rest {before s : List Char} {ended : Bool} :
      (∀ a m b, a ++ (m ++ b) = s → IsWholeLine (before ++ a) m b → Passed ended a m) →
        FindsLines before ended s [.gap s]
  | found {before a m s : List Char} {ended : Bool} {parts : List Markup.Part} :
      (∀ a' m' b, a' ++ (m' ++ b) = a ++ (m ++ s) → a'.length < a.length →
        IsWholeLine (before ++ a') m' b → Passed ended a' m') →
      IsWholeLine (before ++ a) m s → ¬Passed ended a m →
      FindsLines (before ++ a ++ m) true s parts →
        FindsLines before ended (a ++ (m ++ s)) (.gap a :: .hit m :: parts)

/-- Where a line begins, one line stands. -/
theorem IsWholeLine.eq {before before' m m' s s' : List Char} (h : IsWholeLine before m s)
    (h' : IsWholeLine before' m' s') (heq : m ++ s = m' ++ s') : m = m' ∧ s = s' := by
  have htake : ∀ {before m s : List Char}, IsWholeLine before m s →
      (m ++ s).takeWhile (· ≠ '\n') = m := by
    intro before m s h
    have hm : ∀ c ∈ m, decide (c ≠ '\n') = true := fun c hc =>
      decide_eq_true fun heq => h.newline_not_mem (heq ▸ hc)
    rw [List.takeWhile_append_of_pos hm]
    rcases h.ends with rfl | hs
    · simp
    · obtain ⟨t, rfl⟩ := List.head?_eq_some_iff.mp hs
      simp
  have hm : m = m' := by rw [← htake h, ← htake h', heq]
  subst hm
  exact ⟨rfl, List.append_cancel_left heq⟩

/-- A search goes on behind the first match that it does not pass over. -/
theorem findsLines_append_iff {before a m s : List Char} {ended : Bool} {parts : List Markup.Part}
    (hfirst : ∀ a' m' b, a' ++ (m' ++ b) = a ++ (m ++ s) → a'.length < a.length →
      IsWholeLine (before ++ a') m' b → Passed ended a' m')
    (hline : IsWholeLine (before ++ a) m s) (hnew : ¬Passed ended a m) :
    FindsLines before ended (a ++ (m ++ s)) parts
      ↔ ∃ rest, parts = .gap a :: .hit m :: rest ∧ FindsLines (before ++ a ++ m) true s rest := by
  constructor
  · intro h
    generalize htext : a ++ (m ++ s) = text at h
    cases h with
    | rest hnone => exact absurd (hnone a m s htext hline) hnew
    | @found _ a' m' s' _ rest hfirst' hline' hnew' hrest =>
      have hlength : a'.length = a.length := by
        rcases Nat.lt_trichotomy a'.length a.length with hlt | heq | hlt
        · exact absurd (hfirst a' m' s' htext.symm hlt hline') hnew'
        · exact heq
        · exact absurd (hfirst' a m s htext hlt hline) hnew
      obtain ⟨rfl, hbehind⟩ := List.append_inj htext hlength.symm
      obtain ⟨rfl, rfl⟩ := hline.eq hline' hbehind
      exact ⟨rest, rfl, hrest⟩
  · rintro ⟨rest, rfl, hrest⟩
    exact .found hfirst hline hnew hrest

/-- A search that finds no match but one it passes over ends. -/
theorem findsLines_gap_iff {before s : List Char} {ended : Bool} {parts : List Markup.Part}
    (hnone : ∀ a m b, a ++ (m ++ b) = s → IsWholeLine (before ++ a) m b → Passed ended a m) :
    FindsLines before ended s parts ↔ parts = [.gap s] := by
  constructor
  · intro h
    cases h with
    | rest => rfl
    | @found _ a m s _ _ _ hline hnew _ => exact absurd (hnone a m s rfl hline) hnew
  · rintro rfl
    exact .rest hnone

/-! ## Line by line -/

/-- Lines, each behind a line feed. -/
def laterText (ls : List (List Char)) : List Char :=
  ls.flatMap fun l => '\n' :: l

theorem unlines_cons_eq (l : List Char) (ls : List (List Char)) :
    Text.unlines (l :: ls) = l ++ laterText ls := by
  induction ls generalizing l with
  | nil => simp [laterText]
  | cons m ms ih =>
    rw [Text.unlines_cons l (by simp), ih]
    rfl

theorem laterText_ends (ls : List (List Char)) :
    laterText ls = [] ∨ (laterText ls).head? = some '\n' := by
  cases ls with
  | nil => exact .inl rfl
  | cons l ls => exact .inr rfl

/-- What a search for whole lines finds behind a line. -/
def laterParts : List (List Char) → List Markup.Part
  | [] => [.gap []]
  | l :: ls => .gap ['\n'] :: .hit l :: laterParts ls

/-- What a search for whole lines finds in the text with the given lines. -/
def lineParts : List (List Char) → List Markup.Part
  | [] => []
  | l :: ls => .gap [] :: .hit l :: laterParts ls

/-- Behind a line that was found, the search goes on with the next line, if there is one. -/
theorem findsLines_laterText_iff {ls : List (List Char)} (hls : ∀ l ∈ ls, '\n' ∉ l)
    {before : List Char} {parts : List Markup.Part} :
    FindsLines before true (laterText ls) parts ↔ parts = laterParts ls := by
  induction ls generalizing before parts with
  | nil =>
    refine findsLines_gap_iff fun a m b hempty _ => ⟨rfl, ?_⟩
    simp only [laterText, List.flatMap_nil, List.append_eq_nil_iff] at hempty
    exact ⟨hempty.1, hempty.2.1⟩
  | cons l ls ih =>
    obtain ⟨hl, hls⟩ := List.forall_mem_cons.mp hls
    have htext : laterText (l :: ls) = ['\n'] ++ (l ++ laterText ls) := rfl
    rw [htext, findsLines_append_iff]
    · simp only [ih hls, exists_eq_right]
      rfl
    · -- before the line feed there is but the empty match that is passed over
      intro a m b heq hlength hline
      obtain rfl := List.length_eq_zero_iff.mp (Nat.lt_one_iff.mp hlength)
      refine ⟨rfl, rfl, ?_⟩
      cases m with
      | nil => rfl
      | cons c m =>
        obtain ⟨rfl, -⟩ := List.cons.inj heq
        exact absurd List.mem_cons_self hline.newline_not_mem
    · exact ⟨.inr (by simp), hl, laterText_ends ls⟩
    · exact fun hpassed => List.cons_ne_nil _ _ hpassed.2.1

/-- The search finds each line of a text once, the empty ones and the last one too. -/
theorem findsLines_iff {s : List Char} {parts : List Markup.Part} :
    FindsLines [] false s parts ↔ parts = lineParts (Text.lines s) := by
  obtain ⟨l, ls, hlines⟩ := List.exists_cons_of_ne_nil (Text.lines_ne_nil s)
  have hmem : ∀ m ∈ l :: ls, '\n' ∉ m := fun m hm =>
    newline_not_mem_of_mem_lines (s := s) (hlines ▸ hm)
  obtain ⟨hl, hls⟩ := List.forall_mem_cons.mp hmem
  have htext : s = [] ++ (l ++ laterText ls) := by
    rw [List.nil_append, ← unlines_cons_eq, ← hlines, Text.unlines_lines]
  rw [hlines]
  conv_lhs => rw [htext]
  rw [findsLines_append_iff (fun _ _ _ _ hlength => absurd hlength (Nat.not_lt_zero _))
    ⟨.inl rfl, hl, laterText_ends ls⟩ fun hpassed => Bool.false_ne_true hpassed.1]
  simp only [findsLines_laterText_iff hls, exists_eq_right]
  rfl

theorem hits_lineParts (ls : List (List Char)) :
    (lineParts ls).filterMap Markup.Part.hit? = ls := by
  have hlater : ∀ ls, (laterParts ls).filterMap Markup.Part.hit? = ls := by
    intro ls
    induction ls with
    | nil => rfl
    | cons l ls ih => exact congrArg (l :: ·) ih
  cases ls with
  | nil => rfl
  | cons l ls => exact congrArg (l :: ·) (hlater ls)

/-- The text in which each line that is found is replaced. -/
theorem partsText_lineParts (f : List Char → List Char) (ls : List (List Char)) :
    partsText ((lineParts ls).map (Markup.Part.mapHit f)) = Text.unlines (ls.map f) := by
  have hlater : ∀ ls, partsText ((laterParts ls).map (Markup.Part.mapHit f))
      = laterText (ls.map f) := by
    intro ls
    induction ls with
    | nil => rfl
    | cons l ls ih =>
      rw [laterParts, List.map_cons, List.map_cons, Markup.partsText_cons, Markup.partsText_cons, ih]
      rfl
  cases ls with
  | nil => rfl
  | cons l ls =>
    rw [lineParts, List.map_cons, List.map_cons, Markup.partsText_cons, Markup.partsText_cons,
      hlater, List.map_cons, unlines_cons_eq]
    rfl

theorem lines_wrapLines {delimiter : List Char} (hd : '\n' ∉ delimiter) (wrapsFences : Bool)
    (s : List Char) :
    Text.lines (wrapLines delimiter wrapsFences s)
      = (Text.lines s).map (wrapLine delimiter wrapsFences) := by
  refine Text.lines_unlines (by simp [Text.lines_ne_nil]) fun l hl => ?_
  obtain ⟨k, hk, rfl⟩ := List.mem_map.mp hl
  exact newline_not_mem_wrapLine hd wrapsFences (newline_not_mem_of_mem_lines hk)

/-- A style is put around each line of a text by itself. A search for whole lines finds each of them
once, and they are replaced; so the styled text has as many lines, each of which is what the style
makes of the line in its place, and two texts on lines of their own are styled apart. -/
theorem wrapLines_lineByLine {delimiter : List Char} (hd : '\n' ∉ delimiter) (wrapsFences : Bool) :
    (∀ s, (Text.lines (wrapLines delimiter wrapsFences s)).length = (Text.lines s).length ∧
      List.Forall₂ (Styles delimiter wrapsFences) (Text.lines s)
        (Text.lines (wrapLines delimiter wrapsFences s))) ∧
      (∀ s, ∃ parts, (∀ parts', FindsLines [] false s parts' ↔ parts' = parts) ∧
        parts.filterMap Markup.Part.hit? = Text.lines s ∧
        wrapLines delimiter wrapsFences s
          = partsText (parts.map (Markup.Part.mapHit (wrapLine delimiter wrapsFences)))) ∧
      ∀ s t, wrapLines delimiter wrapsFences (s ++ '\n' :: t)
        = wrapLines delimiter wrapsFences s ++ '\n' :: wrapLines delimiter wrapsFences t := by
  refine ⟨fun s => ?_, fun s => ?_, wrapLines_append delimiter wrapsFences⟩
  · rw [lines_wrapLines hd, List.length_map, List.forall₂_map_right_iff, List.forall₂_same]
    exact ⟨rfl, fun l _ => styles_wrapLine delimiter wrapsFences l⟩
  · exact ⟨lineParts (Text.lines s), fun _ => findsLines_iff, hits_lineParts _,
      (partsText_lineParts _ _).symm⟩

/-- A text with quoted lines, of which one is empty, a code block and a line feed at its end. -/
theorem wrapLines_lineByLine_quoted :
    let s := "&gt; a\n&gt;\n\n<<pre:0>> <br />\n&gt;b <<pre:1s>>\n".toList
    '\n' ∉ ['~'] ∧ (Text.lines (wrapLines ['~'] false s)).length = 6 ∧
      wrapLines ['~'] false s
        = "&gt; ~a~\n&gt;\n\n<<pre:0>> <br />\n&gt;~b <<pre:1s>>~\n".toList := by
  intro s
  have hd : '\n' ∉ ['~'] := by decide
  exact ⟨hd, ((wrapLines_lineByLine hd false).1 s).1, by decide +kernel⟩

end Mrkdwn

end MessageLayout
