import Mathlib.Data.List.Chain
import MessageLayout.Proofs.CollapsedSpace

/-!
# Delimiters put into a text

A style puts its delimiters between the characters of its text and changes none of them. So what the
text says about its spaces and line feeds still holds.

    WithDelimiters s (wrapLines d w s)                                    (WithDelimiters.wrapLines)
    WithDelimiters content (layAround d name attrs place content), for a style
                                                                        (withDelimiters_layAround)
-/

namespace MessageLayout.Mrkdwn

open Html

variable {s t : List Char} {c : Char}

/-! ## Wrapped lines -/

theorem newline_not_mem_of_mem_lines {s l : List Char} (h : l ∈ Text.lines s) : '\n' ∉ l := by
  fun_induction Text.lines s generalizing l with
  | case1 => simp_all
  | case2 s ih =>
    rcases List.mem_cons.mp h with rfl | h
    · exact List.not_mem_nil
    · exact ih h
  | case3 c s _ h' _ => exact absurd h' (Text.lines_ne_nil s)
  | case4 c s hc m ms hm ih =>
    rw [hm] at ih
    rcases List.mem_cons.mp h with rfl | h
    · rw [List.mem_cons, not_or]
      exact ⟨Ne.symm hc, ih List.mem_cons_self⟩
    · exact ih (List.mem_cons_of_mem _ h)

/-- The text of a line that a style wraps, behind the quote mark of the line if it has one. A line
with nothing to show is not wrapped. -/
def wrappedText? (wrapsFences : Bool) (line : List Char) : Option (List Char) :=
  let rest := (splitQuoteMark line).2
  if showsNothing (!wrapsFences) rest then none else some rest

theorem wrapLine_eq (delimiter : List Char) (wrapsFences : Bool) (line : List Char) :
    wrapLine delimiter wrapsFences line = match wrappedText? wrapsFences line with
      | some rest => (splitQuoteMark line).1 ++ delimiter ++ rest ++ delimiter
      | none => line := by
  unfold wrapLine wrappedText?
  dsimp only
  split <;> rfl

theorem wrappedText?_eq_some {wrapsFences : Bool} {line rest : List Char}
    (h : wrappedText? wrapsFences line = some rest) : rest = (splitQuoteMark line).2 := by
  unfold wrappedText? at h
  dsimp only at h
  split at h
  · cases h
  · exact (Option.some.inj h).symm

theorem wrapLine_nil (delimiter : List Char) (wrapsFences : Bool) :
    wrapLine delimiter wrapsFences [] = [] := by
  cases wrapsFences <;> simp [wrapLine, splitQuoteMark, showsNothing, dropBreakMarks, dropPlaceholders,
    Text.isAllBlank]

theorem wrapLines_nil (delimiter : List Char) (wrapsFences : Bool) :
    wrapLines delimiter wrapsFences [] = [] := by
  simp [wrapLines, Text.lines, wrapLine_nil]

/-! ## Delimiters between the characters of a text -/

/-- The second text is the first with characters of delimiters put in. -/
inductive WithDelimiters : List Char → List Char → Prop
  | nil : WithDelimiters [] []
  | char {s t : List Char} (c : Char) : WithDelimiters s t → WithDelimiters (c :: s) (c :: t)
  | put {s t : List Char} {c : Char} :
      c ∈ zeroWidthSpace :: delimiterChars → WithDelimiters s t → WithDelimiters s (c :: t)

theorem not_mem_of_mem_delimiterChars {c : Char} (hc : c ∈ zeroWidthSpace :: delimiterChars) :
    c ∉ [' ', '\n', '<', '>'] := by
  have hall : ∀ c ∈ zeroWidthSpace :: delimiterChars, c ∉ [' ', '\n', '<', '>'] :=
    Text.forall_mem_of_all (by decide)
  exact hall c hc

namespace WithDelimiters

theorem refl (s : List Char) : WithDelimiters s s := by
  induction s with
  | nil => exact nil
  | cons c s ih => exact char c ih

theorem append {s' t' : List Char} (h : WithDelimiters s t) (h' : WithDelimiters s' t') :
    WithDelimiters (s ++ s') (t ++ t') := by
  induction h with
  | nil => exact h'
  | char c _ ih => exact char c ih
  | put hc _ ih => exact put hc ih

theorem delimiter {d : List Char} (hd : ∀ c ∈ d, c ∈ zeroWidthSpace :: delimiterChars) :
    WithDelimiters [] d := by
  induction d with
  | nil => exact nil
  | cons c d ih =>
    obtain ⟨hc, hd⟩ := List.forall_mem_cons.mp hd
    exact put hc (ih hd)

theorem head? (h : WithDelimiters s t) (hc : c ∉ zeroWidthSpace :: delimiterChars)
    (ht : t.head? = some c) : s.head? = some c := by
  cases h with
  | nil => cases ht
  | char d _ => exact ht
  | put hd _ => exact absurd (Option.some.inj ht ▸ hd) hc

theorem getLast? (h : WithDelimiters s t) (hc : c ∉ zeroWidthSpace :: delimiterChars)
    (ht : t.getLast? = some c) : s.getLast? = some c := by
  induction h with
  | nil => cases ht
  | @char s t d h ih =>
    cases t with
    | nil =>
      cases h
      exact ht
    | cons e t =>
      rw [List.getLast?_cons_cons] at ht
      rw [List.getLast?_cons, ih ht]
      rfl
  | @put s t d hd h ih =>
    cases t with
    | nil => exact absurd (Option.some.inj ht ▸ hd) hc
    | cons e t =>
      rw [List.getLast?_cons_cons] at ht
      exact ih ht

/-- What holds of all neighbours still does if delimiters may stand beside anything. -/
theorem isChain {R : Char → Char → Prop}
    (hR : ∀ c ∈ zeroWidthSpace :: delimiterChars, ∀ a, R a c ∧ R c a) (h : WithDelimiters s t)
    (hs : s.IsChain R) : t.IsChain R := by
  induction h with
  | nil => exact .nil
  | char c h ih =>
    obtain ⟨hc, hs⟩ := List.isChain_cons.mp hs
    refine List.isChain_cons.mpr ⟨fun y hy => ?_, ih hs⟩
    by_cases hd : y ∈ zeroWidthSpace :: delimiterChars
    · exact (hR y hd c).1
    · exact hc y (h.head? hd hy)
  | @put _ _ c hc _ ih =>
    exact List.isChain_cons.mpr ⟨fun y _ => (hR c hc y).2, ih hs⟩

theorem wrapLine {d : List Char} (hd : ∀ c ∈ d, c ∈ zeroWidthSpace :: delimiterChars)
    (wrapsFences : Bool) (l : List Char) : WithDelimiters l (Mrkdwn.wrapLine d wrapsFences l) := by
  rw [wrapLine_eq]
  split
  next rest hrest =>
    obtain rfl := wrappedText?_eq_some hrest
    have hwrapped := ((((refl (splitQuoteMark l).1).append (delimiter hd)).append
      (refl (splitQuoteMark l).2)).append (delimiter hd))
    rwa [List.append_nil, List.append_nil, splitQuoteMark_append] at hwrapped
  · exact refl l

theorem unlines {ls ms : List (List Char)} (h : List.Forall₂ WithDelimiters ls ms) :
    WithDelimiters (Text.unlines ls) (Text.unlines ms) := by
  induction h with
  | nil => exact nil
  | cons hl htail ih =>
    cases htail with
    | nil => simpa using hl
    | cons hm htail =>
      rw [Text.unlines_cons _ (List.cons_ne_nil _ _), Text.unlines_cons _ (List.cons_ne_nil _ _)]
      exact hl.append (char '\n' ih)

theorem wrapLines {d : List Char} (hd : ∀ c ∈ d, c ∈ zeroWidthSpace :: delimiterChars)
    (wrapsFences : Bool) (s : List Char) : WithDelimiters s (Mrkdwn.wrapLines d wrapsFences s) := by
  have hlines : List.Forall₂ WithDelimiters (Text.lines s)
      ((Text.lines s).map (Mrkdwn.wrapLine d wrapsFences)) :=
    List.forall₂_map_right_iff.mpr (List.forall₂_same.mpr fun l _ => wrapLine hd wrapsFences l)
  have h := unlines hlines
  rwa [Text.unlines_lines] at h

end WithDelimiters

/-! ## Styles -/

/-- The delimiter of a style, and whether it is put around lines of code blocks alone. -/
def styleDelimiter? (d : Delimiters) (name : String) : Option (List Char × Bool) :=
  match name with
  | "b" | "strong" => some (d.strong, true)
  | "i" | "em" => some (d.emphasis, true)
  | "s" | "strike" | "del" => some (d.strike, false)
  | "code" => some (d.code, true)
  | _ => none

/-- A style wraps the lines of its content, unless it leaves the content as it is. -/
theorem layInline_of_mem_styleNames (d : Delimiters) {name : String} (hn : name ∈ styleNames)
    (attrs : Attrs) (inner : List Char) :
    layInline d name attrs inner = match styleDelimiter? d name with
      | some (delimiter, wrapsFences) => wrapLines delimiter wrapsFences inner
      | none => inner := by
  simp only [styleNames, List.mem_cons, List.not_mem_nil, or_false] at hn
  rcases hn with rfl | rfl | rfl | rfl | rfl | rfl | rfl | rfl | rfl | rfl <;> rfl

theorem layInline_nil (d : Delimiters) {name : String} (hn : name ∈ styleNames) (attrs : Attrs) :
    layInline d name attrs [] = [] := by
  rw [layInline_of_mem_styleNames d hn]
  split
  · exact wrapLines_nil _ _
  · rfl

variable {d : Delimiters}

theorem Delimiting.styleDelimiter? (hd : Delimiting d) {name : String} {delimiter : List Char}
    {wrapsFences : Bool} (h : styleDelimiter? d name = some (delimiter, wrapsFences)) :
    delimiter ≠ [] ∧ ∀ c ∈ delimiter, c ∈ zeroWidthSpace :: delimiterChars := by
  unfold Mrkdwn.styleDelimiter? at h
  split at h <;> cases h
  · exact hd.strong
  · exact hd.strong
  · exact hd.emphasis
  · exact hd.emphasis
  · exact hd.strike
  · exact hd.strike
  · exact hd.strike
  · exact hd.code

theorem withDelimiters_layInline (hd : Delimiting d) {name : String} (hn : name ∈ styleNames)
    (attrs : Attrs) (inner : List Char) : WithDelimiters inner (layInline d name attrs inner) := by
  rw [layInline_of_mem_styleNames d hn]
  cases h : styleDelimiter? d name with
  | none => exact .refl inner
  | some p => exact .wrapLines (hd.styleDelimiter? h).2 p.2 inner

/-- A text that is more than spaces keeps its characters in a style. -/
theorem withDelimiters_layAround (hd : Delimiting d) {name : String} (hn : name ∈ styleNames)
    (attrs : Attrs) (place : Mrkdwn.Place) {content : List Char}
    (h : content.takeWhile (· = ' ') ++ Text.trimWhile (· = ' ') content
      ++ Text.takeEndWhile (· = ' ') content = content) :
    WithDelimiters content (layAround d name attrs place content) := by
  rw [layAround_of_mem hn]
  conv_lhs => rw [← h]
  exact ((WithDelimiters.refl _).append (withDelimiters_layInline hd hn attrs _)).append (.refl _)

end MessageLayout.Mrkdwn
