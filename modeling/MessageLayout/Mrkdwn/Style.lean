import MessageLayout.Mrkdwn.Fence
import MessageLayout.Text.Blank

/-!
# Inline styles

A style is shown by its delimiter around each line of its text, since no style of mrkdwn spans
lines. `wrapLines` is the rule; a line without anything to show stays as it is.
-/

namespace MessageLayout.Mrkdwn

/-- The mark that a line break leaves before its line feed until the text is complete. -/
def breakMark : List Char := "<br />".toList

def dropBreakMarks : List Char → List Char
  | [] => []
  | '<' :: 'b' :: 'r' :: ' ' :: '/' :: '>' :: s => dropBreakMarks s
  | c :: s => c :: dropBreakMarks s

theorem dropBreakMarks_breakMark_append (s : List Char) :
    dropBreakMarks (breakMark ++ s) = dropBreakMarks s :=
  dropBreakMarks.eq_2 s

theorem dropBreakMarks_cons {c : Char} (hc : c ≠ '<') (s : List Char) :
    dropBreakMarks (c :: s) = c :: dropBreakMarks s :=
  dropBreakMarks.eq_3 c s fun _ h _ => hc h

theorem dropBreakMarks_append_of_not_mem {s : List Char} (h : '<' ∉ s) (t : List Char) :
    dropBreakMarks (s ++ t) = s ++ dropBreakMarks t := by
  induction s with
  | nil => rfl
  | cons c s ih =>
    simp only [List.mem_cons, not_or] at h
    rw [List.cons_append, dropBreakMarks_cons (Ne.symm h.1), ih h.2, List.cons_append]

theorem dropBreakMarks_of_not_mem {s : List Char} (h : '<' ∉ s) : dropBreakMarks s = s := by
  simpa [dropBreakMarks] using dropBreakMarks_append_of_not_mem h []

theorem dropBreakMarks_sublist (s : List Char) : (dropBreakMarks s).Sublist s := by
  fun_induction dropBreakMarks s with
  | case1 => exact .slnil
  | case2 s ih => exact ih.trans (List.sublist_append_right breakMark s)
  | case3 c s _ ih => exact ih.cons_cons c

def quoteMark : List Char := "&gt; ".toList

/-- The mark of a quoted line, with its space or without, that a line starts with, and the rest. -/
def splitQuoteMark : List Char → List Char × List Char
  | '&' :: 'g' :: 't' :: ';' :: ' ' :: s => (quoteMark, s)
  | '&' :: 'g' :: 't' :: ';' :: s => ("&gt;".toList, s)
  | s => ([], s)

theorem splitQuoteMark_append (s : List Char) :
    (splitQuoteMark s).1 ++ (splitQuoteMark s).2 = s := by
  fun_cases splitQuoteMark s <;> rfl

theorem not_mem_splitQuoteMark (s : List Char) : '<' ∉ (splitQuoteMark s).1 := by
  fun_cases splitQuoteMark s
  · show '<' ∉ quoteMark
    decide
  · show '<' ∉ "&gt;".toList
    decide
  · exact List.not_mem_nil

/-- Whether a line has nothing to show but break marks, blanks and, if so asked, placeholders. -/
def showsNothing (ignoresFences : Bool) (line : List Char) : Bool :=
  let s := dropBreakMarks line
  Text.isAllBlank (if ignoresFences then dropPlaceholders s else s)

/-- A line in delimiters, behind its quote mark if it has one. -/
def wrapLine (delimiter : List Char) (wrapsFences : Bool) (line : List Char) : List Char :=
  let (quote, rest) := splitQuoteMark line
  if showsNothing (!wrapsFences) rest then line
  else quote ++ delimiter ++ rest ++ delimiter

/-- A text with each line in delimiters. Lines that hold only the placeholder of a code block are
wrapped if `wrapsFences` is set. -/
def wrapLines (delimiter : List Char) (wrapsFences : Bool) (s : List Char) : List Char :=
  Text.unlines ((Text.lines s).map (wrapLine delimiter wrapsFences))

end MessageLayout.Mrkdwn
