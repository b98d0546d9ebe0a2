import MessageLayout.Mention
import MessageLayout.Mrkdwn.Block
import MessageLayout.Text.Uri

/-!
# Links and dates

The two kinds of token in angle brackets: a link with its label, and a date with the text for
readers that cannot show it.
-/

namespace MessageLayout.Mrkdwn

/-- The text with each longest run of line ends, with their break marks, written as one space. The
flag tells whether the text before ended in such a run. -/
def joinLinesFrom : Bool → List Char → List Char
  | _, [] => []
  | inRun, '\n' :: s => (if inRun then [] else [' ']) ++ joinLinesFrom true s
  | inRun, '<' :: 'b' :: 'r' :: ' ' :: '/' :: '>' :: '\n' :: s =>
    (if inRun then [] else [' ']) ++ joinLinesFrom true s
  | _, c :: s => c :: joinLinesFrom false s

theorem joinLinesFrom_newline (inRun : Bool) (s : List Char) :
    joinLinesFrom inRun ('\n' :: s) = (if inRun then [] else [' ']) ++ joinLinesFrom true s :=
  joinLinesFrom.eq_2 inRun s

theorem joinLinesFrom_breakMark (inRun : Bool) (s : List Char) :
    joinLinesFrom inRun (breakMark ++ '\n' :: s)
      = (if inRun then [] else [' ']) ++ joinLinesFrom true s :=
  joinLinesFrom.eq_3 inRun s

theorem joinLinesFrom_cons (inRun : Bool) {c : Char} (hn : c ≠ '\n') (hc : c ≠ '<')
    (s : List Char) : joinLinesFrom inRun (c :: s) = c :: joinLinesFrom false s :=
  joinLinesFrom.eq_4 inRun c s hn fun _ h _ => hc h

theorem joinLinesFrom_append {s : List Char} (hne : s ≠ [])
    (hs : ∀ c ∈ s, c ≠ '\n' ∧ c ≠ '<') (inRun : Bool) (t : List Char) :
    joinLinesFrom inRun (s ++ t) = s ++ joinLinesFrom false t := by
  induction s generalizing inRun with
  | nil => contradiction
  | cons c s ih =>
    obtain ⟨hn, hc⟩ := hs c List.mem_cons_self
    rw [List.cons_append, joinLinesFrom_cons inRun hn hc]
    cases s with
    | nil => rfl
    | cons d s =>
      rw [ih (by simp) (fun x hx => hs x (List.mem_cons_of_mem _ hx))]
      rfl

/-- A break mark that ends no line stands for itself. -/
theorem joinLinesFrom_breakMark_append (inRun : Bool) {s : List Char} (hs : ∀ t, s ≠ '\n' :: t) :
    joinLinesFrom inRun (breakMark ++ s) = breakMark ++ joinLinesFrom false s := by
  have hcons := joinLinesFrom.eq_4 inRun '<' ("br />".toList ++ s) (by decide)
    fun t _ ht => hs t (List.append_cancel_left ht)
  rw [joinLinesFrom_append (by simp) (Text.forall_mem_of_all (by decide))] at hcons
  exact hcons

def label (content : List Char) : List Char :=
  Text.trim (joinLinesFrom false content)

/-- A link: the syntax of a mention if the target is one, else target and label. -/
def link (content href : List Char) : List Char :=
  match Mention.ofHref? href with
  | some m => m.token
  | none => '<' :: Text.Uri.encode href ++ '|' :: label content ++ ['>']

/-- A date: its timestamp, the format to show it in, and the fallback text. -/
def dateToken (format timestamp fallback : List Char) : List Char :=
  "<!date^".toList ++ timestamp ++ '^' :: format ++ '|' :: fallback ++ ['>']

end MessageLayout.Mrkdwn
