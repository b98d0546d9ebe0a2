import MessageLayout.Mrkdwn.Style

/-!
# Blocks

How the text of a block element is laid out, and how the texts of neighbours are joined. Blocks
stand between blank lines; `join` merges the line feeds where two texts meet.

Main statements: `join_nil_left` and `join_nil_right` (an empty neighbour only cuts line feeds
beyond two).
-/

namespace MessageLayout.Mrkdwn

def leadingNewlines (s : List Char) : Nat :=
  (s.takeWhile (· = '\n')).length

def trailingNewlines (s : List Char) : Nat :=
  (Text.takeEndWhile (· = '\n') s).length

/-- Two texts with, between them, the line feeds of the one that has more, and at most two. -/
def join (left right : List Char) : List Char :=
  Text.trimEndWhile (· = '\n') left
    ++ List.replicate (min 2 (max (trailingNewlines left) (leadingNewlines right))) '\n'
    ++ right.dropWhile (· = '\n')

def paragraph (content : List Char) : List Char :=
  '\n' :: '\n' :: content ++ ['\n', '\n']

/-- A quotation: each line behind a quote mark. -/
def blockquote (content : List Char) : List Char :=
  paragraph (Text.unlines
    ((Text.lines (Text.trimWhile (· = '\n') content)).map (quoteMark ++ ·)))

/-- A quotation within a link, which is one line. -/
def quote (content : List Char) : List Char :=
  quoteMark ++ content

/-! ## Lists -/

/-- A space as wide as a digit. -/
def figureSpace : Char := '\u2007'

inductive Marker where
  | bullet
  | number (n : Int)
deriving DecidableEq, Repr

def Marker.text : Marker → List Char
  | bullet => ['\u2022', ' ']
  | number n => Text.ofInt n ++ ['.', ' ']

/-- What stands before the other lines of an item, as wide as the marker. -/
def Marker.indent : Marker → List Char
  | bullet => [figureSpace, ' ']
  | number n => List.replicate (Text.ofInt n).length figureSpace ++ [' ', ' ']

/-- The number of the item with the given index in a list that starts at `start?`, or at one. -/
def itemNumber (start? : Option Int) (index : Nat) : Int :=
  let i := Text.wrapInt64 index
  Text.clampInt64 (match start? with
    | some start => start + i
    | none => i + 1)

structure ItemPosition where
  ordered : Bool
  start? : Option Int
  index : Nat
  hasNext : Bool
deriving DecidableEq, Repr

def ItemPosition.marker (p : ItemPosition) : Marker :=
  if p.ordered then .number (itemNumber p.start? p.index) else .bullet

/-- An item: its lines behind marker and indent. -/
def listItem (content : List Char) (p : ItemPosition) : List Char :=
  let body := Text.lines (Text.trimWhile (· = '\n') content)
  p.marker.text ++ (['\n'] ++ p.marker.indent).intercalate body
    ++ if content.getLast? == some '\n' || p.hasNext then ['\n'] else []

/-- A list. One that ends the item it is nested in stands right below the text of the item. -/
def list (content : List Char) (nestedLast : Bool) : List Char :=
  if nestedLast then '\n' :: content else paragraph content

/-! ## Lemmas -/

theorem join_nil_left (s : List Char) :
    join [] s = List.replicate (min 2 (leadingNewlines s)) '\n' ++ s.dropWhile (· = '\n') := by
  simp [join, trailingNewlines, Text.takeEndWhile, Text.trimEndWhile]

theorem join_nil_right (s : List Char) :
    join s [] = Text.trimEndWhile (· = '\n') s
      ++ List.replicate (min 2 (trailingNewlines s)) '\n' := by
  simp [join, leadingNewlines]

/-- A first text without line feeds is joined as it is. -/
theorem join_nil_of_not_mem {s : List Char} (h : '\n' ∉ s) : join [] s = s := by
  rw [join_nil_left]
  cases s with
  | nil => rfl
  | cons c s =>
    have hc : c ≠ '\n' := fun e => h (e ▸ List.mem_cons_self)
    simp [leadingNewlines, hc]

theorem join_of_not_mem {s t : List Char} (hs : '\n' ∉ s) (ht : '\n' ∉ t) :
    join s t = s ++ t := by
  have hright : leadingNewlines t = 0 ∧ t.dropWhile (· = '\n') = t := by
    cases t with
    | nil => exact ⟨rfl, rfl⟩
    | cons c t =>
      have hc : c ≠ '\n' := fun e => ht (e ▸ List.mem_cons_self)
      simp [leadingNewlines, hc]
  have hleft : trailingNewlines s = 0 ∧ Text.trimEndWhile (· = '\n') s = s := by
    obtain rfl | ⟨u, c, rfl⟩ := List.eq_nil_or_concat s
    · exact ⟨rfl, rfl⟩
    · rw [List.concat_eq_append] at hs ⊢
      have hc : c ≠ '\n' := by
        rintro rfl
        exact hs (by simp)
      simp [trailingNewlines, Text.takeEndWhile, Text.trimEndWhile, hc]
  simp [join, hleft, hright]

end MessageLayout.Mrkdwn
