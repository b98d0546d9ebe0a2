import MessageLayout.Text.Blank
import MessageLayout.Text.Lines
import MessageLayout.Text.Name

/-!
# Guards

A character that would end a style early is replaced by one that looks alike before the style is
put around the text. Tags with their attributes, and what stands in code, are left alone.

`spans` cuts a fragment into tags and the text between them, and a guard works on the text.
Main statement: `flatMap_content_spans` (cutting loses nothing).
-/

namespace MessageLayout.Markup

inductive Span where
  | text (content : List Char)
  /-- From a `<` to the next `>`. -/
  | tag (content : List Char)

def Span.content : Span → List Char
  | text s | tag s => s

/-- The parts of a fragment, given the part that was begun and whether it is a tag. -/
def spansFrom (isTag : Bool) (begun : List Char) : List Char → List Span
  | [] => [if isTag then .tag begun else .text begun]
  | c :: s =>
    if isTag then
      if c = '>' then .tag (begun ++ [c]) :: spansFrom false [] s
      else spansFrom true (begun ++ [c]) s
    else if c = '<' && s.contains '>' then .text begun :: spansFrom true [c] s
    else spansFrom false (begun ++ [c]) s

/-- The tags of a fragment and the text between them. A `<` without a `>` behind it is text. -/
def spans (html : List Char) : List Span :=
  spansFrom false [] html

theorem flatMap_content_spansFrom (isTag : Bool) (begun s : List Char) :
    (spansFrom isTag begun s).flatMap Span.content = begun ++ s := by
  induction s generalizing isTag begun with
  | nil => cases isTag <;> simp [spansFrom, Span.content]
  | cons c s ih =>
    simp only [spansFrom]
    split
    · split <;> simp [Span.content, ih]
    · split <;> simp [Span.content, ih]

theorem flatMap_content_spans (html : List Char) :
    (spans html).flatMap Span.content = html := by
  simp [spans, flatMap_content_spansFrom]

/-- Whether text starts with the name of a code element and the end of that name. -/
def startsCodeName : List Char → Bool
  | 'c' :: 'o' :: 'd' :: 'e' :: c :: _ | 'p' :: 'r' :: 'e' :: c :: _ =>
    Text.isBlank c || c = '/' || c = '>'
  | _ => false

/-- The number of code elements that are open behind a tag, given their number before it. -/
def codeDepth (depth : Nat) : List Char → Nat
  | '<' :: '/' :: s => if startsCodeName s then depth - 1 else depth
  | '<' :: s => if startsCodeName s then depth + 1 else depth
  | _ => depth

def guardFrom (f : List Char → List Char) (depth : Nat) : List Span → List Char
  | [] => []
  | .text s :: rest => (if depth = 0 then f s else s) ++ guardFrom f depth rest
  | .tag s :: rest => s ++ guardFrom f (codeDepth depth s) rest

/-- Applies `f` to the text outside of tags and code. -/
def guardText (f : List Char → List Char) (html : List Char) : List Char :=
  guardFrom f 0 (spans html)

def substitute (c d : Char) (s : List Char) : List Char :=
  s.map fun x => if x = c then d else x

def guardStrong (html : List Char) : List Char :=
  guardText (substitute '*' '\u2217') html

def guardStrike (html : List Char) : List Char :=
  guardText (substitute '~' '\u223c') html

def guardCode (html : List Char) : List Char :=
  guardText (substitute '\x60' '\u02cb') html

/-- Whether a character may stand in the short name of an emoji. -/
def isEmojiChar (c : Char) : Bool :=
  c.isLower || c.isDigit || c = '-' || c = '+' || c = '\x27' || c = '_'

/-- The text with its underscores replaced, except in short names of emoji between colons. -/
def substituteUnderscores (s : List Char) : List Char :=
  match s with
  | [] => []
  | c :: t =>
    if c = ':' then
      match h : Text.scanName? isEmojiChar ':' t with
      | some (name, rest) =>
        have := Text.length_lt_of_scanName? h
        ':' :: name ++ ':' :: substituteUnderscores rest
      | none => ':' :: substituteUnderscores t
    else (if c = '_' then '\u02cd' else c) :: substituteUnderscores t
termination_by s.length
decreasing_by all_goals simp_all; try omega

def guardEmphasis (html : List Char) : List Char :=
  guardText substituteUnderscores html

/-- A line with a soft hyphen before a quote mark at its start. -/
def guardQuoteLine : List Char → List Char
  | '&' :: 'g' :: 't' :: ';' :: s => '\u00ad' :: "&gt;".toList ++ s
  | s => s

def guardQuote (html : List Char) : List Char :=
  Text.unlines ((Text.lines html).map guardQuoteLine)

end MessageLayout.Markup
