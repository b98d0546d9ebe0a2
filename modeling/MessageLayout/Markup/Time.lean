import MessageLayout.Calendar.Fallback
import MessageLayout.Calendar.Reader
import MessageLayout.Error
import MessageLayout.Node.Basic
import MessageLayout.Text.Entity

/-!
# Dates in a fragment

A `time` element carries an instant, the format to show it in as its content, and a fallback text.
A bar would end the format too early and is replaced by a letter that looks alike.
-/

namespace MessageLayout.Markup

/-- The letter that stands for a bar in a date. -/
def barSubstitute : Char := '\u01c0'

def substituteBars (s : List Char) : List Char :=
  s.map fun c => if c = '|' then barSubstitute else c

def attrText? (attrs : Attributes) (name : String) : Option (List Char) :=
  (attrs.get? name).bind AttrValue.attrText?

def readInstant (text : List Char) : Except RenderError Calendar.Instant :=
  match Calendar.Instant.read? text with
  | some i => .ok i
  | none => .error (.invalidDatetime (String.ofList text))

def escapeQuotes (s : List Char) : List Char :=
  s.flatMap fun c => if c = '"' then "&quot;".toList else [c]

/-- The fallback text of a date as an attribute value: the given one, or else the format, which is
escaped already, with its tokens expanded. -/
def fallbackAttr (attrs : Attributes) (i : Calendar.Instant) (format : List Char) : List Char :=
  match attrText? attrs "fallback" with
  | some given => Text.escapeAttr (substituteBars given)
  | none => escapeQuotes (Calendar.fallback i format)

def timeElement (attrs : Attributes) (content : List Char) : Except RenderError (List Char) := do
  let i ← readInstant ((attrText? attrs "datetime").getD [])
  let format := substituteBars content
  return "<time datetime=\"".toList ++ Text.ofInt i.seconds ++ "\" data-fallback=\"".toList
    ++ fallbackAttr attrs i format ++ "\">".toList ++ format ++ "</time>".toList

end MessageLayout.Markup
