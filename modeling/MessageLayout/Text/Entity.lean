/-!
# Entities

The three characters that mrkdwn reserves are written as entities; inside the start tag of an
element the quotation mark is, too.
-/

namespace MessageLayout.Text

/-- A character with `&`, `<` and `>` written as entities. -/
def entity (c : Char) : List Char :=
  if c = '&' then "&amp;".toList
  else if c = '<' then "&lt;".toList
  else if c = '>' then "&gt;".toList
  else [c]

def escapeEntity (s : List Char) : List Char :=
  s.flatMap entity

def escapeAttr (s : List Char) : List Char :=
  s.flatMap fun c => if c = '"' then "&quot;".toList else entity c

@[simp] theorem escapeEntity_nil : escapeEntity [] = [] := rfl

@[simp] theorem escapeEntity_append (s t : List Char) :
    escapeEntity (s ++ t) = escapeEntity s ++ escapeEntity t := by
  simp [escapeEntity]

end MessageLayout.Text
