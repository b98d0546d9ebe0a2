import MessageLayout.Surface

/-!
# What surfaces accept

The types of blocks, elements and accessories that each surface accepts.
-/

namespace MessageLayout.Block

def layoutBlocks : List String :=
  ["actions", "context", "divider", "header", "image", "section"]

def commonActions : List String :=
  ["button", "static_select", "external_select", "users_select", "conversations_select",
   "channels_select", "overflow", "datepicker"]

/-- The elements that people act on, on a home tab alone. -/
def homeActions : List String := ["radio_buttons", "checkboxes"]

def contextBasics : List String := ["image", "mrkdwn", "plain_text"]

/-- The elements that take input; a context block takes them in a modal alone. -/
def inputElements : List String := ["plain_text_input", "input"]

end MessageLayout.Block

namespace MessageLayout.Surface

open Block

/-- The types of blocks that a surface accepts. -/
def blocks : Surface → List String
  | message => layoutBlocks ++ ["file"]
  | modal => layoutBlocks ++ ["input"]
  | home => layoutBlocks

def actions : Surface → List String
  | message | modal => commonActions
  | home => commonActions ++ homeActions

def accessories (s : Surface) : List String :=
  s.actions ++ ["image"]

def contextElements : Surface → List String
  | modal => contextBasics ++ inputElements
  | message | home => contextBasics

end MessageLayout.Surface
