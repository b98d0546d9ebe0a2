/-!
# Element names

How the elements of a message fragment differ when a document tree is built. A name that is in
none of the classes is that of an ordinary inline element, such as `span` or `time`.

These are the elements that fragments are written with. HTML has rules for more names, which are
ordinary here: it reads `<title>x</title>y` with the `x` outside the body, leaves `<img>` without
content in `<img>a`, and ends the paragraph before the heading in `<p>a<h1>b</h1>`.
-/

namespace MessageLayout.Html

/-- The role of an element's tags in building the tree. -/
inductive Role where
  /-- The document or its body, which are always there. -/
  | root
  /-- A block, which ends an open paragraph. -/
  | block
  | paragraph
  | item
  | lineBreak
  | link
  /-- A style, which goes on in the next block if it is not ended. -/
  | style
  | ordinary
deriving DecidableEq, Repr

def roleOf (name : String) : Role :=
  match name with
  | "html" | "body" => .root
  | "div" | "blockquote" | "ul" | "ol" | "pre" => .block
  | "p" => .paragraph
  | "li" => .item
  | "br" => .lineBreak
  | "a" => .link
  | "b" | "code" | "em" | "i" | "s" | "small" | "strike" | "strong" | "u" => .style
  | _ => .ordinary

/-- Whether an element bounds the effect of end tags of inline elements. -/
def isBoundary (name : String) : Bool :=
  match roleOf name with
  | .root | .block | .paragraph | .item | .lineBreak => true
  | .link | .style | .ordinary => false

/-- Whether an element bounds the search for the list item that a new item ends. -/
def isItemBoundary (name : String) : Bool :=
  isBoundary name && name != "div" && name != "p"

/-- Whether an element is a list, which bounds the effect of the end tag of an item. -/
def isList (name : String) : Bool :=
  name = "ol" || name = "ul"

end MessageLayout.Html
