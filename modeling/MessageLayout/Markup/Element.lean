import MessageLayout.Ancestry
import MessageLayout.Markup.Guard
import MessageLayout.Markup.Time
import MessageLayout.Mention

/-!
# Inline elements of a fragment

`renderTag` writes an inline element around its content, which is written already. An element that
mrkdwn could not show where it stands, such as strong text in strong text or any style in code, is
passed through: only its content is written.
-/

namespace MessageLayout.Markup

inductive Inline where
  | strong
  | emphasis
  | strike
  | code
  | paragraph
  | quotation
  | codeBlock
  | link
  | time
  | numberedList
  /-- An element written as it is, such as a list item. -/
  | plain
deriving DecidableEq, Repr

namespace Inline

def ofName? : String → Option Inline
  | "b" | "strong" => some .strong
  | "i" | "em" => some .emphasis
  | "s" | "strike" | "del" => some .strike
  | "code" => some .code
  | "p" => some .paragraph
  | "blockquote" => some .quotation
  | "pre" => some .codeBlock
  | "a" => some .link
  | "time" => some .time
  | "ol" => some .numberedList
  | "small" | "span" | "ul" | "li" => some .plain
  | _ => none

/-- The elements within which an element of the kind is passed through. -/
def hiddenWithin : Inline → List String
  | strong => ["b", "strong", "time"]
  | emphasis => ["i", "em", "time"]
  | strike => ["s", "strike", "del", "time"]
  | code => ["time"]
  | paragraph => ["p"]
  | quotation => ["blockquote", "ul", "ol", "time"]
  | codeBlock => ["ul", "ol", "time"]
  | link => ["a", "time"]
  | time | numberedList | plain => []

end Inline

/-- The attributes of a start tag. Those without a text are left out. -/
def writeAttrs (attrs : Attributes) : List Char :=
  attrs.entries.flatMap fun (name, value) =>
    match value.attrText? with
    | some text => ' ' :: name.toList ++ "=\"".toList ++ Text.escapeAttr text ++ ['"']
    | none => []

def enclose (name : String) (attrs content : List Char) : List Char :=
  '<' :: name.toList ++ attrs ++ '>' :: content ++ "</".toList ++ name.toList ++ ['>']

/-- The content of a link that has none of its own but mentions someone. -/
def emptyMentionLabel : List Char := "specialLink".toList

def linkContent (attrs : Attributes) (content : List Char) : List Char :=
  let mention? := (attrs.str? "href").bind fun href => Mention.ofHref? href.toList
  if content.isEmpty && mention?.isSome then emptyMentionLabel else content

def Inline.write (kind : Inline) (name : String) (attrs : Attributes) (content : List Char)
    (ancestry : Ancestry) : Except RenderError (List Char) :=
  match kind with
  | .strong => .ok (enclose "b" [] (guardStrong content))
  | .emphasis => .ok (enclose "i" [] (guardEmphasis content))
  | .strike => .ok (enclose "s" [] (guardStrike content))
  | .code => .ok (enclose "code" [] (guardCode content))
  | .paragraph => .ok (enclose "p" [] content)
  | .quotation =>
    -- a link is one line, so a quotation in it is no block
    let name := if ancestry.isDescendantOf ["a"] then "q" else "blockquote"
    .ok (enclose name [] (guardQuote content))
  | .codeBlock => .ok (enclose "pre" [] (enclose "code" [] (guardCode content)))
  | .link => .ok (enclose "a" (writeAttrs attrs) (linkContent attrs content))
  | .time => timeElement attrs content
  | .numberedList => .ok (enclose "ol" (writeAttrs attrs) content)
  | .plain => .ok (enclose name [] content)

def lineBreak : List Char := "<br />".toList

/-- Writes an inline element around its content, within the elements of `ancestry`. -/
def renderTag (name : String) (attrs : Attributes) (content : List Char) (ancestry : Ancestry) :
    Except RenderError (List Char) :=
  if name = "br" then .ok lineBreak
  else if ancestry.isChildOf ["pre", "code"] && name != "a" && name != "time" then .ok content
  else
    match Inline.ofName? name with
    | none => .error (.unknownElement name)
    | some kind =>
      if ancestry.isDescendantOf kind.hiddenWithin then .ok content
      else kind.write name attrs content ancestry

end MessageLayout.Markup
