import MessageLayout.Html.Spine
import MessageLayout.Html.Token
import MessageLayout.Html.Vocabulary

/-!
# Building the document tree

`parse` builds the children of the body from the tokens of a text. Every text has a tree: tags that
do not fit are mended. A block ends an open paragraph, an item ends the item before it, and a style
that is open where a block ends goes on behind it. When a style is ended while a block within it is
open, the tags overlap; the block then moves out of the style and holds a copy of it.

The rules are those of HTML for the elements of `roleOf` and the references of `Reference.names`, and
for these alone. What is stated of an HTML text is stated of this reader, whereas what is stated of
`Mrkdwn.ofDoms` and `Mrkdwn.layBody` holds of the trees of any reader.
-/

namespace MessageLayout.Html

/-- A style that was opened and not yet ended by its end tag. -/
structure ActiveStyle where
  id : Nat
  name : String
  attrs : Attrs

/-- Whether two styles have the same name and the same attributes in any order. -/
def ActiveStyle.sameTag (a b : ActiveStyle) : Bool :=
  a.name == b.name && a.attrs.length == b.attrs.length && a.attrs.all b.attrs.contains

/-- How far the text has come. -/
inductive Phase where
  | before
  | within
  | behind
deriving DecidableEq, Repr

structure Construction where
  phase : Phase
  spine : Spine
  /-- The styles in force, newest first. -/
  active : List ActiveStyle
  /-- A number that no element has yet. -/
  nextId : Nat
  /-- Whether a line feed in the next token is the one that a `pre` tag ends with. -/
  skipsNewline : Bool

namespace Construction

def start : Construction := ⟨.before, .empty, [], 0, false⟩

def openElement (c : Construction) (name : String) (attrs : Attrs) : Construction :=
  { c with spine := c.spine.push ⟨c.nextId, name, attrs, []⟩, nextId := c.nextId + 1 }

def closeParagraph (c : Construction) : Construction :=
  { c with spine := c.spine.closeThrough "p" }

/-- Whether the element that shows a style is open. -/
def shows (c : Construction) (a : ActiveStyle) : Bool :=
  c.spine.frames.any (·.id == a.id)

def reopen (c : Construction) (a : ActiveStyle) : Construction :=
  let c' := c.openElement a.name a.attrs
  { c' with active := { a with id := c.nextId } :: c'.active }

/-- Shows the styles in force again that were opened after the last one that is still shown. -/
def resumeStyles (c : Construction) : Construction :=
  let hidden := c.active.takeWhile fun a => !c.shows a
  hidden.reverse.foldl reopen { c with active := c.active.drop hidden.length }

/-- The styles without the oldest of which `p` holds. -/
def dropOldest (p : ActiveStyle → Bool) (styles : List ActiveStyle) : List ActiveStyle :=
  (styles.reverse.eraseP p).reverse

/-- Opens a style. Of four with the same tag in force the oldest goes out of force. -/
def openStyle (c : Construction) (name : String) (attrs : Attrs) : Construction :=
  let a : ActiveStyle := ⟨c.nextId, name, attrs⟩
  let c' := c.openElement name attrs
  let kept := if 3 ≤ c.active.countP a.sameTag then dropOldest a.sameTag c.active else c.active
  { c' with active := a :: kept }

/-! ## Overlapping tags -/

/-- The styles without the one that the element with the given number shows. -/
def forget (id : Nat) (styles : List ActiveStyle) : List ActiveStyle :=
  styles.eraseP (·.id == id)

/-- Closes the innermost element of the given name. An open boundary within it hides it. -/
def closeInline (c : Construction) (name : String) : Construction :=
  match c.spine.innermost? fun n => n == name || isBoundary n with
  | some n => if n == name then { c with spine := c.spine.closeThrough name } else c
  | none => c

/-- What is left of the elements between a style and a block within it when the block moves out. -/
structure Copies where
  /-- The copies that go around the block, innermost first. -/
  frames : List Frame
  active : List ActiveStyle
  nextId : Nat
  innermost? : Option Nat

/-- Goes outwards through the elements between the block and the style: of the first three, those
that show a style in force are copied. The others are left, and a style among them goes out of
force beyond the third. -/
def copyBetween : Nat → List Frame → Copies → Copies
  | _, [], k => k
  | passed, f :: fs, k =>
    if 3 ≤ passed then copyBetween (passed + 1) fs { k with active := forget f.id k.active }
    else if k.active.any (·.id == f.id) then
      copyBetween (passed + 1) fs
        { frames := k.frames ++ [⟨k.nextId, f.name, f.attrs, []⟩]
          active := k.active.map fun a => if a.id == f.id then { a with id := k.nextId } else a
          nextId := k.nextId + 1
          innermost? := k.innermost?.or (some k.nextId) }
    else copyBetween (passed + 1) fs k

/-- The styles with `a` put right after (newer than) the one with the given number. -/
def insertNewer (id : Nat) (a : ActiveStyle) : List ActiveStyle → List ActiveStyle
  | [] => []
  | b :: bs => if b.id == id then a :: b :: bs else b :: insertNewer id a bs

/-- Ends a style whose element holds an open block: the element is closed, the block goes behind it
within copies of the styles between, and a copy of the style goes around what the block holds.
Here `deeper` are the open elements within the block, `between` those between block and style, and
`outer` those around the style. -/
def moveOut (c : Construction) (a : ActiveStyle) (deeper : List Frame) (block : Frame)
    (between : List Frame) (style : Frame) (outer : List Frame) : Construction :=
  let left := closeAround [] (between ++ [style])
  let k := copyBetween 0 between ⟨[], c.active, c.nextId, none⟩
  let copy : ActiveStyle := { a with id := k.nextId }
  let active := match k.innermost? with
    | some id => forget a.id (insertNewer id copy k.active)
    | none => k.active.map fun b => if b.id == a.id then copy else b
  let base := Spine.append ⟨outer, c.spine.done⟩ left
  let moved := deeper ++ ⟨k.nextId, a.name, a.attrs, block.done⟩ :: { block with done := [] }
    :: k.frames
  { c with
    spine := ⟨moved ++ base.frames, base.done⟩
    active
    nextId := k.nextId + 1 }

/-- One round of ending the style `name`. The flag tells whether another round is due. -/
def endStyleOnce (c : Construction) (name : String) : Construction × Bool :=
  match c.active.find? (·.name == name) with
  | none => (c.closeInline name, false)
  | some a =>
    let within := c.spine.frames.takeWhile (·.id != a.id)
    match c.spine.frames.drop within.length with
    | [] => ({ c with active := forget a.id c.active }, false)
    | style :: outer =>
      let between := (within.reverse.takeWhile fun f => !isBoundary f.name).reverse
      match (within.take (within.length - between.length)).reverse with
      | [] =>
        ({ c with spine := c.spine.close (within.length + 1), active := forget a.id c.active },
          false)
      | block :: deeper => (c.moveOut a deeper.reverse block between style outer, true)

def endStyleRounds : Nat → Construction → String → Construction
  | 0, c, _ => c
  | n + 1, c, name =>
    match c.endStyleOnce name with
    | (c, true) => endStyleRounds n c name
    | (c, false) => c

/-- Ends the style `name`. If the innermost element has this name and shows no style in force, it is
closed. Otherwise at most eight blocks are moved out of the style. -/
def endStyle (c : Construction) (name : String) : Construction :=
  match c.spine.frames with
  | f :: _ =>
    if f.name == name && !c.active.any (·.id == f.id) then { c with spine := c.spine.close 1 }
    else endStyleRounds 8 c name
  | [] => endStyleRounds 8 c name

/-- Ends a link that is still in force when another one starts. -/
def endLink (c : Construction) : Construction :=
  match c.active.find? (·.name == "a") with
  | none => c
  | some a =>
    let c := c.endStyle "a"
    { c with active := forget a.id c.active }

/-! ## Tags -/

def closeItem (c : Construction) : Construction :=
  match c.spine.innermost? fun n => n == "li" || isItemBoundary n with
  | some "li" => { c with spine := c.spine.closeThrough "li" }
  | _ => c

def startTag (c : Construction) (name : String) (attrs : Attrs) : Construction :=
  match roleOf name with
  | .root => c
  | .block =>
    { c.closeParagraph.openElement name attrs with skipsNewline := name == "pre" }
  | .paragraph => c.closeParagraph.openElement name attrs
  | .item => c.closeItem.closeParagraph.openElement name attrs
  | .lineBreak =>
    let c := c.resumeStyles
    { c with spine := c.spine.append [.element name attrs []] }
  | .link => c.endLink.resumeStyles.openStyle name attrs
  | .style => c.resumeStyles.openStyle name attrs
  | .ordinary => c.resumeStyles.openElement name attrs

def endTag (c : Construction) (name : String) : Construction :=
  match roleOf name with
  | .root => { c with phase := .behind }
  | .block => { c with spine := c.spine.closeThrough name }
  | .paragraph =>
    if c.spine.hasOpen name then c.closeParagraph
    else { c with spine := c.spine.append [.element name [] []] }
  | .item =>
    match c.spine.innermost? fun n => n == name || isList n with
    | some n => if n == name then { c with spine := c.spine.closeThrough name } else c
    | none => c
  | .lineBreak => c.startTag name []
  | .link | .style => c.endStyle name
  | .ordinary => c.closeInline name

def bodyToken (c : Construction) : Token → Construction
  | .char x => let c := c.resumeStyles; { c with spine := c.spine.appendChar x }
  | .null | .unseen => c
  | .startTag name attrs => c.startTag name attrs
  | .endTag name => c.endTag name
  | .comment => { c with spine := c.spine.append [.comment] }

def opensBody : Token → Bool
  | .char x => !isSpace x
  | .null => true
  | .startTag name _ => name != "html"
  | .endTag name => name = "html" || name = "body" || name = "br"
  | .comment | .unseen => false

def reentersBody : Token → Bool
  | .char x => !isSpace x
  | .null => true
  | .startTag name _ => name != "html"
  | .endTag name => name != "html"
  | .comment | .unseen => false

/-- Takes a token. Comments outside the body and spaces before it leave no trace. -/
def token (c : Construction) (t : Token) : Construction :=
  let rest := { c with skipsNewline := false }
  match c.phase with
  | .before => if opensBody t then { rest with phase := .within }.bodyToken t else rest
  | .within => if c.skipsNewline && t.isChar '\n' then rest else rest.bodyToken t
  | .behind =>
    if reentersBody t then { rest with phase := .within }.bodyToken t
    else
      match t with
      | .char x => rest.bodyToken (.char x)
      | _ => rest

end Construction

/-- The children of the body of an HTML text. -/
def parse (html : List Char) : List Dom :=
  ((tokens html).foldl Construction.token .start).spine.toDoms

end MessageLayout.Html
