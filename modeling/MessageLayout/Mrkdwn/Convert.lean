import MessageLayout.Html.Construction
import MessageLayout.Mrkdwn.Link
import MessageLayout.Mrkdwn.Options
import MessageLayout.Text.Entity

/-!
# From document trees to mrkdwn

`layNodes` lays out the children of an element from left to right, each below its own children, and
collects the code that is put aside. `ofDoms` makes the result presentable: it trims the ends, takes
the break marks away and puts the code back. `ofHtml` starts from the text of a fragment.
-/

namespace MessageLayout.Mrkdwn

open Html

def isBlockName (name : String) : Bool :=
  match name with
  | "blockquote" | "body" | "div" | "li" | "ol" | "p" | "pre" | "ul" => true
  | _ => false

/-- Whether space that comes next would be superfluous: at the start of a block, at the start of a
line, or behind a space. -/
def afterSpace (output : List Char) (isBlock : Bool) : Bool :=
  (isBlock && output.isEmpty) || output.getLast? == some '\n' || output.getLast? == some ' '

def isSpace (c : Char) : Bool :=
  c = ' ' || c = '\t' || c = '\r' || c = '\n'

theorem isBlank_of_isSpace {c : Char} (h : isSpace c = true) : Text.isBlank c = true := by
  simp only [isSpace, Bool.or_eq_true, decide_eq_true_eq] at h
  rcases h with ((rfl | rfl) | rfl) | rfl <;> rfl

def trimStartIf (trims : Bool) (s : List Char) : List Char :=
  if trims then s.dropWhile (· = ' ') else s

/-- A piece of text: space collapsed and entities escaped. -/
def layText (trims : Bool) (content : List Char) : List Char :=
  Text.escapeEntity (trimStartIf trims (Text.squeeze isSpace ' ' content))

mutual

/-- The text of code, with line breaks kept. -/
def codeText : Dom → List Char
  | .text content => content
  | .element name _ children => if name == "br" then ['\n'] else codeOf children
  | .comment => []

def codeOf : List Dom → List Char
  | [] => []
  | d :: ds => codeText d ++ codeOf ds

end

/-- The nodes within the code of a code block: a `pre` element that starts with a `code` element. -/
def fencedCode? (name : String) (children : List Dom) : Option (List Dom) :=
  match children with
  | .element inner _ code :: _ => if name == "pre" && inner == "code" then some code else none
  | _ => none

structure Place where
  parent : String
  parentAttrs : Attrs
  /-- The elements before it in the same element. -/
  elementsBefore : Nat
  hasNext : Bool
  hasNextElement : Bool

def Place.item (p : Place) : ItemPosition where
  ordered := p.parent == "ol"
  start? := (p.parentAttrs.lookup "start").bind fun s => Text.readInt64? (Text.trim s)
  index := p.elementsBefore
  hasNext := p.hasNext

/-- What a blank element leaves. -/
def layBlank (name : String) (children : List Dom) : List Char :=
  if isBlockName name then ['\n', '\n']
  else if (Dom.textOf children).isEmpty then []
  else [' ']

def layBlock (name : String) (place : Place) (content : List Char) : List Char :=
  match name with
  | "blockquote" => blockquote content
  | "ul" | "ol" => list content (place.parent == "li" && !place.hasNextElement)
  | "li" => listItem content place.item
  | _ => paragraph content

/-- Lays out an inline element around its content, which has no spaces at its ends. -/
def layInline (d : Delimiters) (name : String) (attrs : Attrs) (inner : List Char) : List Char :=
  match name with
  | "b" | "strong" => wrapLines d.strong true inner
  | "i" | "em" => wrapLines d.emphasis true inner
  | "s" | "strike" | "del" => wrapLines d.strike false inner
  | "code" => wrapLines d.code true inner
  | "q" => quote inner
  | "a" =>
    match attrs.lookup "href" with
    | some href => if href.isEmpty then inner else link inner href
    | none => inner
  | "time" =>
    match attrs.lookup "datetime" with
    | some timestamp =>
      dateToken inner timestamp
        (Text.escapeEntity ((attrs.lookup "data-fallback").getD []))
    | none => inner
  | _ => inner

/-- Lays out an element around its content. Spaces at the ends of inline content stay outside. -/
def layAround (d : Delimiters) (name : String) (attrs : Attrs) (place : Place)
    (content : List Char) : List Char :=
  let inner := Text.trimWhile (· = ' ') content
  if isBlockName name then layBlock name place inner
  else if name == "br" then breakMark ++ ['\n']
  else
    content.takeWhile (· = ' ') ++ layInline d name attrs inner
      ++ Text.takeEndWhile (· = ' ') content

theorem layAround_inline (d : Delimiters) {name : String} (hblock : isBlockName name = false)
    (hbr : name ≠ "br") (attrs : Attrs) (place : Place) (content : List Char) :
    layAround d name attrs place content
      = content.takeWhile (· = ' ') ++ layInline d name attrs (Text.trimWhile (· = ' ') content)
        ++ Text.takeEndWhile (· = ' ') content := by
  simp only [layAround, hblock, beq_eq_false_iff_ne.mpr hbr, Bool.false_eq_true, if_false]

/-- What holds of a block, of a line break and of inline content between any two runs of spaces
holds of every element. -/
theorem layAround_cases {P : List Char → Prop} {d : Delimiters} {name : String} {attrs : Attrs}
    {place : Place} {content : List Char}
    (block : isBlockName name = true →
      P (layBlock name place (Text.trimWhile (· = ' ') content)))
    (lineBreak : name = "br" → P (breakMark ++ ['\n']))
    (inline : ∀ before behind, (∀ c ∈ before, c = ' ') → (∀ c ∈ behind, c = ' ') → name ≠ "br" →
      isBlockName name = false →
        P (before ++ layInline d name attrs (Text.trimWhile (· = ' ') content) ++ behind)) :
    P (layAround d name attrs place content) := by
  cases hblock : isBlockName name with
  | true => simpa only [layAround, hblock, if_true] using block hblock
  | false =>
    by_cases hbr : name = "br"
    · subst hbr
      exact lineBreak rfl
    · rw [layAround_inline d hblock hbr]
      exact inline _ _ (fun _ => Text.eq_of_mem_takeWhile) (fun _ => Text.eq_of_mem_takeEndWhile)
        hbr hblock

/-- Whether an element is shown although it is blank. -/
def showsBlank (name : String) : Bool :=
  name = "a" || name = "br" || name = "time"

structure Laid where
  text : List Char
  /-- The code put aside, in the order of its placeholders. -/
  fences : Fences

mutual

/-- Lays out a node, given what stands before it. -/
def layNode (d : Delimiters) (trims : Bool) (place : Place) (fences : Fences) : Dom → Laid
  | .text content => ⟨layText trims content, fences⟩
  | .comment => ⟨[], fences⟩
  | .element name attrs children =>
    if !showsBlank name && (Dom.element name attrs children).isBlank then
      ⟨trimStartIf trims (layBlank name children), fences⟩
    else
      match fencedCode? name children with
      | some code =>
        ⟨placeholder fences.length (place.parent == "a"),
          fences ++ [Text.escapeEntity (codeOf code)]⟩
      | none =>
        let inner := layNodes d name attrs (isBlockName name) 0 ⟨[], fences⟩ children
        ⟨trimStartIf trims (layAround d name attrs place inner.text), inner.fences⟩

/-- Lays out nodes behind what is laid out of the same element. -/
def layNodes (d : Delimiters) (parent : String) (parentAttrs : Attrs) (isBlock : Bool)
    (elementsBefore : Nat) (laid : Laid) : List Dom → Laid
  | [] => laid
  | n :: ns =>
    let place : Place :=
      ⟨parent, parentAttrs, elementsBefore, !ns.isEmpty, ns.any Dom.isElement⟩
    let next := layNode d (afterSpace laid.text isBlock) place laid.fences n
    layNodes d parent parentAttrs isBlock
      (if n.isElement then elementsBefore + 1 else elementsBefore)
      ⟨join laid.text next.text, next.fences⟩ ns

end

/-- The children of the body laid out, with placeholders and break marks in the text. -/
def layBody (d : Delimiters) (body : List Dom) : Laid :=
  layNodes d "body" [] true 0 ⟨[], []⟩ body

/-- The text without line breaks and tabs at its start and blanks at its end. -/
def trimEnds (s : List Char) : List Char :=
  Text.trimEndWhile Text.isBlank (s.dropWhile fun c => c = '\t' || c = '\r' || c = '\n')

def ofDoms (d : Delimiters) (body : List Dom) : List Char :=
  let laid := layBody d body
  restore laid.fences (dropBreakMarks (trimEnds laid.text))

/-- The mrkdwn of an HTML fragment. -/
def ofHtml (options : FormatOptions) (html : List Char) : List Char :=
  ofDoms (delimiters options) (parse html)

end MessageLayout.Mrkdwn
