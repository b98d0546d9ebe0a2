import MessageLayout.Html.Dom
import MessageLayout.Html.Reference

/-!
# Tokens of an HTML text

`tokens` cuts a text into characters, tags and comments. The reader is an automaton: `Mode.step`
takes one character and `Mode.finish` closes what is open at the end of the text. A tag that the
text ends in is dropped. Line ends are read as line feeds and a byte order mark at the start is
skipped.

Main statement: `tokensFrom_append` (a text can be read in two parts).
-/

namespace MessageLayout.Html

inductive Token where
  | char (c : Char)
  /-- The character U+0000 in text. -/
  | null
  | startTag (name : String) (attrs : Attrs)
  | endTag (name : String)
  | comment
  /-- A document type, or a flaw that leaves no trace in the tree. -/
  | unseen

def Token.isChar (c : Char) : Token → Bool
  | .char x => x = c
  | _ => false

def isSpace (c : Char) : Bool :=
  c = ' ' || c = '\n' || c = '\t' || c.toNat = 12 || c = '\r'

/-- A character as it is kept in the name or the value of an attribute. -/
def keepable (c : Char) : Char :=
  if c.toNat = 0 then Reference.replacement else c

structure Draft where
  isEnd : Bool
  /-- Its name, last character first. -/
  name : List Char
  attrs : Attrs

/-- The draft with a further attribute; of equal names the first counts. -/
def Draft.withAttr (d : Draft) (name value : List Char) : Draft :=
  let name := String.ofList name.reverse
  if d.attrs.any (·.1 == name) then d
  else { d with attrs := d.attrs ++ [(name, value.reverse)] }

def Draft.token (d : Draft) : Token :=
  let name := String.ofList d.name.reverse
  if d.isEnd then .endTag name else .startTag name d.attrs

inductive Place where
  | text
  /-- The value of an attribute in the given quotation marks, if any, last character first. -/
  | value (draft : Draft) (name : List Char) (quote : Option Char) (value : List Char)

/-- How far a comment has come towards its end. -/
inductive CommentEnd where
  | start
  | startDash
  | inside
  | dash
  | dashes
  | bang

/-- What the reader is in the middle of. -/
inductive Mode where
  | reading (place : Place)
  /-- A character reference, with what was read behind the `&`, last character first. -/
  | reference (place : Place) (seen : List Char)
  | tagOpen
  | endTagOpen
  | tagName (draft : Draft)
  | beforeName (draft : Draft)
  | attrName (draft : Draft) (name : List Char)
  | afterName (draft : Draft) (name : List Char)
  | beforeValue (draft : Draft) (name : List Char)
  | afterValue (draft : Draft)
  | selfClosing (draft : Draft)
  /-- Behind `<!`, with what was read since, in lower case. -/
  | declaration (seen : List Char)
  | doctype
  | comment (towards : CommentEnd)
  /-- Markup that counts as a comment up to the next `>`. -/
  | bogus

/-- A mode to go on in, with tokens that are complete. -/
abbrev Step := Mode × List Token

namespace Step

def next (m : Mode) : Step := (m, [])

def tag (d : Draft) : Step := (.reading .text, [d.token])

def comment : Step := (.reading .text, [.comment])

end Step

def textChar (c : Char) : Step :=
  if c = '<' then .next .tagOpen
  else if c = '&' then .next (.reference .text [])
  else if c.toNat = 0 then (.reading .text, [.null])
  else (.reading .text, [.char c])

def betweenAttrs (d : Draft) (c : Char) : Step :=
  if isSpace c then .next (.beforeName d)
  else if c = '/' then .next (.selfClosing d)
  else if c = '>' then .tag d
  else .next (.attrName d [keepable c.toLower])

def valueChar (d : Draft) (name : List Char) (quote : Option Char) (value : List Char) (c : Char) :
    Step :=
  if c = '&' then .next (.reference (.value d name quote value) [])
  else
    match quote with
    | some q =>
      if c = q then .next (.afterValue (d.withAttr name value))
      else .next (.reading (.value d name quote (keepable c :: value)))
    | none =>
      if isSpace c then .next (.beforeName (d.withAttr name value))
      else if c = '>' then .tag (d.withAttr name value)
      else .next (.reading (.value d name quote (keepable c :: value)))

def Place.step : Place → Char → Step
  | .text, c => textChar c
  | .value d name quote v, c => valueChar d name quote v c

def Place.put (p : Place) (cs : List Char) : Step :=
  match p with
  | .text => (.reading .text, cs.map .char)
  | .value d name quote v => .next (.reading (.value d name quote (cs.reverse ++ v)))

def Place.isValue : Place → Bool
  | .text => false
  | .value .. => true

/-- Puts the reading of a reference into the content. -/
def Place.putReading (p : Place) (r : Reference.Reading) : Step :=
  let (m, ts) := p.put r.chars
  (m, if r.isLoose && !p.isValue then .unseen :: ts else ts)

def CommentEnd.step : CommentEnd → Char → Step
  | .start, c =>
    if c = '-' then .next (.comment .startDash) else if c = '>' then .comment
    else .next (.comment .inside)
  | .startDash, c =>
    if c = '-' then .next (.comment .dashes) else if c = '>' then .comment
    else .next (.comment .inside)
  | .inside, c => if c = '-' then .next (.comment .dash) else .next (.comment .inside)
  | .dash, c => if c = '-' then .next (.comment .dashes) else .next (.comment .inside)
  | .dashes, c =>
    if c = '>' then .comment else if c = '!' then .next (.comment .bang)
    else if c = '-' then .next (.comment .dashes) else .next (.comment .inside)
  | .bang, c =>
    if c = '>' then .comment else if c = '-' then .next (.comment .dash)
    else .next (.comment .inside)

/-- A character behind `<!` and `seen`: a comment, a document type, or neither. -/
def declarationChar (seen : List Char) (c : Char) : Step :=
  let seen' := seen ++ [c.toLower]
  if seen' = "--".toList then .next (.comment .start)
  else if seen' = "doctype".toList then .next .doctype
  else if seen'.isPrefixOf "--".toList || seen'.isPrefixOf "doctype".toList then
    .next (.declaration seen')
  else if c = '>' then .comment
  else .next .bogus

def Mode.step : Mode → Char → Step
  | .reading place, c => place.step c
  | .reference place seen, c =>
    if Reference.continues seen.reverse c then .next (.reference place (c :: seen))
    else
      let r := Reference.read place.isValue seen.reverse (some c)
      let (m, ts) := place.putReading r
      if r.takesNext then (m, ts)
      else
        match m with
        | .reading place => let (m, more) := place.step c; (m, ts ++ more)
        | m => (m, ts)
  | .tagOpen, c =>
    if c.isAlpha then .next (.tagName ⟨false, [c.toLower], []⟩)
    else if c = '/' then .next .endTagOpen
    else if c = '!' then .next (.declaration [])
    else if c = '?' then .next .bogus
    else let (m, ts) := textChar c; (m, .char '<' :: ts)
  | .endTagOpen, c =>
    if c.isAlpha then .next (.tagName ⟨true, [c.toLower], []⟩)
    else if c = '>' then (.reading .text, [.unseen])
    else .next .bogus
  | .tagName d, c =>
    if isSpace c then .next (.beforeName d)
    else if c = '/' then .next (.selfClosing d)
    else if c = '>' then .tag d
    else .next (.tagName { d with name := keepable c.toLower :: d.name })
  | .beforeName d, c => betweenAttrs d c
  | .attrName d name, c =>
    if isSpace c then .next (.afterName d name)
    else if c = '/' then .next (.selfClosing (d.withAttr name []))
    else if c = '=' then .next (.beforeValue d name)
    else if c = '>' then .tag (d.withAttr name [])
    else .next (.attrName d (keepable c.toLower :: name))
  | .afterName d name, c =>
    if isSpace c then .next (.afterName d name)
    else if c = '=' then .next (.beforeValue d name)
    else betweenAttrs (d.withAttr name []) c
  | .beforeValue d name, c =>
    if isSpace c then .next (.beforeValue d name)
    else if c = '"' || c = '\x27' then .next (.reading (.value d name (some c) []))
    else if c = '>' then .tag (d.withAttr name [])
    else valueChar d name none [] c
  | .afterValue d, c => betweenAttrs d c
  | .selfClosing d, c => if c = '>' then .tag d else betweenAttrs d c
  | .declaration seen, c => declarationChar seen c
  | .doctype, c => if c = '>' then (.reading .text, [.unseen]) else .next .doctype
  | .comment towards, c => towards.step c
  | .bogus, c => if c = '>' then .comment else .next .bogus

/-- The tokens of what is open at the end of a text. -/
def Mode.finish : Mode → List Token
  | .reference .text seen =>
    (Place.text.putReading (Reference.read false seen.reverse none)).2
  | .tagOpen => [.char '<']
  | .endTagOpen => [.char '<', .char '/']
  | .declaration _ | .comment _ | .bogus => [.comment]
  | .doctype => [.unseen]
  | _ => []

def tokensFrom : Mode → List Char → List Token
  | m, [] => m.finish
  | m, c :: s => (m.step c).2 ++ tokensFrom (m.step c).1 s

/-- The mode behind a text, with the tokens that are complete. -/
def runFrom : Mode → List Char → Step
  | m, [] => (m, [])
  | m, c :: s =>
    let (m', ts) := runFrom (m.step c).1 s
    (m', (m.step c).2 ++ ts)

/-- The text with each line end written as a line feed. -/
def unifyLineEnds : List Char → List Char
  | [] => []
  | '\r' :: '\n' :: s => '\n' :: unifyLineEnds s
  | '\r' :: s => '\n' :: unifyLineEnds s
  | c :: s => c :: unifyLineEnds s

/-- The text without a byte order mark at its start. -/
def dropMark : List Char → List Char
  | '\ufeff' :: s => s
  | s => s

def tokens (html : List Char) : List Token :=
  tokensFrom (.reading .text) (unifyLineEnds (dropMark html))

theorem runFrom_append (m : Mode) (s t : List Char) :
    runFrom m (s ++ t)
      = ((runFrom (runFrom m s).1 t).1, (runFrom m s).2 ++ (runFrom (runFrom m s).1 t).2) := by
  induction s generalizing m with
  | nil => simp [runFrom]
  | cons c s ih => simp [runFrom, ih]

/-- A text can be read in two parts. -/
theorem tokensFrom_append (m : Mode) (s t : List Char) :
    tokensFrom m (s ++ t) = (runFrom m s).2 ++ tokensFrom (runFrom m s).1 t := by
  induction s generalizing m with
  | nil => simp [runFrom]
  | cons c s ih => simp [tokensFrom, runFrom, ih]

end MessageLayout.Html
