import MessageLayout.Text.Blank

/-!
# Document trees

The tree that an HTML fragment is read into. Names of elements and attributes are lower case.
-/

namespace MessageLayout.Html

/-- The attributes of an element as written, without repeated names. -/
abbrev Attrs := List (String × List Char)

inductive Dom where
  | text (content : List Char)
  | element (name : String) (attrs : Attrs) (children : List Dom)
  | comment

namespace Dom

def name? : Dom → Option String
  | element name _ _ => some name
  | _ => none

def isElement (d : Dom) : Bool :=
  d.name?.isSome

def attr? (name : String) : Dom → Option (List Char)
  | element _ attrs _ => attrs.lookup name
  | _ => none

mutual

/-- The text of a node and all that is below it. -/
def textContent : Dom → List Char
  | text content => content
  | element _ _ children => textOf children
  | comment => []

def textOf : List Dom → List Char
  | [] => []
  | d :: ds => d.textContent ++ textOf ds

end

mutual

/-- Whether the node is, or holds at any depth, an element of the given name. -/
def mentions (name : String) : Dom → Bool
  | element n _ children => n == name || anyMentions name children
  | _ => false

def anyMentions (name : String) : List Dom → Bool
  | [] => false
  | d :: ds => d.mentions name || anyMentions name ds

end

/-- Whether an element leaves nothing to show: no line break below it, and blank text only. -/
def isBlank : Dom → Bool
  | element _ _ children => !anyMentions "br" children && Text.isAllBlank (textOf children)
  | d => Text.isAllBlank d.textContent

@[simp] theorem textContent_text (s : List Char) : (text s).textContent = s := rfl

@[simp] theorem textContent_comment : comment.textContent = [] := rfl

@[simp] theorem textContent_element (name : String) (attrs : Attrs) (ds : List Dom) :
    (element name attrs ds).textContent = textOf ds := by
  simp [textContent]

@[simp] theorem textOf_nil : textOf [] = [] := rfl

@[simp] theorem textOf_cons (d : Dom) (ds : List Dom) :
    textOf (d :: ds) = d.textContent ++ textOf ds := by
  simp [textOf]

theorem mem_textOf {c : Char} {ds : List Dom} : c ∈ textOf ds ↔ ∃ d ∈ ds, c ∈ d.textContent := by
  induction ds with
  | nil => simp
  | cons d ds ih => simp [ih]

@[simp] theorem textOf_append (ds es : List Dom) : textOf (ds ++ es) = textOf ds ++ textOf es := by
  induction ds with
  | nil => simp
  | cons d ds ih => simp [ih]

end Dom

end MessageLayout.Html
