import MessageLayout.Settings.Basic
import MessageLayout.Text.Numeral

/-!
# Key paths

A key path leads from the outermost table to a setting within it: `mrkdwn.exact_mode`,
`list[0].name` or `list[-1]`. An index below zero counts from the end of a list.
-/

namespace MessageLayout

inductive KeyPath.Step where
  | field (name : String)
  | index (i : Int)
deriving DecidableEq, Repr

/-- The way to a setting, which starts at a field of the outermost table. -/
structure KeyPath where
  first : String
  rest : List KeyPath.Step
deriving DecidableEq, Repr

namespace KeyPath

def steps (p : KeyPath) : List Step :=
  .field p.first :: p.rest

/-! ## Reading -/

/-- Where the reader of a path is, with the text of the step that it is in. -/
inductive Place where
  | name (seen : List Char)
  | index (seen : List Char)
  /-- Behind an index. -/
  | behind
deriving DecidableEq, Repr

/-- The characters of names: ASCII letters and digits, the space, the low line and the hyphen. -/
def isNameChar (c : Char) : Bool :=
  c.isAlphanum || c = ' ' || c = '_' || c = '-'

def isIndexBlank (c : Char) : Bool :=
  c = ' ' || c = '\t'

def fieldStep? (seen : List Char) : Option Step :=
  if seen.isEmpty then none else some (.field (String.ofList seen))

def indexStep? (seen : List Char) : Option Step :=
  let s := ((seen.dropWhile isIndexBlank).reverse.dropWhile isIndexBlank).reverse
  if s.head? = some '+' then none else (Text.readInt64? s).map .index

def stepsFrom : Place → List Char → Option (List Step)
  | .name seen, [] => do some [← fieldStep? seen]
  | .index _, [] => none
  | .behind, [] => some []
  | .name seen, c :: s =>
    if isNameChar c then stepsFrom (.name (seen ++ [c])) s
    else if c = '.' then do some ((← fieldStep? seen) :: (← stepsFrom (.name []) s))
    else if c = '[' then do some ((← fieldStep? seen) :: (← stepsFrom (.index []) s))
    else none
  | .index seen, c :: s =>
    if c = ']' then do some ((← indexStep? seen) :: (← stepsFrom .behind s))
    else stepsFrom (.index (seen ++ [c])) s
  | .behind, c :: s =>
    if c = '.' then stepsFrom (.name []) s
    else if c = '[' then stepsFrom (.index []) s
    else none

def read? (text : String) : Option KeyPath :=
  match stepsFrom (.name []) text.toList with
  | some (.field name :: rest) => some ⟨name, rest⟩
  | _ => none

end KeyPath

namespace Setting

/-! ## Setting along a path -/

def place? (length : Nat) (i : Int) : Option Nat :=
  if 0 ≤ i then some i.toNat
  else if i.natAbs ≤ length then some (length - i.natAbs)
  else none

/-- The setting as a list with one item changed. A list that is too short is filled with empty
settings; before the start of a list there is nothing to change. -/
def changeItem (s : Setting) (i : Int) (f : Setting → Setting) : Setting :=
  match place? s.items.length i with
  | none => .list s.items
  | some n => .list ((s.items ++ List.replicate (n + 1 - s.items.length) Setting.empty).modify n f)

def change (s : Setting) (f : Setting → Setting) : KeyPath.Step → Setting
  | .field name => s.withField name (f ((s.field? name).getD .empty))
  | .index i => s.changeItem i f

/-- The setting after what the steps lead to was given a value. What stands in the way becomes a
table or a list. -/
def setAlong (value : Setting) : List KeyPath.Step → Setting → Setting
  | [], _ => value
  | [.field name], s => s.put name value
  | step :: rest, s => s.change (setAlong value rest) step

def setAt (s : Setting) (path : KeyPath) (value : Setting) : Setting :=
  setAlong value path.steps s

/-- The setting after a field of a document was given its value. A name that reads as a path is
one. -/
def setEntry (s : Setting) (e : String × Setting) : Setting :=
  match KeyPath.read? e.1 with
  | some path => s.setAt path e.2
  | none => s.put e.1 e.2

def overlay (s : Setting) (document : Fields Setting) : Setting :=
  document.entries.foldl setEntry s

end Setting

end MessageLayout
