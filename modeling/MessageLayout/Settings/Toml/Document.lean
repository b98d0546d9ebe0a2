import MessageLayout.Settings.Toml.Value

/-!
# TOML documents

`Toml.read?` reads a whole document: lines with a key and its value, and headers that name the table
to which the lines after them belong.
-/

namespace MessageLayout.Toml

/-- What one line of a document says. -/
inductive Statement where
  | pair (key : Key) (value : Setting)
  | table (key : Key)
  /-- One more table of a list begins. -/
  | element (key : Key)

/-! ## Reading statements -/

/-- The text behind the end of a line, before which there may be blanks and a comment. -/
def endLine? (s : List Char) : Option (List Char) :=
  let s := skipBlanks s
  let s := if s.head? = some '#' then s.dropWhile isLineChar else s
  if s.isEmpty then some s else skipLineBreak? s

def readStatement? : List Char → Option (Statement × List Char)
  | '[' :: '[' :: s => do
    let (key, s) ← readKey? s
    match s with
    | ']' :: ']' :: s => some (.element key, s)
    | _ => none
  | '[' :: s => do
    let (key, s) ← readKey? s
    match s with
    | ']' :: s => some (.table key, s)
    | _ => none
  | s => (readPair? readValue? s).map fun (pair, rest) => (.pair pair.1 pair.2, rest)

/-- The statements of a text. Each round takes at least one character, so the length of the text
bounds their number. -/
def readStatementsBy : Nat → List Char → Option (List Statement)
  | 0, _ => none
  | fuel + 1, s =>
    match skipFiller s with
    | [] => some []
    | s => do
      let (statement, s) ← readStatement? s
      some (statement :: (← readStatementsBy fuel (← endLine? s)))

def readStatements? (text : List Char) : Option (List Statement) :=
  let s := if text.head? = some '\ufeff' then text.drop 1 else text
  readStatementsBy (s.length + 1) s

/-! ## Building the document -/

structure Draft where
  /-- The names of the table to which lines belong, outermost first. -/
  current : List String
  fields : Fields Node

def Key.names (key : Key) : List String :=
  key.parents ++ [key.name]

def Draft.add? (d : Draft) : Statement → Option Draft
  | .pair key value => do
    let fields ← Node.alterAt false (Node.insertPair key value) d.current .header d.fields
    some { d with fields }
  | .table key => do some ⟨key.names, ← Node.openTable key d.fields⟩
  | .element key => do some ⟨key.names, ← Node.openElement key d.fields⟩

def ofStatements? (statements : List Statement) : Option (Fields Setting) := do
  let d ← statements.foldlM Draft.add? ⟨[], ∅⟩
  some ⟨Node.settings d.fields.entries⟩

def read? (text : String) : Option (Fields Setting) := do
  ofStatements? (← readStatements? text.toList)

end MessageLayout.Toml
