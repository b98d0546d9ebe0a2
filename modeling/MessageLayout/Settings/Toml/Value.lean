import MessageLayout.Settings.Toml.Literal
import MessageLayout.Settings.Toml.Scalar
import MessageLayout.Settings.Toml.Table

/-!
# Values and keys in TOML

A value is a string, a plain value, a list between brackets or a table between braces. A list may
stretch over lines with comments, and its last item may be followed by a comma; a table between
braces stays on its line.
-/

namespace MessageLayout.Toml

/-- The greatest number of names in a key, and of lists and tables within each other. -/
def maxDepth : Nat := 79

/-! ## Keys -/

def isBareChar (c : Char) : Bool :=
  c.isAlphanum || c = '_' || c = '-'

def readName? : List Char → Option (String × List Char)
  | [] => none
  | c :: s =>
    match quote? c with
    | some q => readLine? q s
    | none =>
      let (name, rest) := (c :: s).span isBareChar
      if name.isEmpty then none else some (String.ofList name, rest)

/-- A key of at most so many names at the start of a text, and the rest. -/
def readKeyBy : Nat → List Char → Option (Key × List Char)
  | 0, _ => none
  | n + 1, s => do
    let (name, s) ← readName? (skipBlanks s)
    match skipBlanks s with
    | '.' :: s =>
      let (key, s) ← readKeyBy n s
      some ({ key with parents := name :: key.parents }, s)
    | s => some (⟨[], name⟩, s)

def readKey? (s : List Char) : Option (Key × List Char) :=
  readKeyBy maxDepth s

/-! ## Values -/

/-- The text behind blanks, line breaks and comments, where the flag says whether it starts within a
comment. A comment ends where its line does. -/
def skipFillerFrom : Bool → List Char → List Char
  | _, [] => []
  | _, '\n' :: s => skipFillerFrom false s
  | _, '\r' :: '\n' :: s => skipFillerFrom false s
  | true, c :: s => if isLineChar c then skipFillerFrom true s else c :: s
  | false, c :: s =>
    if c = ' ' || c = '\t' then skipFillerFrom false s
    else if c = '#' then skipFillerFrom true s
    else c :: s

def skipFiller (s : List Char) : List Char :=
  skipFillerFrom false s

/-- The items of a list up to its closing bracket, and the rest. Each round takes at least one
character, so the length of the text bounds their number. -/
def readItemsBy (value? : List Char → Option (Setting × List Char)) :
    Nat → List Char → Option (List Setting × List Char)
  | 0, _ => none
  | fuel + 1, s =>
    match skipFiller s with
    | ']' :: s => some ([], s)
    | s => do
      let (v, s) ← value? s
      match skipFiller s with
      | ']' :: s => some ([v], s)
      | ',' :: s =>
        let (vs, s) ← readItemsBy value? fuel s
        some (v :: vs, s)
      | _ => none

def readPair? (value? : List Char → Option (Setting × List Char)) (s : List Char) :
    Option ((Key × Setting) × List Char) := do
  let (key, s) ← readKey? s
  match s with
  | '=' :: s =>
    let (v, s) ← value? (skipBlanks s)
    some ((key, v), s)
  | _ => none

/-- The pairs of a table up to its closing brace, and the rest. Each round takes at least one
character, so the length of the text bounds their number. -/
def readPairsBy (value? : List Char → Option (Setting × List Char)) :
    Nat → List Char → Option (List (Key × Setting) × List Char)
  | 0, _ => none
  | fuel + 1, s => do
    let (pair, s) ← readPair? value? s
    match skipBlanks s with
    | '}' :: s => some ([pair], s)
    | ',' :: s =>
      let (pairs, s) ← readPairsBy value? fuel s
      some (pair :: pairs, s)
    | _ => none

def readBraces? (value? : List Char → Option (Setting × List Char)) (s : List Char) :
    Option (Setting × List Char) := do
  match skipBlanks s with
  | '}' :: s => some (.table ∅, s)
  | _ =>
    let (pairs, s) ← readPairsBy value? s.length s
    some (.table (← tableOfPairs pairs), s)

def readSimple? : List Char → Option (Setting × List Char)
  | [] => none
  | c :: s =>
    match quote? c with
    | some q => (readString? q s).map fun (t, rest) => (.str t, rest)
    | none => readScalar? (c :: s)

/-- A value at the start of a text with at most so many lists and tables within each other, and the
rest. -/
def readValueBy : Nat → List Char → Option (Setting × List Char)
  | 0, s => readSimple? s
  | n + 1, '[' :: s =>
    (readItemsBy (readValueBy n) s.length s).map fun (vs, rest) => (.list vs, rest)
  | n + 1, '{' :: s => readBraces? (readValueBy n) s
  | _ + 1, s => readSimple? s

def readValue? (s : List Char) : Option (Setting × List Char) :=
  readValueBy maxDepth s

end MessageLayout.Toml
