import MessageLayout.Text.Numeral

/-!
# Strings in TOML

A string stands between quotation marks or between apostrophes, on one line between single ones and
on any number of lines between triple ones. Between quotation marks a backslash starts an escape;
between apostrophes every character stands for itself. The line break right behind the opening of a
string of several lines does not belong to it.
-/

namespace MessageLayout.Toml

/-- Whether a character may stand on a line: no control character but the tab. -/
def isLineChar (c : Char) : Bool :=
  c = '\t' || (32 ≤ c.toNat && c ≠ '\x7f')

inductive Quote where
  /-- Between quotation marks, with escapes. -/
  | escaped
  /-- Between apostrophes, without escapes. -/
  | verbatim
deriving DecidableEq, Repr

def Quote.mark : Quote → Char
  | escaped => '"'
  | verbatim => '\x27'

/-- The character with the number that the first digits of a text give in the base sixteen, and the
rest. -/
def readCodePoint? (width : Nat) (s : List Char) : Option (Char × List Char) :=
  let ds := s.take width
  let n := Text.valueInBase 16 ds
  if ds.length = width && ds.all (Text.isDigitOf 16) && n.isValidChar then
    some (Char.ofNat n, s.drop width)
  else none

def readEscape? : List Char → Option (Char × List Char)
  | 'b' :: s => some ('\x08', s)
  | 't' :: s => some ('\t', s)
  | 'n' :: s => some ('\n', s)
  | 'f' :: s => some ('\x0c', s)
  | 'r' :: s => some ('\r', s)
  | '"' :: s => some ('"', s)
  | '\\' :: s => some ('\\', s)
  | 'u' :: s => readCodePoint? 4 s
  | 'U' :: s => readCodePoint? 8 s
  | _ => none

def skipLineBreak? : List Char → Option (List Char)
  | '\n' :: s => some s
  | '\r' :: '\n' :: s => some s
  | _ => none

def skipBlanks (s : List Char) : List Char :=
  s.dropWhile fun c => c = ' ' || c = '\t'

def skipSpace : List Char → List Char
  | [] => []
  | '\r' :: '\n' :: s => skipSpace s
  | c :: s => if c = ' ' || c = '\t' || c = '\n' then skipSpace s else c :: s

/-- The text on the next line that is not blank, if a line ends here but for blanks. -/
def skipFold? (s : List Char) : Option (List Char) :=
  (skipLineBreak? (skipBlanks s)).map skipSpace

/-- The characters of a string of one line up to its closing mark, and the rest. Each round takes at
least one character, so the length of the text bounds their number. -/
def readLineBy (q : Quote) : Nat → List Char → Option (List Char × List Char)
  | 0, _ => none
  | _ + 1, [] => none
  | fuel + 1, c :: s =>
    if c = q.mark then some ([], s)
    else if q = .escaped && c = '\\' then do
      let (c, s) ← readEscape? s
      let (cs, s) ← readLineBy q fuel s
      some (c :: cs, s)
    else if isLineChar c then do
      let (cs, s) ← readLineBy q fuel s
      some (c :: cs, s)
    else none

/-- The characters of a string of several lines up to its closing marks, and the rest. Up to two
marks right before the closing ones belong to the string. Each round takes at least one character,
so the length of the text bounds their number. -/
def readLinesBy (q : Quote) : Nat → List Char → Option (List Char × List Char)
  | 0, _ => none
  | _ + 1, [] => none
  | fuel + 1, c :: s =>
    if c = q.mark then
      let marks := ((c :: s).takeWhile (· = q.mark)).take 5
      let s := (c :: s).drop marks.length
      if 3 ≤ marks.length then some (marks.drop 3, s)
      else do
        let (cs, s) ← readLinesBy q fuel s
        some (marks ++ cs, s)
    else if q = .escaped && c = '\\' then
      match skipFold? s with
      | some s => readLinesBy q fuel s
      | none => do
        let (c, s) ← readEscape? s
        let (cs, s) ← readLinesBy q fuel s
        some (c :: cs, s)
    else
      match skipLineBreak? (c :: s) with
      | some s => do
        let (cs, s) ← readLinesBy q fuel s
        some ('\n' :: cs, s)
      | none =>
        if isLineChar c then do
          let (cs, s) ← readLinesBy q fuel s
          some (c :: cs, s)
        else none

def readLine? (q : Quote) (s : List Char) : Option (String × List Char) :=
  (readLineBy q s.length s).map fun (cs, rest) => (String.ofList cs, rest)

def readLines? (q : Quote) (s : List Char) : Option (String × List Char) :=
  let s := (skipLineBreak? s).getD s
  (readLinesBy q s.length s).map fun (cs, rest) => (String.ofList cs, rest)

def quote? (c : Char) : Option Quote :=
  if c = Quote.escaped.mark then some .escaped
  else if c = Quote.verbatim.mark then some .verbatim
  else none

def readString? (q : Quote) : List Char → Option (String × List Char)
  | a :: b :: s => if a = q.mark && b = q.mark then readLines? q s else readLine? q (a :: b :: s)
  | s => readLine? q s

example : readString? .escaped "a\\tb\" c".toList = some ("a\tb", " c".toList) := by decide +kernel

example : readString? .escaped "\"\"a\"\"\"\"".toList = some ("a\"", []) := by decide +kernel

example : readString? .escaped "\"\"a\\ \n\n b\"\"\"".toList = some ("ab", []) := by decide +kernel

end MessageLayout.Toml
