import MessageLayout.Decimal.Layout
import MessageLayout.Mrkdwn.Options
import MessageLayout.Settings.Basic
import MessageLayout.Text.Quoted

/-!
# Configuration

The configuration that settings come to. Its one section holds one truth value, which may also be
given as a number or as a word.
-/

namespace MessageLayout

structure Configuration where
  mrkdwn : FormatOptions
deriving DecidableEq, Repr

inductive SettingsError where
  | malformedKey (key : String)
  | missingFile (name : String)
  | malformedFile (name : String)
  | notBoolean (path : String) (found : Setting)
  /-- A setting stands where the section belongs. -/
  | notSection (found : Setting)
  /-- The section is given as a list without items. -/
  | emptySection
  | missingField (name : String)

namespace Setting

def describeFloat (x : Float) : String :=
  if x.isNaN then "NaN"
  else if x.isInf then if x < 0 then "-inf" else "inf"
  else String.ofList (Decimal.Layout.marked.writeFloat x)

def describe : Setting → String
  | .empty => "unit value"
  | .bool b => if b then "boolean \x60true\x60" else "boolean \x60false\x60"
  | .int n => "integer \x60" ++ String.ofList (Text.ofInt n) ++ "\x60"
  | .float x => "floating point \x60" ++ describeFloat x ++ "\x60"
  | .str s => "string " ++ Text.quoted s
  | .list _ => "sequence"
  | .table _ => "map"

/-- The truth value that a word stands for, in lower case. -/
def wordValue? (word : String) : Option Bool :=
  if word ∈ ["1", "true", "on", "yes"] then some true
  else if word ∈ ["0", "false", "off", "no"] then some false
  else none

/-- The setting at the path as a truth value. Of numbers only zero is false. -/
def toBool (path : String) : Setting → Except SettingsError Bool
  | .bool b => .ok b
  | .int n => .ok (n ≠ 0)
  | .float x => .ok (x != 0)
  | .str s =>
    let word := Text.lowercase s
    match wordValue? word with
    | some b => .ok b
    | none => .error (.notBoolean path (.str word))
  | s => .error (.notBoolean path s)

end Setting

/-- The text of an error; an error about a whole file or key has none. -/
def SettingsError.message? : SettingsError → Option String
  | malformedKey _ | missingFile _ | malformedFile _ => none
  | notBoolean _ found => some (found.describe ++ ", expected a boolean")
  | notSection found =>
    some ("invalid type: " ++ found.describe ++ ", expected struct MrkdwnConfig")
  | emptySection => some "invalid length 0, expected struct MrkdwnConfig with 1 element"
  | missingField name => some ("missing field \x60" ++ name ++ "\x60")

namespace Configuration

/-- The options in the section on mrkdwn, which is a table or a list of its fields in order. -/
def optionsOf : Setting → Except SettingsError FormatOptions
  | .table fields =>
    match fields.get? "exact_mode" with
    | none => .error (.missingField "exact_mode")
    | some s => return ⟨← s.toBool "mrkdwn.exact_mode"⟩
  | .list [] => .error .emptySection
  | .list (s :: _) => return ⟨← s.toBool "mrkdwn[0]"⟩
  | s => .error (.notSection s)

def ofSettings (s : Setting) : Except SettingsError Configuration :=
  match s.fields.get? "mrkdwn" with
  | none => .error (.missingField "mrkdwn")
  | some mrkdwn => return ⟨← optionsOf mrkdwn⟩

end Configuration

end MessageLayout
