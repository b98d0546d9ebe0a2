import MessageLayout.Json.Basic
import MessageLayout.Decimal.Layout

/-!
# Compact JSON text

`Json.write` prints a value without any space. In a string the quotation mark, the backslash and
the control characters below U+0020 are escaped, and all else stands for itself.
-/

namespace MessageLayout.Json

def lowerHexDigit (n : Nat) : Char :=
  if n < 10 then Char.ofNat (48 + n) else Char.ofNat (87 + n)

def escapeChar (c : Char) : List Char :=
  if c = '"' then ['\\', '"']
  else if c = '\\' then ['\\', '\\']
  else if c = '\n' then ['\\', 'n']
  else if c = '\r' then ['\\', 'r']
  else if c = '\t' then ['\\', 't']
  else if c.toNat = 8 then ['\\', 'b']
  else if c.toNat = 12 then ['\\', 'f']
  else if c.toNat < 32 then
    ['\\', 'u', '0', '0', lowerHexDigit (c.toNat / 16), lowerHexDigit (c.toNat % 16)]
  else [c]

def writeString (s : String) : List Char :=
  '"' :: s.toList.flatMap escapeChar ++ ['"']

mutual

/-- The compact text of a value. -/
def write : Json → List Char
  | .null => "null".toList
  | .bool true => "true".toList
  | .bool false => "false".toList
  | .int n => Text.ofInt n
  | .float x => Decimal.Layout.json.writeFloat x
  | .str s => writeString s
  | .arr [] => ['[', ']']
  | .arr (v :: vs) => '[' :: v.write ++ writeItems vs ++ [']']
  | .obj ⟨[]⟩ => ['{', '}']
  | .obj ⟨e :: es⟩ => '{' :: writeField e ++ writeFields es ++ ['}']

/-- The values after the first of an array, each after a comma. -/
def writeItems : List Json → List Char
  | [] => []
  | v :: vs => ',' :: v.write ++ writeItems vs

/-- The fields after the first of an object, each after a comma. -/
def writeFields : List (String × Json) → List Char
  | [] => []
  | e :: es => ',' :: writeField e ++ writeFields es

def writeField : String × Json → List Char
  | (name, v) => writeString name ++ ':' :: v.write

end

def text (v : Json) : String :=
  String.ofList v.write

end MessageLayout.Json
