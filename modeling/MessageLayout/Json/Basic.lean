import MessageLayout.Fields

/-!
# JSON values

Numbers are whole numbers or floats, and the two stay apart: `1` and `1.0` are different values.
Objects keep the order of their keys.
-/

namespace MessageLayout

inductive Json where
  | null
  | bool (b : Bool)
  | int (n : Int)
  /-- A finite float. -/
  | float (x : Float)
  | str (s : String)
  | arr (items : List Json)
  | obj (fields : Fields Json)

namespace Json

instance : Inhabited Json := ⟨.null⟩

def get? (name : String) : Json → Option Json
  | .obj fields => fields.get? name
  | _ => none

def str? : Json → Option String
  | .str s => some s
  | _ => none

def arr? : Json → Option (List Json)
  | .arr items => some items
  | _ => none

end Json

end MessageLayout
