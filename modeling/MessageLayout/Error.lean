import MessageLayout.Json.Printer
import MessageLayout.Surface

/-!
# Errors of rendering

Each error ends the rendering: there is no partial output. `RenderError.message` is the wording.
-/

namespace MessageLayout

/-- Why a rendered block is not shaped like one. -/
inductive BlockFlaw where
  /-- The value has no string field `type`. -/
  | untyped (value : Json)
  | notAList (surface : Surface)
  | noElements

def BlockFlaw.message : BlockFlaw → String
  | untyped value => "missing \"type\" in " ++ value.text
  | notAList surface => surface.name ++ " container did not render to a list"
  | noElements => "context block without elements"

/-- Why a tree could not be rendered. -/
inductive RenderError where
  | unknownElement (name : String)
  /-- An inline element outside of a text. -/
  | unexpectedElement (name : String)
  /-- A `time` element whose `datetime` is neither a timestamp nor a date. -/
  | invalidDatetime (text : String)
  /-- An inline element directly in a container. -/
  | notABlock (surface : Surface) (tag : String)
  /-- Other than one node where one node is required. -/
  | notSingleNode (count : Nat)
  | malformedBlock (flaw : BlockFlaw)
  | incompatibleBlock (surface : Surface) (type : String)
  | incompatibleAction (surface : Surface) (type : String)
  | incompatibleAccessory (surface : Surface) (type : String)
  | incompatibleContextElement (surface : Surface) (type : String)
  | tooManyElements (count limit : Nat)

def RenderError.message : RenderError → String
  | unknownElement name => "Unknown HTML-like element: <" ++ name ++ ">"
  | unexpectedElement name => "<" ++ name ++ "> must be placed inside a text field"
  | invalidDatetime text => "Invalid datetime for <time>: " ++ text
  | notABlock surface tag =>
    surface.name ++ " container allows only layout blocks, found <" ++ tag ++ ">"
  | notSingleNode count => s!"Expected a single node child, got {count} children"
  | malformedBlock flaw => "Malformed block: " ++ flaw.message
  | incompatibleBlock surface type =>
    surface.name ++ " container does not allow \"" ++ type ++ "\" block"
  | incompatibleAction surface type => unfit "actions" type "element" surface
  | incompatibleAccessory surface type => unfit "section" type "accessory" surface
  | incompatibleContextElement surface type => unfit "context" type "element" surface
  | tooManyElements count limit =>
    s!"The number of elements generated by context is {count}. It\x27s going over the limit. ({limit})"
where
  unfit (block type part : String) (surface : Surface) : String :=
    block ++ " block has an incompatible \"" ++ type ++ "\" " ++ part ++ " with " ++ surface.name
      ++ " container"

end MessageLayout
