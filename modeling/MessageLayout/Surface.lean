/-!
# Surfaces

Where a list of blocks is published. Each surface accepts blocks of its own.
-/

namespace MessageLayout

/-- A place where blocks are published. -/
inductive Surface where
  | message
  | modal
  | home
deriving DecidableEq, Repr, Inhabited

def Surface.name : Surface → String
  | message => "message"
  | modal => "modal"
  | home => "home"

/-- A check on the output of a node, run after the whole tree is rendered. -/
inductive Check where
  /-- The output is the list of blocks of a container on this surface. -/
  | container (surface : Surface)
  | contextElements
deriving DecidableEq, Repr

end MessageLayout
