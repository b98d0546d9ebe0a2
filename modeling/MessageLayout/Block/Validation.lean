import MessageLayout.Block.Registry
import MessageLayout.Render.Output

/-!
# Checking rendered blocks

The checks that nodes carry: that a container holds blocks which its surface accepts, and that a
context block holds at most ten elements which the surface around it accepts.

Each check stops at the first fault. `Deferred.run` is the check of one node.
-/

namespace MessageLayout.Block

def contextLimit : Nat := 10

def typeOf (v : Json) : Except RenderError String :=
  match (v.get? "type").bind Json.str? with
  | some type => .ok type
  | none => .error (.malformedBlock (.untyped v))

/-- Fails unless the value has one of the types. -/
def requireType (types : List String) (refuse : String → RenderError) (v : Json) :
    Except RenderError Unit := do
  let type ← typeOf v
  if types.contains type then .ok () else .error (refuse type)

def checkActions (surface : Surface) (block : Json) : Except RenderError Unit :=
  (((block.get? "elements").bind Json.arr?).getD []).forM
    (requireType surface.actions (.incompatibleAction surface))

def checkAccessory (surface : Surface) (block : Json) : Except RenderError Unit :=
  match block.get? "accessory" with
  | none | some .null => .ok ()
  | some accessory =>
    requireType surface.accessories (.incompatibleAccessory surface) accessory

def checkBlock (surface : Surface) (block : Json) : Except RenderError Unit := do
  let type ← typeOf block
  if !surface.blocks.contains type then .error (.incompatibleBlock surface type)
  else if type = "actions" then checkActions surface block
  else if type = "section" then checkAccessory surface block
  else .ok ()

def checkContainer (surface : Surface) (output : Json) : Except RenderError Unit :=
  match output.arr? with
  | some blocks => blocks.forM (checkBlock surface)
  | none => .error (.malformedBlock (.notAList surface))

def checkContext (surface : Surface) (output : Json) : Except RenderError Unit :=
  match (output.get? "elements").bind Json.arr? with
  | some elements =>
    if contextLimit < elements.length then
      .error (.tooManyElements elements.length contextLimit)
    else
      elements.forM
        (requireType surface.contextElements (.incompatibleContextElement surface))
  | none => .error (.malformedBlock .noElements)

end MessageLayout.Block

namespace MessageLayout.Render

def Deferred.run (d : Deferred) : Except RenderError Unit :=
  match d.check with
  | .container surface => Block.checkContainer surface d.output
  | .contextElements => Block.checkContext d.surface d.output

/-- Runs recorded checks in their order, up to the first that fails. -/
def runChecks (ds : List Deferred) : Except RenderError Unit :=
  ds.forM Deferred.run

/-- The result of a rendering whose checks all hold. -/
def RenderM.checked {α : Type} (x : RenderM α) : Except RenderError α := do
  let r ← x.run
  runChecks r.deferred
  return r.output

end MessageLayout.Render
