import MessageLayout.Ancestry
import MessageLayout.Mrkdwn.Options
import MessageLayout.Surface

/-!
# Rendering contexts

Everything that a node may know about where it stands. A context is derived from that of the
parent, so a node sees its own ancestors and never its siblings.
-/

namespace MessageLayout.Render

inductive Mode where
  /-- As it is; inline elements are not allowed. -/
  | normal
  /-- As it is; inline elements are reduced to their text. -/
  | plainText
  /-- As a fragment in which inline elements are written out. -/
  | html
deriving DecidableEq, Repr, Inhabited

structure Context where
  ancestry : Ancestry := ∅
  mode : Mode := .normal
  /-- The surface of the innermost container around it. -/
  surface : Surface := .message
  options : FormatOptions := {}
deriving DecidableEq, Repr, Inhabited

namespace Context

def ofOptions (options : FormatOptions) : Context :=
  { options }

def withMode (c : Context) (mode : Mode) : Context :=
  { c with mode }

def enter (c : Context) (tag : String) : Context :=
  { c with ancestry := c.ancestry.push tag }

def within (c : Context) (surface : Surface) : Context :=
  { c with surface }

/-- The context of what a node with the given check holds. -/
def scope (c : Context) : Option Check → Context
  | some (.container surface) => c.within surface
  | _ => c

end Context

end MessageLayout.Render
