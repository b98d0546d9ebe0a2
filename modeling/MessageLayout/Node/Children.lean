import MessageLayout.Node.Basic
import MessageLayout.Error

/-!
# Inspecting children

Components that look at the content they were given see it flattened. A list node without a check
groups its children as a fragment does: it counts as one child, and `spliced` puts its children in
its place.
-/

namespace MessageLayout

namespace Node

/-- Whether the node only groups its children. -/
def isFragment (n : Node) : Bool :=
  n.kind = .array && n.hook.isNone

end Node

mutual

/-- A child with fragments opened, at every depth reached through fragments alone. -/
def Child.spliced : Child → List Child
  | .node ⟨kind, attributes, children, hook⟩ =>
    if (⟨kind, attributes, children, hook⟩ : Node).isFragment then splicedAll children
    else [.node ⟨kind, attributes, children, hook⟩]
  | .text s => [.text s]

def splicedAll : List Child → List Child
  | [] => []
  | c :: cs => c.spliced ++ splicedAll cs

end

namespace Content

def count (c : Content) : Nat :=
  c.normalize.length

/-- What `f` makes of each child and its index. -/
def mapChildren {α : Type} (f : Child → Nat → α) (c : Content) : List α :=
  c.normalize.zipIdx.map fun p => f p.1 p.2

def only (c : Content) : Except RenderError Node :=
  match c.normalize with
  | [.node n] => .ok n
  | cs => .error (.notSingleNode cs.length)

def spliced (c : Content) : List Child :=
  splicedAll c.normalize

end Content

end MessageLayout
