/-!
# Ancestry

The chain of inline elements around a place in the tree, nearest first. An element decides by it
whether it can be shown there.
-/

namespace MessageLayout

/-- The names of the enclosing inline elements. -/
structure Ancestry where
  /-- The names, nearest first. -/
  tags : List String
deriving DecidableEq, Repr

namespace Ancestry

instance : EmptyCollection Ancestry := ⟨⟨[]⟩⟩

instance : Inhabited Ancestry := ⟨∅⟩

def push (a : Ancestry) (tag : String) : Ancestry :=
  ⟨tag :: a.tags⟩

def parent? (a : Ancestry) : Option String :=
  a.tags.head?

def isChildOf (a : Ancestry) (tags : List String) : Bool :=
  a.parent?.any tags.contains

def isDescendantOf (a : Ancestry) (tags : List String) : Bool :=
  a.tags.any tags.contains

def depth (a : Ancestry) : Nat :=
  a.tags.length

def isEmpty (a : Ancestry) : Bool :=
  a.tags.isEmpty

@[simp] theorem tags_push (a : Ancestry) (tag : String) : (a.push tag).tags = tag :: a.tags := rfl

@[simp] theorem isDescendantOf_push (a : Ancestry) (tag : String) (tags : List String) :
    (a.push tag).isDescendantOf tags = (tags.contains tag || a.isDescendantOf tags) := by
  simp [isDescendantOf]

@[simp] theorem isChildOf_push (a : Ancestry) (tag : String) (tags : List String) :
    (a.push tag).isChildOf tags = tags.contains tag := by
  simp [isChildOf, parent?]

end Ancestry

end MessageLayout
