import MessageLayout.Html.Dom

/-!
# The spine of open elements

While a document tree is built, the elements that are still open lie on one path from the body to
the place where the next node goes. `Spine` is the tree cut along that path: each open element
with the children it has so far, innermost first, and the finished children of the body.

Main statement: `toDoms_close` (closing elements leaves the tree as it is).
-/

namespace MessageLayout.Html

structure Frame where
  /-- A number that no other element of the tree has. -/
  id : Nat
  name : String
  attrs : Attrs
  /-- The finished children, newest first. -/
  done : List Dom

/-- The element that the frame is when its last open child is added to it. -/
def Frame.close (f : Frame) (last : List Dom) : Dom :=
  .element f.name f.attrs (f.done.reverse ++ last)

/-- The nodes that frames become, innermost first, when all are closed around `inner`. -/
def closeAround (inner : List Dom) : List Frame → List Dom
  | [] => inner
  | f :: fs => closeAround [f.close inner] fs

structure Spine where
  /-- The open elements below the body, innermost first. -/
  frames : List Frame
  /-- The finished children of the body, newest first. -/
  done : List Dom

namespace Spine

def empty : Spine := ⟨[], []⟩

/-- The children of the body when everything is closed. -/
def toDoms (s : Spine) : List Dom :=
  s.done.reverse ++ closeAround [] s.frames

/-- The finished children at the place where the next node goes, newest first. -/
def here (s : Spine) : List Dom :=
  match s.frames with
  | [] => s.done
  | f :: _ => f.done

def withHere (s : Spine) (done : List Dom) : Spine :=
  match s.frames with
  | [] => ⟨[], done⟩
  | f :: fs => ⟨{ f with done } :: fs, s.done⟩

def append (s : Spine) (ds : List Dom) : Spine :=
  s.withHere (ds.reverse ++ s.here)

/-- Adds a character; text next to text is one node. -/
def appendChar (s : Spine) (c : Char) : Spine :=
  match s.here with
  | .text t :: ds => s.withHere (.text (t ++ [c]) :: ds)
  | ds => s.withHere (.text [c] :: ds)

def push (s : Spine) (f : Frame) : Spine :=
  ⟨f :: s.frames, s.done⟩

def close (s : Spine) (n : Nat) : Spine :=
  append ⟨s.frames.drop n, s.done⟩ (closeAround [] (s.frames.take n))

/-- How many elements lie within the innermost one of which `p` holds. -/
def depthOf (s : Spine) (p : Frame → Bool) : Nat :=
  (s.frames.takeWhile fun f => !p f).length

/-- Closes elements up to and with the innermost one of the given name, if one is open. -/
def closeThrough (s : Spine) (name : String) : Spine :=
  if s.frames.any (·.name == name) then s.close (s.depthOf (·.name == name) + 1) else s

def hasOpen (s : Spine) (name : String) : Bool :=
  s.frames.any (·.name == name)

def innermost? (s : Spine) (p : String → Bool) : Option String :=
  (s.frames.map (·.name)).find? p

/-! ## Lemmas -/

theorem closeAround_append (inner : List Dom) (fs gs : List Frame) :
    closeAround inner (fs ++ gs) = closeAround (closeAround inner fs) gs := by
  induction fs generalizing inner with
  | nil => rfl
  | cons f fs ih => simp [closeAround, ih]

/-- Closing elements changes what is open and not the tree. -/
theorem toDoms_close (s : Spine) (n : Nat) : (s.close n).toDoms = s.toDoms := by
  have h := closeAround_append [] (s.frames.take n) (s.frames.drop n)
  rw [List.take_append_drop] at h
  simp only [toDoms, h, close, append]
  cases hd : s.frames.drop n with
  | nil => simp [here, withHere, closeAround]
  | cons f fs => simp [here, withHere, closeAround, Frame.close]

end Spine

end MessageLayout.Html
