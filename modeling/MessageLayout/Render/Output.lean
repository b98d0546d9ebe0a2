import MessageLayout.Error

/-!
# Rendered output

A node renders to JSON or to text, together with the checks that are to run on its output and on
the output of the nodes below it once the whole tree is rendered.
-/

namespace MessageLayout.Render

inductive Output where
  | json (value : Json)
  | text (content : List Char)

namespace Output

/-- Whether a list leaves the output out. -/
def isOmitted : Output → Bool
  | json .null => true
  | json _ => false
  | text s => s.isEmpty

def toJson : Output → Json
  | json v => v
  | text s => .str (String.ofList s)

def toText : Output → List Char
  | text s => s
  | json (.str s) => s.toList
  | json .null => []
  | json v => v.write

end Output

/-- A check with the output that it is to look at. -/
structure Deferred where
  check : Check
  output : Json
  /-- The surface of the innermost container around the node. -/
  surface : Surface

/-- A result with the checks that were recorded on the way, innermost first. -/
structure Rendered (α : Type) where
  output : α
  deferred : List Deferred

/-- A rendering: it fails, or gives a result with the checks that it recorded. -/
def RenderM (α : Type) := Except RenderError (Rendered α)

namespace RenderM

variable {α β : Type}

/-- Goes on with `f` after a rendering; the checks of the first come first. -/
def andThen (x : RenderM α) (f : α → RenderM β) : RenderM β :=
  match x with
  | .error e => .error e
  | .ok ⟨a, ds⟩ =>
    match f a with
    | .error e => .error e
    | .ok ⟨b, es⟩ => .ok ⟨b, ds ++ es⟩

instance : Monad RenderM where
  pure a := .ok ⟨a, []⟩
  bind := andThen

def fail (e : RenderError) : RenderM α := .error e

def ofExcept (x : Except RenderError α) : RenderM α :=
  match x with
  | .ok a => pure a
  | .error e => fail e

def record (d : Deferred) : RenderM Unit := .ok ⟨(), [d]⟩

def run (x : RenderM α) : Except RenderError (Rendered α) := x

theorem andThen_pure (x : RenderM α) (f : α → β) :
    x.andThen (fun a => pure (f a)) = match x with
      | .error e => .error e
      | .ok ⟨a, ds⟩ => .ok ⟨f a, ds⟩ := by
  match x with
  | .error _ => rfl
  | .ok ⟨a, ds⟩ => exact congrArg (fun es => Except.ok (Rendered.mk (f a) es)) (List.append_nil ds)

theorem pure_andThen (a : α) (f : α → RenderM β) : (pure a : RenderM α).andThen f = f a := by
  show andThen (.ok ⟨a, []⟩) f = f a
  simp only [andThen]
  match f a with
  | .error _ => rfl
  | .ok ⟨_, _⟩ => rfl

theorem andThen_assoc {γ : Type} (x : RenderM α) (f : α → RenderM β) (g : β → RenderM γ) :
    (x.andThen f).andThen g = x.andThen fun a => (f a).andThen g := by
  match x with
  | .error _ => rfl
  | .ok ⟨a, ds⟩ =>
    simp only [andThen]
    match f a with
    | .error _ => rfl
    | .ok ⟨b, es⟩ =>
      simp only
      match g b with
      | .error _ => rfl
      | .ok ⟨c, fs⟩ =>
        exact congrArg (fun l => Except.ok (Rendered.mk c l)) (List.append_assoc ds es fs)

/-- A rendering in two steps succeeds if both do. -/
theorem bind_eq_ok {x : RenderM α} {f : α → RenderM β} {r : Rendered β} (h : x >>= f = .ok r) :
    ∃ a b, x = .ok a ∧ f a.output = .ok b ∧ r = ⟨b.output, a.deferred ++ b.deferred⟩ := by
  match x with
  | .error _ => cases h
  | .ok ⟨a, ds⟩ =>
    have h' : (match f a with
      | .error e => .error e
      | .ok ⟨b, es⟩ => .ok ⟨b, ds ++ es⟩) = Except.ok r := h
    match hf : f a, h' with
    | .ok ⟨b, es⟩, h' => exact ⟨⟨a, ds⟩, ⟨b, es⟩, rfl, hf, (Except.ok.inj h').symm⟩

instance : LawfulMonad RenderM :=
  LawfulMonad.mk' RenderM
    (fun x => (andThen_pure x id).trans (by match x with | .error _ => rfl | .ok _ => rfl))
    pure_andThen
    andThen_assoc

end RenderM

end MessageLayout.Render
