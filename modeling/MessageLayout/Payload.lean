import MessageLayout.Block.Validation
import MessageLayout.Render.Traversal

/-!
# Payloads

The ways to render: a tree to JSON, and children to mrkdwn, to plain text or to a fragment. All run
the checks that the tree carries and fail with the first error.
-/

namespace MessageLayout

open Render

def render (options : FormatOptions) (n : Node) : Except RenderError Json := do
  let output ← (renderNode (.ofOptions options) n).checked
  return output.toJson

def renderMrkdwn (options : FormatOptions) (content : Content) : Except RenderError String := do
  let output ← (renderNode (.ofOptions options) (.markup content)).checked
  return String.ofList output.toText

def renderPlainText (content : Content) : Except RenderError String := do
  let output ← (renderNode {} (.text content)).checked
  return String.ofList output.toText

/-- Renders inline children to the fragment that mrkdwn is made from. -/
def renderFragment (options : FormatOptions) (content : Content) : Except RenderError String := do
  let html ← (renderText ((Context.ofOptions options).withMode .html) content.normalize).checked
  return String.ofList html

/-- Mrkdwn is made from the fragment, with the same checks. -/
theorem renderMrkdwn_eq_map_renderFragment (options : FormatOptions) (content : Content) :
    renderMrkdwn options content
      = (renderFragment options content).map
          fun html => String.ofList (Mrkdwn.ofHtml options html.toList) := by
  unfold renderMrkdwn renderFragment Node.markup Node.new
  show (do let output ← (renderNode _ ⟨.markup, ⟨[]⟩, content.normalize, none⟩).checked; _) = _
  simp only [renderNode, Context.scope, recordCheck]
  generalize renderText ((Context.ofOptions options).withMode .html) content.normalize = x
  match x with
  | .error _ => rfl
  | .ok ⟨s, ds⟩ =>
    simp only [bind, RenderM.andThen, pure, RenderM.checked, RenderM.run, Except.bind,
      List.append_nil, Except.pure]
    cases runChecks ds with
    | error _ => rfl
    | ok _ => simp [Except.map, Output.toText]; rfl

end MessageLayout
