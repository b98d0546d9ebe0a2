import MessageLayout.Error
import MessageLayout.Markup.Element
import MessageLayout.Mrkdwn.Convert
import MessageLayout.Node.Basic
import MessageLayout.Render.Context
import MessageLayout.Render.Output

/-!
# Rendering a tree

`renderNode` renders a node in a context, depth first. Objects render their attributes, lists and
texts their children. Inline elements are written out in a fragment, reduced to their text in a
plain text, and refused elsewhere. The check of a node is not run but recorded behind those of the
nodes below it.
-/

namespace MessageLayout.Render

/-- Refuses an inline element directly in a container. -/
def refuseTag (hook : Option Check) (tag? : Option String) : RenderM Unit :=
  match hook, tag? with
  | some (.container surface), some tag => .fail (.notABlock surface tag)
  | _, _ => pure ()

def leaf (mode : Mode) (content : String) : Output :=
  .text (if mode = .html then Text.escapeEntity content.toList else content.toList)

/-- The items with one more, unless it is left out. -/
def withItem (output : Output) (items : List Json) : List Json :=
  if output.isOmitted then items else output.toJson :: items

def recordCheck (hook : Option Check) (output : Output) (surface : Surface) : RenderM Unit :=
  match hook with
  | some check => .record ⟨check, output.toJson, surface⟩
  | none => pure ()

mutual

def renderNode (c : Context) : Node → RenderM Output
  | ⟨kind, ⟨entries⟩, children, hook⟩ => do
    let c := c.scope hook
    let output ← match kind with
      | .object => do
        let fields ← renderFields c entries
        pure (.json (.obj ⟨fields⟩))
      | .array => do
        let items ← renderItems c hook children
        pure (.json (.arr items))
      | .text => do
        let s ← renderText (c.withMode .plainText) children
        pure (.text s)
      | .markup => do
        let html ← renderText (c.withMode .html) children
        pure (.text (Mrkdwn.ofHtml c.options html))
      | .escaped => do
        let s ← renderText c children
        pure (.text (Text.escapeEntity s))
      | .tag name =>
        match c.mode with
        | .normal => .fail (.unexpectedElement name)
        | .plainText =>
          if name = "br" then pure (.text ['\n'])
          else do
            let s ← renderText (c.enter name) children
            pure (.text s)
        | .html => do
          let content ← renderText (c.enter name) children
          let html ← .ofExcept (Markup.renderTag name ⟨entries⟩ content c.ancestry)
          pure (.text html)
    recordCheck hook output c.surface
    pure output

/-- Renders the attributes of an object; those that are absent are left out. -/
def renderFields (c : Context) : List (String × AttrValue) → RenderM (List (String × Json))
  | [] => pure []
  | e :: es => do
    let field ← renderField c e
    let fields ← renderFields c es
    pure (field ++ fields)

def renderField (c : Context) : String × AttrValue → RenderM (List (String × Json))
  | (name, v) =>
    if v.isAbsent then pure []
    else do
      let v ← renderValue c v
      pure [(name, v)]

def renderValue (c : Context) : AttrValue → RenderM Json
  | .absent => pure .null
  | .json v => pure v
  | .node n => do
    let output ← renderNode c n
    pure output.toJson
  | .list items => do
    let vs ← renderValues c items
    pure (.arr vs)

def renderValues (c : Context) : List AttrValue → RenderM (List Json)
  | [] => pure []
  | v :: vs =>
    if v.isAbsent then renderValues c vs
    else do
      let v ← renderValue c v
      let vs ← renderValues c vs
      pure (v :: vs)

/-- Renders the children of a list node with the given check; empty results are left out. -/
def renderItems (c : Context) (hook : Option Check) : List Child → RenderM (List Json)
  | [] => pure []
  | d :: ds => do
    let item ← renderItem c hook d
    let items ← renderItems c hook ds
    pure (withItem item items)

def renderItem (c : Context) (hook : Option Check) : Child → RenderM Output
  | .node n => do
    refuseTag hook n.tagName?
    renderNode c n
  | .text s => pure (leaf c.mode s)

def renderText (c : Context) : List Child → RenderM (List Char)
  | [] => pure []
  | d :: ds => do
    let output ← renderChild c d
    let s ← renderText c ds
    pure (output.toText ++ s)

def renderChild (c : Context) : Child → RenderM Output
  | .node n => renderNode c n
  | .text s => pure (leaf c.mode s)

end

/-- Texts are written into a fragment one after the other, escaped, and record no check. -/
theorem renderText_texts {c : Context} (hc : c.mode = .html) (parts : List String) :
    renderText c (parts.map .text)
      = .ok ⟨Text.escapeEntity (parts.flatMap String.toList), []⟩ := by
  induction parts with
  | nil => simp [renderText]; rfl
  | cons s parts ih =>
    simp only [List.map_cons, renderText, renderChild, ih, leaf, hc, List.flatMap_cons,
      Text.escapeEntity_append]
    rfl

end MessageLayout.Render
