import MessageLayout.Payload

/-!
# What does not depend on the options

The options say how mrkdwn is produced, so only a node that is converted to mrkdwn can notice them.
A node that holds none, at any depth of its children and its attributes, renders to the same output
with the same recorded checks, or fails with the same error, under all options.

    n.holdsMarkup = false → renderNode (c.withOptions o) n = renderNode c n
                                                          (renderNode_withOptions)
-/

namespace MessageLayout

mutual

/-- Whether a node is, or holds at any depth, one that is converted to mrkdwn. -/
def Node.holdsMarkup : Node → Bool
  | ⟨kind, ⟨entries⟩, children, _⟩ =>
    kind = .markup || entriesHoldMarkup entries || childrenHoldMarkup children

/-- Whether an attribute value holds a node that is converted to mrkdwn. -/
def AttrValue.holdsMarkup : AttrValue → Bool
  | .absent => false
  | .json _ => false
  | .node n => n.holdsMarkup
  | .list items => valuesHoldMarkup items

/-- Whether one of the values holds a node that is converted to mrkdwn. -/
def valuesHoldMarkup : List AttrValue → Bool
  | [] => false
  | v :: vs => v.holdsMarkup || valuesHoldMarkup vs

/-- Whether one of the attributes holds a node that is converted to mrkdwn. -/
def entriesHoldMarkup : List (String × AttrValue) → Bool
  | [] => false
  | (_, v) :: es => v.holdsMarkup || entriesHoldMarkup es

/-- Whether one of the children holds a node that is converted to mrkdwn. -/
def childrenHoldMarkup : List Child → Bool
  | [] => false
  | .node n :: ds => n.holdsMarkup || childrenHoldMarkup ds
  | .text _ :: ds => childrenHoldMarkup ds

end

namespace Render

/-- The context under other options. -/
def Context.withOptions (c : Context) (options : FormatOptions) : Context :=
  { c with options }

section

variable (o : FormatOptions)

theorem Context.scope_withOptions (c : Context) (hook : Option Check) :
    (c.withOptions o).scope hook = (c.scope hook).withOptions o := by
  unfold Context.scope
  split <;> rfl

theorem Context.withMode_withOptions (c : Context) (mode : Mode) :
    (c.withOptions o).withMode mode = (c.withMode mode).withOptions o :=
  rfl

theorem Context.enter_withOptions (c : Context) (tag : String) :
    (c.withOptions o).enter tag = (c.enter tag).withOptions o :=
  rfl

mutual

theorem renderNode_withOptions (c : Context) :
    (n : Node) → n.holdsMarkup = false → renderNode (c.withOptions o) n = renderNode c n
  | ⟨kind, ⟨entries⟩, children, hook⟩, h => by
    simp only [Node.holdsMarkup, Bool.or_eq_false_iff, decide_eq_false_iff_not] at h
    obtain ⟨⟨hk, he⟩, hc⟩ := h
    cases kind with
    | object =>
      simp only [renderNode, Context.scope_withOptions]
      rw [renderFields_withOptions _ entries he]
      rfl
    | array =>
      simp only [renderNode, Context.scope_withOptions]
      rw [renderItems_withOptions _ hook children hc]
      rfl
    | text =>
      simp only [renderNode, Context.scope_withOptions, Context.withMode_withOptions]
      rw [renderText_withOptions _ children hc]
      rfl
    | markup => exact absurd rfl hk
    | escaped =>
      simp only [renderNode, Context.scope_withOptions]
      rw [renderText_withOptions _ children hc]
      rfl
    | tag name =>
      simp only [renderNode, Context.scope_withOptions, Context.enter_withOptions]
      rw [renderText_withOptions _ children hc]
      rfl

theorem renderFields_withOptions (c : Context) : (es : List (String × AttrValue)) →
    entriesHoldMarkup es = false → renderFields (c.withOptions o) es = renderFields c es
  | [], _ => by simp only [renderFields]
  | (name, v) :: es, h => by
    simp only [entriesHoldMarkup, Bool.or_eq_false_iff] at h
    simp only [renderFields, renderField]
    rw [renderValue_withOptions c v h.1, renderFields_withOptions c es h.2]

theorem renderValue_withOptions (c : Context) : (v : AttrValue) →
    v.holdsMarkup = false → renderValue (c.withOptions o) v = renderValue c v
  | .absent, _ => by simp only [renderValue]
  | .json _, _ => by simp only [renderValue]
  | .node n, h => by
    simp only [AttrValue.holdsMarkup] at h
    simp only [renderValue]
    rw [renderNode_withOptions c n h]
  | .list items, h => by
    simp only [AttrValue.holdsMarkup] at h
    simp only [renderValue]
    rw [renderValues_withOptions c items h]

theorem renderValues_withOptions (c : Context) : (vs : List AttrValue) →
    valuesHoldMarkup vs = false → renderValues (c.withOptions o) vs = renderValues c vs
  | [], _ => by simp only [renderValues]
  | v :: vs, h => by
    simp only [valuesHoldMarkup, Bool.or_eq_false_iff] at h
    simp only [renderValues]
    rw [renderValue_withOptions c v h.1, renderValues_withOptions c vs h.2]

theorem renderItems_withOptions (c : Context) (hook : Option Check) : (ds : List Child) →
    childrenHoldMarkup ds = false →
      renderItems (c.withOptions o) hook ds = renderItems c hook ds
  | [], _ => by simp only [renderItems]
  | .node n :: ds, h => by
    simp only [childrenHoldMarkup, Bool.or_eq_false_iff] at h
    simp only [renderItems, renderItem]
    rw [renderNode_withOptions c n h.1, renderItems_withOptions c hook ds h.2]
  | .text s :: ds, h => by
    simp only [childrenHoldMarkup] at h
    simp only [renderItems, renderItem]
    rw [renderItems_withOptions c hook ds h]
    rfl

theorem renderText_withOptions (c : Context) : (ds : List Child) →
    childrenHoldMarkup ds = false → renderText (c.withOptions o) ds = renderText c ds
  | [], _ => by simp only [renderText]
  | .node n :: ds, h => by
    simp only [childrenHoldMarkup, Bool.or_eq_false_iff] at h
    simp only [renderText, renderChild]
    rw [renderNode_withOptions c n h.1, renderText_withOptions c ds h.2]
  | .text s :: ds, h => by
    simp only [childrenHoldMarkup] at h
    simp only [renderText, renderChild]
    rw [renderText_withOptions c ds h]
    rfl

end

end

end Render

end MessageLayout
