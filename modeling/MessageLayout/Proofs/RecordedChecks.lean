import Mathlib.Data.List.Forall2
import MessageLayout.Block.Validation
import MessageLayout.Render.Traversal

/-!
# Recorded checks

Rendering records the check of a node when the node is finished. So the recorded checks are those of
the visited nodes, each node behind the nodes below it: an object visits the nodes in its attributes
and no child, every other node visits its children and no attribute, and a line break in a plain text
visits nothing. A node is visited in the context that the nodes around it give it, whatever stands
before it, and what is recorded with its check is what the node renders to in this context.

    renderNode c n = .ok r → List.Forall₂ (Records c) (the checked of n.visits c []) r.deferred
                                                                        (renderNode_records_checks)
-/

namespace MessageLayout

open Render

/-- A node of a tree with the nodes around it, nearest first. -/
structure Visit where
  /-- The node. -/
  node : Node
  /-- The nodes around it. -/
  around : List Node

/-- Whether the node carries a check. -/
def Visit.isChecked (v : Visit) : Bool :=
  v.node.hook.isSome

/-- The mode that a node sets for what it holds. -/
def Node.mode? (n : Node) : Option Mode :=
  match n.kind with
  | .text => some .plainText
  | .markup => some .html
  | _ => none

/-- The surface of a container. -/
def Node.surface? (n : Node) : Option Surface :=
  match n.hook with
  | some (.container surface) => some surface
  | _ => none

/-- The context within nodes, nearest first: behind the names of the inline elements among them, in
the mode of the nearest text, on the surface of the nearest container. -/
def Render.Context.inside (c : Context) (around : List Node) : Context where
  ancestry := ⟨around.filterMap Node.tagName? ++ c.ancestry.tags⟩
  mode := (around.findSome? Node.mode?).getD c.mode
  surface := (around.findSome? Node.surface?).getD c.surface
  options := c.options

mutual

/-- The nodes that are rendered with a node, in the order in which they are finished. -/
def Node.visits (c : Context) (around : List Node) : Node → List Visit
  | ⟨kind, ⟨entries⟩, children, hook⟩ =>
    let n : Node := ⟨kind, ⟨entries⟩, children, hook⟩
    let below := match kind with
      | .object => entryVisits c (n :: around) entries
      | .tag name =>
        if name = "br" ∧ (c.inside around).mode = .plainText then []
        else childVisits c (n :: around) children
      | _ => childVisits c (n :: around) children
    below ++ [⟨n, around⟩]

/-- The nodes that are rendered with an attribute value. -/
def AttrValue.visits (c : Context) (around : List Node) : AttrValue → List Visit
  | .absent => []
  | .json _ => []
  | .node n => n.visits c around
  | .list items => valueVisits c around items

/-- The nodes that are rendered with a list of values. -/
def valueVisits (c : Context) (around : List Node) : List AttrValue → List Visit
  | [] => []
  | v :: vs => v.visits c around ++ valueVisits c around vs

/-- The nodes that are rendered with attributes. -/
def entryVisits (c : Context) (around : List Node) : List (String × AttrValue) → List Visit
  | [] => []
  | (_, v) :: es => v.visits c around ++ entryVisits c around es

/-- The nodes that are rendered with children. -/
def childVisits (c : Context) (around : List Node) : List Child → List Visit
  | [] => []
  | .node n :: ds => n.visits c around ++ childVisits c around ds
  | .text _ :: ds => childVisits c around ds

end

namespace Render

/-- The recorded check is that of the visited node: with the surface of the nearest container at or
above the node, and with what the node alone renders to in the context of the nodes around it. -/
structure Records (c : Context) (v : Visit) (d : Deferred) : Prop where
  check : v.node.hook = some d.check
  surface : d.surface = (c.inside (v.node :: v.around)).surface
  output : ∃ r, renderNode (c.inside v.around) v.node = .ok r ∧ d.output = r.output.toJson

/-- The checks of the visited nodes are recorded one by one in their order. -/
def Recorded (c : Context) (vs : List Visit) (ds : List Deferred) : Prop :=
  List.Forall₂ (Records c) (vs.filter Visit.isChecked) ds

theorem Recorded.nil {c : Context} : Recorded c [] [] :=
  List.Forall₂.nil

theorem Recorded.append {c : Context} {vs ws : List Visit} {ds es : List Deferred}
    (h : Recorded c vs ds) (h' : Recorded c ws es) : Recorded c (vs ++ ws) (ds ++ es) := by
  unfold Recorded
  rw [List.filter_append]
  exact List.rel_append h h'

/-! ## Contexts -/

/-- The context that a node gives to what it holds, from that of the node. -/
def Context.below (c : Context) (n : Node) : Context :=
  let c := c.scope n.hook
  match n.kind with
  | .text => c.withMode .plainText
  | .markup => c.withMode .html
  | .tag name => c.enter name
  | _ => c

theorem Context.inside_cons (c : Context) (n : Node) (around : List Node) :
    c.inside (n :: around) = (c.inside around).below n := by
  obtain ⟨kind, attributes, children, hook⟩ := n
  rcases kind with _ | _ | _ | _ | _ | name <;> rcases hook with _ | ⟨surface⟩ | _ <;> rfl

@[simp] theorem Context.mode_scope (c : Context) (hook : Option Check) :
    (c.scope hook).mode = c.mode := by
  rcases hook with _ | ⟨surface⟩ | _ <;> rfl

@[simp] theorem Context.ancestry_scope (c : Context) (hook : Option Check) :
    (c.scope hook).ancestry = c.ancestry := by
  rcases hook with _ | ⟨surface⟩ | _ <;> rfl

/-! ## Results -/

theorem bind_eq_ok_iff {α β : Type} {x : Except RenderError α} {f : α → Except RenderError β}
    {b : β} : x >>= f = .ok b ↔ ∃ a, x = .ok a ∧ f a = .ok b := by
  cases x <;> simp [bind, Except.bind]

/-- A rendering whose checks hold gives its result. -/
theorem exists_of_checked {α : Type} {x : RenderM α} {a : α} (h : x.checked = .ok a) :
    ∃ r, x = .ok r ∧ runChecks r.deferred = .ok () ∧ r.output = a := by
  obtain ⟨r, hr, h⟩ := bind_eq_ok_iff.mp h
  obtain ⟨_, hchecks, h⟩ := bind_eq_ok_iff.mp h
  exact ⟨r, hr, hchecks, Except.ok.inj h⟩

theorem ofExcept_eq_ok {α : Type} {x : Except RenderError α} {r : Rendered α}
    (h : RenderM.ofExcept x = .ok r) : x = .ok r.output ∧ r.deferred = [] := by
  cases x with
  | error e => cases h
  | ok a =>
    obtain rfl := Except.ok.inj h
    exact ⟨rfl, rfl⟩

/-! ## One node -/

/-- A node that is finished has its check recorded behind those of the nodes below it. -/
theorem finish_eq_ok {α : Type} {x : RenderM α} {f : α → Output} {hook : Option Check}
    {surface : Surface} {r : Rendered Output}
    (h : (do let a ← x; recordCheck hook (f a) surface; pure (f a)) = .ok r) :
    ∃ b, x = .ok b ∧ r.output = f b.output ∧
      r.deferred = b.deferred ++ hook.toList.map fun check => ⟨check, r.output.toJson, surface⟩ := by
  obtain ⟨b, d, hb, hd, rfl⟩ := RenderM.bind_eq_ok h
  cases hook with
  | none =>
    obtain rfl := Except.ok.inj hd
    exact ⟨b, hb, rfl, rfl⟩
  | some check =>
    obtain rfl := Except.ok.inj hd
    exact ⟨b, hb, rfl, rfl⟩

/-- A result that is only wrapped records nothing more. -/
theorem map_eq_ok {α β : Type} {x : RenderM α} {f : α → β} {r : Rendered β}
    (h : (do let a ← x; pure (f a)) = .ok r) :
    ∃ b, x = .ok b ∧ r.output = f b.output ∧ r.deferred = b.deferred := by
  obtain ⟨b, d, hb, hd, rfl⟩ := RenderM.bind_eq_ok h
  obtain rfl := Except.ok.inj hd
  exact ⟨b, hb, rfl, List.append_nil _⟩

/-- In a fragment an inline element is written around what its children are written to. -/
theorem renderNode_tag_eq_ok {c : Context} (hc : c.mode = .html) {name : String}
    {entries : List (String × AttrValue)} {children : List Child} {hook : Option Check}
    {r : Rendered Output} (h : renderNode c ⟨.tag name, ⟨entries⟩, children, hook⟩ = .ok r) :
    ∃ content html, renderText ((c.scope hook).enter name) children = .ok content ∧
      Markup.renderTag name ⟨entries⟩ content.output c.ancestry = .ok html ∧
      r.output = .text html ∧
      r.deferred = content.deferred
        ++ hook.toList.map fun check => ⟨check, r.output.toJson, (c.scope hook).surface⟩ := by
  simp only [renderNode, Context.mode_scope, Context.ancestry_scope, hc, pure_bind] at h
  rw [← bind_assoc] at h
  obtain ⟨b, hb, ho, hr⟩ := finish_eq_ok h
  obtain ⟨content, html, hcontent, hwritten, rfl⟩ := RenderM.bind_eq_ok hb
  obtain ⟨hhtml, hnone⟩ := ofExcept_eq_ok hwritten
  rw [hnone, List.append_nil] at hr
  exact ⟨content, html.output, hcontent, hhtml, ho, hr⟩

theorem deferred_refuseTag {hook : Option Check} {tag? : Option String} {r : Rendered Unit}
    (h : refuseTag hook tag? = .ok r) : r.deferred = [] := by
  unfold refuseTag at h
  split at h
  · cases h
  · obtain rfl := Except.ok.inj h
    rfl

theorem visits_of_isAbsent {v : AttrValue} (h : v.isAbsent = true) (c : Context)
    (around : List Node) : v.visits c around = [] := by
  cases v <;> first | rfl | cases h

@[simp] theorem Context.surface_below (c : Context) (n : Node) :
    (c.below n).surface = (c.scope n.hook).surface := by
  obtain ⟨kind, attributes, children, hook⟩ := n
  cases kind <;> rfl

variable {c : Context} {around : List Node}

/-- If the checks below a node are recorded, so are those up to the node. -/
theorem Recorded.finish {n : Node} {below : List Visit} {r : Rendered Output} {ds : List Deferred}
    (hbelow : Recorded c below ds) (hn : renderNode (c.inside around) n = .ok r)
    (hr : r.deferred = ds ++ n.hook.toList.map fun check =>
      ⟨check, r.output.toJson, ((c.inside around).scope n.hook).surface⟩) :
    Recorded c (below ++ [⟨n, around⟩]) r.deferred := by
  rw [hr]
  refine hbelow.append ?_
  cases hh : n.hook with
  | none => simp [Recorded, Visit.isChecked, hh]
  | some check =>
    have hchecked : [⟨n, around⟩].filter Visit.isChecked = [⟨n, around⟩] := by
      simp [Visit.isChecked, hh]
    unfold Recorded
    rw [hchecked]
    refine .cons ⟨hh, ?_, r, hn, rfl⟩ .nil
    rw [c.inside_cons, Context.surface_below, hh]

/-! ## Whole trees -/

mutual

theorem recorded_renderNode : (n : Node) → {around : List Node} → {r : Rendered Output} →
    renderNode (c.inside around) n = .ok r → Recorded c (n.visits c around) r.deferred
  | ⟨kind, ⟨entries⟩, children, hook⟩, around, r, h => by
    have hn := h
    have hc := (c.inside_cons ⟨kind, ⟨entries⟩, children, hook⟩ around).symm
    cases kind with
    | object =>
      simp only [renderNode, pure_bind] at h
      obtain ⟨b, hb, -, hr⟩ := finish_eq_ok h
      exact (recorded_renderFields entries hc hb).finish hn hr
    | array =>
      simp only [renderNode, pure_bind] at h
      obtain ⟨b, hb, -, hr⟩ := finish_eq_ok h
      exact (recorded_renderItems children hc hb).finish hn hr
    | text | markup | escaped =>
      simp only [renderNode, pure_bind] at h
      obtain ⟨b, hb, -, hr⟩ := finish_eq_ok h
      exact (recorded_renderText children hc hb).finish hn hr
    | tag name =>
      simp only [Node.visits]
      cases hmode : (c.inside around).mode with
      | normal =>
        simp only [renderNode, Context.mode_scope, hmode] at h
        cases h
      | plainText =>
        simp only [renderNode, Context.mode_scope, hmode] at h
        split at h
        next hbr =>
          rw [if_pos ⟨hbr, rfl⟩]
          obtain ⟨b, hb, -, hr⟩ := finish_eq_ok h
          obtain rfl := Except.ok.inj hb
          exact Recorded.nil.finish hn hr
        next hbr =>
          rw [if_neg fun hand => hbr hand.1]
          simp only [pure_bind] at h
          obtain ⟨b, hb, -, hr⟩ := finish_eq_ok h
          exact (recorded_renderText children hc hb).finish hn hr
      | html =>
        rw [if_neg fun hand => by cases hand.2]
        obtain ⟨content, -, hcontent, -, -, hr⟩ := renderNode_tag_eq_ok hmode h
        exact (recorded_renderText children hc hcontent).finish hn hr

theorem recorded_renderFields : (es : List (String × AttrValue)) → {around : List Node} →
    {c' : Context} → {r : Rendered (List (String × Json))} → c' = c.inside around →
      renderFields c' es = .ok r → Recorded c (entryVisits c around es) r.deferred
  | [], _, _, _, rfl, h => by
    simp only [renderFields] at h
    obtain rfl := Except.ok.inj h
    exact .nil
  | (name, v) :: es, _, _, _, rfl, h => by
    simp only [renderFields, renderField] at h
    obtain ⟨field, rest, hfield, hrest, rfl⟩ := RenderM.bind_eq_ok h
    obtain ⟨fields, hfields, -, hd⟩ := map_eq_ok hrest
    rw [hd]
    refine .append ?_ (recorded_renderFields es rfl hfields)
    cases hv : v.isAbsent with
    | true =>
      rw [hv, if_pos rfl] at hfield
      obtain rfl := Except.ok.inj hfield
      rw [visits_of_isAbsent hv]
      exact .nil
    | false =>
      rw [hv, if_neg Bool.false_ne_true] at hfield
      obtain ⟨value, hvalue, -, hd⟩ := map_eq_ok hfield
      rw [hd]
      exact recorded_renderValue v rfl hvalue

theorem recorded_renderValue : (v : AttrValue) → {around : List Node} → {c' : Context} →
    {r : Rendered Json} → c' = c.inside around →
      renderValue c' v = .ok r → Recorded c (v.visits c around) r.deferred
  | .absent, _, _, _, rfl, h => by
    simp only [renderValue] at h
    obtain rfl := Except.ok.inj h
    exact .nil
  | .json _, _, _, _, rfl, h => by
    simp only [renderValue] at h
    obtain rfl := Except.ok.inj h
    exact .nil
  | .node n, _, _, _, rfl, h => by
    simp only [renderValue] at h
    obtain ⟨output, houtput, -, hd⟩ := map_eq_ok h
    rw [hd]
    exact recorded_renderNode n houtput
  | .list items, _, _, _, rfl, h => by
    simp only [renderValue] at h
    obtain ⟨values, hvalues, -, hd⟩ := map_eq_ok h
    rw [hd]
    exact recorded_renderValues items rfl hvalues

theorem recorded_renderValues : (vs : List AttrValue) → {around : List Node} → {c' : Context} →
    {r : Rendered (List Json)} → c' = c.inside around →
      renderValues c' vs = .ok r → Recorded c (valueVisits c around vs) r.deferred
  | [], _, _, _, rfl, h => by
    simp only [renderValues] at h
    obtain rfl := Except.ok.inj h
    exact .nil
  | v :: vs, _, _, _, rfl, h => by
    simp only [renderValues] at h
    cases hv : v.isAbsent with
    | true =>
      rw [hv, if_pos rfl] at h
      have hvs := recorded_renderValues vs rfl h
      rwa [valueVisits, visits_of_isAbsent hv]
    | false =>
      rw [hv, if_neg Bool.false_ne_true] at h
      obtain ⟨value, rest, hvalue, hrest, rfl⟩ := RenderM.bind_eq_ok h
      obtain ⟨values, hvalues, -, hd⟩ := map_eq_ok hrest
      rw [hd]
      exact (recorded_renderValue v rfl hvalue).append (recorded_renderValues vs rfl hvalues)

theorem recorded_renderItems : (ds : List Child) → {around : List Node} →
    {c' : Context} → {hook : Option Check} → {r : Rendered (List Json)} → c' = c.inside around →
      renderItems c' hook ds = .ok r → Recorded c (childVisits c around ds) r.deferred
  | [], _, _, _, _, rfl, h => by
    simp only [renderItems] at h
    obtain rfl := Except.ok.inj h
    exact .nil
  | .node n :: ds, _, _, hook, _, rfl, h => by
    simp only [renderItems, renderItem] at h
    obtain ⟨item, rest, hitem, hrest, rfl⟩ := RenderM.bind_eq_ok h
    obtain ⟨items, hitems, -, hd⟩ := map_eq_ok hrest
    obtain ⟨refusal, output, hrefusal, houtput, rfl⟩ := RenderM.bind_eq_ok hitem
    rw [hd, deferred_refuseTag hrefusal, List.nil_append]
    exact (recorded_renderNode n houtput).append (recorded_renderItems ds rfl hitems)
  | .text s :: ds, _, _, hook, _, rfl, h => by
    simp only [renderItems, renderItem, pure_bind] at h
    obtain ⟨items, hitems, -, hd⟩ := map_eq_ok h
    rw [hd]
    exact recorded_renderItems ds rfl hitems

theorem recorded_renderText : (ds : List Child) → {around : List Node} →
    {c' : Context} → {r : Rendered (List Char)} → c' = c.inside around →
      renderText c' ds = .ok r → Recorded c (childVisits c around ds) r.deferred
  | [], _, _, _, rfl, h => by
    simp only [renderText] at h
    obtain rfl := Except.ok.inj h
    exact .nil
  | .node n :: ds, _, _, _, rfl, h => by
    simp only [renderText, renderChild] at h
    obtain ⟨output, rest, houtput, hrest, rfl⟩ := RenderM.bind_eq_ok h
    obtain ⟨text, htext, -, hd⟩ := map_eq_ok hrest
    rw [hd]
    exact (recorded_renderNode n houtput).append (recorded_renderText ds rfl htext)
  | .text s :: ds, _, _, _, rfl, h => by
    simp only [renderText, renderChild, pure_bind] at h
    obtain ⟨text, htext, -, hd⟩ := map_eq_ok h
    rw [hd]
    exact recorded_renderText ds rfl htext

end

/-- The recorded checks of a rendering are those of the visited nodes, in the order in which these are
finished; each holds what its node renders to by itself in the context of the nodes around it. -/
theorem renderNode_records_checks {n : Node} {r : Rendered Output} (h : renderNode c n = .ok r) :
    List.Forall₂ (Records c) ((n.visits c []).filter Visit.isChecked) r.deferred :=
  recorded_renderNode n h

/-- A context block within a container of a modal view: the container is checked last, and what stands
below the line break and below the object itself is not visited. -/
theorem renderNode_records_checks_nested :
    let lost : Child := .node ⟨.array, ⟨[]⟩, [], some (.container .home)⟩
    let label : Node := ⟨.text, ⟨[]⟩, [.text "a", .node ⟨.tag "br", ⟨[]⟩, [lost], none⟩], none⟩
    let context : Node :=
      ⟨.object, ⟨[("elements", .list [.absent, .node label])]⟩, [], some .contextElements⟩
    let blocks : Node := ⟨.array, ⟨[]⟩, [.node context], some (.container .modal)⟩
    let view : Node := ⟨.object, ⟨[("blocks", .node blocks)]⟩, [lost], none⟩
    let element : Json := .obj ⟨[("elements", .arr [.str "a\n"])]⟩
    let r : Rendered Output := ⟨.json (.obj ⟨[("blocks", .arr [element])]⟩),
      [⟨.contextElements, element, .modal⟩, ⟨.container .modal, .arr [element], .modal⟩]⟩
    renderNode {} view = .ok r ∧
      (view.visits {} []).filter Visit.isChecked = [⟨context, [blocks, view]⟩, ⟨blocks, [view]⟩] ∧
      List.Forall₂ (Records {}) [⟨context, [blocks, view]⟩, ⟨blocks, [view]⟩] r.deferred := by
  intro lost label context blocks view element r
  have h : renderNode {} view = .ok r := rfl
  have hvisits : (view.visits {} []).filter Visit.isChecked
      = [⟨context, [blocks, view]⟩, ⟨blocks, [view]⟩] := by cbv
  have hrecords := renderNode_records_checks h
  rw [hvisits] at hrecords
  exact ⟨h, hvisits, hrecords⟩

end Render

end MessageLayout
